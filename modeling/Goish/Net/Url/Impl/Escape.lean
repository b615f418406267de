import Mathlib.Logic.Function.Basic

/-! The escapes and the queries of `net::url`. A map is a function, beside the keys in the order of its iteration. -/

namespace Url

abbrev Bytes := List UInt8

inductive Encoding where
  | path
  | pathSegment
  | host
  | zone
  | userPassword
  | queryComponent
  | fragment
  deriving DecidableEq

inductive Error where
  | escape (sub : Bytes)
  | invalidHost (sub : Bytes)
  | semicolon
  deriving DecidableEq

abbrev percent : UInt8 := 37

abbrev plus : UInt8 := 43

abbrev space : UInt8 := 32

abbrev amp : UInt8 := 38

abbrev semicolon : UInt8 := 59

abbrev equals : UInt8 := 61

def oneOf (chars : String) (c : UInt8) : Bool :=
  chars.toUTF8.data.contains c

def upperHex (i : UInt8) : UInt8 :=
  "0123456789ABCDEF".toUTF8.data.getD i.toNat 0

def isHex (c : UInt8) : Bool :=
  48 ≤ c && c ≤ 57 || 97 ≤ c && c ≤ 102 || 65 ≤ c && c ≤ 70

/-- Only called for the digits of `isHex`. -/
def unHex (c : UInt8) : UInt8 :=
  if c ≤ 57 then c - 48 else if 97 ≤ c then c - 97 + 10 else c - 65 + 10

def shouldEscape (c : UInt8) (mode : Encoding) : Bool :=
  if 48 ≤ c ∧ c ≤ 57 ∨ 65 ≤ c ∧ c ≤ 90 ∨ 97 ≤ c ∧ c ≤ 122 then
    false
  else if (mode = .host ∨ mode = .zone) ∧ oneOf "!$&'()*+,;=:[]<>\"" c then
    false
  else if oneOf "-_.~" c then
    false
  else if oneOf "$&+,/:;=?@" c then
    match mode with
    | .path => oneOf "?" c
    | .pathSegment => oneOf "/;,?" c
    | .userPassword => oneOf "@/?:" c
    | .fragment => false
    | .queryComponent | .host | .zone => true
  else
    !(mode = .fragment ∧ oneOf "!()*" c)

def unescape (s : Bytes) (mode : Encoding) : Except Error Bytes :=
  if percent ∉ s ∧ ¬(plus ∈ s ∧ mode = .queryComponent) then
    .ok s
  else
    match check s with
    | some e => .error e
    | none => .ok (build s)
where
  check : Bytes → Option Error
    | 37 :: h :: l :: s =>
      if !isHex h || !isHex l then
        some (.escape [37, h, l])
      else if mode = .host ∧ unHex h < 8 ∧ [h, l] ≠ [50, 53] then
        some (.escape [37, h, l])
      else if mode = .zone ∧ [h, l] ≠ [50, 53] ∧ unHex h <<< 4 ||| unHex l ≠ space
          ∧ shouldEscape (unHex h <<< 4 ||| unHex l) .host then
        some (.escape [37, h, l])
      else
        check s
    | 37 :: s => some (.escape (37 :: s))
    | 43 :: s => check s
    | c :: s =>
      if (mode = .host ∨ mode = .zone) ∧ c < 0x80 ∧ shouldEscape c mode then
        some (.invalidHost [c])
      else
        check s
    | [] => none
  build : Bytes → Bytes
    | 37 :: h :: l :: s => (unHex h <<< 4 ||| unHex l) :: build s
    | 43 :: s => (if mode = .queryComponent then space else plus) :: build s
    | c :: s => c :: build s
    | [] => []

def escapeByte (mode : Encoding) (c : UInt8) : Bytes :=
  if c = space ∧ mode = .queryComponent then
    [plus]
  else if shouldEscape c mode then
    [percent, upperHex (c >>> 4), upperHex (c &&& 0xf)]
  else
    [c]

def escape (s : Bytes) (mode : Encoding) : Bytes :=
  let spaceCount := s.countP (fun c => shouldEscape c mode && (c = space ∧ mode = .queryComponent))
  let hexCount := s.countP (fun c => shouldEscape c mode && !(c = space ∧ mode = .queryComponent))
  if spaceCount = 0 ∧ hexCount = 0 then
    s
  else if hexCount = 0 then
    s.map (fun c => if c = space ∧ mode = .queryComponent then plus else c)
  else
    s.flatMap (escapeByte mode)

def queryUnescape (s : Bytes) : Except Error Bytes := unescape s .queryComponent

def pathUnescape (s : Bytes) : Except Error Bytes := unescape s .pathSegment

def queryEscape (s : Bytes) : Bytes := escape s .queryComponent

def pathEscape (s : Bytes) : Bytes := escape s .pathSegment

def cut (s : Bytes) (sep : UInt8) : Bytes × Bytes × Bool :=
  match s.findIdx? (· == sep) with
  | none => (s, [], false)
  | some i => (s.take i, s.drop (i + 1), true)

abbrev Values := Bytes → Option (List Bytes)

def valuesAdd (v : Values) (key value : Bytes) : Values :=
  Function.update v key (some ((v key).getD [] ++ [value]))

def parseSetting (m : Values) (err : Option Error) (key : Bytes) : Values × Option Error :=
  if semicolon ∈ key then
    (m, err.or (some .semicolon))
  else if key = [] then
    (m, err)
  else
    let (key, value, _) := cut key equals
    match queryUnescape key, queryUnescape value with
    | .error e, _ => (m, err.or (some e))
    | .ok _, .error e => (m, err.or (some e))
    | .ok key, .ok value => (valuesAdd m key value, err)

def parseQuery (query : Bytes) : Values × Option Error :=
  go query (fun _ => none, none)
where
  go (query : Bytes) (st : Values × Option Error) : Values × Option Error :=
    if _h : query = [] then
      st
    else
      go (cut query amp).2.1 (parseSetting st.1 st.2 (cut query amp).1)
  termination_by query.length
  decreasing_by
    have := List.length_pos_iff.mpr _h
    unfold cut
    split
    . exact this
    . simp only [List.length_drop]
      omega

def valuesEncode (v : Values) (keys : List Bytes) : Bytes :=
  (keys.mergeSort.foldl (fun st key => ((v key).getD []).foldl (write key) st) ([], true)).1
where
  write (key : Bytes) (st : Bytes × Bool) (value : Bytes) : Bytes × Bool :=
    (st.1 ++ (if st.2 then [] else [amp]) ++ queryEscape key ++ [equals] ++ queryEscape value, false)

end Url
