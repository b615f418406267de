import Goish.Encoding.Json.Impl.Value
import Goish.Strconv.Impl.Atof
import Goish.Unicode.Utf8.Impl.Utf8

/-! The parser of `encoding::json`. Its place in the text is what is left of the text. -/

open Utf8 Strconv

namespace Json

inductive Error where
  | invalidCharacter (c : UInt8) (context : String)
  | unexpectedEnd
  | literal (c : UInt8) (lit : List UInt8) (expecting : UInt8)
  deriving DecidableEq

def maxNestingDepth : Nat := 2000

def isWs (b : UInt8) : Bool :=
  b = 0x20 || b = 0x09 || b = 0x0A || b = 0x0D

def skipWs (data : List UInt8) : List UInt8 :=
  data.dropWhile isWs

def hereErr (data : List UInt8) (context : String) : Error :=
  .invalidCharacter (data.headD 0x20) context

def byteErr (data : List UInt8) (context : String) : Error :=
  match data with
  | b :: _ => .invalidCharacter b context
  | [] => .unexpectedEnd

def nullLit : List UInt8 := [0x6E, 0x75, 0x6C, 0x6C]

def trueLit : List UInt8 := [0x74, 0x72, 0x75, 0x65]

def falseLit : List UInt8 := [0x66, 0x61, 0x6C, 0x73, 0x65]

def literalMatch (lit data : List UInt8) : Option (List UInt8) :=
  if lit <+: data then some (data.drop lit.length) else none

def literalErr (lit data : List UInt8) : Error :=
  go lit data
where
  go : List UInt8 → List UInt8 → Error
    | [], _ => .unexpectedEnd
    | l :: _, [] => .literal 0x20 lit l
    | l :: ls, b :: data => if b = l then go ls data else .literal b lit l

def parseNull (data : List UInt8) : Except Error (Value × List UInt8) :=
  match literalMatch nullLit data with
  | some data => .ok (.null, data)
  | none => .error (literalErr nullLit data)

def parseBool (data : List UInt8) : Except Error (Value × List UInt8) :=
  match literalMatch trueLit data with
  | some data => .ok (.bool true, data)
  | none =>
    match literalMatch falseLit data with
    | some data => .ok (.bool false, data)
    | none => .error (literalErr (if data.head? = some 0x66 then falseLit else trueLit) data)

def startsWithDigit (data : List UInt8) : Bool :=
  data.head?.any isDigit

def wholePart (data : List UInt8) : Except Error (List UInt8) :=
  if data.head? = some 0x30 then
    .ok (data.drop 1)
  else if startsWithDigit data then
    .ok (data.dropWhile isDigit)
  else
    .error (hereErr data "in numeric literal")

def fractionPart (data : List UInt8) : Except Error (List UInt8) :=
  if data.head? = some 0x2E then
    let data := data.drop 1
    if !startsWithDigit data then
      .error (hereErr data "after decimal point in numeric literal")
    else
      .ok (data.dropWhile isDigit)
  else
    .ok data

def exponentPart (data : List UInt8) : Except Error (List UInt8) :=
  if data.head? = some 0x65 ∨ data.head? = some 0x45 then
    let data := data.drop 1
    let data := if data.head? = some 0x2B ∨ data.head? = some 0x2D then data.drop 1 else data
    if !startsWithDigit data then
      .error (hereErr data "in exponent of numeric literal")
    else
      .ok (data.dropWhile isDigit)
  else
    .ok data

def parseNumber (data : List UInt8) : Except Error (Value × List UInt8) := do
  let rest := if data.head? = some 0x2D then data.drop 1 else data
  let rest ← wholePart rest
  let rest ← fractionPart rest
  let rest ← exponentPart rest
  let lit := data.take (data.length - rest.length)
  match parseFloat lit with
  | (n, none) => .ok (.number n, rest)
  | (_, some _) => .error (hereErr rest "in numeric literal")

def hexVal (c : UInt8) : Option Nat :=
  if 0x30 ≤ c.toNat ∧ c.toNat ≤ 0x39 then
    some (c.toNat - 0x30)
  else if 0x61 ≤ c.toNat ∧ c.toNat ≤ 0x66 then
    some (c.toNat - 0x61 + 10)
  else if 0x41 ≤ c.toNat ∧ c.toNat ≤ 0x46 then
    some (c.toNat - 0x41 + 10)
  else
    none

def parseHex4 : List UInt8 → Option (Nat × List UInt8)
  | a :: b :: c :: d :: data => do
    let a ← hexVal a
    let b ← hexVal b
    let c ← hexVal c
    let d ← hexVal d
    return (((a * 16 + b) * 16 + c) * 16 + d, data)
  | _ => none

def unescape (esc : UInt8) : Option UInt8 :=
  if esc = 0x22 then
    some 0x22
  else if esc = 0x5C then
    some 0x5C
  else if esc = 0x2F then
    some 0x2F
  else if esc = 0x6E then
    some 0x0A
  else if esc = 0x72 then
    some 0x0D
  else if esc = 0x74 then
    some 0x09
  else if esc = 0x62 then
    some 0x08
  else if esc = 0x66 then
    some 0x0C
  else
    none

def isHigh (cp : Nat) : Bool :=
  0xD800 ≤ cp && cp ≤ 0xDBFF

def isLow (cp : Nat) : Bool :=
  0xDC00 ≤ cp && cp ≤ 0xDFFF

def combine (cp lo : Nat) : Nat :=
  0x10000 + (cp - 0xD800) * 2 ^ 10 + (lo - 0xDC00)

def parseLow (data : List UInt8) : Option (Nat × List UInt8) := do
  if data.take 2 ≠ [0x5C, 0x75] then
    none
  let (lo, data) ← parseHex4 (data.drop 2)
  if isLow lo then some (lo, data) else none

def unicodeEscape (cp : Nat) (data : List UInt8) : List UInt8 × List UInt8 :=
  if isHigh cp then
    match parseLow data with
    | some (lo, data) => (encodeRune (combine cp lo), data)
    | none => (encodeRune 0xFFFD, data)
  else if isLow cp then
    (encodeRune 0xFFFD, data)
  else
    (encodeRune cp, data)

def stringBytes : Nat → List UInt8 → List UInt8 → Except Error (List UInt8 × List UInt8)
  | 0, _, _ => .error .unexpectedEnd
  | _ + 1, _, [] => .error .unexpectedEnd
  | fuel + 1, out, c :: data =>
    if c = 0x22 then
      .ok (out, data)
    else if c = 0x5C then
      match data with
      | [] => .error .unexpectedEnd
      | esc :: data =>
        match unescape esc with
        | some b => stringBytes fuel (out ++ [b]) data
        | none =>
          if esc = 0x75 then
            match parseHex4 data with
            | none => .error (hereErr data "in \\u hexadecimal character escape")
            | some (cp, data) =>
              let (bytes, data) := unicodeEscape cp data
              stringBytes fuel (out ++ bytes) data
          else
            .error (.invalidCharacter esc "in string escape code")
    else
      stringBytes fuel (out ++ [c]) data

def parseStringBytes (data : List UInt8) : Except Error (List UInt8 × List UInt8) :=
  if data.head? = some 0x22 then
    stringBytes data.length [] (data.drop 1)
  else
    .error (byteErr data "looking for beginning of object key string")

def parseStringValue (data : List UInt8) : Except Error (Value × List UInt8) := do
  let (s, data) ← parseStringBytes data
  .ok (.string s, data)

def expectCtx (c : UInt8) (context : String) (data : List UInt8) : Except Error (List UInt8) :=
  if data.head? = some c then .ok (data.drop 1) else .error (byteErr data context)

def readObjectKey (data : List UInt8) : Except Error (List UInt8 × List UInt8) := do
  let (key, data) ← parseStringBytes (skipWs data)
  let data ← expectCtx 0x3A "after object key" (skipWs data)
  .ok (key, skipWs data)

inductive Frame where
  | arr (items : List Value)
  | obj (m : List (List UInt8 × Value)) (key : List UInt8)

inductive Round where
  | done (v : Value)
  | next (frame : Frame)

def beginValue (depth : Nat) (data : List UInt8) : Except Error (Round × List UInt8) :=
  match data with
  | [] => .error .unexpectedEnd
  | b :: rest =>
    if b = 0x5B ∨ b = 0x7B then
      if depth ≥ maxNestingDepth then
        .error (.invalidCharacter b "exceeded max depth")
      else
        let rest := skipWs rest
        if b = 0x5B then
          if rest.head? = some 0x5D then
            .ok (.done (.array []), rest.drop 1)
          else
            .ok (.next (.arr []), rest)
        else if rest.head? = some 0x7D then
          .ok (.done (.object []), rest.drop 1)
        else do
          let (k, rest) ← readObjectKey rest
          .ok (.next (.obj [] k), rest)
    else if b = 0x22 then do
      let (v, rest) ← parseStringValue data
      .ok (.done v, rest)
    else if b = 0x74 ∨ b = 0x66 then do
      let (v, rest) ← parseBool data
      .ok (.done v, rest)
    else if b = 0x6E then do
      let (v, rest) ← parseNull data
      .ok (.done v, rest)
    else if b = 0x2D ∨ isDigit b then do
      let (v, rest) ← parseNumber data
      .ok (.done v, rest)
    else
      .error (.invalidCharacter b "looking for beginning of value")

def attach (frame : Frame) (done : Value) (data : List UInt8) : Except Error (Round × List UInt8) :=
  match frame with
  | .arr items =>
    let items := items ++ [done]
    match data with
    | [] => .error .unexpectedEnd
    | b :: rest =>
      if b = 0x2C then
        .ok (.next (.arr items), skipWs rest)
      else if b = 0x5D then
        .ok (.done (.array items), rest)
      else
        .error (.invalidCharacter b "after array element")
  | .obj m key =>
    let m := setEntry key done m
    match data with
    | [] => .error .unexpectedEnd
    | b :: rest =>
      if b = 0x2C then do
        let (k, rest) ← readObjectKey rest
        .ok (.next (.obj m k), rest)
      else if b = 0x7D then
        .ok (.done (.object m), rest)
      else
        .error (.invalidCharacter b "after object key:value pair")

-- The two loops of `parse_value`: `none` stands at the beginning of a value, `some done` behind one. Every round takes
-- a byte, but for the last.
def run : Nat → List Frame → Option Value → List UInt8 → Option (Except Error (Value × List UInt8))
  | 0, _, _, _ => none
  | fuel + 1, stack, none, data =>
    match beginValue stack.length (skipWs data) with
    | .error e => some (.error e)
    | .ok (.done v, data) => run fuel stack (some v) data
    | .ok (.next frame, data) => run fuel (frame :: stack) none data
  | _ + 1, [], some done, data => some (.ok (done, data))
  | fuel + 1, frame :: stack, some done, data =>
    match attach frame done (skipWs data) with
    | .error e => some (.error e)
    | .ok (.done v, data) => run fuel stack (some v) data
    | .ok (.next frame, data) => run fuel (frame :: stack) none data

def parseValue (data : List UInt8) : Option (Except Error (Value × List UInt8)) :=
  run (data.length + 2) [] none data

def parseToValue (data : List UInt8) : Option (Except Error Value) := do
  match ← parseValue (skipWs data) with
  | .error e => some (.error e)
  | .ok (v, data) =>
    match skipWs data with
    | [] => some (.ok v)
    | b :: _ => some (.error (.invalidCharacter b "after top-level value"))

def valid (data : List UInt8) : Option Bool := do
  match ← parseToValue data with
  | .error _ => some false
  | .ok _ => some true

end Json
