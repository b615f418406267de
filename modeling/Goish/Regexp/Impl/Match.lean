import Goish.Unicode.Utf8.Impl.Utf8

/-! The matcher of `regexp` and its search drivers. The conversion `as i32` is the balanced remainder modulo `2^32`. -/

namespace Regexp

section Runes

variable (text : List UInt8)

def decodeRune (pos : Nat) : ℤ × Nat :=
  Utf8.decodeRune (text.drop pos)

def isWordRune (r : ℤ) : Bool :=
  (0x30 ≤ r && r ≤ 0x39) || (0x41 ≤ r && r ≤ 0x5A) || (0x61 ≤ r && r ≤ 0x7A) || r == 0x5F

def leading : Nat → Nat
  | 0 => 0
  | i + 1 => if text.getD (i + 1) 0 &&& 0xC0 = 0x80 then leading i else i + 1

def isWordBoundary (pos : Nat) : Bool :=
  let before := if pos = 0 then false else isWordRune (decodeRune text (leading text (pos - 1))).1
  let after := if pos ≥ text.length then false else isWordRune (decodeRune text pos).1
  before != after

def want (b : UInt8) : Nat :=
  if b.toNat < 0x80 then 1 else if b.toNat ≥ 0xF0 then 4 else if b.toNat ≥ 0xE0 then 3 else if b.toNat ≥ 0xC0 then 2 else 1

def runeWidth (pos : Nat) : Nat :=
  match text.drop pos with
  | [] => 0
  | b :: rest =>
    if rest.length + 1 < want b then
      1
    else if (rest.take (want b - 1)).any fun c => c &&& 0xC0 ≠ 0x80 then
      1
    else
      want b

end Runes

abbrev Capture := ℤ × ℤ

abbrev Caps := List Capture

@[irreducible]
def asI32 (n : Nat) : ℤ :=
  (n : ℤ).bmod (2 ^ 32)

def usizeMax : Nat := 2 ^ 64 - 1

inductive Leaf where
  | literal (r : ℤ)
  | anyCharNotNL
  | anyChar
  | class (negate : Bool) (ranges : List (ℤ × ℤ))
  | wordBoundary (want : Bool)
  | anchorStart
  | anchorEnd
  | beginLine
  | endLine

inductive Node where
  | leaf (l : Leaf)
  | group (idx : Nat) (inner : Node)
  | nonCap (inner : Node)
  | concat (items : List Node)
  | alt (branches : List Node)
  | repeats (node : Node) (min max : Nat) (hle : min ≤ max) (greedy : Bool)

inductive Item where
  | node (n : Node)
  | endGroup (idx : Nat)
  | repeatTail (node : Node) (min max lastPos : Nat) (greedy : Bool) (saved : Caps)

section Match

variable (text : List UInt8)

def rune (pos : Nat) (test : ℤ → Bool) : Option Nat :=
  if pos ≥ text.length then
    none
  else
    let (c, w) := decodeRune text pos
    if test c then some (pos + w) else none

def Leaf.step (pos : Nat) : Leaf → Option Nat
  | literal r => rune text pos (· = r)
  | anyCharNotNL => rune text pos (· ≠ 0x0A)
  | anyChar => rune text pos fun _ => true
  | «class» negate ranges => rune text pos fun c => (ranges.any fun (lo, hi) => c ≥ lo && c ≤ hi) ^^ negate
  | wordBoundary want => if isWordBoundary text pos = want then some pos else none
  | anchorStart => if pos = 0 then some pos else none
  | anchorEnd => if pos = text.length then some pos else none
  | beginLine => if pos = 0 ∨ text.getD (pos - 1) 0 = 0x0A then some pos else none
  | endLine => if pos = text.length ∨ text.getD pos 0 = 0x0A then some pos else none

abbrev Res := Option Nat × Caps

def orElse (r : Option Res) (next : Caps → Option Res) : Option Res :=
  match r with
  | none => none
  | some (some e, caps) => some (some e, caps)
  | some (none, caps) => next caps

def slot (caps : Caps) (idx : Nat) : Capture :=
  caps.getD idx (-1, -1)

def stopped (pos : Nat) : Option (Nat × Caps) → Option Caps
  | none => none
  | some (p, before) => if pos = p then some before else none

def nextMax (max : Nat) : Nat :=
  if max = usizeMax then usizeMax else max - 1

mutual
@[simp]
def matchCont : Nat → Nat → Caps → List Item → Option Res
  | 0, _, _, _ => none
  | _ + 1, pos, caps, [] => some (some pos, caps)
  | fuel + 1, pos, caps, .node n :: cont => tryMatch fuel n pos caps cont
  | fuel + 1, pos, caps, .endGroup idx :: cont =>
    let (lo, prevEnd) := slot caps idx
    orElse (matchCont fuel pos (caps.set idx (lo, asI32 pos)) cont) fun caps =>
      some (none, caps.set idx ((slot caps idx).1, prevEnd))
  | fuel + 1, pos, caps, .repeatTail node min max lastPos greedy saved :: cont =>
    matchRepeat fuel node min max greedy pos caps cont (some (lastPos, saved))
@[simp]
def tryMatch : Nat → Node → Nat → Caps → List Item → Option Res
  | 0, _, _, _, _ => none
  | fuel + 1, .leaf l, pos, caps, cont =>
    match l.step text pos with
    | none => some (none, caps)
    | some pos => matchCont fuel pos caps cont
  | fuel + 1, .concat [], pos, caps, cont => matchCont fuel pos caps cont
  | fuel + 1, .concat (n :: items), pos, caps, cont => tryMatch fuel n pos caps (items.map .node ++ cont)
  | fuel + 1, .alt branches, pos, caps, cont =>
    branches.foldr (fun b next => orElse (tryMatch fuel b pos caps cont) fun _ => next) (some (none, caps))
  | fuel + 1, .group idx inner, pos, caps, cont =>
    let prev := slot caps idx
    orElse (tryMatch fuel inner pos (caps.set idx (asI32 pos, -1)) (.endGroup idx :: cont)) fun caps =>
      some (none, caps.set idx prev)
  | fuel + 1, .nonCap inner, pos, caps, cont => tryMatch fuel inner pos caps cont
  | fuel + 1, .repeats node min max _ greedy, pos, caps, cont =>
    matchRepeat fuel node min max greedy pos caps cont none
@[simp]
def matchRepeat : Nat → Node → Nat → Nat → Bool → Nat → Caps → List Item → Option (Nat × Caps) → Option Res
  | 0, _, _, _, _, _, _, _, _ => none
  | fuel + 1, node, min, max, greedy, pos, caps, cont, prev =>
    match stopped pos prev with
    | some before => matchCont fuel pos before cont
    | none =>
      if max = 0 then
        matchCont fuel pos caps cont
      else
        let again := tryMatch fuel node pos caps (.repeatTail node (min - 1) (nextMax max) pos greedy caps :: cont)
        if min ≠ 0 then
          orElse again fun _ => some (none, caps)
        else if greedy then
          orElse again fun _ => matchCont fuel pos caps cont
        else
          orElse (matchCont fuel pos caps cont) fun _ => orElse again fun _ => some (none, caps)
end

end Match

mutual
@[simp]
def Node.fuel (n : Nat) : Node → Nat
  | .leaf _ => 1
  | .group _ inner => inner.fuel n + 2
  | .nonCap inner => inner.fuel n + 1
  | .concat items => seqFuel n items + 1
  | .alt branches => seqFuel n branches + 1
  | .repeats node .. => (n + 1) * (node.fuel n + 2) + 2
@[simp]
def seqFuel (n : Nat) : List Node → Nat
  | [] => 0
  | node :: nodes => node.fuel n + seqFuel n nodes + 1
end

end Regexp

structure Regexp where
  root : Regexp.Node
  nCaps : Nat
  pattern : List UInt8

namespace Regexp

variable (re : Regexp) (text : List UInt8)

def unset : Caps :=
  List.replicate (re.nCaps + 1) (-1, -1)

def matchAt (pos : Nat) : Option (Nat × Caps) :=
  match tryMatch text (re.root.fuel text.length + 1) re.root pos ((unset re).set 0 (asI32 pos, -1)) [] with
  | some (some e, caps) => some (e, caps.set 0 (asI32 pos, asI32 e))
  | _ => none

def findFrom.go : Nat → Nat → Option (Nat × Nat × Caps)
  | 0, _ => none
  | n + 1, start =>
    match matchAt re text start with
    | some (e, caps) => some (start, e, caps)
    | none => findFrom.go n (start + 1)

def findFrom (start : Nat) : Option (Nat × Nat × Caps) :=
  findFrom.go re text (text.length + 1 - start) start

def advance (pos hi : Nat) : Nat :=
  if hi = pos then if runeWidth text pos > 0 then pos + runeWidth text pos else text.length + 1 else hi

def allMatches.go (max : Nat) : Nat → Nat → Nat → ℤ → List (Nat × Nat × Caps)
  | 0, _, _, _ => []
  | fuel + 1, i, pos, prevMatchEnd =>
    if i < max ∧ pos ≤ text.length then
      match findFrom re text pos with
      | none => []
      | some (lo, hi, caps) =>
        if hi = pos ∧ lo = prevMatchEnd then
          allMatches.go max fuel i (advance text pos hi) hi
        else
          (lo, hi, caps) :: allMatches.go max fuel (i + 1) (advance text pos hi) hi
    else
      []

def allMatches (n : ℤ) : List (Nat × Nat × Caps) :=
  allMatches.go re text (if n < 0 then text.length + 1 else n.toNat) (text.length + 2) 0 0 (-1)

end Regexp
