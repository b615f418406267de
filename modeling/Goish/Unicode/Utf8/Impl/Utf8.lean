import Mathlib.Algebra.Group.Int.Defs
import Mathlib.Algebra.Group.Nat.Defs

/-! `unicode::utf8`. A `rune` is an `i32`: here an integer, and `touint32` is the remainder modulo `2^32`. -/

namespace Utf8

def runeError : ℤ := 0xFFFD

def runeSelf : Nat := 0x80

def maxRune : ℤ := 0x10FFFF

def surrogateMin : ℤ := 0xD800

def surrogateMax : ℤ := 0xDFFF

def rune1Max : ℤ := 2 ^ 7 - 1

def rune2Max : ℤ := 2 ^ 11 - 1

def rune3Max : ℤ := 2 ^ 16 - 1

def validRune (r : ℤ) : Bool :=
  r ≥ 0 && r ≤ maxRune && !(r ≥ surrogateMin && r ≤ surrogateMax)

def seqLen (b0 : UInt8) : Option Nat :=
  if b0 &&& 0xE0 = 0xC0 then
    some 2
  else if b0 &&& 0xF0 = 0xE0 then
    some 3
  else if b0 &&& 0xF8 = 0xF0 then
    some 4
  else
    none

def leadBits (n : Nat) (b0 : UInt8) : Nat :=
  if n = 2 then
    (b0 &&& 0x1F).toNat
  else if n = 3 then
    (b0 &&& 0x0F).toNat
  else
    (b0 &&& 0x07).toNat

def accumulate : Nat → List UInt8 → Option Nat
  | r, [] => some r
  | r, b :: p => if b &&& 0xC0 ≠ 0x80 then none else accumulate (r <<< 6 ||| (b &&& 0x3F).toNat) p

def minRune (n : Nat) : ℤ :=
  if n = 2 then 0x80 else if n = 3 then 0x800 else 0x10000

def decodeRune : List UInt8 → ℤ × Nat
  | [] => (runeError, 0)
  | b0 :: p =>
    if b0.toNat < runeSelf then
      (b0.toNat, 1)
    else
      match seqLen b0 with
      | none => (runeError, 1)
      | some n =>
        if p.length + 1 < n then
          (runeError, 1)
        else
          match accumulate (leadBits n b0) (p.take (n - 1)) with
          | none => (runeError, 1)
          | some r =>
            if r < minRune n ∨ r > maxRune ∨ (r ≥ surrogateMin ∧ r ≤ surrogateMax) then
              (runeError, 1)
            else
              (r, n)

def runeStart (b : UInt8) : Bool :=
  b &&& 0xC0 ≠ 0x80

def lastRune (p : List UInt8) (start : Nat) (i : Nat) : ℤ × Nat :=
  if runeStart (p.getD i 0) then
    let (r, sz) := decodeRune (p.drop i)
    if sz = p.length - i then (r, sz) else (runeError, 1)
  else
    match i with
    | 0 => (runeError, 1)
    | i + 1 => if i + 1 = start then (runeError, 1) else lastRune p start i

def decodeLastRune (p : List UInt8) : ℤ × Nat :=
  if p.length = 0 then (runeError, 0) else lastRune p (p.length - 4) (p.length - 1)

def fullRune : List UInt8 → Bool
  | [] => false
  | b0 :: p =>
    if b0.toNat < runeSelf then
      true
    else
      match seqLen b0 with
      | none => true
      | some need => p.length + 1 ≥ need

def runeCount (p : List UInt8) : Nat :=
  go p.length p
where
  go : Nat → List UInt8 → Nat
    | 0, _ | _ + 1, [] => 0
    | fuel + 1, b :: p => go fuel ((b :: p).drop (if b.toNat < runeSelf then 1 else (decodeRune (b :: p)).2)) + 1

def valid (p : List UInt8) : Bool :=
  go p.length p
where
  go : Nat → List UInt8 → Bool
    | 0, _ | _ + 1, [] => true
    | fuel + 1, b :: p =>
      if b.toNat < runeSelf then
        go fuel p
      else
        let (r, sz) := decodeRune (b :: p)
        if r = runeError ∧ sz = 1 then false else go fuel ((b :: p).drop sz)

def runeLen (r : ℤ) : ℤ :=
  if !validRune r then
    -1
  else if r < 0x80 then
    1
  else if r < 0x800 then
    2
  else if r < 0x10000 then
    3
  else
    4

def touint32 (r : ℤ) : Nat :=
  (r % 2 ^ 32).toNat

def tobyte (r : ℤ) : UInt8 :=
  .ofInt r

def tx : UInt8 := 0b10000000

def t2 : UInt8 := 0b11000000

def t3 : UInt8 := 0b11100000

def t4 : UInt8 := 0b11110000

def maskx : UInt8 := 0b00111111

def encodeRune (r : ℤ) : List UInt8 :=
  let i := touint32 r
  if i ≤ touint32 rune1Max then
    [tobyte r]
  else if i ≤ touint32 rune2Max then
    [t2 ||| tobyte (r.shiftRight 6), tx ||| (tobyte r &&& maskx)]
  else if i < touint32 surrogateMin ∨ (touint32 surrogateMax < i ∧ i ≤ touint32 rune3Max) then
    [t3 ||| tobyte (r.shiftRight 12), tx ||| (tobyte (r.shiftRight 6) &&& maskx), tx ||| (tobyte r &&& maskx)]
  else if i > touint32 rune3Max ∧ i ≤ touint32 maxRune then
    [t4 ||| tobyte (r.shiftRight 18), tx ||| (tobyte (r.shiftRight 12) &&& maskx), tx ||| (tobyte (r.shiftRight 6) &&& maskx),
      tx ||| (tobyte r &&& maskx)]
  else
    [t3 ||| tobyte (runeError.shiftRight 12), tx ||| (tobyte (runeError.shiftRight 6) &&& maskx),
      tx ||| (tobyte runeError &&& maskx)]

-- `AppendRune` has the branches of `EncodeRune`.
def appendRune (p : List UInt8) (r : ℤ) : List UInt8 :=
  p ++ encodeRune r

def ofRunes (rs : List ℤ) : List UInt8 :=
  rs.foldl appendRune []

end Utf8
