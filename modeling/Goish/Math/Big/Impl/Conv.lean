import Goish.Math.Big.Impl.Limbs

/-! The magnitudes that are read from text, from bytes and from words. The loop over the bytes of a text is a
recursion over those that are left. -/

namespace Big

def maxBase : ℤ := 62

def maxBaseSmall : ℤ := 36

def digitValue (ch : UInt8) (base : ℤ) : Option UInt32 :=
  let digit : Option UInt32 :=
    if '0'.toUInt8 ≤ ch ∧ ch ≤ '9'.toUInt8 then
      some (ch - '0'.toUInt8).toUInt32
    else if 'a'.toUInt8 ≤ ch ∧ ch ≤ 'z'.toUInt8 then
      some ((ch - 'a'.toUInt8).toUInt32 + 10)
    else if 'A'.toUInt8 ≤ ch ∧ ch ≤ 'Z'.toUInt8 then
      if base ≤ maxBaseSmall then
        some ((ch - 'A'.toUInt8).toUInt32 + 10)
      else
        some ((ch - 'A'.toUInt8).toUInt32 + UInt32.ofInt maxBaseSmall)
    else
      none
  digit.filter (fun d => (d.toNat : ℤ) < base)

def mulAddWord (limbs : List UInt32) (mul add : UInt32) : List UInt32 :=
  trim (go limbs add.toNat)
where
  go : List UInt32 → Nat → List UInt32
    | [], carry => if carry ≠ 0 then [UInt32.ofNat carry] else []
    | limb :: l, carry =>
      let v := (limb.toNat * mul.toNat + carry) % 2 ^ 64
      UInt32.ofNat v :: go l (v >>> 32)

-- The variables of the loop. `prev` is the last byte that counts for a separator: `'_'`, `'0'` for any digit,
-- or `'.'`.
structure Scan where
  limbs : List UInt32
  count : Nat
  invalSep : Bool
  prev : UInt8

def scanDigits (base b : ℤ) : List UInt8 → Scan → List UInt8 × Scan
  | [], s => ([], s)
  | ch :: l, s =>
    if ch = '_'.toUInt8 ∧ base = 0 then
      scanDigits base b l { s with invalSep := s.invalSep || s.prev != '0'.toUInt8, prev := '_'.toUInt8 }
    else
      match digitValue ch b with
      | some d =>
        scanDigits base b l
          { s with limbs := mulAddWord s.limbs (UInt32.ofInt b) d, count := s.count + 1, prev := '0'.toUInt8 }
      | none => (ch :: l, s)

def scanSign : List UInt8 → Bool × List UInt8
  | [] => (false, [])
  | ch :: l =>
    if ch = '-'.toUInt8 then
      (true, l)
    else if ch = '+'.toUInt8 then
      (false, l)
    else
      (false, ch :: l)

def scanPrefix (base : ℤ) (bytes : List UInt8) : ℤ × UInt8 × UInt8 × List UInt8 :=
  if base ≠ 0 then
    (base, 0, '.'.toUInt8, bytes)
  else if bytes.head? = some '0'.toUInt8 then
    match bytes.tail.head? with
    | some ch =>
      if ch = 'b'.toUInt8 ∨ ch = 'B'.toUInt8 then
        (2, 'b'.toUInt8, '0'.toUInt8, bytes.tail.tail)
      else if ch = 'o'.toUInt8 ∨ ch = 'O'.toUInt8 then
        (8, 'o'.toUInt8, '0'.toUInt8, bytes.tail.tail)
      else if ch = 'x'.toUInt8 ∨ ch = 'X'.toUInt8 then
        (16, 'x'.toUInt8, '0'.toUInt8, bytes.tail.tail)
      else
        (8, '0'.toUInt8, '0'.toUInt8, bytes.tail)
    | none => (8, '0'.toUInt8, '0'.toUInt8, bytes.tail)
  else
    (10, 0, '.'.toUInt8, bytes)

def scanInt (bytes : List UInt8) (base : ℤ) : Option (Bool × List UInt32) :=
  if ¬(base = 0 ∨ (2 ≤ base ∧ base ≤ maxBase)) then
    none
  else
    let (neg, bytes) := scanSign bytes
    let (b, kind, prev, bytes) := scanPrefix base bytes
    let (left, s) := scanDigits base b bytes { limbs := [], count := 0, invalSep := false, prev := prev }
    if left ≠ [] then
      none
    else if s.invalSep || s.prev == '_'.toUInt8 then
      none
    else if s.count = 0 then
      if kind = '0'.toUInt8 then
        some (false, [])
      else
        none
    else
      some (neg, s.limbs)

def beBytesToLimbs (buf : List UInt8) : List UInt32 :=
  let sig := buf.dropWhile (· == 0)
  if sig = [] then
    []
  else
    trim (go sig.reverse 0 0)
where
  go : List UInt8 → UInt32 → Nat → List UInt32
    | [], limb, bit => if bit = 0 then [] else [limb]
    | byte :: l, limb, bit =>
      let limb := limb ||| byte.toUInt32 <<< UInt32.ofNat bit
      if bit + 8 = 32 then
        limb :: go l 0 0
      else
        go l limb (bit + 8)

def wordsToLimbs (words : List UInt64) : List UInt32 :=
  trim (words.flatMap (fun w : UInt64 => [(w &&& 0xffffffff).toUInt32, ((w >>> 32) &&& 0xffffffff).toUInt32]))

end Big
