import Mathlib.Data.BitVec

/-! The varints of `encoding::binary`. A `uint` and an `int` are their 64 bits, and a reader is the bytes that it
delivers before `io::EOF`. -/

namespace Binary

def maxVarintLen64 : Nat := 10

def tobyte (x : BitVec 64) : UInt8 :=
  .ofNat x.toNat

def touint (b : UInt8) : BitVec 64 :=
  .ofNat 64 b.toNat

theorem toNat_shift_lt {x : BitVec 64} (h : 0x80#64 ≤ x) : (x >>> 7).toNat < x.toNat := by
  rw [BitVec.le_def] at h
  rw [BitVec.toNat_ushiftRight, Nat.shiftRight_eq_div_pow]
  have : (0x80#64).toNat = 128 := rfl
  omega

def appendUvarint (buf : List UInt8) (x : BitVec 64) : List UInt8 :=
  buf ++ pushed x
where
  pushed (x : BitVec 64) : List UInt8 :=
    if h : x ≥ 0x80 then
      have := toNat_shift_lt h
      (tobyte x ||| 0x80) :: pushed (x >>> 7)
    else
      [tobyte x]
  termination_by x.toNat

/-- A write behind the end of the buffer panics. -/
def putUvarint (buf : List UInt8) (x : BitVec 64) : Option (List UInt8 × Int) :=
  go buf x 0
where
  go (buf : List UInt8) (x : BitVec 64) (i : Nat) : Option (List UInt8 × Int) :=
    if i ≥ buf.length then
      none
    else if h : x ≥ 0x80 then
      have := toNat_shift_lt h
      go (buf.set i (tobyte x ||| 0x80)) (x >>> 7) (i + 1)
    else
      some (buf.set i (tobyte x), i + 1)
  termination_by x.toNat

def uvarint (buf : List UInt8) : BitVec 64 × Int :=
  go buf 0 0 0
where
  go (buf : List UInt8) (i : Nat) (x : BitVec 64) (s : Nat) : BitVec 64 × Int :=
    match buf with
    | [] => (0, 0)
    | b :: buf =>
      if i = maxVarintLen64 then
        (0, -(i + 1))
      else if b < 0x80 then
        if i = maxVarintLen64 - 1 ∧ b > 1 then (0, -(i + 1)) else (x ||| touint b <<< s, i + 1)
      else
        go buf (i + 1) (x ||| touint (b &&& 0x7f) <<< s) (s + 7)

def zigzag (x : BitVec 64) : BitVec 64 :=
  let ux := x <<< 1
  if x.slt 0 then ~~~ux else ux

def unzigzag (ux : BitVec 64) : BitVec 64 :=
  let x := ux >>> 1
  if ux &&& 1 ≠ 0 then ~~~x else x

def appendVarint (buf : List UInt8) (x : BitVec 64) : List UInt8 :=
  appendUvarint buf (zigzag x)

def varint (buf : List UInt8) : BitVec 64 × Int :=
  let (ux, n) := uvarint buf
  (unzigzag ux, n)

inductive Error where
  | eof
  | unexpectedEOF
  | overflow
  deriving DecidableEq

def readUvarint (r : List UInt8) : BitVec 64 × Option Error :=
  go maxVarintLen64 r 0 0 0
where
  go (fuel : Nat) (r : List UInt8) (i : Nat) (x : BitVec 64) (s : Nat) : BitVec 64 × Option Error :=
    match fuel, r with
    | 0, _ => (x, some .overflow)
    | _ + 1, [] => (x, if i > 0 then some .unexpectedEOF else some .eof)
    | fuel + 1, b :: r =>
      if b < 0x80 then
        if i = maxVarintLen64 - 1 ∧ b > 1 then (x, some .overflow) else (x ||| touint b <<< s, none)
      else
        go fuel r (i + 1) (x ||| touint (b &&& 0x7f) <<< s) (s + 7)

end Binary
