import Mathlib.Algebra.Group.Int.Defs
import Mathlib.Algebra.Group.Nat.Defs

namespace Unicode

structure Range16 where
  lo : Nat
  hi : Nat
  stride : Nat

structure RangeTable where
  r16 : List Range16
  latinOffset : Nat

def is16 (r : Nat) : List Range16 → Bool
  | [] => false
  | range :: ranges =>
    if r < range.lo then
      false
    else if r ≤ range.hi then
      range.stride = 1 || (r - range.lo) % range.stride = 0
    else
      is16 r ranges

def maxLatin1 : Nat := 0xFF

def whiteSpace : RangeTable where
  r16 := [⟨0x0009, 0x000d, 1⟩, ⟨0x0020, 0x0085, 101⟩, ⟨0x00a0, 0x1680, 5600⟩, ⟨0x2000, 0x200a, 1⟩, ⟨0x2028, 0x2029, 1⟩,
    ⟨0x202f, 0x205f, 48⟩, ⟨0x3000, 0x3000, 1⟩]
  latinOffset := 2

def isExcludingLatin (t : RangeTable) (r : ℤ) : Bool :=
  let u := (r % 2 ^ 32).toNat
  match t.r16.getLast? with
  | some range => t.r16.length > t.latinOffset && u ≤ range.hi && is16 (u % 2 ^ 16) (t.r16.drop t.latinOffset)
  | none => false

def isSpace (r : ℤ) : Bool :=
  if (r % 2 ^ 32).toNat ≤ maxLatin1 then
    r = 0x09 || r = 0x0A || r = 0x0B || r = 0x0C || r = 0x0D || r = 0x20 || r = 0x85 || r = 0xA0
  else
    isExcludingLatin whiteSpace r

end Unicode
