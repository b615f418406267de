import Goish.Strconv.Impl.Ftoa

/-! The numbers of `encoding::json`: `jsontext::AppendFloat` for 64 bits. -/

open Strconv

namespace Json

def tiny : Nat :=
  Binary64.nearest false 1 (10 ^ 6)

def huge : Nat :=
  Binary64.nearest false (10 ^ 21) 1

def floatFormat (src : Nat) : Format :=
  if Binary64.abs src ≠ 0 ∧ (Binary64.magnitudeLt src tiny ∨ !Binary64.magnitudeLt src huge) then .e else .f

def appendFloat (src : Nat) : List UInt8 :=
  let fmt := floatFormat src
  let b := formatFloat src fmt
  let n := b.length
  -- Makes e-09 to e-9.
  if fmt = .e ∧ n ≥ 4 ∧ (b.drop (n - 4)).take 3 = [0x65, 0x2D, 0x30] then
    b.take (n - 2) ++ b.drop (n - 1)
  else
    b

def encodeNumber (n : Nat) : List UInt8 :=
  if Binary64.isNaN n || Binary64.isInfinite n then [0x6E, 0x75, 0x6C, 0x6C] else appendFloat n

end Json
