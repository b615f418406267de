import Mathlib.Algebra.Group.Int.Defs
import Mathlib.Algebra.Group.Nat.Defs

/-! Binary floating point numbers of 64 bits: the number that a pattern of bits stands for, and the pattern nearest to a
fraction. -/

namespace Binary64

def signBit (bits : Nat) : Bool :=
  bits / 2 ^ 63 % 2 = 1

def exponentBits (bits : Nat) : Nat :=
  bits / 2 ^ 52 % 2 ^ 11

def mantissaBits (bits : Nat) : Nat :=
  bits % 2 ^ 52

def isNaN (bits : Nat) : Bool :=
  exponentBits bits = 2 ^ 11 - 1 && mantissaBits bits ≠ 0

def isInfinite (bits : Nat) : Bool :=
  exponentBits bits = 2 ^ 11 - 1 && mantissaBits bits = 0

def isFinite (bits : Nat) : Bool :=
  exponentBits bits ≠ 2 ^ 11 - 1

def significand (bits : Nat) : Nat :=
  if exponentBits bits = 0 then mantissaBits bits else 2 ^ 52 + mantissaBits bits

def exponent (bits : Nat) : ℤ :=
  if exponentBits bits = 0 then -1074 else exponentBits bits - 1075

def pattern (neg : Bool) (magnitude : Nat) : Nat :=
  (if neg then 2 ^ 63 else 0) + magnitude

def numerator (bits : Nat) : Nat :=
  significand bits * 2 ^ (exponent bits).toNat

def denominator (bits : Nat) : Nat :=
  2 ^ (-exponent bits).toNat

def nearest (neg : Bool) (num den : Nat) : Nat :=
  if num = 0 then
    pattern neg 0
  else
    let e : ℤ := Nat.log2 num - Nat.log2 den - 52
    let e : ℤ := if num * 2 ^ (-e).toNat < den * 2 ^ e.toNat * 2 ^ 52 then e - 1 else e
    let e : ℤ := max e (-1074)
    let n := num * 2 ^ (-e).toNat
    let d := den * 2 ^ e.toNat
    let q := n / d
    let q := if 2 * (n % d) > d ∨ (2 * (n % d) = d ∧ q % 2 = 1) then q + 1 else q
    let magnitude := if q < 2 ^ 52 then q else (e + 1074).toNat * 2 ^ 52 + q
    pattern neg (if magnitude < 2047 * 2 ^ 52 then magnitude else 2047 * 2 ^ 52)

def neg (x : Nat) : Nat :=
  if signBit x then x - 2 ^ 63 else x + 2 ^ 63

def abs (x : Nat) : Nat :=
  x % 2 ^ 63

def mul (x y : Nat) : Nat :=
  nearest (signBit x ≠ signBit y) (numerator x * numerator y) (denominator x * denominator y)

def div (x y : Nat) : Nat :=
  nearest (signBit x ≠ signBit y) (numerator x * denominator y) (denominator x * numerator y)

def magnitudeLt (x y : Nat) : Bool :=
  abs x < abs y

end Binary64
