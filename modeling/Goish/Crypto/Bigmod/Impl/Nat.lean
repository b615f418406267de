import Goish.Math.Bits.Impl.Bits
import Mathlib.Data.List.DropRight

/-! The numbers of `crypto::internal::fips140::bigmod`: lists of 64-bit limbs, the least significant first. -/

namespace Bigmod

open Bits

abbrev Word := BitVec 64

def not (c : Word) : Word :=
  1 ^^^ c

def ctMask (on : Word) : Word :=
  -on

def ctEq (x y : Word) : Word :=
  not ((sub64 x y 0).2 ||| (sub64 y x 0).2)

def bigEndianUint (buf : List (BitVec 8)) : Word :=
  buf.foldl (fun w b => w <<< 8 ||| b.setWidth 64) 0

def reset (n : Nat) : List Word :=
  List.replicate n 0

def trim (x : List Word) : List Word :=
  x.rdropWhile (· == 0)

def setBytes (limbs : List Word) (b : List (BitVec 8)) : Except String (List Word) :=
  go limbs b.reverse
where
  -- The loop over the bytes that do not fill a limb.
  low (limb : Word) (s : Nat) : List (BitVec 8) → Word
    | [] => limb
    | x :: b => low (limb ||| x.setWidth 64 <<< s) (s + 8) b
  go : List Word → List (BitVec 8) → Except String (List Word)
    | [], b => if b = [] then .ok [] else .error "input overflows the modulus size"
    | limb :: limbs, b =>
      if 8 ≤ b.length then
        (go limbs (b.drop 8)).map (bigEndianUint (b.take 8).reverse :: ·)
      else
        .ok (low limb 0 b :: limbs)

def resetToBytes (b : List (BitVec 8)) : Option (List Word) :=
  match setBytes (reset ((b.length + 7) / 8)) b with
  | .ok x => some (trim x)
  | .error _ => none

def isZero (x : List Word) : Word :=
  x.foldl (fun zero limb => zero &&& ctEq limb 0) 1

def isOne : List Word → Word
  | [] => 0
  | limb :: x => x.foldl (fun one limb => one &&& ctEq limb 0) (ctEq limb 1)

def isOdd : List Word → Word
  | [] => 0
  | limb :: _ => limb &&& 1

def bitLen (n : Word) : Nat :=
  go 64 n
where
  go : Nat → Word → Nat
    | 0, _ => 0
    | fuel + 1, n => if n ≠ 0 then go fuel (n >>> 1) + 1 else 0

def bitLenVarTime (x : List Word) : Nat :=
  go x.reverse
where
  go : List Word → Nat
    | [] => 0
    | limb :: x => if limb ≠ 0 then x.length * 64 + bitLen limb else go x

def assign (on : Word) : List Word → List Word → Option (List Word)
  | [], _ => some []
  | _ :: _, [] => none
  | a :: x, b :: y => (assign on x y).map ((a ^^^ (ctMask on &&& (a ^^^ b))) :: ·)

def carryLoop (op : Word → Word → Word → Word × Word) : List Word → List Word → Word → Option (List Word × Word)
  | [], _, c => some ([], c)
  | _ :: _, [], _ => none
  | a :: x, b :: y, c =>
    let (s, cc) := op a b c
    (carryLoop op x y cc).map fun (x, c) => (s :: x, c)

def add (x y : List Word) : Option (List Word × Word) :=
  carryLoop add64 x y 0

def sub (x y : List Word) : Option (List Word × Word) :=
  carryLoop sub64 x y 0

def addMulVVW (z x : List Word) (y : Word) : Option (List Word × Word) :=
  go z x 0
where
  go : List Word → List Word → Word → Option (List Word × Word)
    | [], _, carry => some ([], carry)
    | _ :: _, [], _ => none
    | a :: z, b :: x, carry =>
      let (hi0, lo0) := mul64 b y
      let (lo1, c0) := add64 lo0 a 0
      let (hi1, _) := add64 hi0 0 c0
      let (lo2, c1) := add64 lo1 carry 0
      let (hi2, _) := add64 hi1 0 c1
      (go z x hi2).map fun (z, carry) => (lo2 :: z, carry)

def addMulSized (n : Nat) (z x : List Word) (y : Word) : Option (List Word × Word) :=
  if n ≤ z.length ∧ n ≤ x.length then
    (addMulVVW (z.take n) (x.take n) y).map fun (r, carry) => (r ++ z.drop n, carry)
  else
    none

def addMulVVW1024 : List Word → List Word → Word → Option (List Word × Word) :=
  addMulSized (1024 / 64)

def addMulVVW1536 : List Word → List Word → Word → Option (List Word × Word) :=
  addMulSized (1536 / 64)

def addMulVVW2048 : List Word → List Word → Word → Option (List Word × Word) :=
  addMulSized (2048 / 64)

def mulRows (x : List Word) : List Word → List Word → Option (List Word)
  | [], t => some t
  | d :: y, t => do
    let (z, carry) ← addMulVVW (t.take x.length) x d
    let t := z ++ (t.drop x.length).set 0 carry
    return t.headD 0 :: (← mulRows x y t.tail)

end Bigmod
