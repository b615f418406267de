import Goish.Data.Word
import Mathlib.Data.List.DropRight

/-! The magnitudes of `math::big`: lists of `u32` limbs, the least significant first. -/

namespace Big

def trim (v : List UInt32) : List UInt32 :=
  v.rdropWhile (· == 0)

def u64ToLimbs (x : UInt64) : List UInt32 :=
  if x = 0 then
    []
  else if x ≤ 0xffffffff then
    [x.toUInt32]
  else
    [x.toUInt32, (x >>> 32).toUInt32]

def absCmp (a b : List UInt32) : Ordering :=
  match compare a.length b.length with
  | .eq => go (a.reverse.zip b.reverse)
  | o => o
where
  go : List (UInt32 × UInt32) → Ordering
    | [] => .eq
    | (x, y) :: l =>
      match compare x.toNat y.toNat with
      | .eq => go l
      | o => o

def addLimbs (a b : List UInt32) : List UInt32 :=
  trim (go (max a.length b.length) a b 0)
where
  go : Nat → List UInt32 → List UInt32 → Nat → List UInt32
    | 0, _, _, carry => [UInt32.ofNat carry]
    | n + 1, a, b, carry =>
      let s := (a.headD 0).toNat + (b.headD 0).toNat + carry
      UInt32.ofNat s :: go n a.tail b.tail (s >>> 32)

def subLimbs (a b : List UInt32) : List UInt32 :=
  trim (go a b 0)
where
  go : List UInt32 → List UInt32 → ℤ → List UInt32
    | [], _, _ => []
    | av :: a, b, borrow =>
      let d : ℤ := av.toNat - (b.headD 0).toNat - borrow
      if d < 0 then
        UInt32.ofInt (d + 2 ^ 32) :: go a b.tail 1
      else
        UInt32.ofInt d :: go a b.tail 0

def mulLimbs (a b : List UInt32) : List UInt32 :=
  if a = [] ∨ b = [] then
    []
  else
    trim (go a (List.replicate (a.length + b.length) 0))
where
  row (ai : UInt32) : List UInt32 → List UInt32 → Nat → List UInt32
    | [], out, carry => (out.headD 0 + UInt32.ofNat carry) :: out.tail
    | bj :: b, out, carry =>
      let prod := (ai.toNat * bj.toNat + (out.headD 0).toNat + carry) % 2 ^ 64
      UInt32.ofNat prod :: row ai b out.tail (prod >>> 32)
  go : List UInt32 → List UInt32 → List UInt32
    | [], out => out
    | ai :: a, out =>
      let out := row ai b out 0
      out.headD 0 :: go a out.tail

def divmodByU32 (num : List UInt32) (d : UInt32) : List UInt32 × UInt32 :=
  let (q, r) := go num
  (trim q, UInt32.ofNat r)
where
  go : List UInt32 → List UInt32 × Nat
    | [] => ([], 0)
    | limb :: num =>
      let (q, r) := go num
      let cur := (r <<< 32) % 2 ^ 64 ||| limb.toNat
      (UInt32.ofNat (cur / d.toNat) :: q, cur % d.toNat)

def shlSmall (a : List UInt32) (s : Nat) : List UInt32 :=
  if a = [] then
    []
  else if s = 0 then
    a
  else
    trim (go a 0)
where
  go : List UInt32 → Nat → List UInt32
    | [], carry => [UInt32.ofNat carry]
    | limb :: a, carry =>
      let v := (limb.toNat <<< s) % 2 ^ 64 ||| carry
      UInt32.ofNat v :: go a (v >>> 32)

def shrSmall (a : List UInt32) (s : Nat) : List UInt32 :=
  if a = [] then
    []
  else if s = 0 then
    trim a
  else
    trim (go a).1
where
  go : List UInt32 → List UInt32 × UInt32
    | [] => ([], 0)
    | v :: a =>
      let (out, carry) := go a
      ((v >>> UInt32.ofNat s ||| carry) :: out, v <<< UInt32.ofNat (32 - s))

def refine (dnHi dnLo un : Nat) (qhat rhat : Nat) : Nat :=
  if qhat ≥ 2 ^ 32 ∨ qhat * dnLo % 2 ^ 64 > ((rhat <<< 32) % 2 ^ 64 ||| un) then
    if rhat + dnHi ≥ 2 ^ 32 then
      qhat - 1
    else
      refine dnHi dnLo un (qhat - 1) (rhat + dnHi)
  else
    qhat
termination_by qhat
decreasing_by
  have hpos : qhat ≠ 0 := by
    intro hzero
    simp_all
  omega

def mulSub (qhat : Nat) : List UInt32 → List UInt32 → Nat → ℤ → List UInt32 × ℤ
  | [], un, carry, borrow =>
    let sub : ℤ := (un.headD 0).toNat - borrow - carry
    (UInt32.ofInt sub :: un.tail, if sub < 0 then 1 else 0)
  | d :: dn, un, carry, borrow =>
    let p := (qhat * d.toNat + carry) % 2 ^ 64
    let sub : ℤ := (un.headD 0).toNat - borrow - (UInt32.ofNat p).toNat
    let (out, last) := mulSub qhat dn un.tail (p >>> 32) (if sub < 0 then 1 else 0)
    (UInt32.ofInt sub :: out, last)

def addBack : List UInt32 → List UInt32 → Nat → List UInt32
  | [], un, addCarry => (un.headD 0 + UInt32.ofNat addCarry) :: un.tail
  | d :: dn, un, addCarry =>
    let s := (un.headD 0).toNat + d.toNat + addCarry
    UInt32.ofNat s :: addBack dn un.tail (s >>> 32)

def divStep (dn un : List UInt32) : UInt32 × List UInt32 :=
  let n := dn.length
  let dnHi := (dn.getD (n - 1) 0).toNat
  let dnLo := (dn.getD (n - 2) 0).toNat
  let numHi := ((un.getD n 0).toNat <<< 32) % 2 ^ 64 ||| (un.getD (n - 1) 0).toNat
  let qhat := refine dnHi dnLo (un.getD (n - 2) 0).toNat (numHi / dnHi) (numHi % dnHi)
  let (un, borrow) := mulSub qhat dn un 0 0
  if borrow ≠ 0 then
    (UInt32.ofNat (qhat - 1), addBack dn un 0)
  else
    (UInt32.ofNat qhat, un)

def divLoop (dn : List UInt32) : Nat → List UInt32 → List UInt32 → List UInt32 × List UInt32
  | 0, un, q => (q, un)
  | j + 1, un, q =>
    let n := dn.length
    let (qhat, window) := divStep dn ((un.drop j).take (n + 1))
    divLoop dn j (un.take j ++ window ++ un.drop (j + (n + 1))) (qhat :: q)

def divmodLimbs (num den : List UInt32) : List UInt32 × List UInt32 :=
  if absCmp num den = .lt then
    ([], trim num)
  else if den.length = 1 then
    let (q, r) := divmodByU32 num (den.headD 0)
    (q, if r = 0 then [] else [r])
  else
    let n := den.length
    let m := num.length - n
    let shift := Word.leadingZeros (den.getD (n - 1) 0).toBitVec
    let dn := shlSmall den shift
    let un := shlSmall num shift
    let un := (un ++ List.replicate (num.length + 1 - un.length) 0).take (num.length + 1)
    let (q, un) := divLoop dn (m + 1) un []
    (trim q, shrSmall (un.take n) shift)

-- The shifts and the bitwise operations return trimmed magnitudes.

def limbSetBit (a : List UInt32) (i : Nat) (b : UInt64) : List UInt32 :=
  let j := i / 32
  let m : UInt32 := 1 <<< UInt32.ofNat (i % 32)
  if b = 0 then
    trim (a.modify j (· &&& ~~~m))
  else
    trim ((a ++ List.replicate (j + 1 - a.length) 0).modify j (· ||| m))

def lshLimbs (x : List UInt32) (s : Nat) : List UInt32 :=
  if x = [] then
    []
  else
    let limbShift := s / 32
    let bitShift := s % 32
    let shifted := if bitShift = 0 then x else shlSmall x bitShift
    if limbShift = 0 then
      trim shifted
    else
      trim (List.replicate limbShift 0 ++ shifted)

def rshLimbs (x : List UInt32) (s : Nat) : List UInt32 :=
  if x = [] then
    []
  else
    let limbShift := s / 32
    let bitShift := s % 32
    if limbShift ≥ x.length then
      []
    else
      let dropped := x.drop limbShift
      trim (if bitShift = 0 then dropped else shrSmall dropped bitShift)

def andLimbs (x y : List UInt32) : List UInt32 :=
  trim (List.zipWith (· &&& ·) x y)

def andNotLimbs (x y : List UInt32) : List UInt32 :=
  trim (List.zipWith (fun u v => u &&& ~~~v) x y ++ x.drop y.length)

def overLonger (f : UInt32 → UInt32 → UInt32) (x y : List UInt32) : List UInt32 :=
  let (short, long) := if x.length < y.length then (x, y) else (y, x)
  trim (List.zipWith f x y ++ long.drop short.length)

def orLimbs (x y : List UInt32) : List UInt32 :=
  overLonger (· ||| ·) x y

def xorLimbs (x y : List UInt32) : List UInt32 :=
  overLonger (· ^^^ ·) x y

end Big
