import Goish.Crypto.Bigmod.Impl.Nat

namespace Bigmod

open Bits

structure Modulus where
  nat : List Word
  odd : Bool
  m0inv : Word
  rr : Option (List Word)
  deriving DecidableEq

namespace Modulus

variable (m : Modulus)

def size : Nat :=
  m.nat.length

def bitLen : Nat :=
  bitLenVarTime m.nat

def one : Option (List Word) :=
  match reset m.size with
  | [] => none
  | _ :: x => some (1 :: x)

-- One pass over the limbs: `x` becomes `2x + carry` for the selected `x`, and `d` the same minus the modulus.
def shiftPass (mask : Word)
    : List Word → List Word → List Word → Word → Word → Option (List Word × List Word × Word × Word)
  | x, d, [], carry, borrow => some (x, d, carry, borrow)
  | a :: x, b :: d, l :: n, carry, borrow =>
    let s := a ^^^ (mask &&& (a ^^^ b))
    let (s, carry) := add64 s s carry
    let (sd, borrow) := sub64 s l borrow
    (shiftPass mask x d n carry borrow).map fun (x, d, c) => (s :: x, sd :: d, c)
  | _, _, _ :: _, _, _ => none

def shiftBits (y : Word) : Nat → List Word → List Word → Word → Option (List Word × List Word × Word)
  | 0, x, d, needSubtraction => some (x, d, needSubtraction)
  | i + 1, x, d, needSubtraction => do
    let (x, d, carry, borrow) ← shiftPass (ctMask needSubtraction) x d m.nat (y >>> i &&& 1) 0
    shiftBits y i x d (not borrow ||| carry)

def shiftIn (x : List Word) (y : Word) : Option (List Word) := do
  let (x, d, needSubtraction) ← m.shiftBits y 64 x (reset m.size) 0
  assign needSubtraction x d

def mod (x : List Word) : Option (List Word) :=
  let k := min x.length (m.size - 1)
  let rest := x.take (x.length - k)
  rest.reverse.foldlM m.shiftIn (x.drop (x.length - k) ++ reset (m.size - k))

def maybeSubtractModulus (always : Word) (x : List Word) : Option (List Word) := do
  let (t, underflow) ← Bigmod.sub x m.nat
  assign (not underflow ||| always) x t

def sub (x y : List Word) : Option (List Word) := do
  let (x, underflow) ← Bigmod.sub x y
  let (t, _) ← Bigmod.add x m.nat
  assign underflow x t

def add (x y : List Word) : Option (List Word) := do
  let (x, overflow) ← Bigmod.add x y
  m.maybeSubtractModulus overflow x

def addMul (n : Nat) : List Word → List Word → Word → Option (List Word × Word) :=
  if n = 1024 / 64 then
    addMulVVW1024
  else if n = 1536 / 64 then
    addMulVVW1536
  else if n = 2048 / 64 then
    addMulVVW2048
  else
    addMulVVW

def montgomeryLoop (a : List Word) : List Word → List Word → Word → Option (List Word × Word)
  | [], t, c => some (t, c)
  | d :: b, t, c => do
    let (z, c1) ← addMul m.size (t.take m.size) a d
    let y := z.headD 0 * m.m0inv
    let (z, c2) ← addMul m.size z m.nat y
    let (s, c) := add64 c1 c2 c
    montgomeryLoop a b (z ++ (t.drop m.size).set 0 s).tail c

def montgomeryMul (a b : List Word) : Option (List Word) :=
  if m.size ≤ a.length ∧ m.size ≤ b.length then do
    let (x, c) ← m.montgomeryLoop (a.take m.size) (b.take m.size) (reset (m.size * 2)) 0
    m.maybeSubtractModulus c x
  else
    none

def montgomeryRepresentation (x : List Word) : Option (List Word) := do
  m.montgomeryMul x (← m.rr)

def montgomeryReduction (x : List Word) : Option (List Word) := do
  m.montgomeryMul x (← m.one)

def mul (x y : List Word) : Option (List Word) :=
  if m.odd then do
    m.montgomeryMul (← m.montgomeryRepresentation x) y
  else if m.size ≤ x.length ∧ m.size ≤ y.length then do
    m.mod (← mulRows (x.take m.size) (y.take m.size) (reset (m.size * 2)))
  else
    none

def powers (base : List Word) : Nat → List Word → Option (List (List Word))
  | 0, _ => some []
  | k + 1, prev => do
    let next ← m.montgomeryMul prev base
    return next :: (← powers base k next)

def selectEntry (k : Word) : Nat → List (List Word) → List Word → Option (List Word)
  | _, [], tmp => some tmp
  | want, entry :: table, tmp => do
    selectEntry k (want + 1) table (← assign (ctEq k (.ofNat 64 want)) tmp entry)

def square (x : List Word) : Option (List Word) :=
  m.montgomeryMul x x

def expWindow (table : List (List Word)) (k : Word) (out tmp : List Word) : Option (List Word × List Word) := do
  let out ← m.square (← m.square (← m.square (← m.square out)))
  let tmp ← selectEntry k 1 table tmp
  let tmp ← m.montgomeryMul out tmp
  let out ← assign (not (ctEq k 0)) out tmp
  return (out, tmp)

def expLoop (table : List (List Word)) : List (BitVec 8) → List Word → List Word → Option (List Word)
  | [], out, _ => some out
  | b :: e, out, tmp => do
    let (out, tmp) ← m.expWindow table ((b >>> 4 &&& 0b1111).setWidth 64) out tmp
    let (out, tmp) ← m.expWindow table ((b &&& 0b1111).setWidth 64) out tmp
    expLoop table e out tmp

def exp (x : List Word) (e : List (BitVec 8)) : Option (List Word) :=
  if m.odd then do
    let base ← m.montgomeryRepresentation x
    let table := base :: (← m.powers base 14 base)
    let out ← m.montgomeryRepresentation (← m.one)
    let out ← m.expLoop table e out (reset m.size)
    m.montgomeryReduction out
  else
    none

def expShortLoop (xR : List Word) (e : Word) : Nat → List Word → Option (List Word)
  | 0, out => some out
  | i + 1, out => do
    let out ← m.square out
    if e >>> i &&& 1 ≠ 0 then
      expShortLoop xR e i (← m.montgomeryMul out xR)
    else
      expShortLoop xR e i out

def expShortVarTime (x : List Word) (e : Word) : Option (List Word) :=
  if m.odd then do
    let xR ← m.montgomeryRepresentation x
    m.montgomeryReduction (← m.expShortLoop xR e (len64 e - 1) xR)
  else
    none

end Modulus

def minusInverseModW (x : Word) : Word :=
  -(go 5 x)
where
  go : Nat → Word → Word
    | 0, y => y
    | k + 1, y => go k (y * (2 - x * y))

def shrW (x n : Nat) : Nat :=
  if n ≥ 64 then 0 else x >>> n

def double (m : Modulus) : Nat → List Word → Option (List Word)
  | 0, x => some x
  | k + 1, x => do double m k (← m.add x x)

-- The largest `i` from `i` on down with more than `threshold` bits of `logR` above it. A negative one panics.
def chainStart (logR threshold : Nat) : Nat → Option Nat
  | 0 => if shrW logR 0 ≤ threshold then none else some 0
  | i + 1 => if shrW logR (i + 1) ≤ threshold then chainStart logR threshold i else some (i + 1)

def squareChain (m : Modulus) (logR : Nat) : Nat → List Word → Option (List Word)
  | 0, x => some x
  | i + 1, x => do
    let x ← m.montgomeryMul x x
    if shrW logR i &&& 1 ≠ 0 then
      squareChain m logR i (← m.add x x)
    else
      squareChain m logR i x

def rr (m : Modulus) : Option (List Word) :=
  let n := m.size
  let mLen := m.bitLen
  let logR := 64 * n
  if n = 0 ∨ mLen = 0 then
    none
  else do
    let x := (reset n).set (n - 1) ((1 : Word) <<< ((mLen - 1) % 64))
    let x ← double m (logR - (mLen - 1)) x
    let i ← chainStart logR (n / 4) 64
    let x ← double m (shrW logR i) x
    squareChain m logR i x

def newModulus (n : List Word) : Option (Except String Modulus) :=
  let m : Modulus := { nat := n, odd := false, m0inv := 0, rr := none }
  if isZero n = 1 ∨ isOne n = 1 then
    some (.error "modulus must be > 1")
  else if isOdd n = 1 then do
    let m := { m with odd := true, m0inv := minusInverseModW (n.headD 0) }
    let r ← rr m
    return .ok { m with rr := some r }
  else
    some (.ok m)

def Modulus.newModulus (b : List (BitVec 8)) : Option (Except String Modulus) := do
  Bigmod.newModulus (← resetToBytes b)

def Modulus.newModulusProduct (a b : List (BitVec 8)) : Option (Except String Modulus) := do
  let x ← resetToBytes a
  let y ← resetToBytes b
  Bigmod.newModulus (trim (← mulRows x y (reset (x.length + y.length))))

end Bigmod
