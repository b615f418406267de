import Goish.Math.Big.Impl.Conv

namespace Big

structure Int where
  neg : Bool
  abs : List UInt32
  deriving DecidableEq

def zero : Int :=
  { neg := false, abs := [] }

def setInt64 (x : Int64) : Int :=
  if x.toInt < 0 then
    { neg := true, abs := u64ToLimbs (UInt64.ofNat x.toInt.natAbs) }
  else
    { neg := false, abs := u64ToLimbs (UInt64.ofInt x.toInt) }

def setUint64 (x : UInt64) : Int :=
  { neg := false, abs := u64ToLimbs x }

def setBytes (buf : List UInt8) : Int :=
  { neg := false, abs := beBytesToLimbs buf }

def setBits (abs : List UInt64) : Int :=
  { neg := false, abs := wordsToLimbs abs }

def setString (z : Int) (s : List UInt8) (base : ℤ) : Int × Bool :=
  match scanInt s base with
  | some (neg, abs) => ({ neg := neg && !abs.isEmpty, abs := abs }, true)
  | none => (z, false)

-- `notAnInt` is "math/big: cannot unmarshal %q into a *big.Int", and `version` is
-- "Int.GobDecode: encoding version %d not supported".
inductive Error where
  | notAnInt (text : List UInt8)
  | version (v : UInt8)
  deriving DecidableEq

def unmarshalText (z : Int) (text : List UInt8) : Int × Option Error :=
  match scanInt text 0 with
  | some (neg, abs) => ({ neg := neg && !abs.isEmpty, abs := abs }, none)
  | none => (z, some (.notAnInt text))

def intGobVersion : UInt8 := 1

def gobDecode (z : Int) (buf : List UInt8) : Int × Option Error :=
  match buf with
  | [] => (zero, none)
  | b :: buf =>
    if b >>> 1 ≠ intGobVersion then
      (z, some (.version (b >>> 1)))
    else
      ({ neg := b &&& 1 != 0, abs := beBytesToLimbs buf }, none)

def sign (x : Int) : ℤ :=
  if x.abs.isEmpty then 0 else if x.neg then -1 else 1

def cmp (x y : Int) : ℤ :=
  if sign x < sign y then
    -1
  else if sign x > sign y then
    1
  else
    match absCmp x.abs y.abs with
    | .lt => if x.neg then 1 else -1
    | .eq => 0
    | .gt => if x.neg then -1 else 1

def bitLen (a : List UInt32) : Nat :=
  match (trim a).getLast? with
  | none => 0
  | some top => ((trim a).length - 1) * 32 + (32 - Word.leadingZeros top.toBitVec)

def addSigned (a b : Int) : Int :=
  if a.neg = b.neg then
    { neg := a.neg && !(a.abs.isEmpty && b.abs.isEmpty), abs := addLimbs a.abs b.abs }
  else
    match absCmp a.abs b.abs with
    | .eq => { neg := false, abs := [] }
    | .gt => { neg := a.neg, abs := subLimbs a.abs b.abs }
    | .lt => { neg := b.neg, abs := subLimbs b.abs a.abs }

def add (x y : Int) : Int :=
  addSigned x y

def addInt64 (z : Int) (delta : Int64) : Int :=
  if delta = 0 then
    z
  else
    addSigned z (setInt64 delta)

def sub (x y : Int) : Int :=
  addSigned x { neg := !y.neg && !y.abs.isEmpty, abs := y.abs }

def mul (x y : Int) : Int :=
  let mag := mulLimbs x.abs y.abs
  { neg := !mag.isEmpty && (x.neg != y.neg), abs := mag }

def neg (x : Int) : Int :=
  { neg := !x.abs.isEmpty && !x.neg, abs := x.abs }

def abs (x : Int) : Int :=
  { neg := false, abs := x.abs }

def quo (x y : Int) : Option Int :=
  if y.abs.isEmpty then
    none
  else
    let qAbs := (divmodLimbs x.abs y.abs).1
    some { neg := !qAbs.isEmpty && (x.neg != y.neg), abs := qAbs }

def rem (x y : Int) : Option Int :=
  if y.abs.isEmpty then
    none
  else
    let rAbs := (divmodLimbs x.abs y.abs).2
    some { neg := !rAbs.isEmpty && x.neg, abs := rAbs }

def quoRem (x y : Int) : Option (Int × Int) :=
  if y.abs.isEmpty then
    none
  else
    let (qAbs, rAbs) := divmodLimbs x.abs y.abs
    some ({ neg := !qAbs.isEmpty && (x.neg != y.neg), abs := qAbs }, { neg := !rAbs.isEmpty && x.neg, abs := rAbs })

def div (x y : Int) : Option Int :=
  if y.abs.isEmpty then
    none
  else
    let (qAbs, rAbs) := divmodLimbs x.abs y.abs
    let qNegT := !qAbs.isEmpty && (x.neg != y.neg)
    let rNegT := !rAbs.isEmpty && x.neg
    let q : Int := { neg := qNegT, abs := qAbs }
    -- The Euclidean correction: a negative remainder moves the quotient by one.
    if rNegT then
      if y.neg then
        some (addInt64 q 1)
      else
        some (addInt64 q (-1))
    else
      some q

def mod (x y : Int) : Option Int :=
  if y.abs.isEmpty then
    none
  else
    let rAbs := (divmodLimbs x.abs y.abs).2
    let rNegT := !rAbs.isEmpty && x.neg
    let (mag, neg) := if rNegT then (subLimbs y.abs rAbs, false) else (rAbs, false)
    some { neg := neg && !mag.isEmpty, abs := mag }

def divMod (x y : Int) : Option (Int × Int) :=
  if y.abs.isEmpty then
    none
  else
    let (qAbs, rAbs) := divmodLimbs x.abs y.abs
    let qNegT := !qAbs.isEmpty && (x.neg != y.neg)
    let rNegT := !rAbs.isEmpty && x.neg
    let q : Int := { neg := qNegT, abs := qAbs }
    if rNegT then
      let remAbs := subLimbs y.abs rAbs
      if y.neg then
        some (addInt64 q 1, { neg := false, abs := remAbs })
      else
        some (addInt64 q (-1), { neg := false, abs := remAbs })
    else
      some (q, { neg := rNegT, abs := rAbs })

def setBit (x : Int) (i : ℤ) (b : UInt64) : Option Int :=
  if i < 0 then
    none
  else if b ≠ 0 ∧ b ≠ 1 then
    none
  else
    let bi := i.toNat
    if x.neg then
      let t := subLimbs x.abs [1]
      let t := limbSetBit t bi (b ^^^ 1)
      let abs := addLimbs t [1]
      some { neg := !abs.isEmpty, abs := abs }
    else
      some { neg := false, abs := limbSetBit x.abs bi b }

def lsh (x : Int) (n : UInt64) : Int :=
  let abs := lshLimbs x.abs n.toNat
  { neg := x.neg && !abs.isEmpty, abs := abs }

def rsh (x : Int) (n : UInt64) : Int :=
  if x.neg then
    let t := subLimbs x.abs [1]
    let t := rshLimbs t n.toNat
    { neg := true, abs := addLimbs t [1] }
  else
    { neg := false, abs := rshLimbs x.abs n.toNat }

def and (x y : Int) : Int :=
  if x.neg = y.neg then
    if x.neg then
      let x1 := subLimbs x.abs [1]
      let y1 := subLimbs y.abs [1]
      { neg := true, abs := addLimbs (orLimbs x1 y1) [1] }
    else
      { neg := false, abs := andLimbs x.abs y.abs }
  else
    let (xp, yn) := if x.neg then (y, x) else (x, y)
    let y1 := subLimbs yn.abs [1]
    { neg := false, abs := andNotLimbs xp.abs y1 }

def andNot (x y : Int) : Int :=
  if x.neg = y.neg then
    if x.neg then
      let x1 := subLimbs x.abs [1]
      let y1 := subLimbs y.abs [1]
      { neg := false, abs := andNotLimbs y1 x1 }
    else
      { neg := false, abs := andNotLimbs x.abs y.abs }
  else if x.neg then
    let x1 := subLimbs x.abs [1]
    { neg := true, abs := addLimbs (orLimbs x1 y.abs) [1] }
  else
    let y1 := subLimbs y.abs [1]
    { neg := false, abs := andLimbs x.abs y1 }

def or (x y : Int) : Int :=
  if x.neg = y.neg then
    if x.neg then
      let x1 := subLimbs x.abs [1]
      let y1 := subLimbs y.abs [1]
      { neg := true, abs := addLimbs (andLimbs x1 y1) [1] }
    else
      { neg := false, abs := orLimbs x.abs y.abs }
  else
    let (xp, yn) := if x.neg then (y, x) else (x, y)
    let y1 := subLimbs yn.abs [1]
    { neg := true, abs := addLimbs (andNotLimbs y1 xp.abs) [1] }

def xor (x y : Int) : Int :=
  if x.neg = y.neg then
    if x.neg then
      let x1 := subLimbs x.abs [1]
      let y1 := subLimbs y.abs [1]
      { neg := false, abs := xorLimbs x1 y1 }
    else
      { neg := false, abs := xorLimbs x.abs y.abs }
  else
    let (xp, yn) := if x.neg then (y, x) else (x, y)
    let y1 := subLimbs yn.abs [1]
    let abs := addLimbs (xorLimbs xp.abs y1) [1]
    { neg := !abs.isEmpty, abs := abs }

def not (x : Int) : Int :=
  if x.neg then
    { neg := false, abs := subLimbs x.abs [1] }
  else
    { neg := true, abs := addLimbs x.abs [1] }

-- The loop stops at the first step that does not go down; it is `none` when the steps run out.
def sqrt.go (x : Int) : Nat → Int → Option Int
  | 0, _ => none
  | fuel + 1, t => do
    let q ← div x t
    let next ← div (add t q) (setInt64 2)
    if cmp next t ≥ 0 then some t else go x fuel next

def sqrt (fuel : Nat) (x : Int) : Option Int :=
  if x.neg then
    none
  else if x.abs.isEmpty then
    some (setInt64 0)
  else if cmp x (setInt64 1) = 0 then
    some (setInt64 1)
  else do
    -- `Lsh` by the half of a bit length, which is far below the limit of the counts of bits.
    let t ← sqrt.go x fuel { neg := false, abs := lshLimbs (setInt64 1).abs ((bitLen x.abs + 1) / 2) }
    some { neg := false, abs := t.abs }

end Big
