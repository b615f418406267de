import Goish.Data.Binary64
import Goish.Strconv.Impl.Decimal

namespace Strconv

inductive NumError where
  | errSyntax
  | errRange
  deriving DecidableEq

def i32 (x : ℤ) : ℤ :=
  x.bmod (2 ^ 32)

def lower (c : UInt8) : UInt8 :=
  c ||| 0x20

def isDigit (c : UInt8) : Bool :=
  0x30 ≤ c.toNat && c.toNat ≤ 0x39

def digitVal (c : UInt8) : Nat :=
  c.toNat - 0x30

def isHexLetter (c : UInt8) : Bool :=
  0x61 ≤ (lower c).toNat && (lower c).toNat ≤ 0x66

inductive Saw where
  | start
  | digit
  | underscore
  | other
  deriving DecidableEq

def underscoreOK (s : List UInt8) : Bool :=
  let s := if s.head? = some 0x2D ∨ s.head? = some 0x2B then s.drop 1 else s
  match s with
  | 0x30 :: c :: s' =>
    if lower c = 0x62 ∨ lower c = 0x6F ∨ lower c = 0x78 then go (lower c = 0x78) .digit s' else go false .start s
  | _ => go false .start s
where
  go (hex : Bool) : Saw → List UInt8 → Bool
    | saw, [] => saw ≠ .underscore
    | saw, c :: s =>
      if isDigit c || (hex && isHexLetter c) then
        go hex .digit s
      else if c = 0x5F then
        if saw ≠ .digit then false else go hex .underscore s
      else if saw = .underscore then
        false
      else
        go hex .other s

def commonPrefixLenIgnoreCase : List UInt8 → List UInt8 → Nat
  | c :: s, p :: pre =>
    let c := if 0x41 ≤ c.toNat ∧ c.toNat ≤ 0x5A then c + 0x20 else c
    if c ≠ p then 0 else commonPrefixLenIgnoreCase s pre + 1
  | _, _ => 0

def infinityText : List UInt8 :=
  [0x69, 0x6E, 0x66, 0x69, 0x6E, 0x69, 0x74, 0x79]

def nanText : List UInt8 :=
  [0x6E, 0x61, 0x6E]

def infBits : Nat := 0x7FF0000000000000

def nanBits : Nat := 0x7FF8000000000000

def special (s : List UInt8) : Option (Nat × Nat) :=
  let nsign := if s.head? = some 0x2B ∨ s.head? = some 0x2D then 1 else 0
  let sub := s.drop nsign
  match sub with
  | [] => none
  | lead :: _ =>
    if lead = 0x69 ∨ lead = 0x49 then
      let n := commonPrefixLenIgnoreCase sub infinityText
      let n := if 3 < n ∧ n < 8 then 3 else n
      if n = 3 ∨ n = 8 then
        some (if s.head? = some 0x2D then Binary64.neg infBits else infBits, nsign + n)
      else
        none
    else if (lead = 0x6E ∨ lead = 0x4E) ∧ nsign = 0 then
      if commonPrefixLenIgnoreCase sub nanText = 3 then some (nanBits, 3) else none
    else
      none

structure Mantissa where
  underscores : Bool
  sawdot : Bool
  sawdigits : Bool
  nd : ℤ
  ndMant : ℤ
  dp : ℤ
  mantissa : Nat
  trunc : Bool
  deriving DecidableEq

namespace Mantissa

def new : Mantissa where
  underscores := false
  sawdot := false
  sawdigits := false
  nd := 0
  ndMant := 0
  dp := 0
  mantissa := 0
  trunc := false

def addDigit (m : Mantissa) (base : Nat) (maxMantDigits : ℤ) (v : Nat) (lost : Bool) : Mantissa :=
  let m := { m with sawdigits := true, nd := i32 (m.nd + 1) }
  if m.ndMant < maxMantDigits then
    { m with mantissa := (m.mantissa * base + v) % 2 ^ 64, ndMant := i32 (m.ndMant + 1) }
  else
    { m with trunc := m.trunc || lost }

def scan (base : Nat) (maxMantDigits : ℤ) : Mantissa → List UInt8 → Mantissa × List UInt8
  | m, [] => (m, [])
  | m, c :: s =>
    if c = 0x5F then
      scan base maxMantDigits { m with underscores := true } s
    else if c = 0x2E then
      if m.sawdot then (m, c :: s) else scan base maxMantDigits { m with sawdot := true, dp := m.nd } s
    else if isDigit c then
      if c = 0x30 ∧ m.nd = 0 then
        scan base maxMantDigits { m with sawdigits := true, dp := i32 (m.dp - 1) } s
      else
        scan base maxMantDigits (m.addDigit base maxMantDigits (digitVal c) (c ≠ 0x30)) s
    else if base = 16 ∧ isHexLetter c then
      scan base maxMantDigits (m.addDigit base maxMantDigits ((lower c).toNat - 0x61 + 10) true) s
    else
      (m, c :: s)

end Mantissa

def scanExponent : ℤ → Bool → List UInt8 → ℤ × Bool × List UInt8
  | e, underscores, [] => (e, underscores, [])
  | e, underscores, c :: s =>
    if c = 0x5F then
      scanExponent e true s
    else if isDigit c then
      scanExponent (if e < 10000 then e * 10 + digitVal c else e) underscores s
    else
      (e, underscores, c :: s)

def readExponent (s : List UInt8) : Option (ℤ × Bool × List UInt8) :=
  match s with
  | [] => none
  | c :: s' =>
    let s := if c = 0x2B ∨ c = 0x2D then s' else s
    match s with
    | [] => none
    | d :: _ =>
      if !isDigit d then
        none
      else
        let (e, underscores, s) := scanExponent 0 false s
        some (if c = 0x2D then -e else e, underscores, s)

structure ReadFloat where
  mantissa : Nat
  exp : ℤ
  neg : Bool
  trunc : Bool
  hex : Bool
  rest : List UInt8
  deriving DecidableEq

def readFloat (s : List UInt8) : Option ReadFloat := do
  let all := s
  let neg := s.head? = some 0x2D
  let s := if s.head? = some 0x2B ∨ neg then s.drop 1 else s
  let hex := 2 < s.length ∧ s.head? = some 0x30 ∧ (s[1]?.map lower) = some 0x78
  let s := if hex then s.drop 2 else s
  let (m, s) := if hex then Mantissa.new.scan 16 16 s else Mantissa.new.scan 10 19 s
  if !m.sawdigits then
    none
  let dp := if !m.sawdot then m.nd else m.dp
  let dp := if hex then i32 (dp * 4) else dp
  let ndMant := if hex then m.ndMant * 4 else m.ndMant
  let expChar : UInt8 := if hex then 0x70 else 0x65
  let (dp, underscores, s) ←
    if s.head?.map lower = some expChar then do
      let (e, underscores, s) ← readExponent (s.drop 1)
      some (i32 (dp + e), m.underscores || underscores, s)
    else if hex then
      none
    else
      some (dp, m.underscores, s)
  if underscores && !underscoreOK (all.take (all.length - s.length)) then
    none
  some {
    mantissa := m.mantissa, exp := if m.mantissa ≠ 0 then i32 (dp - ndMant) else 0, neg := neg, trunc := m.trunc,
    hex := hex, rest := s }

namespace Decimal

def scan : Bool → Bool → Decimal → List UInt8 → Option (Bool × Bool × Decimal × List UInt8)
  | sawdot, sawdigits, b, [] => some (sawdot, sawdigits, b, [])
  | sawdot, sawdigits, b, c :: s =>
    if c = 0x5F then
      scan sawdot sawdigits b s
    else if c = 0x2E then
      if sawdot then none else scan true sawdigits { b with dp := b.nd } s
    else if isDigit c then
      if c = 0x30 ∧ b.d = [] then
        scan sawdot true { b with dp := i32 (b.dp - 1) } s
      else if b.d.length < maxDigits then
        scan sawdot true { b with d := b.d ++ [digitVal c] } s
      else
        scan sawdot true { b with trunc := b.trunc || c ≠ 0x30 } s
    else
      some (sawdot, sawdigits, b, c :: s)

def set (s : List UInt8) : Option Decimal := do
  if s = [] then
    none
  let neg := s.head? = some 0x2D
  let s := if s.head? = some 0x2B ∨ neg then s.drop 1 else s
  let (sawdot, sawdigits, b, s) ← scan false false { new with neg := neg } s
  if !sawdigits then
    none
  let b := if !sawdot then { b with dp := b.nd } else b
  let (b, s) ←
    if s.head?.map lower = some 0x65 then do
      let (e, _, s) ← readExponent (s.drop 1)
      some ({ b with dp := i32 (b.dp + e) }, s)
    else
      some (b, s)
  if s ≠ [] then none else some b

def powtab : List Nat :=
  [1, 3, 6, 9, 13, 16, 19, 23, 26]

-- The loops that scale into the range from 0.5 to 1. A round shifts by one bit at least, and the number is between
-- `2 ^ -1100` and `2 ^ 1100`.
def scaleDown : Nat → Decimal → ℤ → Decimal × ℤ
  | 0, d, exp => (d, exp)
  | fuel + 1, d, exp =>
    if d.dp > 0 then
      let n := powtab.getD d.dp.toNat 27
      scaleDown fuel (d.shift (-n)) (exp + n)
    else
      (d, exp)

def scaleUp : Nat → Decimal → ℤ → Decimal × ℤ
  | 0, d, exp => (d, exp)
  | fuel + 1, d, exp =>
    if d.dp < 0 ∨ (d.dp = 0 ∧ d.d.headD 0 < 5) then
      let n := powtab.getD (-d.dp).toNat 27
      scaleUp fuel (d.shift n) (exp - n)
    else
      (d, exp)

def mantbits : Nat := 52

def expbits : Nat := 11

def bias : ℤ := -1023

def assemble (neg : Bool) (mant : Nat) (exp : ℤ) : Nat :=
  mant % 2 ^ mantbits + (exp - bias).toNat % 2 ^ expbits * 2 ^ mantbits + if neg then 2 ^ (mantbits + expbits) else 0

def floatBits (d : Decimal) : Nat × Bool :=
  let overflow := (assemble d.neg 0 (2 ^ expbits - 1 + bias), true)
  if d.d = [] then
    (assemble d.neg 0 bias, false)
  else if d.dp > 310 then
    overflow
  else if d.dp < -330 then
    (assemble d.neg 0 bias, false)
  else
    let (d, exp) := scaleDown 1100 d 0
    let (d, exp) := scaleUp 1100 d exp
    let exp := exp - 1
    let (d, exp) := if exp < bias + 1 then (d.shift (-(bias + 1 - exp)), bias + 1) else (d, exp)
    if exp - bias ≥ 2 ^ expbits - 1 then
      overflow
    else
      let d := d.shift (1 + mantbits)
      let mant := d.roundedInteger
      let (mant, exp) := if mant = 2 * 2 ^ mantbits then (mant / 2, exp + 1) else (mant, exp)
      if exp - bias ≥ 2 ^ expbits - 1 then
        overflow
      else
        let exp := if mant / 2 ^ mantbits % 2 = 0 then bias else exp
        (assemble d.neg mant exp, false)

end Decimal

def float64pow10 (n : Nat) : Nat :=
  Binary64.nearest false (10 ^ n) 1

def atof64exact (mantissa : Nat) (exp : ℤ) (neg : Bool) : Option Nat :=
  if mantissa / 2 ^ Decimal.mantbits ≠ 0 then
    none
  else
    let f := Binary64.nearest neg mantissa 1
    if exp = 0 then
      some f
    else if exp > 0 ∧ exp ≤ 15 + 22 then
      let (f, exp) := if exp > 22 then (Binary64.mul f (float64pow10 (exp.toNat - 22)), 22) else (f, exp)
      if Binary64.magnitudeLt (float64pow10 15) f then none else some (Binary64.mul f (float64pow10 exp.toNat))
    else if exp < 0 ∧ exp ≥ -22 then
      some (Binary64.div f (float64pow10 (-exp).toNat))
    else
      none

def hexShiftUp : Nat → Nat → ℤ → Nat × ℤ
  | 0, mantissa, exp => (mantissa, exp)
  | fuel + 1, mantissa, exp =>
    if mantissa ≠ 0 ∧ mantissa / 2 ^ (Decimal.mantbits + 2) = 0 then
      hexShiftUp fuel (mantissa * 2) (exp - 1)
    else
      (mantissa, exp)

def sticky (mantissa : Nat) : Nat :=
  mantissa / 2 ||| mantissa % 2

def hexShiftDown : Nat → Nat → ℤ → Nat × ℤ
  | 0, mantissa, exp => (mantissa, exp)
  | fuel + 1, mantissa, exp =>
    if mantissa / 2 ^ (1 + Decimal.mantbits + 2) ≠ 0 then hexShiftDown fuel (sticky mantissa) (exp + 1) else (mantissa, exp)

def hexDenormal (minExp : ℤ) : Nat → Nat → ℤ → Nat × ℤ
  | 0, mantissa, exp => (mantissa, exp)
  | fuel + 1, mantissa, exp =>
    if mantissa > 1 ∧ exp < minExp - 2 then hexDenormal minExp fuel (sticky mantissa) (exp + 1) else (mantissa, exp)

def atofHex (mantissa : Nat) (exp : ℤ) (neg trunc : Bool) : Nat × Option NumError :=
  let maxExp := 2 ^ Decimal.expbits + Decimal.bias - 2
  let minExp := Decimal.bias + 1
  let (mantissa, exp) := hexShiftUp 64 mantissa (exp + Decimal.mantbits)
  let mantissa := if trunc then mantissa ||| 1 else mantissa
  let (mantissa, exp) := hexShiftDown 64 mantissa exp
  let (mantissa, exp) := hexDenormal minExp 64 mantissa exp
  let round := mantissa % 4
  let mantissa := mantissa / 4
  let round := round ||| mantissa % 2
  let exp := exp + 2
  let (mantissa, exp) :=
    if round = 3 then
      if mantissa + 1 = 2 ^ (1 + Decimal.mantbits) then ((mantissa + 1) / 2, exp + 1) else (mantissa + 1, exp)
    else
      (mantissa, exp)
  let exp := if mantissa / 2 ^ Decimal.mantbits = 0 then Decimal.bias else exp
  if exp > maxExp then
    (Decimal.assemble neg (2 ^ Decimal.mantbits) (maxExp + 1), some .errRange)
  else
    (Decimal.assemble neg mantissa exp, none)

def atof64 (s : List UInt8) : Nat × Nat × Option NumError :=
  match special s with
  | some (val, n) => (val, n, none)
  | none =>
    match readFloat s with
    | none => (0, 0, some .errSyntax)
    | some r =>
      let n := s.length - r.rest.length
      if r.hex then
        let (f, err) := atofHex r.mantissa r.exp r.neg r.trunc
        (f, n, err)
      else
        match if !r.trunc then atof64exact r.mantissa r.exp r.neg else none with
        | some f => (f, n, none)
        | none =>
          match Decimal.set (s.take n) with
          | none => (0, n, some .errSyntax)
          | some d =>
            let (b, ovf) := d.floatBits
            (b, n, if ovf then some .errRange else none)

def parseFloat (s : List UInt8) : Nat × Option NumError :=
  let (f, n, err) := atof64 s
  if n ≠ s.length ∧ err ≠ some .errSyntax then
    (0, some .errSyntax)
  else
    (f, err)

end Strconv
