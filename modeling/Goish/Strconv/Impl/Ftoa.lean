import Goish.Strconv.Impl.Atof

/-! `strconv::FormatFloat` for 64 bits in the formats `e` and `f` with the least number of digits. -/

namespace Strconv

open Decimal

inductive Format where
  | e
  | f
  deriving DecidableEq

def digitByte (c : Nat) : UInt8 :=
  .ofNat (0x30 + c)

inductive Delta where
  | none
  | one
  | more
  deriving DecidableEq

def Delta.next (upperdelta : Delta) (m u : Nat) : Delta :=
  if upperdelta = .none ∧ m + 1 < u then
    .more
  else if upperdelta = .none ∧ m ≠ u then
    .one
  else if upperdelta = .one ∧ (m ≠ 9 ∨ u ≠ 0) then
    .more
  else
    upperdelta

def place (d : Decimal) (i : ℤ) : Nat :=
  if i ≥ 0 ∧ i < d.nd then d.d.getD i.toNat 0 else 0

def roundShortest.go (inclusive : Bool) (upper lower : Decimal) : Nat → Delta → ℤ → Decimal → Decimal
  | 0, _, _, d => d
  | fuel + 1, upperdelta, ui, d =>
    let mi := ui - upper.dp + d.dp
    if mi ≥ d.nd then
      d
    else
      let li := ui - upper.dp + lower.dp
      let l := place lower li
      let m := place d mi
      let u := place upper ui
      let okdown := l ≠ m ∨ (inclusive ∧ li + 1 = lower.nd)
      let upperdelta := upperdelta.next m u
      let okup := upperdelta ≠ .none ∧ (inclusive ∨ upperdelta = .more ∨ ui + 1 < upper.nd)
      if okdown ∧ okup then
        d.round (mi + 1)
      else if okdown then
        d.roundDown (mi + 1)
      else if okup then
        d.roundUp (mi + 1)
      else
        go inclusive upper lower fuel upperdelta (ui + 1) d

def roundShortest (d : Decimal) (mant : Nat) (exp : ℤ) : Decimal :=
  if mant = 0 then
    { d with d := [] }
  else
    let minexp := bias + 1
    if exp > minexp ∧ 332 * (d.dp - d.nd) ≥ 100 * (exp - mantbits) then
      d
    else
      let upper := (Decimal.new.assign (mant * 2 + 1)).shift (exp - mantbits - 1)
      let (mantlo, explo) :=
        if mant > 2 ^ mantbits ∨ exp = minexp then (mant - 1, exp) else (mant * 2 - 1, exp - 1)
      let lower := (Decimal.new.assign (mantlo * 2 + 1)).shift (explo - mantbits - 1)
      -- The upper bound has at most one place more than `d`.
      roundShortest.go (mant % 2 = 0) upper lower (d.d.length + 2) .none 0 d

def exponentDigits (e : Nat) : List UInt8 :=
  if e < 10 then
    [0x30, digitByte e]
  else if e < 100 then
    [digitByte (e / 10), digitByte (e % 10)]
  else
    [digitByte (e / 100), digitByte (e / 10 % 10), digitByte (e % 10)]

def fmtE (neg : Bool) (d : Decimal) (prec : Nat) : List UInt8 :=
  let sign := if neg then [0x2D] else []
  let first := [digitByte (d.d.headD 0)]
  let frac :=
    if prec > 0 then
      let m := min d.d.length (prec + 1)
      let digits := (d.d.take m).drop 1
      0x2E :: (digits.map digitByte ++ List.replicate (prec - digits.length) 0x30)
    else
      []
  let exp := if d.d = [] then 0 else d.dp - 1
  let esign := if exp < 0 then [0x2D] else [0x2B]
  sign ++ first ++ frac ++ 0x65 :: (esign ++ exponentDigits exp.natAbs)

def fmtF (neg : Bool) (d : Decimal) (prec : Nat) : List UInt8 :=
  let sign := if neg then [0x2D] else []
  let whole :=
    if d.dp > 0 then
      let m := min d.d.length d.dp.toNat
      (d.d.take m).map digitByte ++ List.replicate (d.dp.toNat - m) 0x30
    else
      [0x30]
  let frac :=
    if prec > 0 then
      0x2E :: (List.range prec).map fun (i : Nat) =>
        let j := d.dp + i
        if j ≥ 0 ∧ j < d.nd then digitByte (d.d.getD j.toNat 0) else 0x30
    else
      []
  sign ++ whole ++ frac

def formatDigits (fmt : Format) (neg : Bool) (d : Decimal) : List UInt8 :=
  match fmt with
  | .e => fmtE neg d (max (d.nd - 1) 0).toNat
  | .f => fmtF neg d (max (d.nd - d.dp) 0).toNat

def bigFtoa (fmt : Format) (neg : Bool) (mant : Nat) (exp : ℤ) : List UInt8 :=
  formatDigits fmt neg (roundShortest ((Decimal.new.assign mant).shift (exp - mantbits)) mant exp)

def nanString : List UInt8 :=
  [0x4E, 0x61, 0x4E]

def infString (neg : Bool) : List UInt8 :=
  [if neg then 0x2D else 0x2B, 0x49, 0x6E, 0x66]

def formatFloat (val : Nat) (fmt : Format) : List UInt8 :=
  let neg := Binary64.signBit val
  let exp := Binary64.exponentBits val
  let mant := Binary64.mantissaBits val
  if exp = 2 ^ expbits - 1 then
    if mant ≠ 0 then nanString else infString neg
  else if exp = 0 then
    bigFtoa fmt neg mant (1 + bias)
  else
    bigFtoa fmt neg (2 ^ mantbits + mant) (exp + bias)

end Strconv
