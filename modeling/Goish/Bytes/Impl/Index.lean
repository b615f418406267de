import Goish.Unicode.Utf8.Impl.Utf8

/-! The searches of `bytes` and `strings`, which answer the same for the same bytes. The index -1 is `none` here. -/

open Utf8

namespace Bytes

def indexByte (s : List UInt8) (c : UInt8) : Option Nat :=
  s.idxOf? c

def indexBytes (substr : List UInt8) : List UInt8 → Option Nat
  | [] => if substr = [] then some 0 else none
  | b :: s => if substr <+: b :: s then some 0 else (indexBytes substr s).map (· + 1)

def indexFunc (f : ℤ → Bool) (s : List UInt8) : Option Nat :=
  go s.length s
where
  go : Nat → List UInt8 → Option Nat
    | 0, _ => none
    | _ + 1, [] => none
    | n + 1, b :: s =>
      let (c, w) := decodeRune (b :: s)
      if f c then some 0 else (go n ((b :: s).drop w)).map (· + w)

def indexRune (s : List UInt8) (r : ℤ) : Option Nat :=
  if 0 ≤ r ∧ r < runeSelf then
    indexByte s (tobyte r)
  else if r = runeError then
    indexFunc (· = runeError) s
  else if !validRune r then
    none
  else
    indexBytes (encodeRune r) s

def containsRune (s : List UInt8) (r : ℤ) : Bool :=
  (indexRune s r).isSome

def indexAny (s chars : List UInt8) : Option Nat :=
  match chars with
  | [] => none
  | [c] => indexRune s (if c.toNat ≥ runeSelf then runeError else c.toNat)
  | _ => indexFunc (containsRune chars) s

def containsAny (s chars : List UInt8) : Bool :=
  (indexAny s chars).isSome

end Bytes
