import Mathlib.Data.Int.Notation

/-! The conversion `[]rune(s)`. -/

namespace Utf8

def fromUtf8 (p : List UInt8) : List Char × List UInt8 :=
  go p.length p
where
  go : Nat → List UInt8 → List Char × List UInt8
    | 0, p => ([], p)
    | fuel + 1, p =>
      match p.toByteArray.utf8DecodeChar? 0 with
      | none => ([], p)
      | some c =>
        let (cs, rest) := go fuel (p.drop c.utf8Size)
        (c :: cs, rest)

def runes (p : List UInt8) : List ℤ :=
  go (p.length + 1) p
where
  go : Nat → List UInt8 → List ℤ
    | 0, _ => []
    | fuel + 1, p =>
      let (cs, rest) := fromUtf8 p
      let out := cs.map fun c => (c.toNat : ℤ)
      match rest with
      | [] => out
      | _ :: rest => out ++ 0xFFFD :: go fuel rest

end Utf8
