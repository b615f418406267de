import Goish.Math.Big.Lemmas.Division
import Goish.Math.Big.Impl.Int
import Mathlib.Data.Int.Lemmas

open Limbs

namespace Big

def Int.toInt (x : Int) : ℤ :=
  if x.neg then -(value x.abs : ℤ) else value x.abs

structure Int.Canonical (x : Int) : Prop where
  abs : Limbs.Canonical x.abs
  neg : x.abs = [] → x.neg = false

inductive Denotes : Int → ℤ → Prop where
  | nonneg {l : List UInt32} (hl : Limbs.Canonical l) : Denotes { neg := false, abs := l } (value l)
  | neg {l : List UInt32} (hl : Limbs.Canonical l) (hpos : 0 < value l)
    : Denotes { neg := true, abs := l } (-(value l : ℤ))

variable {x y : Int} {l : List UInt32} {m n : ℤ}

theorem denotes_iff : Denotes x n ↔ x.Canonical ∧ x.toInt = n := by
  constructor
  . intro h
    cases h with
    | nonneg hl => exact ⟨⟨hl, fun _ => rfl⟩, rfl⟩
    | @neg _ hl =>
      refine ⟨⟨hl, ?_⟩, rfl⟩
      intro hnil
      have hzero := hl.value_eq_zero_iff.mpr hnil
      omega
  rintro ⟨⟨hl, hneg⟩, rfl⟩
  rcases x with ⟨s, l⟩
  cases s with
  | false => exact .nonneg hl
  | true =>
    apply Denotes.neg hl
    apply hl.value_pos
    intro hnil
    have := hneg hnil
    contradiction

theorem Denotes.of_nonneg (hl : Limbs.Canonical l) (h : (value l : ℤ) = n) : Denotes { neg := false, abs := l } n := by
  rw [← h]
  exact .nonneg hl

theorem Denotes.of_neg (hl : Limbs.Canonical l) (h : -(value l : ℤ) = n) (hn : n < 0)
    : Denotes { neg := true, abs := l } n := by
  rw [← h]
  exact .neg hl (by omega)

theorem Denotes.signed (s : Bool) (hl : Limbs.Canonical l) (h : (if s then -(value l : ℤ) else value l) = n)
    : Denotes { neg := !l.isEmpty && s, abs := l } n := by
  rw [← h]
  cases l with
  | nil => cases s <;> exact .nonneg hl
  | cons =>
    cases s with
    | false => exact .nonneg hl
    | true => exact .neg hl (hl.value_pos (by simp))

theorem Denotes.abs_canonical (h : Denotes x n) : Limbs.Canonical x.abs := by
  cases h <;> assumption

theorem Denotes.natAbs_eq (h : Denotes x n) : n.natAbs = value x.abs := by
  cases h
  . rfl
  . simp

theorem Denotes.ne_zero_iff (h : Denotes x n) : n ≠ 0 ↔ x.abs ≠ [] := by
  rw [Ne, Ne, ← h.abs_canonical.value_eq_zero_iff, ← h.natAbs_eq, Int.natAbs_eq_zero]

theorem subLimbs_eq (hb : Limbs.Canonical b) (hle : value b ≤ value a) : value (subLimbs a b) = value a - value b := by
  apply subLimbs_value _ hle
  apply Decidable.byContradiction
  intro _
  have := hb.value_lt_of_length_lt (l := a) (by omega)
  omega

theorem subLimbs_denotes (s : Bool) (hb : Limbs.Canonical b) (hlt : value b < value a)
    (hn : n = if s then (value b : ℤ) - value a else value a - value b)
    : Denotes { neg := s, abs := subLimbs a b } n := by
  have hvalue := subLimbs_eq hb hlt.le
  cases s with
  | false =>
    rw [if_neg (by simp)] at hn
    apply Denotes.of_nonneg (subLimbs_canonical _ _)
    omega
  | true =>
    rw [if_pos rfl] at hn
    apply Denotes.of_neg (subLimbs_canonical _ _)
    all_goals omega

theorem addSigned_opposite (s : Bool) (ha : Limbs.Canonical a) (hb : Limbs.Canonical b)
    (hn : n = if s then (value b : ℤ) - value a else value a - value b)
    : Denotes (addSigned { neg := s, abs := a } { neg := !s, abs := b }) n := by
  unfold addSigned
  rw [if_neg (by simp)]
  rw [absCmp_eq ha hb]
  split
  . next heq =>
    rw [Nat.compare_eq_eq] at heq
    apply Denotes.of_nonneg canonical_nil
    rw [hn, heq]
    simp
  . next hgt =>
    rw [Nat.compare_eq_gt] at hgt
    exact subLimbs_denotes s hb hgt hn
  . next hlt =>
    rw [Nat.compare_eq_lt] at hlt
    apply subLimbs_denotes (!s) ha hlt
    cases s <;> exact hn

theorem addSigned_denotes (hx : Denotes x m) (hy : Denotes y n) : Denotes (addSigned x y) (m + n) := by
  cases hx with
  | @nonneg a ha =>
    cases hy with
    | @nonneg b =>
      have hvalue := addLimbs_value a b
      apply Denotes.of_nonneg (addLimbs_canonical a b)
      omega
    | @neg _ hb => exact addSigned_opposite false ha hb rfl
  | @neg a ha =>
    cases hy with
    | @nonneg b hb => exact addSigned_opposite true ha hb (by rw [if_pos rfl]; omega)
    | @neg b =>
      have hvalue := addLimbs_value a b
      have hne : a.isEmpty = false := by
        rw [List.isEmpty_eq_false_iff, Ne, ← ha.value_eq_zero_iff]
        omega
      unfold addSigned
      rw [if_pos rfl]
      rw [hne]
      apply Denotes.of_neg (addLimbs_canonical a b)
      all_goals omega

theorem setInt64_denotes (v : Int64) : Denotes (setInt64 v) v.toInt := by
  have hle := v.le_toInt
  have hlt := v.toInt_lt
  unfold setInt64
  split
  . next hneg =>
    apply Denotes.of_neg (u64ToLimbs_canonical _)
    . rw [u64ToLimbs_value, UInt64.toNat_ofNat']
      omega
    . exact hneg
  . apply Denotes.of_nonneg (u64ToLimbs_canonical _)
    rw [u64ToLimbs_value, UInt64.ofInt, UInt64.toNat_ofNat']
    omega

theorem addInt64_denotes (hx : Denotes x n) (delta : Int64) : Denotes (addInt64 x delta) (n + delta.toInt) := by
  unfold addInt64
  split
  . next hzero =>
    rwa [hzero, show (0 : Int64).toInt = 0 from rfl, Int.add_zero]
  . exact addSigned_denotes hx (setInt64_denotes delta)

end Big
