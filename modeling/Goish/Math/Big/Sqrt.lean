import Goish.Math.Big.Division
import Goish.Math.Big.Lemmas.Bitwise
import Mathlib.Tactic.Linarith

open Limbs

namespace Big

variable {x y : Int} {m n : ℤ}

theorem sign_cases (hx : Denotes x m)
    : sign x = -1 ∧ x.neg = true ∧ m = -value x.abs ∧ m < 0 ∨ sign x = 0 ∧ x.neg = false ∧ m = value x.abs ∧ m = 0 ∨
        sign x = 1 ∧ x.neg = false ∧ m = value x.abs ∧ 0 < m := by
  have hzero := hx.ne_zero_iff
  unfold sign
  cases hx with
  | @nonneg a =>
    cases a with
    | nil => exact .inr (.inl ⟨rfl, rfl, rfl, rfl⟩)
    | cons => exact .inr (.inr ⟨rfl, rfl, rfl, by have := hzero.mpr (by simp); omega⟩)
  | @neg =>
    have hne := hzero.mp (by omega)
    rw [List.isEmpty_eq_false_iff.mpr hne]
    exact .inl ⟨rfl, rfl, rfl, by omega⟩

theorem cmp_denotes (hx : Denotes x m) (hy : Denotes y n) : cmp x y = if m < n then -1 else if m = n then 0 else 1 := by
  have habs := absCmp_eq hx.abs_canonical hy.abs_canonical
  rcases sign_cases hx with ⟨h, hneg, _⟩ | ⟨h, hneg, _⟩ | ⟨h, hneg, _⟩ <;>
    rcases sign_cases hy with ⟨h', _⟩ | ⟨h', _⟩ | ⟨h', _⟩ <;>
      simp only [cmp, h, h', hneg, habs, Nat.compare_eq_ite_lt, Int.reduceLT, Int.reduceNeg, gt_iff_lt,
        Bool.false_eq_true, if_true, if_false] <;>
        split_ifs <;> first | rfl | omega

theorem value_lt_bitLen (a : List UInt32) : value a < 2 ^ bitLen a := by
  rw [← value_trim a]
  unfold bitLen
  split
  . next h =>
    rw [List.getLast?_eq_none_iff.mp h]
    decide
  next top h =>
  obtain ⟨l, hl⟩ := List.getLast?_eq_some_iff.mp h
  have htop : top.toNat < 2 ^ (32 - Word.leadingZeros top.toBitVec) := BitVec.toNat_lt_two_pow_sub_clz
  have hlow := value_lt l
  rw [hl, value_append, value_singleton, List.length_append, List.length_singleton, Nat.add_sub_cancel,
    mul_comm l.length, pow_add]
  have := Nat.mul_le_mul_left (2 ^ (32 * l.length)) htop
  rw [Nat.mul_succ] at this
  omega

section Newton

variable {k t : Nat}

theorem lt_newton_succ_sq (k : Nat) (ht : 0 < t) : k < ((t + k / t) / 2 + 1) * ((t + k / t) / 2 + 1) := by
  have hlt := Nat.lt_mul_div_succ k ht
  have hhalf : t + k / t + 1 ≤ 2 * ((t + k / t) / 2 + 1) := by omega
  generalize k / t = q at *
  nlinarith [Nat.mul_le_mul hhalf hhalf, sq_nonneg ((t : ℤ) - (q + 1))]

theorem sq_le_of_newton_le (hle : t ≤ (t + k / t) / 2) : t * t ≤ k := by
  have hq : t ≤ k / t := by omega
  exact (Nat.mul_le_mul_left t hq).trans (Nat.mul_div_le k t)

end Newton

theorem sqrt.go_denotes {k : Nat} (hx : Denotes x k) (hk : 0 < k) (fuel t : Nat) (hy : Denotes y t) (ht : 0 < t)
    (hlt : k < (t + 1) * (t + 1)) (hfuel : t < fuel) : ∃ z, sqrt.go x fuel y = some z ∧ Denotes z k.sqrt := by
  induction fuel generalizing t y with
  | zero => contradiction
  | succ _ ih =>
    obtain ⟨_, hdiv, hq⟩ := div_denotes hx hy (by omega)
    obtain ⟨_, hhalf, hnext⟩ := div_denotes (addSigned_denotes hy hq) (setInt64_denotes 2) (by decide)
    rw [show (2 : Int64).toInt = (2 : Nat) from rfl, ← Int.natCast_ediv, ← Nat.cast_add, ← Int.natCast_ediv] at hnext
    unfold sqrt.go add
    simp only [hdiv, hhalf, Option.bind_eq_bind, Option.bind_some, cmp_denotes hnext hy, Nat.cast_lt, Nat.cast_inj]
    have hsq := lt_newton_succ_sq k ht
    by_cases hdown : (t + k / t) / 2 < t
    . rw [if_pos hdown]
      have hpos : 0 < (t + k / t) / 2 := by
        rw [Nat.pos_iff_ne_zero]
        intro hzero
        rw [hzero] at hsq
        omega
      exact ih _ hnext hpos hsq (by omega)
    . have hroot : t = k.sqrt := Nat.eq_sqrt.mpr ⟨sq_le_of_newton_le (by omega), hlt⟩
      rw [if_neg hdown, if_pos (by split <;> decide), ← hroot]
      exact ⟨y, rfl, hy⟩

theorem sqrt_greatest (k : Nat) : (k.sqrt * k.sqrt : ℤ) ≤ k ∧ ∀ w : ℤ, w * w ≤ k → w ≤ k.sqrt := by
  constructor
  . exact_mod_cast Nat.sqrt_le k
  . intro _ _
    have hlt : (k : ℤ) < (k.sqrt + 1) * (k.sqrt + 1) := by exact_mod_cast Nat.lt_succ_sqrt k
    nlinarith

theorem sqrt_denotes {k : Nat} (hx : Denotes x k) : ∃ N, ∀ fuel ≥ N, ∃ z, sqrt fuel x = some z ∧ Denotes z k.sqrt := by
  obtain ⟨t, ht⟩ : ∃ t, t = 2 ^ ((bitLen x.abs + 1) / 2) := ⟨_, rfl⟩
  have hguess : Denotes { neg := false, abs := lshLimbs (setInt64 1).abs ((bitLen x.abs + 1) / 2) } t := by
    apply Denotes.of_nonneg (lshLimbs_canonical _ _)
    rw [lshLimbs_value, ← ht, show value (setInt64 1).abs = 1 by decide, one_mul]
  have hlt : k < (t + 1) * (t + 1) := by
    have hbits := value_lt_bitLen x.abs
    have hpow := Nat.pow_le_pow_right (n := 2) (by omega)
      (show bitLen x.abs ≤ (bitLen x.abs + 1) / 2 + (bitLen x.abs + 1) / 2 by omega)
    rw [pow_add, ← ht] at hpow
    rw [← hx.natAbs_eq, Int.natAbs_natCast] at hbits
    nlinarith
  refine ⟨t + 1, ?_⟩
  intro fuel _
  have hone := setInt64_denotes 1
  rw [show (1 : Int64).toInt = 1 from rfl] at hone
  have hneg : x.neg = false := by
    rcases sign_cases hx with h | h | h
    . omega
    . exact h.2.1
    . exact h.2.1
  have hcmp := cmp_denotes hx hone
  have hzero := hx.ne_zero_iff
  unfold sqrt
  simp only [hneg, Bool.false_eq_true, if_false, hcmp, List.isEmpty_iff]
  by_cases hk : k = 0
  . rw [hk] at hzero ⊢
    rw [if_pos (by simpa using hzero)]
    exact ⟨_, rfl, setInt64_denotes 0⟩
  rw [if_neg (hzero.mp (by omega))]
  by_cases hk1 : k = 1
  . rw [hk1]
    exact ⟨_, rfl, hone⟩
  rw [if_neg (by split_ifs <;> omega)]
  have hpos : 0 < t := ht ▸ Nat.two_pow_pos _
  obtain ⟨_, hgo, hz⟩ := sqrt.go_denotes hx (by omega) fuel t hguess hpos hlt (by omega)
  rw [hgo]
  exact ⟨_, rfl, Denotes.of_nonneg hz.abs_canonical (by rw [← hz.natAbs_eq]; rfl)⟩

theorem sqrt_exact (hx : x.Canonical) (hpos : 0 ≤ x.toInt)
    : ∃ N, ∀ fuel ≥ N, ∃ z, sqrt fuel x = some z ∧ z.Canonical ∧ z.toInt * z.toInt ≤ x.toInt ∧
        ∀ w, w * w ≤ x.toInt → w ≤ z.toInt := by
  have h : Denotes x x.toInt.toNat := by
    rw [Int.toNat_of_nonneg hpos]
    exact denotes_iff.mpr ⟨hx, rfl⟩
  obtain ⟨N, hN⟩ := sqrt_denotes h
  refine ⟨N, ?_⟩
  intro fuel hfuel
  obtain ⟨z, hz, hroot⟩ := hN fuel hfuel
  have hgreatest := sqrt_greatest x.toInt.toNat
  rw [denotes_iff] at hroot
  rw [Int.toNat_of_nonneg hpos, ← hroot.2] at hgreatest
  exact ⟨z, hz, hroot.1, hgreatest⟩

theorem sqrt_exact_ten : ∃ N, ∀ fuel ≥ N, ∃ z, sqrt fuel { neg := false, abs := [10] } = some z ∧ z.toInt = 3 := by
  obtain ⟨N, hN⟩ := sqrt_exact (x := { neg := false, abs := [10] }) ⟨by decide, by decide⟩ (by decide)
  refine ⟨N, ?_⟩
  intro fuel hfuel
  obtain ⟨z, hz, _, hle, hgreatest⟩ := hN fuel hfuel
  rw [show Int.toInt { neg := false, abs := [10] } = 10 by decide] at hle hgreatest
  exact ⟨z, hz, le_antisymm (by nlinarith) (hgreatest 3 (by decide))⟩

end Big
