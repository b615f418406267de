import Mathlib.Data.Nat.Bitwise

/-! `u64::trailing_zeros`, `u64::leading_zeros` and `u64::count_ones` with the count as a `Nat`. -/

open List BitVec

namespace Word

def trailingZeros (x : BitVec w) : Nat :=
  x.ctz.toNat

def leadingZeros (x : BitVec w) : Nat :=
  x.clz.toNat

def countOnes (x : BitVec w) : Nat :=
  (List.range w).countP x.getLsbD

section Zeros

variable {w : Nat} {x : BitVec w}

theorem leadingZeros_le : leadingZeros x ≤ w := by
  have := clz_le (x := x)
  simpa [leadingZeros, le_def] using this

theorem trailingZeros_le : trailingZeros x ≤ w := by
  unfold trailingZeros
  rw [ctz_eq_reverse_clz]
  apply leadingZeros_le

theorem leadingZeros_zero : leadingZeros (0#w) = w := by
  unfold leadingZeros
  rw [clz_eq_iff_eq_zero.mpr rfl]
  simp

theorem trailingZeros_zero : trailingZeros (0#w) = w := by
  unfold trailingZeros
  rw [ctz_eq_reverse_clz, reverse_eq_zero_iff.mpr rfl]
  apply leadingZeros_zero

theorem trailingZeros_lt (h : x ≠ 0#w) : trailingZeros x < w := by
  have := ctz_lt_iff_ne_zero.mpr h
  simpa [trailingZeros, lt_def] using this

theorem trailingZeros_eq_width_iff : trailingZeros x = w ↔ x = 0#w := by
  constructor
  . intro h
    by_cases h0 : x = 0#w
    . exact h0
    . have := trailingZeros_lt h0
      omega
  . intro h
    rw [h, trailingZeros_zero]

theorem leadingZeros_lt (h : x ≠ 0#w) : leadingZeros x < w := by
  have := clz_lt_iff_ne_zero.mpr h
  simpa [leadingZeros, lt_def] using this

theorem getLsbD_of_lt_trailingZeros (h : i < trailingZeros x) : x.getLsbD i = false :=
  getLsbD_false_of_lt_ctz h

theorem getLsbD_trailingZeros (h : x ≠ 0#w) : x.getLsbD (trailingZeros x) = true :=
  getLsbD_true_ctz_of_ne_zero h

theorem getLsbD_of_leadingZeros (h : w - leadingZeros x ≤ i) : x.getLsbD i = false := by
  by_cases hi : i < w
  . have hlt : x.toNat < 2 ^ i := by
      apply lt_of_lt_of_le
      . exact toNat_lt_two_pow_sub_clz
      . exact Nat.pow_le_pow_right (by omega) h
    simp only [getLsbD]
    exact Nat.testBit_lt_two_pow hlt
  . exact getLsbD_of_ge _ _ (by omega)

theorem getLsbD_leadingZeros (hw : 0 < w) (h : x ≠ 0#w) : x.getLsbD (w - 1 - leadingZeros x) = true :=
  getLsbD_true_clz_of_ne_zero hw h

theorem succ_mul_two_pow_leadingZeros_le : (x.toNat + 1) * 2 ^ leadingZeros x ≤ 2 ^ w := by
  have hlt : x.toNat < 2 ^ (w - leadingZeros x) := toNat_lt_two_pow_sub_clz
  have hpow : 2 ^ (w - leadingZeros x) * 2 ^ leadingZeros x = 2 ^ w := by
    rw [← pow_add, Nat.sub_add_cancel leadingZeros_le]
  rw [← hpow]
  exact Nat.mul_le_mul_right _ hlt

theorem le_mul_two_pow_leadingZeros (h : x ≠ 0#w) : 2 ^ (w - 1) ≤ x.toNat * 2 ^ leadingZeros x := by
  have hlt := leadingZeros_lt h
  have hbit : x.toNat.testBit (w - 1 - leadingZeros x) = true := getLsbD_leadingZeros (by omega) h
  have hpow : 2 ^ (w - 1 - leadingZeros x) * 2 ^ leadingZeros x = 2 ^ (w - 1) := by
    rw [← pow_add, Nat.sub_add_cancel (by omega)]
  rw [← hpow]
  exact Nat.mul_le_mul_right _ (Nat.ge_two_pow_of_testBit hbit)

end Zeros

section LowOnes

variable {w : Nat} {x : BitVec w}

theorem trailingZeros_not_le (h : x.getLsbD i = false) (hi : i < w) : trailingZeros (~~~x) ≤ i := by
  rcases lt_or_ge i (trailingZeros (~~~x)) with hlt | hge
  . have := getLsbD_of_lt_trailingZeros hlt
    rw [getLsbD_not, h] at this
    simp [hi] at this
  . exact hge

theorem getLsbD_of_lt_trailingZeros_not (h : i < trailingZeros (~~~x)) : x.getLsbD i = true := by
  have hle := trailingZeros_le (x := ~~~x)
  have := getLsbD_of_lt_trailingZeros h
  simpa [show i < w by omega] using this

theorem getLsbD_trailingZeros_not (h : trailingZeros (~~~x) < w) : x.getLsbD (trailingZeros (~~~x)) = false := by
  have hne : ~~~x ≠ 0#w := by
    intro heq
    rw [heq, trailingZeros_zero] at h
    omega
  have := getLsbD_trailingZeros hne
  simpa [h] using this

theorem getLsbD_add_one (hj : j < w)
    : (x + 1#w).getLsbD j = (x.getLsbD j ^^ decide (∀ i, i < j → x.getLsbD i = true)) := by
  rw [getLsbD_add hj]
  cases j with
  | zero => simp [hj]
  | succ =>
    rw [carry_succ_one _ _ (by omega)]
    simp only [Nat.lt_succ_iff]
    simp

theorem and_add_one_eq_zero_iff : x &&& (x + 1#w) = 0#w ↔ ∀ i j, i < j → x.getLsbD j = true → x.getLsbD i = true := by
  constructor
  . intro h i j hij hj
    have hw := lt_of_getLsbD hj
    have hbit : (x &&& (x + 1#w)).getLsbD j = false := by
      rw [h]
      simp
    rw [getLsbD_and, getLsbD_add_one hw, hj] at hbit
    simp only [Bool.true_and, Bool.true_bne, Bool.not_eq_false', decide_eq_true_eq] at hbit
    exact hbit i hij
  intro h
  apply eq_of_getLsbD_eq
  intro j hj
  rw [getLsbD_and, getLsbD_add_one hj]
  cases hx : x.getLsbD j with
  | false => simp
  | true =>
    have : ∀ i, i < j → x.getLsbD i = true := by
      intro i hij
      exact h i j hij hx
    simpa using this

end LowOnes

theorem countP_or_of_disjoint {l : List α} (hor : ∀ x ∈ l, r x = (p x || q x))
    (hdis : ∀ x ∈ l, p x = true → q x = false) : l.countP r = l.countP p + l.countP q := by
  induction l with
  | nil => rfl
  | cons x l ih =>
    rw [countP_cons, countP_cons, countP_cons, ih, hor x (by simp)]
    . have := hdis x (by simp)
      cases hp : p x with
      | true =>
        rw [this hp]
        simp
        omega
      | false =>
        cases q x <;> simp
        omega
    . intro y hy
      exact hor y (by simp [hy])
    . intro y hy
      exact hdis y (by simp [hy])

theorem countOnes_or {x m : BitVec w} (hdis : ∀ i, x.getLsbD i = true → m.getLsbD i = false)
    : countOnes (x ||| m) = countOnes x + countOnes m := by
  apply countP_or_of_disjoint
  . intro i _
    rw [getLsbD_or]
  . intro i _
    exact hdis i

theorem countOnes_and_not {x m : BitVec w} (hsub : ∀ i, m.getLsbD i = true → x.getLsbD i = true)
    : countOnes (x &&& ~~~m) + countOnes m = countOnes x := by
  symm
  apply countP_or_of_disjoint
  . intro i hi
    rw [mem_range] at hi
    rw [getLsbD_and, getLsbD_not, decide_eq_true hi, Bool.true_and]
    have := hsub i
    cases hm : m.getLsbD i with
    | true =>
      rw [this hm]
      rfl
    | false => simp
  . intro i _
    rw [getLsbD_and, getLsbD_not]
    cases m.getLsbD i <;> simp

theorem countOnes_eq_zero_iff {x : BitVec w} : countOnes x = 0 ↔ x = 0#w := by
  unfold countOnes
  rw [countP_eq_zero]
  constructor
  . intro h
    apply eq_of_getLsbD_eq
    intro i hi
    simpa using h i (mem_range.mpr hi)
  . intro h
    simp [h]

theorem getLsbD_one_shiftLeft (hi : i < w) (j : Nat) : (1#w <<< i).getLsbD j = decide (j = i) := by
  rw [getLsbD_shiftLeft, getLsbD_one, Bool.eq_iff_iff]
  simp only [Bool.and_eq_true, decide_eq_true_eq, Bool.not_eq_true', decide_eq_false_iff_not]
  omega

theorem countOnes_one_shiftLeft (hi : i < w) : countOnes (1#w <<< i) = 1 := by
  calc (List.range w).countP (1#w <<< i).getLsbD
      = (List.range w).count i := by
        apply countP_congr
        intro j _
        rw [getLsbD_one_shiftLeft hi]
        simp
    _ = 1 := by
        rw [count_range, if_pos hi]

end Word
