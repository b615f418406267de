import Mathlib.Tactic.Ring

namespace LongDivision

open Nat

def estimate (b u v : Nat) : Nat :=
  min (u / v) (b - 1)

section

variable {b k u v u' v' : Nat}

theorem le_estimate (hv : 0 < v) (hu : u' < k) (hlt : u * k + u' < b * (v * k + v'))
    : (u * k + u') / (v * k + v') ≤ estimate b u v := by
  have hk : 0 < k := by omega
  apply Nat.le_min.mpr
  constructor
  . apply (Nat.le_div_iff_mul_le hv).mpr
    apply Nat.le_of_lt_succ
    have hmul := div_mul_le_self (u * k + u') (v * k + v')
    generalize (u * k + u') / (v * k + v') = q at hmul
    have hle : q * v * k < (u + 1) * k := by
      calc q * v * k
        _ ≤ q * (v * k + v') := by
          rw [mul_assoc]
          exact mul_le_mul_left q (le_add_right _ _)
        _ < (u + 1) * k := by
          rw [add_mul, one_mul]
          omega
    exact Nat.lt_of_mul_lt_mul_right hle
  . apply Nat.le_sub_one_of_lt
    have hpos : 0 < v * k + v' := lt_of_lt_of_le (Nat.mul_pos hv hk) (Nat.le_add_right _ _)
    exact (div_lt_iff_lt_mul hpos).mpr hlt

theorem estimate_le (u u' : Nat) (hb : 0 < b) (hv : b ≤ v) (hv' : v' < k)
    : estimate b u v ≤ (u * k + u') / (v * k + v') + 1 := by
  have hk : 0 < k := by omega
  have hpos : 0 < v * k + v' := lt_of_lt_of_le (mul_pos (by omega) hk) (le_add_right _ _)
  have hq : estimate b u v ≤ u / v := min_le_left _ _
  have hdigit : estimate b u v ≤ b - 1 := min_le_right _ _
  generalize estimate b u v = q at hq hdigit
  cases q with
  | zero => exact zero_le _
  | succ q =>
    apply succ_le_succ
    apply (le_div_iff_mul_le hpos).mpr
    have hmul : (q + 1) * v ≤ u := (le_div_iff_mul_le (by omega)).mp hq
    have hscaled : (q + 1) * v * k ≤ u * k := mul_le_mul_right k hmul
    have hrest : q * v' ≤ v * k := Nat.mul_le_mul (by omega) (by omega)
    calc q * (v * k + v')
      _ = q * v * k + q * v' := by ring
      _ ≤ q * v * k + v * k := by omega
      _ = (q + 1) * v * k := by ring
      _ ≤ u * k + u' := by omega

end

section Refine

variable {b u v1 v2 : Nat}

theorem test_iff (hr : u = q * v1 + r) : q * v2 ≤ r * b + u2 ↔ q * (v1 * b + v2) ≤ u * b + u2 := by
  have hu : u * b = q * v1 * b + r * b := by
    rw [hr]
    ring
  have hv : q * (v1 * b + v2) = q * v1 * b + q * v2 := by ring
  omega

theorem estimate_le_div (hu2 : u2 < b) (hv : 0 < v1) : estimate b (u * b + u2) (v1 * b + v2) ≤ u / v1 := by
  have hb : 0 < b := by omega
  calc estimate b (u * b + u2) (v1 * b + v2)
    _ ≤ (u * b + u2) / (v1 * b + v2) := min_le_left _ _
    _ ≤ (u * b + u2) / (b * v1) := by
      apply div_le_div_left
      . rw [mul_comm]
        exact le_add_right _ _
      . exact Nat.mul_pos hb hv
    _ = u / v1 := by
      rw [← Nat.div_div_eq_div_mul, mul_comm u, Nat.mul_add_div hb, Nat.div_eq_of_lt hu2, add_zero]

end Refine

end LongDivision
