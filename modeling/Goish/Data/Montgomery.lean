import Mathlib.Data.ZMod.Basic
import Mathlib.Tactic.Ring
import Mathlib.Tactic.Linarith

/-! Montgomery's multiplication modulo `M` with the factor `R`, and Newton's iteration for an inverse. -/

namespace Montgomery

section Row

variable {b v v' a d y m : Nat}

theorem row_lt (hrow : b * v' = v + a * d + y * m) (hv : v < a + m) (hd : d < b) (hy : y < b) : v' < a + m := by
  have had : a * d + a ≤ a * b := by
    rw [← Nat.mul_succ]
    exact Nat.mul_le_mul_left a hd
  have hym : y * m + m ≤ b * m := by
    rw [← Nat.succ_mul]
    exact Nat.mul_le_mul_right m hy
  apply Nat.lt_of_mul_lt_mul_left (a := b)
  rw [hrow, mul_add, mul_comm b a]
  omega

theorem row_modEq (hrow : b * v' = v + a * d + y * m) (hrest : b ^ k * r ≡ v' + a * c [MOD m])
    : b ^ (k + 1) * r ≡ v + a * (d + b * c) [MOD m] := by
  have hmul := hrest.mul_left b
  have hleft : b ^ (k + 1) * r = b * (b ^ k * r) := by ring
  have hright : b * (v' + a * c) = v + a * (d + b * c) + y * m := by
    rw [mul_add, hrow]
    ring
  rw [hleft]
  rw [hright] at hmul
  exact hmul.trans (Nat.add_mul_modulus_modEq_iff.mpr rfl)

end Row

section Repr

variable {M R : Nat}

def repr (M R x : Nat) : ZMod M :=
  x * (R : ZMod M)⁻¹

theorem repr_mul (hR : R.Coprime M) (x : Nat) : repr M R x * R = x := by
  unfold repr
  rw [mul_assoc, mul_comm (R : ZMod M)⁻¹, ZMod.coe_mul_inv_eq_one R hR, mul_one]

theorem repr_eq_iff (hR : R.Coprime M) : repr M R x = z ↔ (x : ZMod M) = z * R := by
  constructor
  . rintro rfl
    rw [repr_mul hR]
  . intro heq
    unfold repr
    rw [heq, mul_assoc, ZMod.coe_mul_inv_eq_one R hR, mul_one]

theorem repr_of_modEq (hR : R.Coprime M) (h : R * r ≡ a * b [MOD M]) : repr M R r = repr M R a * repr M R b := by
  rw [repr_eq_iff hR, mul_assoc, repr_mul hR]
  have hcast := (ZMod.natCast_eq_natCast_iff _ _ _).mpr h
  push_cast at hcast
  unfold repr
  calc (r : ZMod M)
    _ = r * (R * (R : ZMod M)⁻¹) := by rw [ZMod.coe_mul_inv_eq_one R hR, mul_one]
    _ = (R * r) * (R : ZMod M)⁻¹ := by ring
    _ = a * (R : ZMod M)⁻¹ * b := by rw [hcast]; ring

theorem eq_mod_of_cast {r v : Nat} (hlt : r < M) (h : (r : ZMod M) = (v : ZMod M)) : r = v % M := by
  rw [ZMod.natCast_eq_natCast_iff'] at h
  rw [← h, Nat.mod_eq_of_lt hlt]

end Repr

theorem newton_step [CommRing A] {x y p z : A} (h : 1 - x * y = p * z)
    : 1 - x * (y * (2 - x * y)) = p * p * (z * z) := by
  calc 1 - x * (y * (2 - x * y))
    _ = (1 - x * y) * (1 - x * y) := by ring
    _ = p * p * (z * z) := by rw [h]; ring

end Montgomery
