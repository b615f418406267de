import Mathlib.Data.List.DropRight
import Mathlib.Data.Nat.Bitwise
import Mathlib.Tactic.Ring

/-! Natural numbers as lists of 32-bit words, the least significant first. Every number has one canonical list. -/

open List

namespace Limbs

variable {l l' : List UInt32}

def value : List UInt32 → Nat
  | [] => 0
  | x :: l => x.toNat + 2 ^ 32 * value l

def Canonical (l : List UInt32) : Prop :=
  l.getLast? ≠ some 0

instance (l : List UInt32) : Decidable (Canonical l) :=
  inferInstanceAs (Decidable (_ ≠ _))

@[simp]
theorem value_nil : value [] = 0 :=
  rfl

@[simp]
theorem value_cons : value (x :: l) = x.toNat + 2 ^ 32 * value l :=
  rfl

theorem value_singleton (x : UInt32) : value [x] = x.toNat := by
  simp

theorem value_append (l l' : List UInt32) : value (l ++ l') = value l + 2 ^ (32 * l.length) * value l' := by
  induction l with
  | nil => simp
  | cons x l ih =>
    simp only [cons_append, value_cons, ih, length_cons]
    ring

theorem value_lt (l : List UInt32) : value l < 2 ^ (32 * l.length) := by
  induction l with
  | nil => simp
  | cons x =>
    have hx := x.toNat_lt
    rw [value_cons, length_cons, mul_add, mul_one, pow_add]
    omega

theorem value_replicate_zero (n : Nat) : value (List.replicate n 0) = 0 := by
  induction n with
  | zero => rfl
  | succ n ih => simp [replicate_succ, ih]

theorem value_take_add_drop (l : List UInt32) (hk : k ≤ l.length)
    : value (l.take k) + 2 ^ (32 * k) * value (l.drop k) = value l := by
  have h := value_append (l.take k) (l.drop k)
  rw [take_append_drop, length_take_of_le hk] at h
  exact h.symm

theorem value_drop_eq_zero (hlt : value l < 2 ^ (32 * k)) : value (l.drop k) = 0 := by
  rcases lt_or_ge l.length k with _ | hle
  . rw [drop_eq_nil_of_le (by omega), value_nil]
  have hsplit := value_take_add_drop l hle
  apply Decidable.byContradiction
  intro hne
  have hmul := Nat.mul_le_mul_left (2 ^ (32 * k)) (Nat.pos_of_ne_zero hne)
  omega

theorem value_take_of_lt (hlt : value l < 2 ^ (32 * k)) : value (l.take k) = value l := by
  rcases lt_or_ge l.length k with _ | hle
  . rw [take_of_length_le (by omega)]
  . have hsplit := value_take_add_drop l hle
    rw [value_drop_eq_zero hlt] at hsplit
    omega

theorem toNat_ofNat_add (n : Nat) : (UInt32.ofNat n).toNat + 2 ^ 32 * (n / 2 ^ 32) = n := by
  rw [UInt32.toNat_ofNat']
  exact Nat.mod_add_div n (2 ^ 32)

theorem value_drop (l : List UInt32) (k : Nat) : value (l.drop k) = value l / 2 ^ (32 * k) := by
  rcases lt_or_ge l.length k with _ | hle
  . have hlt := value_lt l
    have hpow : 2 ^ (32 * l.length) ≤ 2 ^ (32 * k) := Nat.pow_le_pow_right (by omega) (by omega)
    rw [drop_eq_nil_of_le (by omega), value_nil, Nat.div_eq_of_lt (by omega)]
  . have hlt := value_lt (l.take k)
    rw [length_take_of_le hle] at hlt
    rw [← value_take_add_drop l hle, Nat.add_mul_div_left _ _ (Nat.two_pow_pos _), Nat.div_eq_of_lt hlt,
      zero_add]

theorem testBit_value (l : List UInt32) (i : Nat)
    : (value l).testBit i = (l.getD (i / 32) 0).toNat.testBit (i % 32) := by
  induction l generalizing i with
  | nil => simp
  | cons x l ih =>
    rw [value_cons, add_comm, Nat.testBit_two_pow_mul_add _ x.toNat_lt]
    split
    . next hlt =>
      rw [Nat.div_eq_of_lt hlt, Nat.mod_eq_of_lt hlt, getD_cons_zero]
    . next hge =>
      have hdiv : i / 32 = (i - 32) / 32 + 1 := by omega
      have hmod : i % 32 = (i - 32) % 32 := by omega
      rw [ih, hdiv, hmod, getD_cons_succ]

theorem canonical_nil : Canonical [] := by
  simp [Canonical]

theorem canonical_rdropWhile (l : List UInt32) : Canonical (l.rdropWhile (· == 0)) := by
  intro hlast
  cases hne : l.rdropWhile (· == 0) with
  | nil => simp [hne] at hlast
  | cons =>
    have hnil : l.rdropWhile (· == 0) ≠ [] := by simp [hne]
    have hnot := rdropWhile_last_not (· == 0) l hnil
    rw [List.getLast?_eq_some_getLast hnil, Option.some.injEq] at hlast
    simp [hlast] at hnot

theorem value_rdropWhile (l : List UInt32) : value (l.rdropWhile (· == 0)) = value l := by
  induction l using List.reverseRecOn with
  | nil => rfl
  | append_singleton l x ih =>
    rw [rdropWhile_concat]
    split
    . next hx =>
      rw [beq_iff_eq] at hx
      rw [ih, value_append, hx]
      simp
    . rfl

theorem Canonical.le_value (h : Canonical l) (hne : l ≠ []) : 2 ^ (32 * (l.length - 1)) ≤ value l := by
  cases l using List.reverseRecOn with
  | nil => contradiction
  | append_singleton l x =>
    have hx : x ≠ 0 := by simpa [Canonical] using h
    have hpos : 0 < x.toNat := by
      apply Nat.pos_of_ne_zero
      intro hzero
      exact hx (UInt32.toNat_inj.mp hzero)
    have hle := Nat.mul_le_mul_left (2 ^ (32 * l.length)) hpos
    rw [value_append, length_append, length_singleton, Nat.add_sub_cancel]
    simp only [value_cons, value_nil, mul_zero, add_zero]
    omega

theorem Canonical.value_pos (h : Canonical l) (hne : l ≠ []) : 0 < value l :=
  lt_of_lt_of_le (Nat.two_pow_pos _) (h.le_value hne)

theorem Canonical.value_eq_zero_iff (h : Canonical l) : value l = 0 ↔ l = [] := by
  constructor
  . intro _
    apply Decidable.byContradiction
    intro hne
    have := h.value_pos hne
    omega
  . intro hnil
    rw [hnil, value_nil]

theorem Canonical.value_lt_of_length_lt (h : Canonical l') (hlen : l.length < l'.length) : value l < value l' := by
  have hne : l' ≠ [] := ne_nil_of_length_pos (by omega)
  calc value l
    _ < 2 ^ (32 * l.length) := value_lt l
    _ ≤ 2 ^ (32 * (l'.length - 1)) := Nat.pow_le_pow_right (by omega) (by omega)
    _ ≤ value l' := h.le_value hne

theorem Canonical.length_le (h : Canonical l) (hlt : value l < 2 ^ (32 * n)) : l.length ≤ n := by
  apply Decidable.byContradiction
  intro _
  have hne : l ≠ [] := ne_nil_of_length_pos (by omega)
  have hpow : 2 ^ (32 * n) ≤ 2 ^ (32 * (l.length - 1)) := Nat.pow_le_pow_right (by omega) (by omega)
  have hle := h.le_value hne
  omega

theorem lt_length (hle : 2 ^ (32 * n) ≤ value l) : n < l.length := by
  apply Decidable.byContradiction
  intro _
  have hpow : 2 ^ (32 * l.length) ≤ 2 ^ (32 * n) := Nat.pow_le_pow_right (by omega) (by omega)
  have hlt := value_lt l
  omega

end Limbs
