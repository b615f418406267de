import Mathlib.Data.List.DropRight
import Mathlib.Data.Nat.Digits.Lemmas

/-! Natural numbers as lists of words of any width, the least significant word first. -/

open List

namespace WordList

variable {w : Nat} {l : List (BitVec w)}

def value (l : List (BitVec w)) : Nat :=
  Nat.ofDigits (2 ^ w) (l.map BitVec.toNat)

@[simp]
theorem value_nil : value ([] : List (BitVec w)) = 0 :=
  rfl

@[simp]
theorem value_cons (x : BitVec w) (l : List (BitVec w)) : value (x :: l) = x.toNat + 2 ^ w * value l :=
  Nat.ofDigits_cons

theorem value_append (l l' : List (BitVec w)) : value (l ++ l') = value l + (2 ^ w) ^ l.length * value l' := by
  unfold value
  rw [map_append, Nat.ofDigits_append, length_map]

theorem value_replicate_zero (n : Nat) : value (List.replicate n (0 : BitVec w)) = 0 := by
  unfold value
  rw [map_replicate]
  exact Nat.ofDigits_replicate_zero

theorem value_lt (l : List (BitVec w)) : value l < (2 ^ w) ^ l.length := by
  induction l with
  | nil => simp
  | cons x l ih =>
    have hmul := Nat.mul_le_mul_left (2 ^ w) (Nat.succ_le_of_lt ih)
    rw [value_cons, length_cons, Nat.pow_succ', Nat.mul_succ] at *
    omega

theorem value_reverse_cons (x : BitVec w) (l : List (BitVec w))
    : value (x :: l).reverse = (2 ^ w) ^ l.length * x.toNat + value l.reverse := by
  rw [reverse_cons, value_append, length_reverse, value_cons, value_nil, mul_zero, add_zero,
    add_comm]

theorem value_take_add_drop (l : List (BitVec w)) (hk : k ≤ l.length)
    : value (l.take k) + (2 ^ w) ^ k * value (l.drop k) = value l := by
  have h := value_append (l.take k) (l.drop k)
  rw [take_append_drop, length_take_of_le hk] at h
  exact h.symm

theorem value_rdropWhile (l : List (BitVec w)) : value (l.rdropWhile (· == 0)) = value l := by
  induction l using List.reverseRecOn with
  | nil => rfl
  | append_singleton l x ih =>
    rw [rdropWhile_concat]
    split
    . next hx =>
      rw [beq_iff_eq] at hx
      rw [ih, value_append, hx]
      simp
    . rfl

theorem rdropWhile_eq_append (hpos : 0 < value l) : ∃ l' x, l.rdropWhile (· == 0) = l' ++ [x] ∧ x ≠ 0 := by
  have hvalue := value_rdropWhile l
  have hne : l.rdropWhile (· == 0) ≠ [] := by
    intro hnil
    rw [hnil, value_nil] at hvalue
    omega
  have hlast := rdropWhile_last_not (· == 0) l hne
  exact ⟨_, _, (dropLast_append_getLast hne).symm, by simpa using hlast⟩

end WordList
