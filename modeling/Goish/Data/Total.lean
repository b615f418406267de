import Mathlib.Algebra.BigOperators.Fin
import Mathlib.Algebra.Order.BigOperators.Group.Finset

open Function Finset

namespace Tally

variable {G : Type u} [Fintype G] {P : Type v}

def total [AddCommMonoid M] (w : P → M) (pc : G → P) : M :=
  ∑ g, w (pc g)

section Monoid

variable [AddCommMonoid M] (w : P → M) (pc : G → P)

theorem total_update [DecidableEq G] (g : G) (v : P) : total w (update pc g v) + w (pc g) = total w pc + w v := by
  have hnew := add_sum_erase univ (fun x => w (update pc g v x)) (mem_univ g)
  have hold := add_sum_erase univ (fun x => w (pc x)) (mem_univ g)
  have hsame : ∑ x ∈ Finset.univ.erase g, w (update pc g v x) = ∑ x ∈ Finset.univ.erase g, w (pc x) := by
    apply sum_congr rfl
    intro x hx
    rw [update_of_ne (ne_of_mem_erase hx)]
  unfold total
  rw [← hnew, ← hold, hsame, update_self]
  ac_rfl

theorem total_eq_zero (h : ∀ g, w (pc g) = 0) : total w pc = 0 :=
  sum_eq_zero fun g _ => h g

end Monoid

section Nat

variable {w w' : P → Nat} {pc : G → P}

theorem le_total (w : P → Nat) (pc : G → P) (g : G) : w (pc g) ≤ total w pc := by
  exact single_le_sum (f := fun x => w (pc x)) (fun _ _ => Nat.zero_le _) (mem_univ g)

theorem total_eq_zero_iff : total w pc = 0 ↔ ∀ g, w (pc g) = 0 := by
  unfold total
  simp

theorem exists_of_total_pos (h : 0 < total w pc) : ∃ (g : G), 0 < w (pc g) := by
  apply not_not.mp
  intro hno
  have hzero : total w pc = 0 := by
    apply total_eq_zero
    intro g
    apply Nat.eq_zero_of_not_pos
    exact fun hg => hno ⟨g, hg⟩
  omega

theorem eq_of_total_le_one [DecidableEq G] (h : total w pc ≤ 1) (hg : 0 < w (pc g)) (hg' : 0 < w (pc g')) : g = g' := by
  apply not_not.mp
  intro hne
  have hsplit := add_sum_erase univ (fun x => w (pc x)) (mem_univ g)
  have hrest : w (pc g') ≤ ∑ x ∈ Finset.univ.erase g, w (pc x) := by
    apply single_le_sum (f := fun x => w (pc x)) (fun _ _ => Nat.zero_le _)
    exact Finset.mem_erase.mpr ⟨Ne.symm hne, mem_univ g'⟩
  unfold total at h
  omega

theorem total_le_card (h : ∀ g, w (pc g) ≤ 1) : total w pc ≤ Fintype.card G := by
  calc total w pc ≤ ∑ _g : G, 1 := sum_le_sum fun g _ => h g
    _ = Fintype.card G := by simp

theorem total_eq_length [DecidableEq P] {l : List G} (hnodup : l.Nodup)
    (hmem : ∀ g, g ∈ l ↔ pc g = v) : total (fun p => if p = v then 1 else 0) pc = l.length := by
  have hset : Finset.univ.filter (fun g => pc g = v) = ⟨l, Multiset.coe_nodup.mpr hnodup⟩ := by
    apply ext
    intro g
    rw [mem_filter_univ, ← hmem, mem_mk, Multiset.mem_coe]
  unfold total
  rw [← card_filter, hset]
  rfl

end Nat

section Update

variable [DecidableEq G] {pc : G → P} {a b v : P}

omit [Fintype G]

theorem update_eq_iff (ha : pc g ≠ v) (hb : b ≠ v) (x : G) : update pc g b x = v ↔ pc x = v := by
  by_cases heq : x = g
  . rw [heq, update_self]
    simp [ha, hb]
  . rw [update_of_ne heq]

theorem update_enter_iff (pc : G → P) (g : G) (v : P) (x : G) : update pc g v x = v ↔ pc x = v ∨ x = g := by
  by_cases heq : x = g
  all_goals simp [heq]

theorem update_leave_iff (hb : b ≠ v) (x : G) : update pc g b x = v ↔ pc x = v ∧ x ≠ g := by
  by_cases heq : x = g
  . simp [heq, hb]
  . simp [heq]

theorem forall_update {q : P → Prop} (h : ∀ x, q (pc x)) (hb : q b) (x : G) : q (update pc g b x) := by
  by_cases heq : x = g
  . rwa [heq, update_self]
  . rw [update_of_ne heq]
    exact h x

end Update

end Tally
