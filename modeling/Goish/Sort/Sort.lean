import Goish.Sort.Lemmas.HeapSort
import Goish.Sort.Lemmas.Stable

open List

namespace SortInterface

open StableSort Option

structure Correct (lt : α → α → Bool) (d : List α) : Prop where
  sort : ∃ d', sort lt d = some d' ∧ d'.Perm d ∧ Sorted lt d'
  stable : ∃ d', stable lt d = some d' ∧ d'.Perm d ∧ Sorted lt d' ∧
    ∀ x, d'.filter (eqv lt x) = d.filter (eqv lt x)

theorem correct_of_le {lt : α → α → Bool} (hw : WeakOrder lt) (d : List α) (hlen : d.length ≤ 2 ^ 62) : Correct lt d := by
  refine ⟨sort_spec hw d hlen, ?_⟩
  obtain ⟨d', hstable, hs, hsame⟩ := stable_spec hw d hlen
  exact ⟨d', hstable, hsame.perm, hs, hsame.filter⟩

section Wrap

variable {n : Nat} (hlow : 2 ^ 62 < n) (hhigh : n < 2 ^ 63)
include hlow hhigh

theorem siftDown_wraps (lt : α → α → Bool) (d : List α) : siftDown lt (fuel + 1) d (n - 1 : Nat) n = none := by
  have hchild : i64 (((n - 1 : Nat) : Int) * 2 + 1) = ((n - 1 : Nat) : Int) * 2 + 1 - 2 ^ 64 := by
    unfold i64
    rw [← Int.sub_bmod_right, Int.bmod_eq_of_le] <;> omega
  have hless : ∀ j, less lt d (((n - 1 : Nat) : Int) * 2 + 1 - 2 ^ 64) j = none := by
    intro j
    rw [less, if_neg (by omega)]
  rw [siftDown, hchild]
  rw [if_neg (by omega), pick, if_pos (by omega), hless]
  rfl

theorem siftDown_last (fuel : Nat) (hr : 2 * r + 1 < n) (hr' : n ≤ 2 * r + 3)
    : siftDown (fun x y => decide (x < y)) (fuel + 2) (range n) r n = none := by
  have hget : ∀ i < n, (range n)[i]? = some i := fun i hi => getElem?_range hi
  have hchild : i64 ((r : Int) * 2 + 1) = (2 * r + 1 : Nat) := by
    rw [i64_eq] <;> omega
  have hpick : pick (fun x y => decide (x < y)) (range n) (2 * r + 1 : Nat) n = some ((n - 1 : Nat) : Int) := by
    unfold pick
    split
    . next hlt =>
      rw [show ((2 * r + 1 : Nat) : Int) + 1 = (2 * r + 2 : Nat) by omega,
        less_eq (hget _ (by omega)) (hget _ (by omega)), decide_eq_true (by omega), map_some, if_pos rfl]
      exact congrArg some (by omega)
    . next hge => exact congrArg some (by omega)
  rw [siftDown, hchild]
  rw [if_neg (by omega), hpick, bind_eq_bind, bind_some, less_eq (hget r (by omega)) (hget (n - 1) (by omega)),
    bind_eq_bind, bind_some, if_pos (decide_eq_true (by omega)),
    swap_eq (hget r (by omega)) (hget (n - 1) (by omega)), bind_eq_bind, bind_some]
  exact siftDown_wraps hlow hhigh _ _

theorem sort_range : sort (fun x y => decide (x < y)) (range n) = none := by
  have hlen := @List.length_range n
  obtain ⟨fuel, hfuel⟩ := Nat.exists_eq_add_of_le' (show 2 ≤ n by omega)
  obtain ⟨s, hs⟩ := Nat.exists_eq_add_of_le' (show 1 ≤ (n - 1) / 2 by omega)
  have hfirst : siftDown (fun x y => decide (x < y)) n (range n) (s + 1 : Nat) n
      = if n = 2 * s + 3 then some (range n) else none := by
    split
    . next hodd =>
      rw [show n = fuel + 1 + 1 from hfuel, siftDown, i64_eq (by omega) (by omega), if_pos (by omega)]
    . next heven =>
      have := siftDown_last hlow hhigh fuel (r := s + 1) (by omega) (by omega)
      rwa [← hfuel] at this
  unfold sort
  rw [hlen, if_neg (by omega), hs, sort.heapify, hlen, hfirst]
  split
  . next hodd =>
    have hsecond := siftDown_last hlow hhigh fuel (r := s) (by omega) (by omega)
    rw [← hfuel] at hsecond
    rw [bind_eq_bind, bind_some]
    rcases s with _ | _
    . omega
    rw [sort.heapify, hlen, hsecond]
    rfl
  . rfl

end Wrap

theorem nat_weakOrder : IsStrictWeakOrder Nat (fun x y => decide (x < y) = true) := by
  simp only [decide_eq_true_eq]
  exact { irrefl := Nat.lt_irrefl, trans := fun _ _ _ => Nat.lt_trans, incomp_trans := by omega }

theorem sorts_exact (n : Nat) (hn : n < 2 ^ 63)
    : (∀ (α : Type) (lt : α → α → Bool), IsStrictWeakOrder α (fun x y => lt x y = true) →
        ∀ d : List α, d.length = n → Correct lt d) ↔ n ≤ 2 ^ 62 := by
  constructor
  . intro h
    apply Nat.le_of_not_lt
    intro hlow
    obtain ⟨_, hsort, -⟩ := (h Nat (fun x y => decide (x < y)) nat_weakOrder (range n) length_range).sort
    rw [sort_range hlow hn] at hsort
    contradiction
  . intro hle α _ hlt d hd
    exact correct_of_le (weakOrder hlt) d (hd ▸ hle)

theorem sorts_exact_three : Correct (fun x y : Nat => decide (x < y)) [3, 1, 2] :=
  (sorts_exact 3 (by decide)).mpr (by decide) Nat _ nat_weakOrder [3, 1, 2] rfl

theorem sort_out_of_range
    : (range (2 ^ 62 + 1)).length = 2 ^ 62 + 1 ∧ sort (fun x y => decide (x < y)) (range (2 ^ 62 + 1)) = none :=
  ⟨length_range, sort_range (by decide) (by decide)⟩

end SortInterface
