import Goish.Sort.Impl.Sort

namespace SortInterface

theorem i64_eq (h1 : -2 ^ 63 ≤ x) (h2 : x < 2 ^ 63) : i64 x = x := by
  unfold i64
  apply Int.bmod_eq_of_le <;> omega

theorem avg_eq {i j : Nat} (h : i + j < 2 ^ 64) : avg i j = ((i + j) / 2 : Nat) := by
  unfold avg
  rw [i64_eq] <;> omega

theorem less_eq {i j : Nat} (hi : d[i]? = some x) (hj : d[j]? = some y) : less lt d i j = some (lt x y) := by
  unfold less
  rw [if_pos ⟨Int.natCast_nonneg i, Int.natCast_nonneg j⟩, Int.toNat_natCast, Int.toNat_natCast, hi, hj]

theorem swap_eq {i j : Nat} (hi : d[i]? = some x) (hj : d[j]? = some y) : swap d i j = some ((d.set i y).set j x) := by
  unfold swap
  rw [if_pos ⟨Int.natCast_nonneg i, Int.natCast_nonneg j⟩, Int.toNat_natCast, Int.toNat_natCast, hi, hj]

section Parts

variable (x w y : List α) (p q : α)

theorem getElem?_left : (x ++ p :: (w ++ q :: y))[x.length]? = some p := by
  simp

theorem getElem?_right : (x ++ p :: (w ++ q :: y))[x.length + 1 + w.length]? = some q := by
  rw [List.getElem?_append_right (by omega), Nat.add_assoc, Nat.add_sub_cancel_left, Nat.add_comm,
    List.getElem?_cons_succ]
  simp

theorem swap_append : swap (x ++ p :: (w ++ q :: y)) x.length (x.length + 1 + w.length : Nat)
        = some (x ++ q :: (w ++ p :: y)) := by
  rw [swap_eq (getElem?_left x w y p q) (getElem?_right x w y p q)]
  simp [Nat.add_assoc, Nat.add_comm 1]

theorem swap_append_symm : swap (x ++ p :: (w ++ q :: y)) (x.length + 1 + w.length : Nat) x.length
        = some (x ++ q :: (w ++ p :: y)) := by
  rw [swap_eq (getElem?_right x w y p q) (getElem?_left x w y p q)]
  simp [Nat.add_assoc, Nat.add_comm 1]

end Parts

end SortInterface
