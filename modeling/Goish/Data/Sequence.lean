open List

namespace Sequence

variable {α : Type u} [DecidableEq α]

def insertBefore (a x : α) : List α → List α
  | [] => []
  | y :: l => if y = a then x :: y :: l else y :: insertBefore a x l

def insertAfter (a x : α) : List α → List α
  | [] => []
  | y :: l => if y = a then y :: x :: l else y :: insertAfter a x l

def after (a : α) : List α → Option α
  | [] => none
  | y :: l => if y = a then l.head? else after a l

variable {a x : α} {l1 l2 : List α}

theorem insertBefore_append (ha : a ∉ l1) : insertBefore a x (l1 ++ a :: l2) = l1 ++ x :: a :: l2 := by
  induction l1 with
  | nil => simp [insertBefore]
  | cons _ _ ih =>
    rw [mem_cons, not_or] at ha
    rw [cons_append, insertBefore, if_neg (Ne.symm ha.1), ih ha.2]
    rfl

theorem insertAfter_append (ha : a ∉ l1) : insertAfter a x (l1 ++ a :: l2) = l1 ++ a :: x :: l2 := by
  induction l1 with
  | nil => simp [insertAfter]
  | cons _ _ ih =>
    rw [mem_cons, not_or] at ha
    rw [cons_append, insertAfter, if_neg (Ne.symm ha.1), ih ha.2]
    rfl

theorem after_append (ha : a ∉ l1) : after a (l1 ++ a :: l2) = l2.head? := by
  induction l1 with
  | nil => simp [after]
  | cons _ _ ih =>
    rw [mem_cons, not_or] at ha
    rw [cons_append, after, if_neg (Ne.symm ha.1), ih ha.2]

theorem after_eq_none (ha : a ∉ l) : after a l = none := by
  induction l with
  | nil => rfl
  | cons y l ih =>
    rw [mem_cons, not_or] at ha
    rw [after, if_neg (Ne.symm ha.1), ih ha.2]

end Sequence
