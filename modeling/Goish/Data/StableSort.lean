import Mathlib.Data.List.Basic

/-! Sorted lists for a strict weak order, and stable rearrangements. -/

open List

namespace StableSort

variable {α : Type u} (lt : α → α → Bool)

structure WeakOrder : Prop where
  asymm : ∀ x y, lt x y = true → lt y x = false
  negTrans : ∀ x y z, lt x y = false → lt y z = false → lt x z = false

def eqv (x y : α) : Bool :=
  !lt x y && !lt y x

def Sorted (l : List α) : Prop :=
  l.Pairwise fun x y => lt y x = false

structure SameOrder (l l' : List α) : Prop where
  perm : l'.Perm l
  filter : ∀ x, l'.filter (eqv lt x) = l.filter (eqv lt x)

variable {lt}

theorem weakOrder (h : IsStrictWeakOrder α fun x y => lt x y = true) : WeakOrder lt := by
  have hasymm : ∀ x y, lt x y = true → lt y x = false := by
    intro x y hxy
    rw [Bool.eq_false_iff]
    intro hyx
    exact h.toIrrefl.irrefl x (h.toIsTrans.trans x y x hxy hyx)
  refine ⟨hasymm, ?_⟩
  intro x y z hxy hyz
  rw [Bool.eq_false_iff] at *
  intro hxz
  have hyx : ¬ lt y x = true := fun hyx => hyz (h.toIsTrans.trans y x z hyx hxz)
  have hzy : ¬ lt z y = true := fun hzy => hxy (h.toIsTrans.trans x z y hxz hzy)
  exact (h.incomp_trans x y z ⟨hxy, hyx⟩ ⟨hyz, hzy⟩).1 hxz

theorem WeakOrder.irrefl (hw : WeakOrder lt) (x : α) : lt x x = false := by
  rw [Bool.eq_false_iff]
  intro hxx
  exact Bool.false_ne_true ((hw.asymm x x hxx).symm.trans hxx)

namespace SameOrder

theorem refl (l : List α) : SameOrder lt l l :=
  ⟨.refl _, fun _ => rfl⟩

theorem trans (h : SameOrder lt l1 l2) (h' : SameOrder lt l2 l3) : SameOrder lt l1 l3 :=
  ⟨h'.perm.trans h.perm, fun x => (h'.filter x).trans (h.filter x)⟩

theorem append (h : SameOrder lt u u') (h' : SameOrder lt v v') : SameOrder lt (u ++ v) (u' ++ v') := by
  refine ⟨h.perm.append h'.perm, ?_⟩
  intro x
  rw [filter_append, filter_append, h.filter, h'.filter]

theorem swap (hw : WeakOrder lt) (h : ∀ x ∈ u, ∀ y ∈ v, lt y x = true) : SameOrder lt (u ++ v) (v ++ u) := by
  refine ⟨perm_append_comm, ?_⟩
  intro z
  rw [filter_append, filter_append]
  cases hu : u.filter (eqv lt z) with
  | nil => rw [append_nil, nil_append]
  | cons x =>
    -- An element of `v` that is equal to `z` would be equal to `x`.
    have hv : v.filter (eqv lt z) = [] := by
      rw [filter_eq_nil_iff]
      intro y hy heq
      obtain ⟨hx, heqx⟩ := mem_filter.mp (hu ▸ mem_cons_self : x ∈ u.filter (eqv lt z))
      simp only [eqv, Bool.and_eq_true, Bool.not_eq_true'] at heq heqx
      have hyx := hw.negTrans y z x heq.2 heqx.1
      rw [h x hx y hy] at hyx
      contradiction
    rw [hv, append_nil, nil_append]

end SameOrder

theorem sorted_append : Sorted lt (u ++ v) ↔ Sorted lt u ∧ Sorted lt v ∧ ∀ x ∈ u, ∀ y ∈ v, lt y x = false :=
  pairwise_append

theorem Sorted.le_last (h : Sorted lt (l ++ [x])) (hw : WeakOrder lt) (hy : y ∈ l ++ [x]) : lt x y = false := by
  rcases mem_append.mp hy with hy | hy
  . exact (sorted_append.mp h).2.2 y hy x mem_cons_self
  . rw [mem_singleton.mp hy]
    exact hw.irrefl x

end StableSort
