import Mathlib.Logic.Relation

/-! Step systems: the initial states, the steps, and the states that a run of any length reaches. -/

structure System (σ : Type u) where
  init : σ → Prop
  step : σ → σ → Prop

namespace System

inductive Reachable (sys : System σ) : σ → Prop where
  | init {s : σ} (h : sys.init s) : Reachable sys s
  | step {s t : σ} (h : Reachable sys s) (hstep : sys.step s t) : Reachable sys t

theorem Reachable.invariant {sys : System σ} (inv : σ → Prop) (hinit : ∀ s, sys.init s → inv s)
    (hstep : ∀ s t, inv s → sys.step s t → inv t) (h : sys.Reachable s) : inv s := by
  induction h with
  | init h => exact hinit _ h
  | step _ h ih => exact hstep _ _ ih h

theorem Reachable.trans {sys : System σ} (h : sys.Reachable s) (hrun : Relation.ReflTransGen sys.step s t)
    : sys.Reachable t := by
  induction hrun with
  | refl => exact h
  | tail _ hstep ih => exact ih.step hstep

theorem exists_run (sys : System σ) (f : σ → α → Option σ) (hf : ∀ s a t, f s a = some t → sys.step s t)
    (s : σ) (l : List α) (p : σ → Bool) (h : (l.foldlM f s).any p = true)
    : ∃ t, Relation.ReflTransGen sys.step s t ∧ p t = true := by
  induction l generalizing s with
  | nil => exact ⟨s, .refl, h⟩
  | cons a l ih =>
    rw [List.foldlM_cons] at h
    cases hs : f s a with
    | none =>
      rw [hs] at h
      contradiction
    | some t =>
      rw [hs] at h
      obtain ⟨u, hrun, hp⟩ := ih t h
      exact ⟨u, .head (hf s a t hs) hrun, hp⟩

end System
