import Goish.Data.System
import Goish.Sync.Lemmas.NotifyList

open Function Option

namespace Sync

def notifySystem (G : Type u) [DecidableEq G] (guard : NotifyList.State G → Prop)
    : System (NotifyList.State G) where
  init s := s = .new
  step s t := ∃ g, (s.step g = some t ∧ (s.pc g = .add → guard s)) ∨ ∃ c, s.call g c = some t

namespace NotifyList

attribute [local simp] State.goto State.step State.notifying State.wakeAll

namespace State

variable {G : Type u} [DecidableEq G] {s t : State G}

theorem reachable_inv (h : (notifySystem G Close).Reachable s) : s.Inv := by
  apply h.invariant
  . rintro s rfl
    exact new_inv
  intro s t hinv ⟨g, hstep⟩
  rcases hstep with hstep | hcall
  . exact hinv.step hstep.1 hstep.2
  . obtain ⟨_, hcall⟩ := hcall
    exact hinv.call hcall

structure Effect (s t : State G) : Prop where
  mono : s.notified ≤ t.notified
  parked : ∀ x, s.pc x = .parked →
    t.number x = s.number x ∧ t.pc x = if s.number x < t.notified then .ready else .parked
  ready : ∀ x, t.pc x = .ready → s.pc x = .parked ∨ s.pc x = .ready

omit [DecidableEq G] in
theorem Effect.quiet (h : s.Inv) (hnotified : t.notified = s.notified)
    (hframe : ∀ x, x ≠ g → t.pc x = s.pc x ∧ t.number x = s.number x)
    (hs : s.pc g ≠ .parked) (ht : t.pc g ≠ .ready) : Effect s t := by
  constructor
  case mono => exact le_of_eq hnotified.symm
  case parked =>
    intro x hx
    have hne : x ≠ g := by
      rintro rfl
      exact hs hx
    have hle := ((h.fits x).parked hx).2
    rw [(hframe x hne).1, (hframe x hne).2, hnotified, if_neg (not_lt.mpr hle)]
    exact ⟨rfl, hx⟩
  case ready =>
    intro x hx
    have hne : x ≠ g := by
      rintro rfl
      exact ht hx
    rw [(hframe x hne).1] at hx
    exact .inr hx

theorem Effect.goto (h : s.Inv) (hs : s.pc g ≠ .parked) (hb : b ≠ .ready) : Effect s (s.goto g b) := by
  refine .quiet h rfl (fun x hne => ⟨update_of_ne hne _ _, rfl⟩) hs ?_
  simp [hb]

theorem Effect.wakeAll (h : s.Inv) (hg : s.pc g = .notifyAllLocked) : Effect s (s.wakeAll g) := by
  constructor
  case mono => exact h.le
  case parked =>
    intro x hx
    have hne : x ≠ g := by
      rintro rfl
      rw [hg] at hx
      cases hx
    have hlt := h.number x (by rw [hx]; rfl)
    simp [hne, h.queue, hx, hlt]
  case ready =>
    intro x hx
    simp only [State.wakeAll, update_apply, h.queue] at hx
    split at hx
    . cases hx
    split at hx
    . next hparked => exact .inl hparked
    . exact .inr hx

theorem wakeOne_spec (h : s.Inv) (hg : s.pc g = .notifyOneLocked) (hlt : s.notified < s.handed)
    : (s.wakeOne g).notified = s.notified + 1 ∧ (s.wakeOne g).number = s.number ∧
        (s.wakeOne g).pc g = .notifiedOne ∧
        ∀ x, x ≠ g →
          (s.wakeOne g).pc x = if s.pc x = .parked ∧ s.number x = s.notified then .ready else s.pc x := by
  rcases h.wakeOne_cases g with _ | hwake
  . omega
  rcases hwake with hnone | hsome
  . obtain ⟨_, hnone, heq⟩ := hnone
    rw [heq]
    refine ⟨rfl, rfl, update_self _ _ _, ?_⟩
    intro x hne
    have hif : ¬(s.pc x = .parked ∧ s.number x = s.notified) :=
      fun hx => hnone x ((h.queue x).mpr hx.1) hx.2
    rw [if_neg hif]
    exact update_of_ne hne _ _
  obtain ⟨_, y, _, _, hq, hy, heq⟩ := hsome
  have hparked : s.pc y = .parked := (h.queue y).mp (by simp [hq])
  have hyg : g ≠ y := by
    rintro rfl
    rw [hg] at hparked
    cases hparked
  have hiff : ∀ x, s.pc x = .parked ∧ s.number x = s.notified ↔ x = y := by
    intro x
    constructor
    . intro hx
      apply h.inj x y
      . rw [hx.1]
        rfl
      . rw [hparked]
        rfl
      . rw [hx.2, hy]
    . rintro rfl
      exact ⟨hparked, hy⟩
  rw [heq]
  refine ⟨rfl, rfl, ?_, ?_⟩
  . simp [hyg]
  . intro x hne
    simp only [hiff, State.goto, update_apply, if_neg hne]

section

variable (h : s.Inv)
include h

theorem Effect.wakeOne (hg : s.pc g = .notifyOneLocked) : Effect s (s.wakeOne g) := by
  rcases lt_or_ge s.notified s.handed with hlt | _
  . obtain ⟨hnotified, hnumber, hself, hpc⟩ := wakeOne_spec h hg hlt
    constructor
    case mono => omega
    case parked =>
      intro x hx
      have hne : x ≠ g := by
        rintro rfl
        rw [hg] at hx
        cases hx
      have hle := ((h.fits x).parked hx).2
      have hiff : s.number x = s.notified ↔ s.number x < s.notified + 1 := by omega
      rw [hpc x hne, hnotified, hnumber]
      simp only [hx, hiff, true_and]
    case ready =>
      intro x hx
      by_cases heq : x = g
      . rw [heq, hself] at hx
        cases hx
      . rw [hpc x heq] at hx
        split at hx
        . next hparked => exact .inl hparked.1
        . exact .inr hx
  . rcases h.wakeOne_cases g with hdone | _
    . rw [hdone.2]
      exact .goto h (by simp [hg]) (by simp)
    . omega

theorem effect_of_step (hstep : s.step g = some t) : Effect s t := by
  cases hg : s.pc g
  all_goals simp only [State.step, hg, reduceCtorEq] at hstep
  any_goals cases hstep
  case add =>
    refine .quiet h rfl (fun x hne => ⟨update_of_ne hne _ _, update_of_ne hne _ _⟩) (by simp [hg]) ?_
    simp
  case wait =>
    split at hstep
    . cases hstep
      exact .goto h (by simp [hg]) (by simp)
    . cases hstep
      refine .quiet h rfl (fun x hne => ⟨update_of_ne hne _ _, rfl⟩) (by simp [hg]) ?_
      simp
  case ready | notifyAll | notifyOne =>
    exact .goto h (by simp [hg]) (by simp)
  case notifyAllLoaded w | notifyOneLoaded w =>
    exact .goto h (by simp [hg]) (by simp [ite_eq_iff])
  case notifyAllLocked =>
    exact .wakeAll h hg
  case notifyOneLocked =>
    exact .wakeOne h hg

theorem Effect.notifying (hg : (s.pc g).free) (hb : b ≠ .ready) : Effect s (s.notifying g b) := by
  refine .quiet h rfl (fun x hne => ⟨update_of_ne hne _ _, rfl⟩) (Pc.free_spec hg).1 ?_
  simp [hb]

theorem effect_of_call (hcall : s.call g c = some t) : Effect s t := by
  cases c with
  | wait =>
    unfold State.call at hcall
    split at hcall
    . next k _ hg =>
      cases hcall
      exact .goto h (by simp [hg]) (by simp)
    all_goals simp_all
  | add =>
    simp only [State.call, ite_none_right_eq_some, some.injEq] at hcall
    rw [← hcall.2]
    exact .goto h (Pc.free_spec hcall.1).1 (by simp)
  | notifyAll | notifyOne =>
    simp only [State.call, ite_none_right_eq_some, some.injEq] at hcall
    rw [← hcall.2]
    exact .notifying h hcall.1 (by simp)

theorem wait_spec (hg : s.pc g = .wait k) (hstep : s.step g = some t)
    : t.pc g = if s.number g < s.notified then .idle else .parked := by
  simp only [State.step, hg, h.less_iff hg] at hstep
  split at hstep
  . next hlt =>
    rw [some.injEq] at hstep
    rw [← hstep, if_pos hlt]
    exact update_self _ _ _
  . next hnot =>
    rw [some.injEq] at hstep
    rw [← hstep, if_neg hnot]
    exact update_self _ _ _

theorem notifyOneLoaded_spec (hg : s.pc g = .notifyOneLoaded w) (hstep : s.step g = some t)
    : t = s.goto g .notifyOneLocked ∨ s.issued g ≤ s.notified ∧ t = s.goto g .notifiedOne := by
  have hfits := h.fits g
  unfold Fits at hfits
  simp only [hg] at hfits
  simp only [State.step, hg] at hstep
  cases hstep
  split
  . next heq => exact .inr ⟨h.fast_path hfits heq, rfl⟩
  . exact .inl rfl

theorem notifyOneLocked_spec (hg : s.pc g = .notifyOneLocked) (hstep : s.step g = some t)
    : if s.notified < s.handed then
        t.notified = s.notified + 1 ∧ ∀ x, x ≠ g →
          t.pc x = if s.pc x = .parked ∧ s.number x = s.notified then .ready else s.pc x
      else
        s.issued g ≤ s.notified ∧ t = s.goto g .notifiedOne := by
  have hfits := h.fits g
  unfold Fits at hfits
  simp only [hg] at hfits
  simp only [State.step, hg] at hstep
  cases hstep
  split
  . next hlt =>
    have hspec := wakeOne_spec h hg hlt
    exact ⟨hspec.1, hspec.2.2.2⟩
  . next hnot =>
    rcases h.wakeOne_cases g with hdone | _
    . exact ⟨by omega, hdone.2⟩
    . omega

end

end State

/-- What holds in every state while no ticket is `2 ^ 31` behind. -/
structure State.Exact [DecidableEq G] (s : State G) : Prop where
  inj : ∀ x y, (s.pc x).holds → (s.pc y).holds → s.number x = s.number y → x = y
  parked : ∀ x, s.pc x = .parked → s.notified ≤ s.number x
  effect : ∀ t, (notifySystem G State.Close).step s t → s.Effect t
  wait : ∀ g k t, s.pc g = .wait k → s.step g = some t → t.pc g = if s.number g < s.notified then .idle else .parked
  one : ∀ g t, s.pc g = .notifyOneLocked → s.step g = some t →
    if s.notified < s.handed then
      t.notified = s.notified + 1 ∧ ∀ x, x ≠ g →
        t.pc x = if s.pc x = .parked ∧ s.number x = s.notified then .ready else s.pc x
    else
      s.issued g ≤ s.notified ∧ t = s.goto g .notifiedOne
  loaded : ∀ g w t, s.pc g = .notifyOneLoaded w → s.step g = some t →
    t = s.goto g .notifyOneLocked ∨ s.issued g ≤ s.notified ∧ t = s.goto g .notifiedOne
  all : ∀ g, s.pc g = .notifiedAll → s.issued g ≤ s.notified

theorem notify_exact [DecidableEq G] {s : State G} (h : (notifySystem G State.Close).Reachable s) : s.Exact := by
  have hinv := State.reachable_inv h
  refine ⟨hinv.inj, fun x hx => ((hinv.fits x).parked hx).2, ?_, ?_, ?_, ?_, ?_⟩
  . intro t ⟨g, hstep⟩
    rcases hstep with hstep | hcall
    . exact State.effect_of_step hinv hstep.1
    . obtain ⟨_, hcall⟩ := hcall
      exact State.effect_of_call hinv hcall
  . exact fun g k t => State.wait_spec hinv
  . exact fun g t => State.notifyOneLocked_spec hinv
  . exact fun g w t => State.notifyOneLoaded_spec hinv
  . intro g hg
    have hfits := hinv.fits g
    unfold State.Fits at hfits
    rwa [hg] at hfits

namespace State

def act (guard : State G → Prop) [DecidablePred guard] [DecidableEq G] (s : State G)
    : G × Option Call → Option (State G)
  | (g, some c) => s.call g c
  | (g, none) => if s.pc g = .add → guard s then s.step g else none

theorem act_step (guard : State G → Prop) [DecidablePred guard] [DecidableEq G] (s : State G) (a : G × Option Call)
    (t : State G) (h : act guard s a = some t) : (notifySystem G guard).step s t := by
  obtain ⟨g, c⟩ := a
  cases c with
  | some c => exact ⟨g, .inr ⟨c, h⟩⟩
  | none =>
    simp only [act, ite_none_right_eq_some] at h
    exact ⟨g, .inl ⟨h.2, h.1⟩⟩

instance [Fintype G] : DecidablePred (Close : State G → Prop) :=
  fun s => inferInstanceAs (Decidable (∀ x, (s.pc x).holds → s.handed + 1 ≤ s.number x + 2 ^ 31))

end State

theorem notify_exact_order
    : ∃ s : State (Fin 3), (notifySystem (Fin 3) State.Close).Reachable s ∧ s.pc 2 = .notifyOneLocked ∧
        s.pc 1 = .parked ∧ s.notified ≤ s.number 1 ∧
        ∀ t, s.step 2 = some t → t.notified = s.notified + 1 ∧ t.pc 1 = .parked := by
  obtain ⟨s, hrun, hs⟩ := System.exists_run _ _ (State.act_step State.Close) (.new : State (Fin 3))
    [(0, some .add), (0, none), (1, some .add), (1, none), (1, some .wait), (1, none),
      (2, some .notifyOne), (2, none), (2, none)]
    (fun s => s.pc 2 = .notifyOneLocked ∧ s.pc 1 = .parked ∧ s.number 1 ≠ s.notified ∧
      s.notified < s.handed) (by decide +kernel)
  rw [decide_eq_true_eq] at hs
  obtain ⟨h2, h1, hne, hlt⟩ := hs
  have hreach := System.Reachable.trans (.init rfl) hrun
  have hexact := notify_exact hreach
  refine ⟨s, hreach, h2, h1, hexact.parked 1 h1, ?_⟩
  intro t hstep
  have hone := hexact.one 2 t h2 hstep
  rw [if_pos hlt] at hone
  refine ⟨hone.1, ?_⟩
  rw [hone.2 1 (by decide), if_neg (by simp [hne]), h1]

namespace State

def Few (s : State G) : Prop :=
  s.handed < s.notified + 2 ^ 31 ∧
    ∀ l : List G, l.Nodup → (∀ x ∈ l, (s.pc x).holds) → l.length < 2 ^ 31

structure Late (n : Nat) (s : State (Fin 3)) : Prop where
  reachable : (notifySystem (Fin 3) Few).Reachable s
  pc : s.pc 0 = .ticket 0 ∧ (s.pc 1).free ∧ (s.pc 2).free
  number : s.number 0 = 0
  wait : s.wait = (n + 1) % 2 ^ 32
  notify : s.notify = (n + 1) % 2 ^ 32
  handed : s.handed = n + 1
  notified : s.notified = n + 1
  queue : s.queue = []

theorem few_of_fin {s : State (Fin 3)} (h : s.handed < s.notified + 2 ^ 31) : s.Few := by
  refine ⟨h, ?_⟩
  intro l hnodup _
  have hle := hnodup.length_le_card
  rw [Fintype.card_fin] at hle
  omega

theorem reachable_step {s t : State (Fin 3)} (h : (notifySystem (Fin 3) Few).Reachable s)
    (hfew : s.handed < s.notified + 2 ^ 31) (hstep : s.step g = some t) : (notifySystem (Fin 3) Few).Reachable t :=
  h.step ⟨g, .inl ⟨hstep, fun _ => few_of_fin hfew⟩⟩

theorem reachable_call (h : (notifySystem (Fin 3) Few).Reachable s)
    (hcall : s.call g c = some t) : (notifySystem (Fin 3) Few).Reachable t :=
  h.step ⟨g, .inr ⟨c, hcall⟩⟩

theorem Late.next {s : State (Fin 3)} (h : s.Late n) : ∃ t, Late (n + 1) t := by
  obtain ⟨h0, h1, h2⟩ := h.pc
  have hwait := h.wait
  have hnotify := h.notify
  have hhanded := h.handed
  have hnotified := h.notified
  have hqueue := h.queue
  have hnumber := h.number
  have hne : (n + 1 + 1) % 2 ^ 32 ≠ (n + 1) % 2 ^ 32 := by omega
  have hless : less ((n + 1) % 2 ^ 32) ((n + 1 + 1) % 2 ^ 32) = true := less_of_lt (by omega) (by omega)
  have hrun := h.reachable
  obtain ⟨wait, notify, queue, notifyTicket, pc, handed, notified, number, issued⟩ := s
  dsimp only at *
  subst hwait hnotify hhanded hnotified hqueue
  have hrun := reachable_call (g := 1) (c := .add) hrun (if_pos h1)
  have hrun := reachable_step (g := 1) hrun (by simp)
    (by simp [-Nat.reducePow]; rfl)
  have hrun := reachable_call (g := 1) (c := .wait) hrun rfl
  have hrun := reachable_call (g := 2) (c := .notifyAll) hrun (if_pos h2)
  have hrun := reachable_step (g := 2) hrun (by simp)
    (by simp [-Nat.reducePow]; rfl)
  have hrun := reachable_step (g := 2) hrun (by simp)
    (by simp [-Nat.reducePow, hne]; rfl)
  have hrun := reachable_step (g := 2) hrun (by simp) rfl
  have hrun := reachable_step (g := 1) hrun (by simp)
    (by simp [-Nat.reducePow, hless]; rfl)
  refine ⟨_, hrun, ?_, ?_, ?_, ?_, ?_, ?_, ?_⟩
  all_goals simp [h0, hnumber, Pc.free]

theorem late_zero : ∃ s, Late 0 s := by
  have hrun : (notifySystem (Fin 3) Few).Reachable .new := .init rfl
  have hrun := reachable_call (g := 0) (c := .add) hrun rfl
  have hrun := reachable_step (g := 0) hrun (by simp [new])
    (by simp [new]; rfl)
  have hrun := reachable_call (g := 2) (c := .notifyAll) hrun rfl
  have hrun := reachable_step (g := 2) hrun (by simp)
    (by simp; rfl)
  have hrun := reachable_step (g := 2) hrun (by simp) (by simp; rfl)
  have hrun := reachable_step (g := 2) hrun (by simp) (by simp; rfl)
  refine ⟨_, hrun, ?_, ?_, ?_, ?_, ?_, ?_, ?_⟩
  all_goals simp [Pc.free]

theorem exists_late (n : Nat) : ∃ s, Late n s := by
  induction n with
  | zero => exact late_zero
  | succ n ih =>
    obtain ⟨_, hs⟩ := ih
    exact hs.next

end State

theorem notify_stale : ∃ s : State (Fin 3), (notifySystem (Fin 3) State.Few).Reachable s ∧ s.pc 0 = .parked ∧
        s.number 0 < s.notified := by
  obtain ⟨s, h⟩ := State.exists_late (2 ^ 31)
  have hnot : less 0 s.notify = false := by
    rw [h.notify]
    rfl
  have hrun := State.reachable_call (g := 0) (c := .wait) h.reachable (by simp [State.call, h.pc.1]; rfl)
  have hrun := State.reachable_step (g := 0) hrun (by simp [h.handed, h.notified])
    (by simp [hnot]; rfl)
  refine ⟨_, hrun, ?_, ?_⟩
  . simp
  . simp [h.number, h.notified]

end NotifyList

end Sync
