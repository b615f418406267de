import Goish.Data.System
import Goish.Sync.Lemmas.WaitGroup

open Function Tally

namespace Sync

def waitGroupSystem (G : Type u) [DecidableEq G] (guard : WaitGroup.State G → Int64 → Prop)
    : System (WaitGroup.State G) where
  init s := s = .new
  step s t :=
    ∃ g, (s.step g = some t ∧ match s.pc g with | .add delta => guard s delta | _ => True) ∨
      ∃ c, s.call g c = some t

namespace WaitGroup

namespace State

variable {G : Type u} [DecidableEq G]

def StartOk (s : State G) (delta : Int64) : Prop :=
  0 < delta → counter s.state > 0 ∨ ∀ x, (s.pc x).inWait = false

def NoUnderflow (s : State G) (delta : Int64) : Prop :=
  delta < 0 → counter s.state > 0 ∨ rawDelta delta = 0 ∨ ∀ x, (s.pc x).inWait = false

omit [DecidableEq G] in
theorem addOk_of_guards {s : State G} (hstart : s.StartOk delta) (hunder : s.NoUnderflow delta) : s.AddOk delta := by
  by_cases hpos : 0 < delta
  . rcases hstart hpos with _ | hnone
    . exact .inl (by omega)
    . exact .inr (.inr hnone)
  by_cases hneg : delta < 0
  . rcases hunder hneg with _ | hrest
    . exact .inl (by omega)
    . exact .inr hrest
  . have hzero : delta = 0 := Int64.le_antisymm (Int64.not_lt.mp hpos) (Int64.not_lt.mp hneg)
    rw [hzero]
    exact .inr (.inl rfl)

variable [Fintype G] {s t : State G}

theorem reachable_inv (hcard : Fintype.card G < 2 ^ 32)
    (h : (waitGroupSystem G fun s delta => s.StartOk delta ∧ s.NoUnderflow delta).Reachable s) : s.Inv := by
  apply h.invariant
  . intro s hinit
    rw [hinit]
    exact new_inv
  intro s t hinv ⟨g, hstep⟩
  rcases hstep with hstep | hcall
  . obtain ⟨hstep, hguard⟩ := hstep
    apply hinv.step hcard _ hstep
    intro _ hg
    rw [hg] at hguard
    exact addOk_of_guards hguard.1 hguard.2
  . obtain ⟨_, hcall⟩ := hcall
    exact hinv.call hcall

def Stuck (s : State G) : Prop :=
  ∀ g t, s.step g = some t → t.pc g = .parked

def Rests (s : State G) (g : G) : Prop :=
  s.pc g = .idle ∨ s.pc g = .waited ∨ s.pc g = .parked ∨ s.pc g = .acquire ∧ s.sema.credit = 0

theorem rests_of_stuck (h : s.Inv) (hs : s.Stuck) (g : G) : s.Rests g := by
  have hs := hs g
  have hok := h.ok g
  unfold Rests
  cases hg : s.pc g
  all_goals simp only [State.step, hg, reduceCtorEq] at hs
  case idle | waited | parked => simp
  case fatal =>
    rw [hg] at hok
    exact hok.elim
  case acquire =>
    simp only [reduceCtorEq, false_or, true_and]
    apply Nat.eq_zero_of_not_pos
    intro hpos
    simp only [Sema.acquire_pos hpos, Option.some.injEq, forall_eq'] at hs
    simp [look, goto] at hs
  case add | waitLoad | ready =>
    simp only [Option.some.injEq, forall_eq'] at hs
    simp [look, goto, addTo, ite_eq_iff] at hs
  case cas | waitCas =>
    split at hs <;>
    . have hb := hs _ rfl
      simp [look, goto] at hb
  case release =>
    cases hq : s.sema.queue with
    | nil =>
      rw [Sema.releaseNext_nil hq] at hs
      have hb := hs _ rfl
      simp [look, goto] at hb
    | cons =>
      rw [Sema.releaseNext_cons hq] at hs
      have hb := hs _ rfl
      simp [look, goto, update_apply, ite_eq_iff] at hb

theorem stuck_outside (h : s.Inv) (hs : s.Stuck) (hzero : counter s.state = 0) (g : G) : (s.pc g).inWait = false := by
  have hrests := rests_of_stuck h hs
  have hword : s.state = 0 := by
    apply not_not.mp
    intro hne
    obtain ⟨x, hx⟩ := h.zero hzero hne
    have hr := hrests x
    simp [Rests, hx] at hr
  have hleft : total Pc.left s.pc = 0 := by
    apply total_eq_zero
    intro x
    have hr := hrests x
    unfold Rests at hr
    cases hpc : s.pc x <;> simp_all
  have hcredit : s.sema.credit = total Pc.waiting s.pc := by
    have hcount := h.count
    rw [hword, waiters_zero] at hcount
    unfold units at hcount
    omega
  have hnone : ¬ 0 < total Pc.waiting s.pc := by
    intro hpos
    obtain ⟨x, _⟩ := exists_of_total_pos hpos
    have hr := hrests x
    unfold Rests at hr
    rw [← h.parks.mem, h.parks.credit (by omega)] at hr
    cases hpc : s.pc x <;> simp_all
  have hr := hrests g
  have hg := total_eq_zero_iff.mp (Nat.eq_zero_of_not_pos hnone) g
  unfold Rests at hr
  cases hpc : s.pc g <;> simp_all [Pc.inWait]

theorem clear_units (h : s.Inv) (hg : s.pc g = .cas s.state) (hstep : s.step g = some t)
    : t.units = total Pc.waiting s.pc := by
  have hok := h.ok g
  rw [hg] at hok
  obtain ⟨hcounter, hne⟩ : counter s.state = 0 ∧ s.state ≠ 0 := hok
  have hzero : s.units = 0 := by
    apply Nat.eq_zero_of_not_pos
    intro hpos
    exact hne (h.cleared hpos)
  have hcount := h.count
  have hunits := s.units_update hg (.release (waiters s.state))
  simp only [State.step, hg, if_true] at hstep
  cases hstep
  unfold units look State.goto at *
  simp only [Pc.left] at hunits ⊢
  omega

end State

structure State.Exact [Fintype G] [DecidableEq G] (s : State G) : Prop where
  waited : ∀ g, s.pc g = .waited → s.sawZero g = true
  cleared : counter s.state = 0 → 0 < waiters s.state → ∃ g, s.pc g = .cas s.state
  clear : ∀ g t, s.pc g = .cas s.state → s.step g = some t → t.units = total Pc.waiting s.pc
  count : waiters s.state + s.units = total Pc.waiting s.pc
  units : 0 < s.units → counter s.state = 0 ∧ s.units = total Pc.waiting s.pc
  stuck : s.Stuck → counter s.state = 0 → ∀ g, (s.pc g).inWait = false
  drained : (∀ g, (s.pc g).waiting = 0) → s.units = 0 ∧ s.sema.credit = 0

theorem wait_exact [Fintype G] [DecidableEq G] {s : State G} (hcard : Fintype.card G < 2 ^ 32)
    (h : (waitGroupSystem G fun s delta => s.StartOk delta ∧ s.NoUnderflow delta).Reachable s) : s.Exact := by
  have hinv := State.reachable_inv hcard h
  have hcount := hinv.count
  refine ⟨?_, ?_, ?_, hcount, ?_, ?_, ?_⟩
  . intro g hg
    apply hinv.saw
    rw [hg]
    trivial
  . intro hcounter hpos
    apply hinv.zero hcounter
    intro hword
    rw [hword, waiters_zero] at hpos
    contradiction
  . exact fun g t => State.clear_units hinv
  . intro hpos
    have hword := hinv.cleared hpos
    rw [hword, waiters_zero, zero_add] at hcount
    rw [hword]
    exact ⟨counter_zero, hcount⟩
  . exact fun hstuck hzero => State.stuck_outside hinv hstuck hzero
  . intro hnone
    have hwaiting := total_eq_zero Pc.waiting s.pc hnone
    unfold State.units at *
    omega

namespace State

def act (guard : State G → Int64 → Prop) [∀ s delta, Decidable (guard s delta)] [DecidableEq G] (s : State G)
    : G × Option Call → Option (State G)
  | (g, some c) => s.call g c
  | (g, none) =>
    match s.pc g with
    | .add delta => if guard s delta then s.step g else none
    | _ => s.step g

theorem act_step (guard : State G → Int64 → Prop) [∀ s delta, Decidable (guard s delta)] [DecidableEq G] (s : State G)
    (a : G × Option Call) (t : State G) (h : act guard s a = some t) : (waitGroupSystem G guard).step s t := by
  obtain ⟨g, c⟩ := a
  cases c with
  | some c => exact ⟨g, .inr ⟨c, h⟩⟩
  | none =>
    refine ⟨g, .inl ?_⟩
    unfold act at h
    dsimp only at h
    split at h
    . next delta hg =>
      split at h
      . next hguard => exact ⟨h, hguard⟩
      . contradiction
    . exact ⟨h, trivial⟩

instance [Fintype G] (s : State G) (delta : Int64) : Decidable (s.StartOk delta) :=
  inferInstanceAs (Decidable (_ → _))

instance [Fintype G] (s : State G) (delta : Int64) : Decidable (s.NoUnderflow delta) :=
  inferInstanceAs (Decidable (_ → _))

end State

theorem wait_exact_clear : ∃ s : State (Fin 2),
        (waitGroupSystem (Fin 2) fun s delta => s.StartOk delta ∧ s.NoUnderflow delta).Reachable s ∧
          counter s.state = 0 ∧ waiters s.state = 1 ∧ ∃ g, s.pc g = .cas s.state := by
  obtain ⟨s, hrun, hs⟩ := System.exists_run _ _
    (State.act_step fun s delta => s.StartOk delta ∧ s.NoUnderflow delta) (.new : State (Fin 2))
    [(1, some (.add 1)), (1, none), (0, some .wait), (0, none), (0, none), (1, some .done), (1, none)]
    (fun s => counter s.state = 0 ∧ waiters s.state = 1) (by decide +kernel)
  rw [decide_eq_true_eq] at hs
  have h := System.Reachable.trans (.init rfl) hrun
  exact ⟨s, h, hs.1, hs.2, (wait_exact (by decide) h).cleared hs.1 (by omega)⟩

theorem wait_lost : ∃ s t : State (Fin 3), (waitGroupSystem (Fin 3) State.StartOk).Reachable s ∧
        counter s.state = 0 ∧ waiters s.state = 1 ∧ s.pc 0 = .acquire ∧
        Relation.ReflTransGen (waitGroupSystem (Fin 3) State.StartOk).step s t ∧
        t.pc 0 = .parked ∧ t.units = 0 ∧ ∀ g, t.step g = none := by
  let first : List (Fin 3 × Option Call) :=
    [(1, some (.add 1)), (1, none), (0, some .wait), (0, none), (0, none), (1, some .done), (2, some .done),
      (1, none)]
  let second : List (Fin 3 × Option Call) := [(2, none), (1, none), (0, none)]
  let lost : State (Fin 3) → Bool := fun t => t.pc 0 = .parked ∧ t.units = 0 ∧ ∀ g, (t.step g).isNone
  obtain ⟨s, hs, hps⟩ := System.exists_run _ _ (State.act_step State.StartOk) .new first
    (fun s => (counter s.state = 0 ∧ waiters s.state = 1 ∧ s.pc 0 = .acquire) ∧
      (second.foldlM (State.act State.StartOk) s).any lost) (by decide +kernel)
  rw [decide_eq_true_eq] at hps
  obtain ⟨⟨hcounter, hwaiters, hpc⟩, hsecond⟩ := hps
  obtain ⟨t, ht, hpt⟩ := System.exists_run _ _ (State.act_step State.StartOk) s second lost hsecond
  rw [decide_eq_true_eq] at hpt
  obtain ⟨hparked, hunits, hnone⟩ := hpt
  refine ⟨s, t, System.Reachable.trans (.init rfl) hs, hcounter, hwaiters, hpc, ht, hparked, hunits, ?_⟩
  exact fun g => Option.isNone_iff_eq_none.mp (hnone g)

inductive Update where
  | add (delta : Int64)
  | done
  deriving DecidableEq

namespace Update

def call : Update → Call
  | .add delta => .add delta
  | .done => .done

def delta : Update → Int
  | .add delta => delta.toInt
  | .done => -1

def sum (us : List (G × Update)) (k : Nat) : Int :=
  ((us.take k).map fun u => u.2.delta).sum

end Update

namespace State

variable {G : Type u} [DecidableEq G] {s : State G}

def updates (s : State G) : List (G × Update) → List Pc
  | [] => []
  | (g, u) :: us =>
    match (s.call g u.call).bind fun s => s.step g with
    | none => []
    | some t => t.pc g :: t.updates us

theorem addTo_of_waiters (h : waiters x = 0) : addTo x = .idle := by
  unfold addTo
  rw [if_neg (Int.not_lt.mpr (counter_nonneg x)), if_pos (.inr h)]

theorem update_eq (hpc : ∀ x, s.pc x = .idle) (hw : waiters s.state = 0) (g : G) (u : Update)
    : ∃ t, ((s.call g u.call).bind fun s => s.step g) = some t ∧ (∀ x, t.pc x = .idle) ∧
        waiters t.state = 0 := by
  have hcall : ∃ d, s.call g u.call = some (s.goto g (.add d)) := by
    cases u with
    | add d => exact ⟨d, if_pos (.inl (hpc g))⟩
    | done => exact ⟨-1, if_pos (.inl (hpc g))⟩
  obtain ⟨d, hcall⟩ := hcall
  have hw' : waiters (s.state + rawDelta d) = 0 := by
    rw [waiters_add_rawDelta, hw]
  have hstep : (s.goto g (.add d)).step g = some (look
      { (s.goto g (.add d)).goto g .idle with state := s.state + rawDelta d }) := by
    unfold State.step
    rw [show (s.goto g (.add d)).pc g = .add d from update_self ..]
    dsimp only [goto]
    rw [addTo_of_waiters hw']
  rw [hcall, Option.bind_some, hstep]
  refine ⟨_, rfl, ?_, hw'⟩
  intro x
  show update (update s.pc g (.add d)) g .idle x = .idle
  rw [update_idem, update_apply]
  split
  . rfl
  . exact hpc x

theorem updates_eq (us : List (G × Update)) (hpc : ∀ x, s.pc x = .idle) (hw : waiters s.state = 0)
    : s.updates us = List.replicate us.length .idle := by
  induction us generalizing s with
  | nil => rfl
  | cons u _ ih =>
    obtain ⟨_, ht, hpc', hw'⟩ := update_eq hpc hw u.1 u.2
    unfold updates
    rw [ht]
    dsimp only
    rw [hpc', ih hpc' hw', List.length_cons, List.replicate_succ]

end State

theorem negative_caught [DecidableEq G] (us : List (G × Update)) : (∀ k, k < us.length →
        ((State.new.updates us)[k]? = some .fatal ↔ Update.sum us (k + 1) < 0)) ↔
      ∀ k, k < us.length → 0 ≤ Update.sum us (k + 1) := by
  have hzero : waiters (State.new : State G).state = 0 := waiters_zero
  rw [State.updates_eq us (fun _ => rfl) hzero]
  apply forall_congr'
  intro k
  apply forall_congr'
  intro hk
  rw [List.getElem?_replicate, if_pos hk]
  simp

theorem negative_missed
    : (State.new.updates [((), Update.done)])[0]? = some .idle ∧ Update.sum [((), Update.done)] 1 < 0 := by
  decide

end WaitGroup

end Sync
