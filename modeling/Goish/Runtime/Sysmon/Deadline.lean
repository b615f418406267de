import Goish.Data.System
import Goish.Runtime.Sysmon.Lemmas.Sysmon
import Mathlib.Algebra.Group.Int.Defs

open Function Option

namespace Sysmon

open State

def timerSystem {G : Type u} {T : Type v} [DecidableEq G] [DecidableEq T] (owner : T → G)
    (guard : State G T → G → Prop) : System (State G T) where
  init s := ∃ clock, 0 ≤ clock ∧ s = .new clock
  step s t :=
    (∃ g, s.step g = some t ∧ guard s g) ∨ (∃ i, s.sysmon i = some t) ∨
      (∃ clock, s.clock ≤ clock ∧ t = { s with clock := clock }) ∨ ∃ g c, s.call owner g c = some t

def Pc.timed : Pc G T → Bool
  | .parkRead _ => true
  | .parked => true
  | .parkTokRead _ _ => true
  | .parkedTok _ => true
  | _ => false

def Pc.duration : Pc G T → Option Int64
  | .park ns => some ns
  | .parkTok ns _ => some ns
  | _ => none

def Pc.rearming : Pc G T → Option T
  | .rearmState tok => some tok
  | _ => none

attribute [local simp] Pc.timed

namespace State

variable {G : Type u} {T : Type v} {owner : T → G} {s t : State G T}

def NoWrap (s : State G T) (g : G) : Prop :=
  ∀ ns ∈ (s.pc g).duration, 0 < ns → s.clock.toInt + ns.toInt < 2 ^ 63

def Unqueued (s : State G T) (g : G) : Prop :=
  ∀ tok ∈ (s.pc g).rearming, ∀ e ∈ s.heap, e.cancel ≠ some tok

structure Times (s : State G T) : Prop where
  clock : 0 ≤ s.clock.toInt
  pass : ∀ now, (s.sys = .pass now ∨ ∃ g, s.sys = .ready now g) → now ≤ s.clock
  park : ∀ g, (s.pc g).timed →
    0 ≤ (s.start g).toInt ∧ 0 < (s.dur g).toInt ∧ (s.start g).toInt + (s.dur g).toInt < 2 ^ 63

theorem Times.mono (h : s.Times) (hclock : s.clock ≤ t.clock)
    (hsys : ∀ now, (t.sys = .pass now ∨ ∃ g, t.sys = .ready now g) →
      (s.sys = .pass now ∨ ∃ g, s.sys = .ready now g) ∨ now = t.clock)
    (hpark : ∀ x, (t.pc x).timed → (s.pc x).timed ∧ t.start x = s.start x ∧ t.dur x = s.dur x ∨
      t.start x = s.clock ∧ 0 < t.dur x ∧ s.clock.toInt + (t.dur x).toInt < 2 ^ 63) : t.Times := by
  have hle := Int64.le_iff_toInt_le.mp hclock
  constructor
  case clock => exact Int.le_trans h.clock hle
  case pass =>
    intro now hnow
    rcases hsys now hnow with hold | heq
    . exact Int64.le_trans (h.pass now hold) hclock
    . rw [heq]
      exact Int64.le_refl _
  case park =>
    intro x hx
    rcases hpark x hx with hold | hnew
    . rw [hold.2.1, hold.2.2]
      exact h.park x hold.1
    . rw [hnew.1]
      exact ⟨h.clock, Int64.lt_iff_toInt_lt.mp hnew.2.1, hnew.2.2⟩

variable [DecidableEq G] [DecidableEq T]

omit [DecidableEq G] [DecidableEq T] in
theorem Times.sum (h : s.Times) (hg : (s.pc g).timed)
    : (s.start g + s.dur g).toInt = (s.start g).toInt + (s.dur g).toInt := by
  obtain ⟨hstart, hdur, hlt⟩ := h.park g hg
  rw [Int64.toInt_add]
  apply Int.bmod_eq_of_le <;> omega

theorem goready_frame (s : State G T) (g : G)
    : (s.goready g).clock = s.clock ∧ (s.goready g).sys = s.sys ∧ (s.goready g).start = s.start ∧
        (s.goready g).dur = s.dur ∧ ∀ x, ((s.goready g).pc x).timed → (s.pc x).timed := by
  unfold goready
  split
  all_goals
    refine ⟨rfl, rfl, rfl, rfl, ?_⟩
    intro x hx
  iterate 2
    by_cases heq : x = g
    . simp [heq, goto] at hx
    . simpa [goto, heq] using hx
  exact hx

omit [DecidableEq T] in
theorem Times.goto (h : s.Times) (hp : p.timed → (s.pc g).timed) : (s.goto g p).Times := by
  refine h.mono (Int64.le_refl _) (fun _ hnow => .inl hnow) ?_
  intro x hx
  refine .inl ⟨?_, rfl, rfl⟩
  by_cases heq : x = g
  . rw [heq] at hx ⊢
    simp only [State.goto, update_self] at hx
    exact hp hx
  . simpa [State.goto, heq] using hx

omit [DecidableEq T] in
theorem Times.read (h : s.Times) (hns : ¬ns ≤ 0) (hwrap : 0 < ns → s.clock.toInt + ns.toInt < 2 ^ 63)
    : ((s.readClock g ns).goto g p).Times := by
  have hpos := Int64.not_le.mp hns
  refine h.mono (Int64.le_refl _) (fun _ hnow => .inl hnow) ?_
  intro x hx
  by_cases heq : x = g
  . apply Or.inr
    rw [heq]
    simp only [State.goto, readClock, update_self]
    exact ⟨trivial, hpos, hwrap hpos⟩
  . apply Or.inl
    simpa [State.goto, readClock, heq] using hx

omit [DecidableEq G] in
theorem Times.fire (h : s.Times) (tok : T) : (s.fire tok).2.Times := by
  unfold State.fire
  split
  . exact ⟨h.clock, h.pass, h.park⟩
  . exact h

omit [DecidableEq G] in
theorem Times.fireEntry (h : s.Times) (e : TimerEntry G T)
    : (s.fireEntry e).Times ∧ (s.fireEntry e).clock = s.clock := by
  unfold State.fireEntry
  cases e.cancel with
  | none => exact ⟨h, rfl⟩
  | some tok =>
    refine ⟨h.fire tok, ?_⟩
    dsimp only [elim_some]
    unfold State.fire
    split <;> rfl

omit [DecidableEq G] in
theorem Times.cancel (h : s.Times) (tok : T) : (s.cancel tok).2.Times := by
  unfold State.cancel
  split
  . exact ⟨h.clock, h.pass, h.park⟩
  . exact h

theorem Times.goready (h : s.Times) (g : G) : (s.goready g).Times := by
  obtain ⟨hclock, hsys, hstart, hdur, hpc⟩ := goready_frame s g
  refine h.mono (by rw [hclock]; exact Int64.le_refl _) (fun _ hnow => .inl (hsys ▸ hnow)) ?_
  intro x hx
  rw [hstart, hdur]
  exact .inl ⟨hpc x hx, rfl, rfl⟩

theorem Times.step (h : s.Times) (hstep : s.step g = some t) (hwrap : s.NoWrap g) : t.Times := by
  cases hg : s.pc g
  all_goals simp only [State.step, hg, reduceCtorEq] at hstep
  any_goals cases hstep
  case park ns =>
    have hwrap := hwrap ns (by simp [hg, Pc.duration])
    split at hstep
    . cases hstep
      exact h.goto (by simp)
    . next hns =>
      cases hstep
      exact h.read hns hwrap
  case parkTok ns tok =>
    have hwrap := hwrap ns (by simp [hg, Pc.duration])
    split at hstep
    . cases hstep
      exact (h.fire tok).goto (by simp)
    . next hns =>
      cases hstep
      exact h.read hns hwrap
  case parkRead deadline =>
    have hpush : (s.push g deadline none).Times := ⟨h.clock, h.pass, h.park⟩
    exact hpush.goto (by simp [push, hg])
  case parkTokRead deadline tok =>
    split at hstep
    . cases hstep
      exact h.goto (by simp)
    . cases hstep
      have hpush : ((s.setG tok (some g)).push g deadline (some tok)).Times := ⟨h.clock, h.pass, h.park⟩
      exact hpush.goto (by simp [push, setG, hg])
  case woken =>
    exact h.goto (by simp)
  case nap tok =>
    exact (h.fire tok).goto (by simp)
  case cancel tok =>
    exact (h.cancel tok).goto (by simp)
  case cancelReady tok won _ =>
    have hmoved : (s.goto g (.cancelled tok won)).Times := h.goto (by simp)
    split at hstep
    . cases hstep
      exact hmoved.goready _
    . cases hstep
      exact hmoved
  case rearm tok =>
    have hset : (s.setG tok none).Times := ⟨h.clock, h.pass, h.park⟩
    exact hset.goto (by simp)
  case rearmState tok =>
    have hset : (s.setState tok .armed).Times := ⟨h.clock, h.pass, h.park⟩
    exact hset.goto (by simp)

theorem Times.sysmon (h : s.Times) (hstep : s.sysmon i = some t) : t.Times := by
  unfold State.sysmon at hstep
  split at hstep
  . cases hstep
    refine h.mono (Int64.le_refl _) ?_ (fun x hx => .inl ⟨hx, rfl, rfl⟩)
    simp
  . next now hsys =>
    have hpass := h.pass now (.inl hsys)
    split at hstep
    . cases hstep
      exact ⟨h.clock, by simp, h.park⟩
    split at hstep
    . contradiction
    next e _ =>
    cases hstep
    rcases s.expire_cases now e (s.heap.eraseIdx i) with hlive | hdead
    . obtain ⟨hfire, hclock⟩ := h.fireEntry e
      rw [hlive.2]
      refine ⟨hfire.clock, ?_, hfire.park⟩
      rw [hclock]
      simpa using hpass
    . obtain ⟨_, _, _, heq⟩ := hdead
      rw [heq]
      exact ⟨h.clock, h.pass, h.park⟩
  . next now g hsys =>
    have hpass := h.pass now (.inr ⟨g, hsys⟩)
    have hready := h.goready g
    cases hstep
    refine ⟨hready.clock, ?_, hready.park⟩
    rw [(goready_frame s g).1]
    simpa using hpass

theorem Times.call (h : s.Times) (hcall : s.call owner g c = some t) : t.Times := by
  obtain ⟨_, ht, _⟩ := call_spec hcall
  rw [ht]
  refine h.goto ?_
  cases c <;> simp [Call.pc]

omit [DecidableEq G] [DecidableEq T] in
theorem new_times {clock : Int64} (hclock : 0 ≤ clock) : Times (new clock : State G T) := by
  constructor
  . exact Int64.le_iff_toInt_le.mp hclock
  . simp [new]
  . simp [new]

theorem reachable_times (h : (timerSystem owner fun s g => s.NoWrap g ∧ s.Unqueued g).Reachable s)
    : s.Inv owner ∧ s.Times := by
  apply h.invariant (fun s => s.Inv owner ∧ s.Times)
  . rintro s ⟨clock, hclock, hs⟩
    rw [hs]
    exact ⟨new_inv clock, new_times hclock⟩
  intro s t hboth hstep
  obtain ⟨hinv, htimes⟩ := hboth
  rcases hstep with hstep | hrest
  . obtain ⟨_, hstep, hwrap, hstale⟩ := hstep
    refine ⟨hinv.step hstep ?_, htimes.step hstep hwrap⟩
    exact fun tok hg => hstale tok (by simp [hg, Pc.rearming])
  rcases hrest with hsys | hrest
  . obtain ⟨_, hsys⟩ := hsys
    exact ⟨hinv.sysmon_step hsys, htimes.sysmon hsys⟩
  rcases hrest with htick | hcall
  . obtain ⟨_, hle, ht⟩ := htick
    rw [ht]
    exact ⟨hinv.ghost, htimes.mono hle (fun _ hnow => .inl hnow) (fun x hx => .inl ⟨hx, rfl, rfl⟩)⟩
  . obtain ⟨_, _, hcall⟩ := hcall
    exact ⟨hinv.call hcall, htimes.call hcall⟩

theorem sysmon_pc (hstep : s.sysmon i = some t) (hpc : t.pc g ≠ s.pc g) : ∃ now, s.sys = .ready now g := by
  unfold sysmon at hstep
  split at hstep
  . rw [some.injEq] at hstep
    rw [← hstep] at hpc
    exact (hpc rfl).elim
  . split at hstep
    . rw [some.injEq] at hstep
      rw [← hstep] at hpc
      exact (hpc rfl).elim
    split at hstep
    . contradiction
    next now _ _ e _ =>
    rw [some.injEq] at hstep
    rw [← hstep, expire_pc] at hpc
    exact (hpc rfl).elim
  . next now x hsys =>
    rw [some.injEq] at hstep
    have heq : g = x := by
      apply Decidable.of_not_not
      intro hne
      rw [← hstep] at hpc
      exact hpc (goready_pc s hne)
    rw [heq]
    exact ⟨now, hsys⟩

end State

theorem ready_after_deadline [DecidableEq G] [DecidableEq T] {owner : T → G} {s t : State G T}
    (h : (timerSystem owner fun s g => s.NoWrap g ∧ s.Unqueued g).Reachable s) (hstep : s.sysmon i = some t)
    : t.fault = false ∧ ∀ g, t.pc g ≠ s.pc g →
        ∃ now, s.sys = .ready now g ∧ now ≤ s.clock ∧ (s.pc g).isParked = true ∧
          (s.start g).toInt + (s.dur g).toInt ≤ now.toInt := by
  obtain ⟨hinv, htimes⟩ := reachable_times h
  refine ⟨(hinv.sysmon_step hstep).fault, ?_⟩
  intro g hpc
  obtain ⟨now, hsys⟩ := sysmon_pc hstep hpc
  obtain ⟨⟨hparked, _⟩, hdue⟩ := hinv.ready now g hsys
  have htimed : (s.pc g).timed = true := by
    cases hg : s.pc g <;> simp_all [Pc.isParked]
  refine ⟨now, hsys, htimes.pass now (.inr ⟨g, hsys⟩), hparked, ?_⟩
  rw [← htimes.sum htimed]
  exact Int64.le_iff_toInt_le.mp hdue

namespace State

variable {G : Type u} {T : Type v} [DecidableEq G] [DecidableEq T]

inductive Act (G : Type u) (T : Type v) where
  | step (g : G)
  | sysmon (i : Nat)
  | tick (clock : Int64)
  | call (g : G) (c : Call T)

def act (owner : T → G) (guard : State G T → G → Prop) [∀ s g, Decidable (guard s g)] (s : State G T)
    : Act G T → Option (State G T)
  | .step g => if guard s g then s.step g else none
  | .sysmon i => s.sysmon i
  | .tick clock => if s.clock ≤ clock then some { s with clock := clock } else none
  | .call g c => s.call owner g c

theorem act_step (owner : T → G) (guard : State G T → G → Prop) [∀ s g, Decidable (guard s g)] (s : State G T)
    (a : Act G T) (t : State G T) (h : act owner guard s a = some t) : (timerSystem owner guard).step s t := by
  cases a with
  | step g =>
    simp only [act, ite_none_right_eq_some] at h
    exact .inl ⟨g, h.2, h.1⟩
  | sysmon i => exact .inr (.inl ⟨i, h⟩)
  | tick clock =>
    simp only [act, ite_none_right_eq_some, some.injEq] at h
    exact .inr (.inr (.inl ⟨clock, h.1, h.2.symm⟩))
  | call g c => exact .inr (.inr (.inr ⟨g, c, h⟩))

instance (s : State G T) (g : G) : Decidable (s.NoWrap g) :=
  decidableForallMem (s.pc g).duration

instance (s : State G T) (g : G) : Decidable (s.Unqueued g) :=
  decidableForallMem (s.pc g).rearming

def early (s : State G T) (g : G) : Bool :=
  match s.sys with
  | .ready now x => x = g ∧ (s.pc g).isParked ∧ now.toInt < (s.start g).toInt + (s.dur g).toInt
  | _ => false

end State

theorem ready_after_deadline_sleep : ∃ (s t : State (Fin 1) (Fin 1)) (now : Int64),
        (timerSystem (fun _ => 0) fun s g => s.NoWrap g ∧ s.Unqueued g).Reachable s ∧
        s.sysmon 0 = some t ∧ t.pc 0 ≠ s.pc 0 ∧ s.sys = .ready now 0 ∧
        (s.start 0).toInt + (s.dur 0).toInt ≤ now.toInt := by
  obtain ⟨s, hrun, hs⟩ := System.exists_run _ _
    (act_step (fun _ => 0) fun s g => s.NoWrap g ∧ s.Unqueued g) (.new 5 : State (Fin 1) (Fin 1))
    [.call 0 (.timerPark 100), .step 0, .step 0, .tick 105, .sysmon 0, .sysmon 0]
    (fun s => (s.sysmon 0).any fun t => t.pc 0 ≠ s.pc 0) (by decide +kernel)
  have hinit : (timerSystem (fun _ => 0) fun s g => s.NoWrap g ∧ s.Unqueued g).Reachable
      (.new 5 : State (Fin 1) (Fin 1)) := .init ⟨5, by decide, rfl⟩
  have hreach := hinit.trans hrun
  cases ht : s.sysmon 0 with
  | none => simp [ht] at hs
  | some t =>
    simp only [ht, any_some, decide_eq_true_eq] at hs
    obtain ⟨now, hsys, _, _, hle⟩ := (ready_after_deadline hreach ht).2 0 hs
    exact ⟨s, t, now, hreach, ht, hs, hsys, hle⟩

theorem ready_early : (∃ s : State (Fin 1) (Fin 1), (timerSystem (fun _ => 0) State.Unqueued).Reachable s ∧
        s.early 0 = true) ∧
      ∃ s : State (Fin 2) (Fin 1), (timerSystem (fun _ => 0) State.NoWrap).Reachable s ∧
        s.early 0 = true := by
  constructor
  . obtain ⟨s, hrun, hs⟩ := System.exists_run _ _ (act_step (fun _ => 0) State.Unqueued)
      (.new 1 : State (Fin 1) (Fin 1))
      [.call 0 (.timerPark Int64.maxValue), .step 0, .step 0, .sysmon 0, .sysmon 0]
      (fun s => s.early 0) (by decide +kernel)
    exact ⟨s, System.Reachable.trans (.init ⟨1, by decide, rfl⟩) hrun, hs⟩
  obtain ⟨s, hrun, hs⟩ := System.exists_run _ _ (act_step (fun _ => 0) State.NoWrap)
    (.new 0 : State (Fin 2) (Fin 1))
    [.call 0 (.timerParkCancellable 100 0), .step 0, .step 0, .call 1 (.timerCancel 0), .step 1, .step 1,
      .step 0, .call 0 (.rearm 0), .step 0, .step 0, .tick 10, .call 0 (.timerParkCancellable 1000 0),
      .step 0, .step 0, .tick 100, .sysmon 0, .sysmon 1]
    (fun s => s.early 0) (by decide +kernel)
  exact ⟨s, System.Reachable.trans (.init ⟨0, by decide, rfl⟩) hrun, hs⟩

end Sysmon
