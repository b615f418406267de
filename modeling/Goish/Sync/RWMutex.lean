import Goish.Sync.Lemmas.RWMutex
import Goish.Sync.Mutex

/-! A writer excludes everyone else, no wakeup is lost, and no credit is left over. -/

open Function Tally Option

namespace Sync

def rwMutexSystem (G : Type u) [Fintype G] [DecidableEq G] : System (RWMutex.State G) where
  init s := s = .new
  step s t := (∃ g, s.step g = some t ∨ ∃ c, s.call g c = some t) ∧ t.readers < RWMutex.rwMaxReaders

namespace RWMutex

namespace State

variable {G : Type u} [Fintype G] [DecidableEq G] {s t : State G}

theorem reachable_inv (h : (rwMutexSystem G).Reachable s) : s.Inv := by
  apply h.invariant
  . rintro s rfl
    exact new_inv
  intro s t hinv ⟨⟨g, hstep⟩, hroom⟩
  rcases hstep with hstep | hcall
  . exact hinv.step hstep hroom
  . obtain ⟨_, hcall⟩ := hcall
    exact hinv.call hcall hroom

def Parked (s : State G) (g : G) : Prop :=
  s.pc g = .rParked ∨ s.pc g = .wParked ∨ s.w.pc g = .parked

def Stuck (s : State G) : Prop :=
  ∀ g t, s.step g = some t → t.Parked g

def Rests (s : State G) (g : G) : Prop :=
  match s.pc g with
  | .idle => True
  | .rHeld => True
  | .wHeld => True
  | .rParked => True
  | .wParked => True
  | .rAcquire => s.readerSem.credit = 0
  | .wAcquire => s.writerSem.credit = 0
  | .lockW => s.w.pc g = .parked ∨ s.w.pc g = .acquire ∧ s.w.sema.credit = 0
  | _ => False

omit [Fintype G] [DecidableEq G] in
theorem Parked.goes (h : t.Parked g) (hw : t.w.pc g = p) (hp : p ≠ .parked) (hpc : t.pc g = b)
    : b = .rParked ∨ b = .wParked := by
  unfold Parked at h
  rw [hw, hpc] at h
  rcases h with h | h
  . exact .inl h
  . exact .inr (h.resolve_right hp)

omit [Fintype G] in
theorem stepW_parks (hs : ∀ t, s.stepW g = some t → t.Parked g) (hpc : s.pc g ≠ .rParked ∧ s.pc g ≠ .wParked)
    (hin : (s.w.pc g).InLock ∨ s.w.pc g = .tryLock ∨ (s.w.pc g).InUnlock)
    : s.w.pc g = .parked ∨ s.w.pc g = .acquire ∧ s.w.sema.credit = 0 := by
  unfold stepW at hs
  by_cases hparked : s.w.pc g = .parked
  . exact .inl hparked
  by_cases hg : s.w.pc g = .acquire
  . refine .inr ⟨hg, ?_⟩
    apply Nat.eq_zero_of_not_pos
    intro hpos
    simp only [Mutex.State.step, hg, Sema.acquire_pos hpos, map_some, some.injEq,
      forall_eq'] at hs
    simp [Parked, hpc] at hs
  . obtain ⟨_, hw, hne⟩ := Mutex.State.step_unparked hin hparked hg
    rw [hw] at hs
    simp [Parked, hpc, hne] at hs

omit [Fintype G] in
theorem enterW_unparked (hs : ∀ t, s.enterW g c b = some t → t.Parked g) (hb : b ≠ .rParked ∧ b ≠ .wParked)
    (hcall : ∃ w, s.w.call g c = some w) : False := by
  obtain ⟨_, hw⟩ := hcall
  unfold enterW at hs
  rw [hw] at hs
  have hp := hs _ rfl
  have hpc := Mutex.State.call_pc hw
  cases hp.goes (congrFun hpc g) (by rw [update_self]; cases c <;> simp [Mutex.State.entry])
    (update_self g _ s.pc) with
  | inl h => exact hb.1 h
  | inr h => exact hb.2 h

theorem rests_of_stuck (h : s.Inv) (hs : s.Stuck) (g : G) : s.Rests g := by
  have hl := h.linked g
  have hs := hs g
  unfold Rests
  cases hg : s.pc g
  all_goals
    simp only [State.step, hg, reduceCtorEq] at hs
    rw [hg] at hl
  case idle | rHeld | wHeld | rParked | wParked => trivial
  case fatal =>
    have hok := h.ok g
    rwa [hg] at hok
  case rReady | tryRLoad | rLock | rUnlockSlow | announce | drain | wReady | rUnlock | unlock =>
    simp only [some.injEq, forall_eq'] at hs
    have hb := hs.goes hl (by simp) (update_self g _ s.pc)
    simp [rUnlockTo, unlockTo, ite_eq_iff] at hb
  case tryRCas | tryCas =>
    split at hs <;>
    . have hb := (hs _ rfl).goes hl (by simp) (update_self g _ s.pc)
      simp at hb
  case rAcquire | wAcquire =>
    apply Nat.eq_zero_of_not_pos
    intro hpos
    simp only [Sema.acquire_pos hpos, some.injEq, forall_eq'] at hs
    have hb := hs.goes hl (by simp) (update_self g _ s.pc)
    simp at hb
  case wRelease | rRelease =>
    split at hs
    . have hb := (hs _ rfl).goes hl (by simp) (update_apply _ _ _ g)
      simp [goto, ite_eq_iff] at hb
    . have hb := (hs _ rfl).goes hl (by simp) (update_self g _ s.pc)
      simp at hb
  case lock | tryLock | unlockCall =>
    exact enterW_unparked hs (by simp) ⟨_, if_pos hl⟩
  case lockW =>
    split at hs
    . next hheld =>
      have hb := (hs _ rfl).goes hheld (by simp) (update_self g _ s.pc)
      simp at hb
    . next hne => exact stepW_parks hs (by simp [hg]) (.inl (hl.resolve_right hne))
  case tryLockW =>
    split at hs
    . next hheld =>
      have hb := (hs _ rfl).goes hheld (by simp) (update_self g _ s.pc)
      simp at hb
    next hheld =>
    split at hs
    . next hidle =>
      have hb := (hs _ rfl).goes hidle (by simp) (update_self g _ s.pc)
      simp at hb
    . next hidle =>
      have htry := hl.resolve_right (not_or.mpr ⟨hheld, hidle⟩)
      have hparks := stepW_parks hs (by simp [hg]) (.inr (.inl htry))
      simp [htry] at hparks
  case unlockW =>
    split at hs
    . next hidle =>
      have hb := (hs _ rfl).goes hidle (by simp) (update_self g _ s.pc)
      simp at hb
    next hidle =>
    have hin := hl.resolve_right hidle
    rcases stepW_parks hs (by simp [hg]) (.inr (.inr hin)) with hparked | hacquire
    . simp [hparked, Mutex.Pc.InUnlock] at hin
    . simp [hacquire.1, Mutex.Pc.InUnlock] at hin

attribute [local simp] Mutex.Pc.releasing Mutex.Pc.owner

section Stuck

variable (h : s.Inv) (hs : s.Stuck)
include h hs

theorem stuck_counts : total Pc.slow s.pc = 0 ∧ total Pc.signalling s.pc = 0 ∧ total Pc.draining s.pc = 0 ∧
        total Pc.pending s.pc = 0 := by
  refine ⟨?_, ?_, ?_, ?_⟩ <;>
  . apply total_eq_zero
    intro g
    have hr := rests_of_stuck h hs g
    unfold Rests at hr
    cases hg : s.pc g <;> simp_all

theorem stuck_readerCredit : s.readerSem.credit = 0 := by
  apply Nat.eq_zero_of_not_pos
  intro hpos
  have hcredit : s.readerSem.credit ≤ total Pc.waiting s.pc := by
    cases h.phase with
    | free hp =>
      have := hp.credit
      omega
    | draining hp | awaiting hp => exact hp.credit
    | writing hp =>
      have := hp.others
      omega
  obtain ⟨x, hx⟩ := exists_of_total_pos (lt_of_lt_of_le hpos hcredit)
  have hr := rests_of_stuck h hs x
  unfold Rests at hr
  cases hg : s.pc x with
  | rAcquire =>
    simp only [hg] at hr
    omega
  | rParked =>
    rw [← h.readerSem.mem, h.readerSem.credit hpos] at hg
    cases hg
  | _ => simp [hg] at hx

theorem stuck_active (hx : 0 < total Pc.active s.pc) : ∃ x, s.pc x = .rHeld := by
  obtain ⟨x, hx⟩ := exists_of_total_pos hx
  have hr := rests_of_stuck h hs x
  unfold Rests at hr
  cases hg : s.pc x with
  | rHeld => exact ⟨x, hg⟩
  | rReady | rUnlock => simp [hg] at hr
  | _ => simp [hg] at hx

theorem stuck_awaiting (hg : 0 < (s.pc g).awaiting) : ∃ x, s.pc x = .rHeld := by
  have hp := h.phase.awaiting_of_awaiting hg
  obtain ⟨hslow, hsignalling, _, _⟩ := stuck_counts h hs
  have hcredit := stuck_readerCredit h hs
  have hdepartures := hp.departures
  apply stuck_active h hs
  rcases hp.signals with _ | _
  . have hpos : 0 < s.writerSem.credit := by omega
    have hr := rests_of_stuck h hs g
    unfold Rests at hr
    cases hpc : s.pc g with
    | wAcquire =>
      simp only [hpc] at hr
      omega
    | wParked =>
      rw [← h.writerSem.mem, h.writerSem.credit hpos] at hpc
      cases hpc
    | _ => simp [hpc] at hg
  . omega

theorem stuck_waiting (hg : 0 < (s.pc g).waiting) : ∃ x, 0 < (s.pc x).awaiting ∨ s.pc x = .wHeld := by
  obtain ⟨_, _, hdraining, hpending⟩ := stuck_counts h hs
  have hcredit := stuck_readerCredit h hs
  have hle := le_total Pc.waiting s.pc g
  cases h.phase with
  | free hp =>
    have := hp.credit
    omega
  | draining hp =>
    have := hp.draining
    omega
  | awaiting hp =>
    obtain ⟨x, hx⟩ := exists_of_total_pos (Nat.lt_of_lt_of_eq Nat.zero_lt_one hp.awaiting.symm)
    exact ⟨x, .inl hx⟩
  | writing hp =>
    obtain ⟨x, hx⟩ := exists_of_total_pos (Nat.lt_of_lt_of_eq Nat.zero_lt_one hp.writing.symm)
    have hr := rests_of_stuck h hs x
    unfold Rests at hr
    cases hpc : s.pc x with
    | wHeld => exact ⟨x, .inr hpc⟩
    | wReady | unlock => simp [hpc] at hr
    | _ => simp [hpc] at hx

theorem stuck_lockW (hg : s.pc g = .lockW) : ∃ x, s.pc x = .rHeld ∨ s.pc x = .wHeld := by
  have hr := rests_of_stuck h hs g
  simp only [Rests, hg] at hr
  have hodd : s.w.state % 2 ≠ 0 := by
    intro heven
    have hreg := h.w.not_registered heven g
    rcases hr with hparked | hacquire
    . simp [hparked, Mutex.Pc.registered] at hreg
    . simp [hacquire.1, Mutex.Pc.registered] at hreg
  have hcredit : s.w.sema.credit = 0 := by
    apply Nat.eq_zero_of_not_pos
    intro hpos
    rcases hr with hparked | _
    . rw [← h.w.parks.mem, h.w.parks.credit hpos] at hparked
      cases hparked
    . omega
  have hreleasing : total Mutex.Pc.releasing s.w.pc = 0 := by
    apply total_eq_zero
    intro x
    have hl := h.linked x
    have hr := rests_of_stuck h hs x
    unfold Rests at hr
    cases hpc : s.pc x with
    | lockW =>
      simp only [hpc] at hr
      rcases hr with hparked | hacquire
      . simp [hparked]
      . simp [hacquire.1]
    | _ => simp_all [Linked]
  have hlocked := h.w.locked
  obtain ⟨x, hx⟩ := exists_of_total_pos (w := Mutex.Pc.owner) (show 0 < total _ s.w.pc by omega)
  have hl := h.linked x
  have hr := rests_of_stuck h hs x
  unfold Rests at hr
  cases hpc : s.pc x with
  | wHeld => exact ⟨x, .inr hpc⟩
  | wAcquire | wParked =>
    obtain ⟨y, hy⟩ := stuck_awaiting h hs (g := x) (by simp [hpc])
    exact ⟨y, .inl hy⟩
  | lockW =>
    simp only [hpc] at hr
    rcases hr with hparked | hacquire
    . simp [hparked] at hx
    . simp [hacquire.1] at hx
  | _ => simp_all [Linked]

end Stuck

omit [DecidableEq G] in
theorem Inv.all_idle (h : s.Inv) (hidle : ∀ g, s.pc g = .idle)
    : s.readerSem.credit = 0 ∧ s.writerSem.credit = 0 ∧ s.readerCount = 0 ∧ s.readerWait = 0 ∧
        s.w.state = 0 ∧ s.w.sema.credit = 0 := by
  have hpc : s.pc = fun _ => .idle := funext hidle
  have hw : s.w.pc = fun _ => .idle := by
    funext g
    have hl := h.linked g
    rwa [hidle g] at hl
  have hphase := h.phase
  have hp := hphase.free_of_writers (by simp [hpc, total])
  have hcount := hp.count
  have hcredit := hp.credit
  have hothers := hp.others
  have hwait := hp.readerWait
  have hlocked := h.w.locked
  have hwaiters := h.w.waiters
  have hqueue : s.w.sema.queue = [] := by
    apply List.eq_nil_iff_forall_not_mem.mpr
    intro g hg
    rw [h.w.parks.mem, hw] at hg
    cases hg
  simp [hpc, total] at hcount hcredit hothers
  simp [hw, hqueue, total, Mutex.Pc.acquiring] at hlocked hwaiters
  omega

end State

theorem rwLock_safe [Fintype G] [DecidableEq G] {s : State G} (h : (rwMutexSystem G).Reachable s)
    : (∀ g, 0 < (s.pc g).writing →
          (∀ x, (s.pc x).active = 0) ∧ ∀ x, 0 < (s.pc x).writing → x = g) ∧
        (s.Stuck →
          (∀ g, 0 < (s.pc g).awaiting → ∃ x, s.pc x = .rHeld) ∧
          (∀ g, s.pc g = .lockW → ∃ x, s.pc x = .rHeld ∨ s.pc x = .wHeld) ∧
          (∀ g, 0 < (s.pc g).waiting → ∃ x, 0 < (s.pc x).awaiting ∨ s.pc x = .wHeld)) ∧
        ((∀ g, s.pc g = .idle) →
          s.readerSem.credit = 0 ∧ s.writerSem.credit = 0 ∧ s.readerCount = 0 ∧ s.readerWait = 0 ∧
            s.w.state = 0 ∧ s.w.sema.credit = 0) := by
  have hinv := State.reachable_inv h
  refine ⟨?_, ?_, hinv.all_idle⟩
  . intro g hg
    have hp := hinv.phase.writing_of_writing hg
    have hothers := hp.others
    constructor
    . exact total_eq_zero_iff.mp (by omega)
    . intro x hx
      exact eq_of_total_le_one (le_of_eq hp.writing) hx hg
  . intro hstuck
    refine ⟨?_, ?_, ?_⟩
    . exact fun g => State.stuck_awaiting hinv hstuck
    . exact fun g => State.stuck_lockW hinv hstuck
    . exact fun g => State.stuck_waiting hinv hstuck

theorem rwLock_safe_parked : ∃ s : State (Fin 2), (rwMutexSystem (Fin 2)).Reachable s ∧ s.pc 1 = .wParked ∧
        (s.Stuck → ∃ x, s.pc x = .rHeld) := by
  have h0 : (rwMutexSystem (Fin 2)).Reachable .new := .init rfl
  have h1 := h0.step ⟨⟨0, .inr ⟨.rLock, rfl⟩⟩, by decide⟩
  have h2 := h1.step ⟨⟨0, .inl rfl⟩, by decide⟩
  have h3 := h2.step ⟨⟨1, .inr ⟨.lock, rfl⟩⟩, by decide⟩
  have h4 := h3.step ⟨⟨1, .inl rfl⟩, by decide⟩
  have h5 := h4.step ⟨⟨1, .inl rfl⟩, by decide⟩
  have h6 := h5.step ⟨⟨1, .inl rfl⟩, by decide⟩
  have h7 := h6.step ⟨⟨1, .inl rfl⟩, by decide⟩
  have h8 := h7.step ⟨⟨1, .inl rfl⟩, by decide⟩
  have h9 := h8.step ⟨⟨1, .inl rfl⟩, by decide⟩
  exact ⟨_, h9, rfl, fun hstuck => ((rwLock_safe h9).2.1 hstuck).1 1 (by decide)⟩

end RWMutex

end Sync
