import Goish.Sync.Lemmas.Mutex
import Goish.Sync.Lemmas.RWMutexCounts

open Function Tally

namespace Sync.RWMutex

open State

def Linked : Pc → Mutex.Pc → Prop
  | .lockW, p => p.InLock ∨ p = .held
  | .tryLockW, p => p = .tryLock ∨ p = .held ∨ p = .idle
  | .unlockW, p => p.InUnlock ∨ p = .idle
  | .announce, p => p = .held
  | .drain _, p => p = .held
  | .wAcquire, p => p = .held
  | .wParked, p => p = .held
  | .wReady, p => p = .held
  | .wHeld, p => p = .held
  | .tryCas, p => p = .held
  | .unlock, p => p = .held
  | .rRelease _, p => p = .held
  | .unlockCall, p => p = .held
  | _, p => p = .idle

theorem linked_ready (h : Linked p .parked) : Linked p .ready := by
  cases p with
  | lockW => exact .inl trivial
  | tryLockW => simp [Linked] at h
  | unlockW => simp [Linked, Mutex.Pc.InUnlock] at h
  | _ => cases h

def Pc.Ok : Pc → Prop
  | .tryRCas c => 0 ≤ c
  | .rRelease left => 0 < left
  | .fatal => False
  | _ => True

namespace State

variable {G : Type u} [Fintype G] [DecidableEq G] {s t : State G}

def readers (s : State G) : Nat :=
  total Pc.waiting s.pc + total Pc.active s.pc

structure Inv (s : State G) : Prop where
  w : s.w.Inv
  linked : ∀ g, Linked (s.pc g) (s.w.pc g)
  ok : ∀ g, (s.pc g).Ok
  readerSem : s.readerSem.Parks fun g => s.pc g = .rParked
  writerSem : s.writerSem.Parks fun g => s.pc g = .wParked
  readers : s.readers < rwMaxReaders
  phase : Phase s.pc s.readerSem.credit s.writerSem.credit s.readerCount s.readerWait

omit [Fintype G] in
theorem linked_update {pc : G → Pc} {w : G → Mutex.Pc} (h : ∀ x, Linked (pc x) (w x)) (hb : Linked b (w g))
    (x : G) : Linked (update pc g b x) (w x) := by
  by_cases heq : x = g
  . rwa [heq, update_self]
  . rw [update_of_ne heq]
    exact h x

omit [DecidableEq G] in
theorem writers_le_one {pc : G → Pc} {w : Mutex.State G} (hw : w.Inv) (h : ∀ x, Linked (pc x) (w.pc x))
    : total Pc.draining pc + total Pc.awaiting pc + total Pc.writing pc + total Pc.outside pc ≤ 1 := by
  have hle : total Pc.draining pc + total Pc.awaiting pc + total Pc.writing pc + total Pc.outside pc
      ≤ total Mutex.Pc.owner w.pc := by
    unfold total
    rw [← Finset.sum_add_distrib, ← Finset.sum_add_distrib, ← Finset.sum_add_distrib]
    apply Finset.sum_le_sum
    intro x _
    have hx := h x
    generalize pc x = p at hx ⊢
    generalize w.pc x = q at hx ⊢
    cases p <;> simp_all [Linked, Mutex.Pc.owner]
  have hlocked := hw.locked
  omega

omit [DecidableEq G] in
theorem new_inv : Inv (new : State G) := by
  constructor
  case w => exact Mutex.State.new_inv
  case linked => exact fun _ => rfl
  case ok => exact fun _ => trivial
  case readerSem => exact Sema.Parks.new (by simp [new])
  case writerSem => exact Sema.Parks.new (by simp [new])
  case readers => simp [readers, total, new, rwMaxReaders]
  case phase =>
    apply Phase.free
    constructor <;> simp [total, new, Sema.new]

section Moves

variable (h : s.Inv)
include h

theorem Inv.move {rs ws : Sema G} {rc rw : Int} (hok : b.Ok) (hlink : Linked b (s.w.pc g))
    (hrs : rs.Parks fun x => update s.pc g b x = .rParked) (hws : ws.Parks fun x => update s.pc g b x = .wParked)
    (hroom : (s.goto g b).readers < rwMaxReaders) (hphase : Phase (update s.pc g b) rs.credit ws.credit rc rw)
    : Inv { s.goto g b with readerSem := rs, writerSem := ws, readerCount := rc, readerWait := rw } :=
  ⟨h.w, linked_update h.linked hlink, forall_update h.ok hok, hrs, hws, hroom, hphase⟩

theorem Inv.plain (hg : s.pc g = a) (ha : a ≠ .rParked ∧ a ≠ .wParked) (hb : b ≠ .rParked ∧ b ≠ .wParked) (hok : b.Ok)
    (hlink : Linked a (s.w.pc g) → Linked b (s.w.pc g)) (hroom : (s.goto g b).readers < rwMaxReaders)
    (hphase : Phase (update s.pc g b) s.readerSem.credit s.writerSem.credit rc rw)
    : Inv { s.goto g b with readerCount := rc, readerWait := rw } := by
  apply h.move hok
  . apply hlink
    rw [← hg]
    exact h.linked g
  . exact h.readerSem.iff (update_eq_iff (hg ▸ ha.1) hb.1)
  . exact h.writerSem.iff (update_eq_iff (hg ▸ ha.2) hb.2)
  . exact hroom
  . exact hphase

theorem Inv.same (hg : s.pc g = a) (ha : a ≠ .rParked ∧ a ≠ .wParked)
    (hb : b ≠ .rParked ∧ b ≠ .wParked) (hok : b.Ok) (hlink : Linked a (s.w.pc g) → Linked b (s.w.pc g))
    (hroom : (s.goto g b).readers < rwMaxReaders) (hsame : a.Same b) : Inv (s.goto g b) :=
  h.plain hg ha hb hok hlink hroom (h.phase.same hg hsame)

theorem Inv.rRelease_wake (hg : s.pc g = .rRelease left) (hq : s.readerSem.queue = x :: rest)
    (hb : b ≠ .rParked ∧ b ≠ .wParked) (hok : b.Ok) (hlink : Linked b (s.w.pc g))
    (hroom : ((s.goto g b).goto x .rReady).readers < rwMaxReaders)
    (hphase : update s.pc g b x = .rParked →
      Free (update (update s.pc g b) x .rReady) s.readerSem.credit s.writerSem.credit s.readerCount s.readerWait)
    : Inv { (s.goto g b).goto x .rReady with readerSem := { s.readerSem with queue := rest } } := by
  obtain ⟨hx, hpc, hparks⟩ := h.readerSem.wake_update (g := g) (c := .rReady) hq (by simp [hg]) hb.1 (by simp)
  have hlink' := h.linked x
  rw [hx] at hlink'
  constructor
  case w => exact h.w
  case linked => exact linked_update (linked_update h.linked hlink) hlink'
  case ok => exact forall_update (forall_update h.ok hok) trivial
  case readerSem => exact hparks
  case writerSem =>
    apply h.writerSem.iff
    intro y
    dsimp only [goto]
    rw [update_eq_iff (by simp [hpc]) (by simp), update_eq_iff (by simp [hg]) hb.2]
  case readers => exact hroom
  case phase => exact .free (hphase hpc)

theorem Inv.stepW (hstep : s.stepW g = some t)
    (hlink : ∀ p, (s.w.pc g).Next p → p ≠ .fatal → Linked (s.pc g) p) : t.Inv := by
  unfold State.stepW at hstep
  rw [Option.map_eq_some_iff] at hstep
  obtain ⟨_, hw, ht⟩ := hstep
  subst ht
  have hinv := h.w.step hw
  refine ⟨hinv, ?_, h.ok, h.readerSem, h.writerSem, h.readers, h.phase⟩
  intro x
  by_cases heq : x = g
  . rw [heq]
    apply hlink _ (h.w.step_own hw)
    intro hfatal
    have hok := hinv.ok g
    rwa [hfatal] at hok
  have hx := h.linked x
  rcases Mutex.State.step_frame hw heq with hsame | hwoken
  . dsimp only
    rwa [hsame]
  rw [h.w.parks.mem] at hwoken
  obtain ⟨hparked, hready⟩ := hwoken
  rw [hready]
  rw [hparked] at hx
  exact linked_ready hx

theorem Inv.enterW (hstep : s.enterW g c b = some t) (hg : s.pc g = a) (ha : a ≠ .rParked ∧ a ≠ .wParked)
    (hb : b ≠ .rParked ∧ b ≠ .wParked) (hok : b.Ok) (hlink : Linked b (Mutex.State.entry c))
    (hroom : t.readers < rwMaxReaders)
    (hphase : Phase (update s.pc g b) s.readerSem.credit s.writerSem.credit s.readerCount s.readerWait) : t.Inv := by
  unfold State.enterW at hstep
  rw [Option.map_eq_some_iff] at hstep
  obtain ⟨w, hw, ht⟩ := hstep
  subst ht
  constructor
  case w => exact h.w.call hw
  case linked =>
    intro x
    dsimp only [goto]
    rw [Mutex.State.call_pc hw]
    by_cases heq : x = g
    . rwa [heq, update_self, update_self]
    . rw [update_of_ne heq, update_of_ne heq]
      exact h.linked x
  case ok => exact forall_update h.ok hok
  case readerSem => exact h.readerSem.iff (update_eq_iff (hg ▸ ha.1) hb.1)
  case writerSem => exact h.writerSem.iff (update_eq_iff (hg ▸ ha.2) hb.2)
  case readers => exact hroom
  case phase => exact hphase

theorem Inv.outside (hg : s.pc g = a) (hab : a = .lockW ∧ b = .announce ∨ a = .tryLockW ∧ b = .tryCas)
    (hheld : s.w.pc g = .held) (hroom : (s.goto g b).readers < rwMaxReaders) : Inv (s.goto g b) := by
  have hlink : Linked b (s.w.pc g) := by
    rcases hab with ⟨_, rfl⟩ | ⟨_, rfl⟩ <;> exact hheld
  have hle := writers_le_one h.w (linked_update h.linked hlink)
  have hm := moved hg b
  rcases hab with ⟨rfl, rfl⟩ | ⟨rfl, rfl⟩ <;>
  . simp at hm
    refine h.plain hg (by simp) (by simp) trivial (fun _ => hlink) hroom (.free ?_)
    cases h.phase.free_of_writers (by omega)
    constructor <;> lia

attribute [local simp] Pc.Same

section Step

variable {g : G} (hstep : s.step g = some t) (hroom : t.readers < rwMaxReaders)
include hstep hroom

theorem Inv.rLock (hg : s.pc g = .rLock) : t.Inv := by
  by_cases hneg : s.readerCount < 0
  . simp only [step, hg, if_pos hneg] at hstep
    cases hstep
    exact h.plain hg (by simp) (by simp) trivial id hroom (h.phase.rLock hg hneg)
  . simp only [step, hg, if_neg hneg] at hstep
    cases hstep
    have hp := h.phase.free_of_count h.readers (by omega)
    exact h.plain hg (by simp) (by simp) trivial id hroom (.free (hp.enter hg (by simp)))

theorem Inv.tryRCas (hg : s.pc g = .tryRCas c) : t.Inv := by
  simp only [step, hg] at hstep
  split at hstep
  . next heq =>
    have hpos : 0 ≤ c := by
      have hok := h.ok g
      rwa [hg] at hok
    rw [← heq] at hstep hpos
    have hp := h.phase.free_of_count h.readers hpos
    cases hstep
    exact h.plain hg (by simp) (by simp) trivial id hroom (.free (hp.enter hg (by simp)))
  . cases hstep
    exact h.same hg (by simp) (by simp) trivial id hroom (by simp)

theorem Inv.rAcquire (hg : s.pc g = .rAcquire) : t.Inv := by
  have hlink := h.linked g
  rw [hg] at hlink
  by_cases hpos : 0 < s.readerSem.credit
  . simp only [step, hg, Sema.acquire_pos hpos] at hstep
    cases hstep
    refine h.move trivial hlink ?_ ?_ hroom (h.phase.rAcquire hg hpos)
    . exact (h.readerSem.take hpos).iff (update_eq_iff (by simp [hg]) (by simp))
    . exact h.writerSem.iff (update_eq_iff (by simp [hg]) (by simp))
  simp only [step, hg, Sema.acquire_zero hpos] at hstep
  cases hstep
  refine h.move trivial hlink ?_ ?_ hroom ?_
  . exact (h.readerSem.park (by simp [hg]) hpos).iff (update_enter_iff s.pc g .rParked)
  . exact h.writerSem.iff (update_eq_iff (by simp [hg]) (by simp))
  . exact h.phase.same hg (by simp)

theorem Inv.rUnlock (hg : s.pc g = .rUnlock) : t.Inv := by
  by_cases hneg : s.readerCount - 1 < 0
  . obtain ⟨hcount, hphase⟩ := h.phase.rUnlock hg h.readers hneg
    have hslow : rUnlockTo (s.readerCount - 1) = .rUnlockSlow := by
      unfold rUnlockTo
      rw [if_pos hneg, if_neg (by omega)]
    simp only [State.step, hg, hslow] at hstep
    cases hstep
    exact h.plain hg (by simp) (by simp) trivial id hroom hphase
  . simp only [State.step, hg, rUnlockTo, if_neg hneg] at hstep
    cases hstep
    have hp := h.phase.free_of_count h.readers (by omega)
    exact h.plain hg (by simp) (by simp) trivial id hroom (.free (hp.rUnlock hg))

theorem Inv.rUnlockSlow (hg : s.pc g = .rUnlockSlow) : t.Inv := by
  by_cases hone : s.readerWait = 1
  . simp only [step, hg, if_pos hone] at hstep
    cases hstep
    exact h.plain hg (by simp) (by simp) trivial id hroom (h.phase.rUnlockSlow_last hg hone)
  . simp only [step, hg, if_neg hone] at hstep
    cases hstep
    exact h.plain hg (by simp) (by simp) trivial id hroom (h.phase.rUnlockSlow hg hone)

theorem Inv.wRelease (hg : s.pc g = .wRelease) : t.Inv := by
  have hp := h.phase.awaiting_of_signalling (g := g) (by simp [hg])
  have hlink := h.linked g
  rw [hg] at hlink
  cases hq : s.writerSem.queue with
  | nil =>
    simp only [step, hg, Sema.releaseNext_nil hq] at hstep
    cases hstep
    refine h.move trivial hlink ?_ ?_ hroom (.awaiting (hp.wRelease_store hg))
    . exact h.readerSem.iff (update_eq_iff (by simp [hg]) (by simp))
    . exact (h.writerSem.store hq 1).iff (update_eq_iff (by simp [hg]) (by simp))
  | cons x =>
    obtain ⟨hx, hpc, hparks⟩ := h.writerSem.wake_update (g := g) (b := .idle) (c := .wReady) hq (by simp [hg]) (by simp)
      (by simp)
    have hlink' := h.linked x
    rw [hx] at hlink'
    simp only [step, hg, Sema.releaseNext_cons hq] at hstep
    cases hstep
    constructor
    case w => exact h.w
    case linked => exact linked_update (linked_update h.linked hlink) hlink'
    case ok => exact forall_update (forall_update h.ok trivial) trivial
    case readerSem =>
      apply h.readerSem.iff
      intro y
      dsimp only [goto]
      rw [update_eq_iff (by simp [hpc]) (by simp), update_eq_iff (by simp [hg]) (by simp)]
    case writerSem => exact hparks
    case readers => exact hroom
    case phase => exact .writing (hp.wRelease_wake hg hpc)

theorem Inv.announce (hg : s.pc g = .announce) : t.Inv := by
  have hp := h.phase.free_of_outside (g := g) (by simp [hg])
  by_cases hzero : s.readerCount = 0
  . simp only [step, hg, ne_eq, hzero, not_true_eq_false, if_false] at hstep
    cases hstep
    rw [← hzero]
    exact h.plain hg (by simp) (by simp) trivial id hroom (.writing (hp.lock hg (by simp) hzero))
  . simp only [step, hg, ne_eq, hzero, not_false_eq_true, if_true] at hstep
    cases hstep
    exact h.plain hg (by simp) (by simp) trivial id hroom (.draining (hp.announce hg))

theorem Inv.drain (hg : s.pc g = .drain rActive) : t.Inv := by
  have hp := h.phase.draining_of_draining (g := g) (by simp [hg])
  by_cases hzero : s.readerWait + rActive = 0
  . simp only [step, hg, if_neg (not_not_intro hzero)] at hstep
    cases hstep
    exact h.plain hg (by simp) (by simp) trivial id hroom (.writing (hp.drain_none hg hzero))
  . simp only [step, hg, if_pos hzero] at hstep
    cases hstep
    exact h.plain hg (by simp) (by simp) trivial id hroom (.awaiting (hp.drain hg hzero))

theorem Inv.wAcquire (hg : s.pc g = .wAcquire) : t.Inv := by
  have hp := h.phase.awaiting_of_awaiting (g := g) (by simp [hg])
  have hlink := h.linked g
  rw [hg] at hlink
  by_cases hpos : 0 < s.writerSem.credit
  . simp only [step, hg, Sema.acquire_pos hpos] at hstep
    cases hstep
    refine h.move trivial hlink ?_ ?_ hroom (.writing (hp.wAcquire hg hpos))
    . exact h.readerSem.iff (update_eq_iff (by simp [hg]) (by simp))
    . exact (h.writerSem.take hpos).iff (update_eq_iff (by simp [hg]) (by simp))
  . simp only [step, hg, Sema.acquire_zero hpos] at hstep
    cases hstep
    refine h.move trivial hlink ?_ ?_ hroom (h.phase.same hg (by simp))
    . exact h.readerSem.iff (update_eq_iff (by simp [hg]) (by simp))
    . exact (h.writerSem.park (by simp [hg]) hpos).iff (update_enter_iff s.pc g .wParked)

theorem Inv.tryCas (hg : s.pc g = .tryCas) : t.Inv := by
  have hp := h.phase.free_of_outside (g := g) (by simp [hg])
  simp only [step, hg] at hstep
  split at hstep
  . next hzero =>
    have hw := hp.lock hg (by simp) hzero
    rw [hzero, Int.zero_sub] at hw
    cases hstep
    exact h.plain hg (by simp) (by simp) trivial id hroom (.writing hw)
  . cases hstep
    exact h.same hg (by simp) (by simp) trivial id hroom (by simp)

theorem Inv.unlock (hg : s.pc g = .unlock) : t.Inv := by
  have hp := h.phase.writing_of_writing (g := g) (by simp [hg])
  have hreaders := h.readers
  unfold State.readers at hreaders
  have hbound : ¬ s.readerCount + rwMaxReaders ≥ rwMaxReaders := by
    have := hp.count
    omega
  by_cases hpos : 0 < s.readerCount + rwMaxReaders
  . simp only [State.step, hg, unlockTo, if_neg hbound, if_pos hpos] at hstep
    cases hstep
    have hleft : 0 < (s.readerCount + rwMaxReaders).toNat := by omega
    exact h.plain hg (by simp) (by simp) hleft id hroom (.free (hp.unlock hg (by simp)))
  . simp only [State.step, hg, unlockTo, if_neg hbound, if_neg hpos] at hstep
    cases hstep
    exact h.plain hg (by simp) (by simp) trivial id hroom (.free (hp.unlock hg (by simp; omega)))

theorem Inv.rRelease (hg : s.pc g = .rRelease left) : t.Inv := by
  have hp := h.phase.free_of_outside (g := g) (by simp [hg])
  have hlink := h.linked g
  have hleft := h.ok g
  rw [hg] at hlink hleft
  unfold Pc.Ok at hleft
  cases hq : s.readerSem.queue with
  | nil =>
    simp only [step, hg, Sema.releaseNext_nil hq] at hstep
    cases hstep
    refine h.move trivial hlink ?_ ?_ hroom (.free (hp.rRelease_store hg))
    . exact (h.readerSem.store hq left).iff (update_eq_iff (by simp [hg]) (by simp))
    . exact h.writerSem.iff (update_eq_iff (by simp [hg]) (by simp))
  | cons =>
    by_cases hlast : left - 1 = 0
    . simp only [step, hg, Sema.releaseNext_cons hq, if_pos hlast] at hstep
      cases hstep
      exact h.rRelease_wake hg hq (by simp) trivial hlink hroom (hp.rRelease_wake hg hleft (by simp [hlast]))
    . simp only [step, hg, Sema.releaseNext_cons hq, if_neg hlast] at hstep
      cases hstep
      have hpos : 0 < left - 1 := by omega
      exact h.rRelease_wake hg hq (by simp) hpos hlink hroom (hp.rRelease_wake hg hleft (by simp))

theorem Inv.lockW (hg : s.pc g = .lockW) : t.Inv := by
  have hlink := h.linked g
  rw [hg] at hlink
  simp only [step, hg] at hstep
  split at hstep
  . next hheld =>
    cases hstep
    exact h.outside hg (.inl ⟨rfl, rfl⟩) hheld hroom
  next hne =>
  apply h.stepW hstep
  intro p hnext _
  rw [hg]
  exact hnext.1 (hlink.resolve_right hne)

theorem Inv.tryLockW (hg : s.pc g = .tryLockW) : t.Inv := by
  have hlink := h.linked g
  rw [hg] at hlink
  simp only [step, hg] at hstep
  split at hstep
  . next hheld =>
    cases hstep
    exact h.outside hg (.inr ⟨rfl, rfl⟩) hheld hroom
  next hne =>
  split at hstep
  . next hidle =>
    cases hstep
    exact h.same hg (by simp) (by simp) trivial (fun _ => hidle) hroom (by simp)
  next hidle =>
  apply h.stepW hstep
  intro p hnext _
  rw [hg]
  exact .inr (hnext.2.1 (hlink.resolve_right (not_or.mpr ⟨hne, hidle⟩)))

theorem Inv.unlockW (hg : s.pc g = .unlockW) : t.Inv := by
  have hlink := h.linked g
  rw [hg] at hlink
  simp only [step, hg] at hstep
  split at hstep
  . next hidle =>
    cases hstep
    exact h.same hg (by simp) (by simp) trivial (fun _ => hidle) hroom (by simp)
  next hidle =>
  apply h.stepW hstep
  intro p hnext hfatal
  rw [hg]
  rcases hnext.2.2 (hlink.resolve_right hidle) with hin | hout
  . exact .inl hin
  . exact .inr (hout.resolve_right hfatal)

theorem Inv.step : t.Inv := by
  cases hg : s.pc g
  case rLock => exact h.rLock hstep hroom hg
  case rAcquire => exact h.rAcquire hstep hroom hg
  case tryRCas => exact h.tryRCas hstep hroom hg
  case rUnlock => exact h.rUnlock hstep hroom hg
  case rUnlockSlow => exact h.rUnlockSlow hstep hroom hg
  case wRelease => exact h.wRelease hstep hroom hg
  case lockW => exact h.lockW hstep hroom hg
  case announce => exact h.announce hstep hroom hg
  case drain => exact h.drain hstep hroom hg
  case wAcquire => exact h.wAcquire hstep hroom hg
  case tryLockW => exact h.tryLockW hstep hroom hg
  case tryCas => exact h.tryCas hstep hroom hg
  case unlock => exact h.unlock hstep hroom hg
  case rRelease => exact h.rRelease hstep hroom hg
  case unlockW => exact h.unlockW hstep hroom hg
  all_goals simp only [State.step, hg, reduceCtorEq] at hstep
  case rReady | wReady =>
    cases hstep
    exact h.same hg (by simp) (by simp) trivial id hroom (by simp)
  case tryRLoad =>
    simp only [Option.some.injEq] at hstep
    split at hstep
    . subst hstep
      exact h.same hg (by simp) (by simp) trivial id hroom (by simp)
    . next hpos =>
      subst hstep
      exact h.same hg (by simp) (by simp) (Int.not_lt.mp hpos) id hroom (by simp)
  case lock =>
    exact h.enterW hstep hg (by simp) (by simp) trivial (.inl trivial) hroom
      (h.phase.same hg (by simp))
  case tryLock =>
    exact h.enterW hstep hg (by simp) (by simp) trivial (.inl rfl) hroom
      (h.phase.same hg (by simp))
  case unlockCall =>
    have hp := h.phase.free_of_outside (g := g) (by simp [hg])
    exact h.enterW hstep hg (by simp) (by simp) trivial (.inl trivial) hroom (.free (hp.unlockCall hg))

end Step

theorem Inv.call (hcall : s.call g c = some t) (hroom : t.readers < rwMaxReaders) : t.Inv := by
  cases c <;>
  . unfold State.call at hcall
    dsimp only at hcall
    split at hcall
    . next hg =>
      cases hcall
      exact h.same hg (by simp) (by simp) trivial id hroom (by simp)
    . cases hcall

end Moves

end State

end Sync.RWMutex
