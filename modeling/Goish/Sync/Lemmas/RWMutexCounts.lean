import Goish.Data.Total
import Goish.Sync.Impl.RWMutex

open Function Tally

namespace Sync.RWMutex

namespace Pc

@[simp]
def waiting : Pc → Nat
  | .rAcquire => 1
  | .rParked => 1
  | _ => 0

@[simp]
def active : Pc → Nat
  | .rReady => 1
  | .rHeld => 1
  | .rUnlock => 1
  | _ => 0

@[simp]
def slow : Pc → Nat
  | .rUnlockSlow => 1
  | _ => 0

@[simp]
def signalling : Pc → Nat
  | .wRelease => 1
  | _ => 0

@[simp]
def draining : Pc → Nat
  | .drain _ => 1
  | _ => 0

@[simp]
def drains : Pc → Int
  | .drain rActive => rActive
  | _ => 0

@[simp]
def awaiting : Pc → Nat
  | .wAcquire => 1
  | .wParked => 1
  | _ => 0

@[simp]
def writing : Pc → Nat
  | .wReady => 1
  | .wHeld => 1
  | .unlock => 1
  | _ => 0

@[simp]
def outside : Pc → Nat
  | .announce => 1
  | .tryCas => 1
  | .rRelease _ => 1
  | .unlockCall => 1
  | _ => 0

@[simp]
def pending : Pc → Nat
  | .rRelease left => left
  | _ => 0

end Pc

def Pc.Same (a b : Pc) : Prop :=
  a.waiting = b.waiting ∧ a.active = b.active ∧ a.slow = b.slow ∧ a.signalling = b.signalling ∧
    a.draining = b.draining ∧ a.drains = b.drains ∧ a.awaiting = b.awaiting ∧ a.writing = b.writing ∧
    a.outside = b.outside ∧ a.pending = b.pending

attribute [local simp] Pc.Same

variable {G : Type u} [Fintype G]

section Phases

variable (pc : G → Pc) (readerCredit writerCredit : Nat) (readerCount readerWait : Int)

structure Free : Prop where
  writers : total Pc.draining pc + total Pc.awaiting pc + total Pc.writing pc = 0
  outside : total Pc.outside pc ≤ 1
  count : readerCount = total Pc.waiting pc + total Pc.active pc
  credit : readerCredit + total Pc.pending pc = total Pc.waiting pc
  others : total Pc.slow pc + writerCredit + total Pc.signalling pc = 0
  readerWait : readerWait = 0

structure Draining : Prop where
  draining : total Pc.draining pc = 1
  writers : total Pc.awaiting pc + total Pc.writing pc + total Pc.outside pc = 0
  count : readerCount = total Pc.waiting pc + total Pc.active pc - rwMaxReaders
  credit : readerCredit ≤ total Pc.waiting pc
  departures : readerWait + total Pc.drains pc = total Pc.active pc + readerCredit + total Pc.slow pc
  early : readerWait ≤ 0
  others : writerCredit + total Pc.signalling pc = 0

structure Awaiting : Prop where
  awaiting : total Pc.awaiting pc = 1
  writers : total Pc.draining pc + total Pc.writing pc + total Pc.outside pc = 0
  count : readerCount = total Pc.waiting pc + total Pc.active pc - rwMaxReaders
  credit : readerCredit ≤ total Pc.waiting pc
  departures : readerWait = total Pc.active pc + readerCredit + total Pc.slow pc
  signals : readerWait = 0 ∧ writerCredit + total Pc.signalling pc = 1 ∨
    0 < readerWait ∧ writerCredit + total Pc.signalling pc = 0

structure Writing : Prop where
  writing : total Pc.writing pc = 1
  writers : total Pc.draining pc + total Pc.awaiting pc + total Pc.outside pc = 0
  count : readerCount = total Pc.waiting pc - rwMaxReaders
  others : total Pc.active pc + readerCredit + total Pc.slow pc + writerCredit
    + total Pc.signalling pc = 0
  readerWait : readerWait = 0

inductive Phase : Prop where
  | free (h : Free pc readerCredit writerCredit readerCount readerWait)
  | draining (h : Draining pc readerCredit writerCredit readerCount readerWait)
  | awaiting (h : Awaiting pc readerCredit writerCredit readerCount readerWait)
  | writing (h : Writing pc readerCredit writerCredit readerCount readerWait)

end Phases

theorem total_pending_eq_zero (pc : G → Pc) (h : total Pc.outside pc = 0) : total Pc.pending pc = 0 := by
  apply total_eq_zero
  intro g
  have hg := total_eq_zero_iff.mp h g
  generalize pc g = p at hg ⊢
  cases p with
  | rRelease => contradiction
  | _ => rfl

theorem total_drains_eq_zero (pc : G → Pc) (h : total Pc.draining pc = 0) : total Pc.drains pc = 0 := by
  apply total_eq_zero
  intro g
  have hg := total_eq_zero_iff.mp h g
  generalize pc g = p at hg ⊢
  cases p with
  | drain => contradiction
  | _ => rfl

theorem moved [DecidableEq G] {pc : G → Pc} (hg : pc g = a) (b : Pc)
    : (∀ f ∈ [Pc.waiting, Pc.active, Pc.slow, Pc.signalling, Pc.draining, Pc.awaiting, Pc.writing, Pc.outside,
        Pc.pending], total f (update pc g b) + f a = total f pc + f b) ∧
        total Pc.drains (update pc g b) + a.drains = total Pc.drains pc + b.drains := by
  rw [← hg]
  exact ⟨fun f _ => total_update f pc g b, total_update Pc.drains pc g b⟩

variable [DecidableEq G] {pc : G → Pc} {readerCredit writerCredit : Nat} {readerCount readerWait : Int}

namespace Free

variable (h : Free pc readerCredit writerCredit readerCount readerWait)
include h

theorem enter (hg : pc g = a) (ha : a.Same .idle)
    : Free (update pc g .rHeld) readerCredit writerCredit (readerCount + 1) readerWait := by
  have hm := moved hg .rHeld
  simp at hm ha
  cases h
  constructor <;> lia

theorem rUnlock (hg : pc g = .rUnlock)
    : Free (update pc g .idle) readerCredit writerCredit (readerCount - 1) readerWait := by
  have hm := moved hg .idle
  simp at hm
  cases h
  constructor <;> lia

theorem announce (hg : pc g = .announce)
    : Draining (update pc g (.drain readerCount)) readerCredit writerCredit (readerCount - rwMaxReaders) readerWait := by
  have hm := moved hg (.drain readerCount)
  simp at hm
  have hpending := total_pending_eq_zero (update pc g (.drain readerCount))
  have hdrains := total_drains_eq_zero pc
  cases h
  constructor <;> lia

theorem lock (hg : pc g = a) (ha : a.Same .announce) (hzero : readerCount = 0)
    : Writing (update pc g .wHeld) readerCredit writerCredit (readerCount - rwMaxReaders) readerWait := by
  have hm := moved hg .wHeld
  simp at hm ha
  have hpending := total_pending_eq_zero (update pc g .wHeld)
  cases h
  constructor <;> lia

theorem rRelease_store (hg : pc g = .rRelease left)
    : Free (update pc g .unlockCall) (readerCredit + left) writerCredit readerCount readerWait := by
  have hm := moved hg .unlockCall
  simp at hm
  cases h
  constructor <;> lia

theorem rRelease_wake (hg : pc g = .rRelease left) (hpos : 0 < left) (hb : b.Same (.rRelease (left - 1)))
    (hx : update pc g b x = .rParked)
    : Free (update (update pc g b) x .rReady) readerCredit writerCredit readerCount readerWait := by
  have hm := moved hg b
  have hm' := moved hx .rReady
  simp at hm hm' hb
  cases h
  constructor <;> lia

theorem unlockCall (hg : pc g = .unlockCall)
    : Free (update pc g .unlockW) readerCredit writerCredit readerCount readerWait := by
  have hm := moved hg .unlockW
  simp at hm
  cases h
  constructor <;> lia

end Free

namespace Draining

variable (h : Draining pc readerCredit writerCredit readerCount readerWait)
include h

theorem drain (hg : pc g = .drain rActive) (hne : readerWait + rActive ≠ 0)
    : Awaiting (update pc g .wAcquire) readerCredit writerCredit readerCount (readerWait + rActive) := by
  have hm := moved hg .wAcquire
  simp at hm
  have hdrains := total_drains_eq_zero (update pc g .wAcquire)
  cases h
  constructor <;> lia

theorem drain_none (hg : pc g = .drain rActive) (hzero : readerWait + rActive = 0)
    : Writing (update pc g .wHeld) readerCredit writerCredit readerCount (readerWait + rActive) := by
  have hm := moved hg .wHeld
  simp at hm
  have hdrains := total_drains_eq_zero (update pc g .wHeld)
  cases h
  constructor <;> lia

end Draining

namespace Awaiting

variable (h : Awaiting pc readerCredit writerCredit readerCount readerWait)
include h

theorem wRelease_store (hg : pc g = .wRelease)
    : Awaiting (update pc g .idle) readerCredit (writerCredit + 1) readerCount readerWait := by
  have hm := moved hg .idle
  simp at hm
  cases h
  constructor <;> lia

theorem wRelease_wake (hg : pc g = .wRelease) (hx : update pc g .idle x = .wParked)
    : Writing (update (update pc g .idle) x .wReady) readerCredit writerCredit readerCount readerWait := by
  have hm := moved hg .idle
  have hm' := moved hx .wReady
  simp at hm hm'
  cases h
  constructor <;> lia

theorem wAcquire (hg : pc g = .wAcquire) (hpos : 0 < writerCredit)
    : Writing (update pc g .wHeld) readerCredit (writerCredit - 1) readerCount readerWait := by
  have hm := moved hg .wHeld
  simp at hm
  cases h
  constructor <;> lia

end Awaiting

namespace Writing

variable (h : Writing pc readerCredit writerCredit readerCount readerWait)
include h

theorem unlock (hg : pc g = .unlock) (hb : b.Same (.rRelease (readerCount + rwMaxReaders).toNat))
    : Free (update pc g b) readerCredit writerCredit (readerCount + rwMaxReaders) readerWait := by
  have hm := moved hg b
  simp at hm hb
  have hpending := total_pending_eq_zero pc
  cases h
  constructor <;> lia

end Writing

namespace Phase

variable (h : Phase pc readerCredit writerCredit readerCount readerWait)
include h

theorem same (hg : pc g = a) (hs : a.Same b)
    : Phase (update pc g b) readerCredit writerCredit readerCount readerWait := by
  have hm := moved hg b
  unfold Pc.Same at hs
  simp only [List.forall_mem_cons, hs, add_left_inj] at hm
  rcases h with h | h | h | h <;> cases h
  . exact .free (by constructor <;> lia)
  . exact .draining (by constructor <;> lia)
  . exact .awaiting (by constructor <;> lia)
  . exact .writing (by constructor <;> lia)

theorem rLock (hg : pc g = .rLock) (hneg : readerCount < 0)
    : Phase (update pc g .rAcquire) readerCredit writerCredit (readerCount + 1) readerWait := by
  have hm := moved hg .rAcquire
  simp at hm
  rcases h with h | h | h | h <;> cases h
  . omega
  . exact .draining (by constructor <;> lia)
  . exact .awaiting (by constructor <;> lia)
  . exact .writing (by constructor <;> lia)

theorem rAcquire (hg : pc g = .rAcquire) (hpos : 0 < readerCredit)
    : Phase (update pc g .rHeld) (readerCredit - 1) writerCredit readerCount readerWait := by
  have hm := moved hg .rHeld
  simp at hm
  rcases h with h | h | h | h <;> cases h
  . exact .free (by constructor <;> lia)
  . exact .draining (by constructor <;> lia)
  . exact .awaiting (by constructor <;> lia)
  . omega

theorem rUnlock (hg : pc g = .rUnlock) (hreaders : total Pc.waiting pc + total Pc.active pc < rwMaxReaders)
    (hneg : readerCount - 1 < 0) : (readerCount ≠ 0 ∧ readerCount ≠ -rwMaxReaders) ∧
        Phase (update pc g .rUnlockSlow) readerCredit writerCredit (readerCount - 1) readerWait := by
  have hm := moved hg .rUnlockSlow
  simp at hm
  rcases h with h | h | h | h <;> cases h
  . omega
  . exact ⟨by omega, .draining (by constructor <;> lia)⟩
  . exact ⟨by omega, .awaiting (by constructor <;> lia)⟩
  . omega

theorem rUnlockSlow (hg : pc g = .rUnlockSlow) (hne : readerWait ≠ 1)
    : Phase (update pc g .idle) readerCredit writerCredit readerCount (readerWait - 1) := by
  have hm := moved hg .idle
  simp at hm
  rcases h with h | h | h | h <;> cases h
  . omega
  . exact .draining (by constructor <;> lia)
  . exact .awaiting (by constructor <;> lia)
  . omega

theorem rUnlockSlow_last (hg : pc g = .rUnlockSlow) (hone : readerWait = 1)
    : Phase (update pc g .wRelease) readerCredit writerCredit readerCount (readerWait - 1) := by
  have hm := moved hg .wRelease
  simp at hm
  rcases h with h | h | h | h <;> cases h
  . omega
  . omega
  . exact .awaiting (by constructor <;> lia)
  . omega

omit [DecidableEq G]

theorem free_of_count (hreaders : total Pc.waiting pc + total Pc.active pc < rwMaxReaders)
    (hpos : 0 ≤ readerCount) : Free pc readerCredit writerCredit readerCount readerWait := by
  cases h with
  | free h => exact h
  | draining h | awaiting h | writing h => have := h.count; omega

theorem free_of_writers (hwriters : total Pc.draining pc + total Pc.awaiting pc + total Pc.writing pc = 0)
    : Free pc readerCredit writerCredit readerCount readerWait := by
  cases h with
  | free h => exact h
  | draining h => have := h.draining; omega
  | awaiting h => have := h.awaiting; omega
  | writing h => have := h.writing; omega

theorem free_of_outside (hg : 0 < (pc g).outside) : Free pc readerCredit writerCredit readerCount readerWait := by
  have hle := le_total Pc.outside pc g
  cases h with
  | free h => exact h
  | draining h | awaiting h | writing h => have := h.writers; omega

theorem draining_of_draining (hg : 0 < (pc g).draining)
    : Draining pc readerCredit writerCredit readerCount readerWait := by
  have hle := le_total Pc.draining pc g
  cases h with
  | free h | awaiting h | writing h => have := h.writers; omega
  | draining h => exact h

theorem awaiting_of_awaiting (hg : 0 < (pc g).awaiting)
    : Awaiting pc readerCredit writerCredit readerCount readerWait := by
  have hle := le_total Pc.awaiting pc g
  cases h with
  | free h | draining h | writing h => have := h.writers; omega
  | awaiting h => exact h

theorem awaiting_of_signalling (hg : 0 < (pc g).signalling)
    : Awaiting pc readerCredit writerCredit readerCount readerWait := by
  have hle := le_total Pc.signalling pc g
  cases h with
  | free h | draining h | writing h => have := h.others; omega
  | awaiting h => exact h

theorem writing_of_writing (hg : 0 < (pc g).writing) : Writing pc readerCredit writerCredit readerCount readerWait := by
  have hle := le_total Pc.writing pc g
  cases h with
  | free h | draining h | awaiting h => have := h.writers; omega
  | writing h => exact h

end Phase

end Sync.RWMutex
