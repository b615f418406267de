import Goish.Sync.Impl.Mutex
import Mathlib.Algebra.Group.Int.Defs

open Function

namespace Sync

namespace RWMutex

def rwMaxReaders : Int := 2 ^ 30

inductive Pc where
  | idle
  | rLock
  | rAcquire
  | rParked
  | rReady
  | rHeld
  | tryRLoad
  | tryRCas (c : Int)
  | rUnlock
  | rUnlockSlow
  | wRelease
  | lock
  | lockW
  | announce
  | drain (rActive : Int)
  | wAcquire
  | wParked
  | wReady
  | wHeld
  | tryLock
  | tryLockW
  | tryCas
  | unlock
  | rRelease (left : Nat)
  | unlockCall
  | unlockW
  | fatal
  deriving DecidableEq, Repr

structure State (G : Type u) where
  w : Mutex.State G
  writerSem : Sema G
  readerSem : Sema G
  readerCount : Int
  readerWait : Int
  pc : G → Pc

inductive Call where
  | rLock
  | tryRLock
  | rUnlock
  | lock
  | tryLock
  | unlock
  deriving DecidableEq, Repr

variable {G : Type u} [DecidableEq G]

namespace State

def new : State G :=
  {
    w := .new
    writerSem := .new
    readerSem := .new
    readerCount := 0
    readerWait := 0
    pc := fun _ => .idle
  }

def goto (s : State G) (g : G) (pc : Pc) : State G :=
  { s with pc := update s.pc g pc }

def call (s : State G) (g : G) : Call → Option (State G)
  | .rLock => if s.pc g = .idle then some (s.goto g .rLock) else none
  | .tryRLock => if s.pc g = .idle then some (s.goto g .tryRLoad) else none
  | .rUnlock => if s.pc g = .rHeld then some (s.goto g .rUnlock) else none
  | .lock => if s.pc g = .idle then some (s.goto g .lock) else none
  | .tryLock => if s.pc g = .idle then some (s.goto g .tryLock) else none
  | .unlock => if s.pc g = .wHeld then some (s.goto g .unlock) else none

def enterW (s : State G) (g : G) (c : Mutex.Call) (pc : Pc) : Option (State G) :=
  (s.w.call g c).map fun w => { s.goto g pc with w := w }

def stepW (s : State G) (g : G) : Option (State G) :=
  (s.w.step g).map fun w => { s with w := w }

def rUnlockTo (r : Int) : Pc :=
  if r < 0 then
    if r + 1 = 0 ∨ r + 1 = -rwMaxReaders then .fatal else .rUnlockSlow
  else
    .idle

def unlockTo (r : Int) : Pc :=
  if r ≥ rwMaxReaders then
    .fatal
  else if r > 0 then
    .rRelease r.toNat
  else
    .unlockCall

def step (s : State G) (g : G) : Option (State G) :=
  match s.pc g with
  | .idle => none
  | .rLock =>
    some { s.goto g (if s.readerCount < 0 then .rAcquire else .rHeld) with
      readerCount := s.readerCount + 1 }
  | .rAcquire =>
    match s.readerSem.acquire g with
    | (true, sem) => some { s.goto g .rHeld with readerSem := sem }
    | (false, sem) => some { s.goto g .rParked with readerSem := sem }
  | .rParked => none
  | .rReady => some (s.goto g .rHeld)
  | .rHeld => none
  | .tryRLoad => some (s.goto g (if s.readerCount < 0 then .idle else .tryRCas s.readerCount))
  | .tryRCas c =>
    if s.readerCount = c then
      some { s.goto g .rHeld with readerCount := c + 1 }
    else
      some (s.goto g .tryRLoad)
  | .rUnlock =>
    some { s.goto g (rUnlockTo (s.readerCount - 1)) with readerCount := s.readerCount - 1 }
  | .rUnlockSlow =>
    some { s.goto g (if s.readerWait = 1 then .wRelease else .idle) with
      readerWait := s.readerWait - 1 }
  | .wRelease =>
    match s.writerSem.releaseNext 1 with
    | (some x, sem) => some { (s.goto g .idle).goto x .wReady with writerSem := sem }
    | (none, sem) => some { s.goto g .idle with writerSem := sem }
  | .lock => s.enterW g .lock .lockW
  | .lockW => if s.w.pc g = .held then some (s.goto g .announce) else s.stepW g
  | .announce =>
    some { s.goto g (if s.readerCount ≠ 0 then .drain s.readerCount else .wHeld) with
      readerCount := s.readerCount - rwMaxReaders }
  | .drain rActive =>
    some { s.goto g (if s.readerWait + rActive ≠ 0 then .wAcquire else .wHeld) with
      readerWait := s.readerWait + rActive }
  | .wAcquire =>
    match s.writerSem.acquire g with
    | (true, sem) => some { s.goto g .wHeld with writerSem := sem }
    | (false, sem) => some { s.goto g .wParked with writerSem := sem }
  | .wParked => none
  | .wReady => some (s.goto g .wHeld)
  | .wHeld => none
  | .tryLock => s.enterW g .tryLock .tryLockW
  | .tryLockW =>
    if s.w.pc g = .held then
      some (s.goto g .tryCas)
    else if s.w.pc g = .idle then
      some (s.goto g .idle)
    else
      s.stepW g
  | .tryCas =>
    if s.readerCount = 0 then
      some { s.goto g .wHeld with readerCount := -rwMaxReaders }
    else
      some (s.goto g .unlockCall)
  | .unlock =>
    some { s.goto g (unlockTo (s.readerCount + rwMaxReaders)) with
      readerCount := s.readerCount + rwMaxReaders }
  | .rRelease left =>
    match s.readerSem.releaseNext left with
    | (some x, sem) =>
      let pc := if left - 1 = 0 then .unlockCall else .rRelease (left - 1)
      some { (s.goto g pc).goto x .rReady with readerSem := sem }
    | (none, sem) => some { s.goto g .unlockCall with readerSem := sem }
  | .unlockCall => s.enterW g .unlock .unlockW
  | .unlockW => if s.w.pc g = .idle then some (s.goto g .idle) else s.stepW g
  | .fatal => none

end State

end RWMutex

end Sync
