import Goish.Sync.Impl.Sema

/-! `sync::Mutex` as the steps of its callers: every access of the state word and every critical section of the
semaphore is one step. -/

open Function

namespace Sync

namespace Mutex

def mLocked : Nat := 1

def mWaiterUnit : Nat := 1 <<< 1

-- Where a goroutine is: outside (`idle`, or `held` with the lock) or in a call. `old` is the value it has loaded.
inductive Pc where
  | idle
  | lock
  | slowLoad
  | slowGrab (old : Nat)
  | slowWait (old : Nat)
  | acquire
  | parked
  | ready
  | held
  | tryLock
  | unlock
  | unlockLoad
  | unlockClear (old : Nat)
  | unlockHandoff (old : Nat)
  | release
  | fatal
  deriving DecidableEq, Repr

-- Every goroutine counts itself at most once in `state`, an `AtomicU32` that fewer than `2 ^ 31` of them cannot wrap.
-- `served` has the waiters that have taken a handoff, the last one first.
structure State (G : Type u) where
  state : Nat
  sema : Sema G
  pc : G → Pc
  handoffs : Nat
  served : List G

inductive Call where
  | lock
  | tryLock
  | unlock
  deriving DecidableEq, Repr

variable {G : Type u} [DecidableEq G]

namespace State

def new : State G :=
  { state := 0, sema := Sema.new, pc := fun _ => .idle, handoffs := 0, served := [] }

def goto (s : State G) (g : G) (pc : Pc) : State G :=
  { s with pc := update s.pc g pc }

def call (s : State G) (g : G) : Call → Option (State G)
  | .lock => if s.pc g = .idle then some (s.goto g .lock) else none
  | .tryLock => if s.pc g = .idle then some (s.goto g .tryLock) else none
  | .unlock => if s.pc g = .held then some (s.goto g .unlock) else none

def cas (s : State G) (g : G) (old new : Nat) (ok failed : Pc) : State G :=
  if s.state = old then { s.goto g ok with state := new } else s.goto g failed

def step (s : State G) (g : G) : Option (State G) :=
  match s.pc g with
  | .idle => none
  | .lock => some (s.cas g 0 mLocked .held .slowLoad)
  | .slowLoad =>
    some (s.goto g (if s.state &&& mLocked = 0 then .slowGrab s.state else .slowWait s.state))
  | .slowGrab old => some (s.cas g old (old ||| mLocked) .held .slowLoad)
  | .slowWait old => some (s.cas g old (old + mWaiterUnit) .acquire .slowLoad)
  | .acquire =>
    match s.sema.acquire g with
    | (true, sema) => some { s.goto g .held with sema := sema, served := g :: s.served }
    | (false, sema) => some { s.goto g .parked with sema := sema }
  | .parked => none
  | .ready => some (s.goto g .held)
  | .held => none
  | .tryLock => some (s.cas g 0 mLocked .held .idle)
  | .unlock => some (s.cas g mLocked 0 .idle .unlockLoad)
  | .unlockLoad =>
    some (s.goto g
      (if s.state &&& mLocked = 0 then
        .fatal
      else if s.state >>> 1 = 0 then
        .unlockClear s.state
      else
        .unlockHandoff s.state))
  | .unlockClear old => some (s.cas g old 0 .idle .unlockLoad)
  | .unlockHandoff old =>
    if s.state = old then
      some { s.goto g .release with
        state := ((old >>> 1) - 1) <<< 1 ||| mLocked
        handoffs := s.handoffs + 1 }
    else
      some (s.goto g .unlockLoad)
  | .release =>
    match s.sema.releaseNext 1 with
    | (some g', sema) =>
      some { (s.goto g .idle).goto g' .ready with sema := sema, served := g' :: s.served }
    | (none, sema) => some { s.goto g .idle with sema := sema }
  | .fatal => none

end State

end Mutex

end Sync
