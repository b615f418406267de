import Goish.Sync.Impl.Sema

/-! `sync::WaitGroup` as the steps of its callers. -/

open Function

namespace Sync

namespace WaitGroup

def wgWaiterMask : UInt64 := ((1 : UInt64) <<< 32) - 1

def counter (state : UInt64) : Int :=
  (state >>> 32).toInt64.toInt

def waiters (state : UInt64) : Nat :=
  (state &&& wgWaiterMask).toUInt32.toNat

def rawDelta (delta : Int64) : UInt64 :=
  delta.toUInt64 <<< 32

-- `waited` is outside like `idle`, after a `Wait`.
inductive Pc where
  | idle
  | add (delta : Int64)
  | cas (newState : UInt64)
  | release (left : Nat)
  | waitLoad
  | waitCas (state : UInt64)
  | acquire
  | parked
  | ready
  | waited
  | fatal
  deriving DecidableEq

structure State (G : Type u) where
  state : UInt64
  sema : Sema G
  pc : G → Pc
  sawZero : G → Bool

inductive Call where
  | add (delta : Int64)
  | done
  | wait
  deriving DecidableEq

variable {G : Type u} [DecidableEq G]

namespace State

def new : State G :=
  { state := 0, sema := .new, pc := fun _ => .idle, sawZero := fun _ => true }

def goto (s : State G) (g : G) (pc : Pc) : State G :=
  { s with pc := update s.pc g pc }

def look (s : State G) : State G :=
  { s with sawZero := fun g => s.sawZero g || counter s.state == 0 }

def call (s : State G) (g : G) (c : Call) : Option (State G) :=
  if s.pc g = .idle ∨ s.pc g = .waited then
    match c with
    | .add delta => some (s.goto g (.add delta))
    | .done => some (s.goto g (.add (-1)))
    | .wait =>
      some { s.goto g .waitLoad with sawZero := update s.sawZero g (counter s.state == 0) }
  else
    none

def addTo (newState : UInt64) : Pc :=
  if counter newState < 0 then
    .fatal
  else if counter newState > 0 ∨ waiters newState = 0 then
    .idle
  else
    .cas newState

def step (s : State G) (g : G) : Option (State G) :=
  match s.pc g with
  | .idle => none
  | .add delta =>
    let newState := s.state + rawDelta delta
    some (look { s.goto g (addTo newState) with state := newState })
  | .cas newState =>
    if s.state = newState then
      some (look { s.goto g (.release (waiters newState)) with state := 0 })
    else
      some (look (s.goto g .idle))
  | .release left =>
    match s.sema.releaseNext left with
    | (some x, sema) =>
      let pc := if left - 1 = 0 then .idle else .release (left - 1)
      some (look { (s.goto g pc).goto x .ready with sema := sema })
    | (none, sema) => some (look { s.goto g .idle with sema := sema })
  | .waitLoad =>
    some (look (s.goto g (if counter s.state = 0 then .waited else .waitCas s.state)))
  | .waitCas state =>
    if s.state = state then
      some (look { s.goto g .acquire with state := state + 1 })
    else
      some (look (s.goto g .waitLoad))
  | .acquire =>
    match s.sema.acquire g with
    | (true, sema) => some (look { s.goto g .waited with sema := sema })
    | (false, sema) => some (look { s.goto g .parked with sema := sema })
  | .parked => none
  | .ready => some (look (s.goto g .waited))
  | .waited => none
  | .fatal => none

end State

end WaitGroup

end Sync
