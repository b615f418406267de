import Mathlib.Data.List.Basic
import Mathlib.Algebra.Group.Int.Defs
import Mathlib.Algebra.Group.Nat.Defs

/-! `sync::NotifyList`, the ticket list behind `sync.Cond`. -/

open Function

namespace Sync

namespace NotifyList

def int32 (x : Nat) : Int :=
  if x < 2 ^ 31 then x else x - 2 ^ 32

def less (a b : Nat) : Bool :=
  int32 ((a + 2 ^ 32 - b) % 2 ^ 32) < 0

structure ListState (G : Type u) where
  head : Option G
  tail : Option G

variable {G : Type u} [DecidableEq G]

namespace ListState

def new : ListState G :=
  { head := none, tail := none }

def enqueue (s : ListState G) (semaNext : G → Option G) (g : G) : ListState G × (G → Option G) :=
  let semaNext := update semaNext g none
  match s.tail with
  | none => ({ head := some g, tail := some g }, semaNext)
  | some tail => ({ s with tail := some g }, update semaNext tail (some g))

-- The loop of `NotifyAll`: the goroutines in the order in which they are readied.
def wakeAll (semaNext : G → Option G) (fuel : Nat) (g : Option G) : List G × (G → Option G) :=
  match fuel, g with
  | _, none => ([], semaNext)
  | 0, _ => ([], semaNext)
  | fuel + 1, some g =>
    let (woken, semaNext') := wakeAll (update semaNext g none) fuel (semaNext g)
    (g :: woken, semaNext')

def remove (s : ListState G) (semaNext : G → Option G) (notifyTicket : G → Nat) (t fuel : Nat)
    : Option G × ListState G × (G → Option G) :=
  go fuel none s.head
where
  go (fuel : Nat) (prev cur : Option G) : Option G × ListState G × (G → Option G) :=
    match fuel, cur with
    | _, none => (none, s, semaNext)
    | 0, _ => (none, s, semaNext)
    | fuel + 1, some cur =>
      if notifyTicket cur = t then
        let next := semaNext cur
        let (head, semaNext) :=
          match prev with
          | none => (next, semaNext)
          | some prev => (s.head, update semaNext prev next)
        let tail := if s.tail = some cur then prev else s.tail
        (some cur, { head := head, tail := tail }, update semaNext cur none)
      else
        go fuel (some cur) (semaNext cur)

end ListState

-- `w` is the value of `wait` that a fast path has loaded.
inductive Pc where
  | idle
  | add
  | ticket (t : Nat)
  | wait (t : Nat)
  | parked
  | ready
  | notifyAll
  | notifyAllLoaded (w : Nat)
  | notifyAllLocked
  | notifiedAll
  | notifyOne
  | notifyOneLoaded (w : Nat)
  | notifyOneLocked
  | notifiedOne
  deriving DecidableEq, Repr

-- `handed` and `notified` do not wrap around, `number` is the ticket of a goroutine, and `issued` is `handed` when it
-- called its `NotifyAll` or `NotifyOne`.
structure State (G : Type u) where
  wait : Nat
  notify : Nat
  queue : List G
  notifyTicket : G → Nat
  pc : G → Pc
  handed : Nat
  notified : Nat
  number : G → Nat
  issued : G → Nat

inductive Call where
  | add
  | wait
  | notifyAll
  | notifyOne
  deriving DecidableEq, Repr

namespace Pc

def free : Pc → Bool
  | .idle => true
  | .notifiedAll => true
  | .notifiedOne => true
  | _ => false

def holds : Pc → Bool
  | .ticket _ => true
  | .wait _ => true
  | .parked => true
  | _ => false

end Pc

namespace State

def new : State G :=
  {
    wait := 0
    notify := 0
    queue := []
    notifyTicket := fun _ => 0
    pc := fun _ => .idle
    handed := 0
    notified := 0
    number := fun _ => 0
    issued := fun _ => 0
  }

def goto (s : State G) (g : G) (pc : Pc) : State G :=
  { s with pc := update s.pc g pc }

def notifying (s : State G) (g : G) (pc : Pc) : State G :=
  { s.goto g pc with issued := update s.issued g s.handed }

def call (s : State G) (g : G) (c : Call) : Option (State G) :=
  match c, s.pc g with
  | .wait, .ticket t => some (s.goto g (.wait t))
  | .wait, _ => none
  | .add, pc => if pc.free then some (s.goto g .add) else none
  | .notifyAll, pc => if pc.free then some (s.notifying g .notifyAll) else none
  | .notifyOne, pc => if pc.free then some (s.notifying g .notifyOne) else none

def wakeAll (s : State G) (g : G) : State G :=
  { s with
    notify := s.wait
    queue := []
    pc := update (fun x => if x ∈ s.queue then .ready else s.pc x) g .notifiedAll
    notified := s.handed }

def wakeOne (s : State G) (g : G) : State G :=
  if s.notify = s.wait then
    s.goto g .notifiedOne
  else
    let s' := { s.goto g .notifiedOne with notify := (s.notify + 1) % 2 ^ 32, notified := s.notified + 1 }
    match s.queue.find? fun x => s.notifyTicket x = s.notify with
    | none => s'
    | some x =>
      { s'.goto x .ready with queue := s.queue.eraseP fun x => s.notifyTicket x = s.notify }

def step (s : State G) (g : G) : Option (State G) :=
  match s.pc g with
  | .idle => none
  | .add =>
    some { s.goto g (.ticket s.wait) with
      wait := (s.wait + 1) % 2 ^ 32
      handed := s.handed + 1
      number := update s.number g s.handed }
  | .ticket _ => none
  | .wait t =>
    if less t s.notify then
      some (s.goto g .idle)
    else
      some { s.goto g .parked with
        queue := s.queue ++ [g]
        notifyTicket := update s.notifyTicket g t }
  | .parked => none
  | .ready => some (s.goto g .idle)
  | .notifyAll => some (s.goto g (.notifyAllLoaded s.wait))
  | .notifyAllLoaded w => some (s.goto g (if w = s.notify then .notifiedAll else .notifyAllLocked))
  | .notifyAllLocked => some (s.wakeAll g)
  | .notifiedAll => none
  | .notifyOne => some (s.goto g (.notifyOneLoaded s.wait))
  | .notifyOneLoaded w => some (s.goto g (if w = s.notify then .notifiedOne else .notifyOneLocked))
  | .notifyOneLocked => some (s.wakeOne g)
  | .notifiedOne => none

end State

end NotifyList

end Sync
