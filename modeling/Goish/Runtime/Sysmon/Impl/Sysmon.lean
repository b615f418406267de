import Mathlib.Data.List.Basic

/-! The timers of `runtime::sysmon`: parks until a deadline, the tokens that cancel them, and the passes of `sysmon`. -/

open Function

namespace Sysmon

inductive TimerState where
  | armed
  | fired
  | cancelled
  deriving DecidableEq, Repr

structure TimerToken (G : Type u) where
  state : TimerState
  g : Option G
  deriving DecidableEq, Repr

structure TimerEntry (G : Type u) (T : Type v) where
  deadline : Int64
  g : G
  cancel : Option T
  deriving DecidableEq

-- Where a goroutine is. `parkRead` has read the clock, `parked` waits for `goready`, and `nap` is the park of the
-- bootstrap thread. `cancelReady` has unlocked the heap, `rearmState` has cleared the goroutine.
inductive Pc (G : Type u) (T : Type v) where
  | idle
  | park (ns : Int64)
  | parkRead (deadline : Int64)
  | parked
  | parkTok (ns : Int64) (tok : T)
  | parkTokRead (deadline : Int64) (tok : T)
  | parkedTok (tok : T)
  | woken (tok : T)
  | nap (tok : T)
  | returned (tok : T) (fired : Bool)
  | cancel (tok : T)
  | cancelReady (tok : T) (won : Bool) (g : Option G)
  | cancelled (tok : T) (won : Bool)
  | rearm (tok : T)
  | rearmState (tok : T)
  deriving DecidableEq

-- The thread sleeps, is in a pass that has read the clock, or makes the goroutine of a popped entry ready.
inductive SysPc (G : Type u) where
  | sleep
  | pass (now : Int64)
  | ready (now : Int64) (g : G)
  deriving DecidableEq

-- `start` and `dur` are of the last park of a goroutine, and `fault` is a `goready` of one that was not parked.
-- `fires`, `wins` and `readied` count for a token.
structure State (G : Type u) (T : Type v) where
  clock : Int64
  heap : List (TimerEntry G T)
  token : T → TimerToken G
  pc : G → Pc G T
  sys : SysPc G
  start : G → Int64
  dur : G → Int64
  fault : Bool
  fires : T → Nat
  wins : T → Nat
  readied : T → Nat

inductive Call (T : Type v) where
  | timerPark (ns : Int64)
  | timerParkCancellable (ns : Int64) (tok : T)
  | timerNap (tok : T)
  | timerCancel (tok : T)
  | rearm (tok : T)
  deriving DecidableEq

namespace State

variable {G : Type u} {T : Type v} [DecidableEq G] [DecidableEq T]

def new (clock : Int64) : State G T :=
  {
    clock := clock
    heap := []
    token := fun _ => { state := .armed, g := none }
    pc := fun _ => .idle
    sys := .sleep
    start := fun _ => 0
    dur := fun _ => 0
    fault := false
    fires := fun _ => 0
    wins := fun _ => 0
    readied := fun _ => 0
  }

def goto (s : State G T) (g : G) (pc : Pc G T) : State G T :=
  { s with pc := update s.pc g pc }

def setState (s : State G T) (tok : T) (state : TimerState) : State G T :=
  { s with token := update s.token tok { s.token tok with state := state } }

def setG (s : State G T) (tok : T) (g : Option G) : State G T :=
  { s with token := update s.token tok { s.token tok with g := g } }

def goready (s : State G T) (g : G) : State G T :=
  match s.pc g with
  | .parked => s.goto g .idle
  | .parkedTok tok => { s.goto g (.woken tok) with readied := update s.readied tok (s.readied tok + 1) }
  | _ => { s with fault := true }

def fire (s : State G T) (tok : T) : Bool × State G T :=
  if (s.token tok).state = .armed then
    (true, { s.setState tok .fired with fires := update s.fires tok (s.fires tok + 1) })
  else
    (false, s)

def cancel (s : State G T) (tok : T) : Bool × State G T :=
  if (s.token tok).state = .armed then
    (true, { s.setState tok .cancelled with wins := update s.wins tok (s.wins tok + 1) })
  else
    (false, s)

def readClock (s : State G T) (g : G) (ns : Int64) : State G T :=
  { s with start := update s.start g s.clock, dur := update s.dur g ns }

def push (s : State G T) (g : G) (deadline : Int64) (tok : Option T) : State G T :=
  { s with heap := { deadline := deadline, g := g, cancel := tok } :: s.heap }

def step (s : State G T) (g : G) : Option (State G T) :=
  match s.pc g with
  | .idle => none
  | .park ns =>
    if ns ≤ 0 then
      some (s.goto g .idle)
    else
      some ((s.readClock g ns).goto g (.parkRead (s.clock + ns)))
  | .parkRead deadline => some ((s.push g deadline none).goto g .parked)
  | .parked => none
  | .parkTok ns tok =>
    if ns ≤ 0 then
      let (fired, s) := s.fire tok
      some (s.goto g (.returned tok fired))
    else
      some ((s.readClock g ns).goto g (.parkTokRead (s.clock + ns) tok))
  | .parkTokRead deadline tok =>
    if (s.token tok).state ≠ .armed then
      some (s.goto g (.returned tok ((s.token tok).state = .fired)))
    else
      some (((s.setG tok (some g)).push g deadline (some tok)).goto g (.parkedTok tok))
  | .parkedTok _ => none
  | .woken tok => some (s.goto g (.returned tok ((s.token tok).state = .fired)))
  | .nap tok =>
    let (fired, s) := s.fire tok
    some (s.goto g (.returned tok fired))
  | .returned _ _ => none
  | .cancel tok =>
    let (won, s) := s.cancel tok
    some (s.goto g (.cancelReady tok won (s.token tok).g))
  | .cancelReady tok won x =>
    let s := s.goto g (.cancelled tok won)
    match won, x with
    | true, some x => some (s.goready x)
    | _, _ => some s
  | .cancelled _ _ => none
  | .rearm tok => some ((s.setG tok none).goto g (.rearmState tok))
  | .rearmState tok => some ((s.setState tok .armed).goto g .idle)

-- A token belongs to one goroutine, which arms it again only after a park on it. Anybody may cancel it.
def call (owner : T → G) (s : State G T) (g : G) (c : Call T) : Option (State G T) :=
  match s.pc g with
  | .idle | .cancelled _ _ | .returned _ _ =>
    match c with
    | .timerPark ns => some (s.goto g (.park ns))
    | .timerParkCancellable ns tok => if owner tok = g then some (s.goto g (.parkTok ns tok)) else none
    | .timerNap tok => if owner tok = g then some (s.goto g (.nap tok)) else none
    | .timerCancel tok => some (s.goto g (.cancel tok))
    | .rearm tok =>
      match s.pc g with
      | .returned tok' _ => if tok' = tok then some (s.goto g (.rearm tok)) else none
      | _ => none
  | _ => none

def expire (s : State G T) (now : Int64) (e : TimerEntry G T) (heap : List (TimerEntry G T)) : State G T :=
  let s := { s with heap := heap }
  match e.cancel with
  | none => { s with sys := .ready now e.g }
  | some tok =>
    match s.fire tok with
    | (true, s) => { s with sys := .ready now e.g }
    | (false, s) => s

def least (s : State G T) (i : Nat) : Option (TimerEntry G T) :=
  match s.heap[i]? with
  | none => none
  | some e => if s.heap.all fun e' => e.deadline ≤ e'.deadline then some e else none

-- The heap does not say which of the entries with the least deadline it pops: it is the entry `i`.
def sysmon (s : State G T) (i : Nat) : Option (State G T) :=
  match s.sys with
  | .sleep => some { s with sys := .pass s.clock }
  | .pass now =>
    if s.heap.all fun e => now < e.deadline then
      some { s with sys := .sleep }
    else
      match s.least i with
      | none => none
      | some e => some (s.expire now e (s.heap.eraseIdx i))
  | .ready now g => some { s.goready g with sys := .pass now }

end State

end Sysmon
