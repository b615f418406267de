import Goish.Runtime.Sysmon.Impl.Sysmon

open Function

namespace Time

namespace Ticker

-- `load` has seen that the flag is clear, and `send` has looked at it after the park.
inductive LoopPc where
  | unborn
  | top
  | load
  | parking
  | cancelled
  | fired
  | send
  | rearming
  | returned
  deriving DecidableEq, Repr

-- `restart` has seen that the flag is set, `spawn` has cleared it, `exited` has ended the process.
inductive OwnerPc where
  | idle
  | stop
  | stopping
  | reset (d : Int64)
  | resetLoad
  | resetting
  | restart
  | spawn
  | exited
  deriving DecidableEq, Repr

-- `sent` says which loops have sent on the channel. `quiet` says that a `Stop` has returned and no `Reset` was called
-- since.
structure State where
  sys : Sysmon.State (Option Nat) Nat
  stopped : Bool
  period : Int64
  token : Nat
  loops : Nat → LoopPc
  started : Nat
  owner : OwnerPc
  sent : List Nat
  quiet : Bool

inductive Call where
  | stop
  | reset (d : Int64)
  deriving DecidableEq

namespace State

def spawnTickLoop (s : State) : State :=
  { s with token := s.started, loops := update s.loops s.started .top, started := s.started + 1 }

def newTicker (clock : Int64) (d : Int64) : State :=
  spawnTickLoop {
    sys := .new clock
    stopped := false
    period := d
    token := 0
    loops := fun _ => .unborn
    started := 0
    owner := .idle
    sent := []
    quiet := false
  }

def goto (s : State) (n : Nat) (pc : LoopPc) : State :=
  { s with loops := update s.loops n pc }

def timer (s : State) (g : Option Nat) (c : Sysmon.Call Nat) : Option State :=
  (s.sys.call some g c).map fun sys => { s with sys := sys }

def loop (s : State) (n : Nat) : Option State :=
  match s.loops n with
  | .unborn => none
  | .top => if s.stopped then some (s.goto n .returned) else some (s.goto n .load)
  | .load => (s.goto n .parking).timer (some n) (.timerParkCancellable s.period n)
  | .parking =>
    match s.sys.pc (some n) with
    | .returned _ true => some (s.goto n .fired)
    | .returned _ false => some (s.goto n .cancelled)
    | _ => none
  | .cancelled =>
    if s.stopped then some (s.goto n .returned) else (s.goto n .rearming).timer (some n) (.rearm n)
  | .fired => if s.stopped then some (s.goto n .returned) else some (s.goto n .send)
  | .send => { s.goto n .rearming with sent := s.sent ++ [n] }.timer (some n) (.rearm n)
  | .rearming =>
    match s.sys.pc (some n) with
    | .idle => some (s.goto n .top)
    | _ => none
  | .returned => none

def call (s : State) (c : Call) : Option State :=
  match s.owner with
  | .idle =>
    match c with
    | .stop => some { s with owner := .stop }
    | .reset d => some { s with owner := .reset d, quiet := false }
  | _ => none

def step (s : State) : Option State :=
  match s.owner with
  | .idle => none
  | .stop => { s with stopped := true, owner := .stopping }.timer none (.timerCancel s.token)
  | .stopping =>
    match s.sys.pc none with
    | .cancelled _ _ => some { s with owner := .idle, quiet := true }
    | _ => none
  | .reset d =>
    if d ≤ 0 then
      some { s with owner := .exited }
    else
      some { s with period := d, owner := .resetLoad }
  | .resetLoad =>
    if s.stopped then
      some { s with owner := .restart }
    else
      { s with owner := .resetting }.timer none (.timerCancel s.token)
  | .resetting =>
    match s.sys.pc none with
    | .cancelled _ _ => some { s with owner := .idle }
    | _ => none
  | .restart => some { s with stopped := false, owner := .spawn }
  | .spawn => some { s.spawnTickLoop with owner := .idle }
  | .exited => none

end State

end Ticker

end Time
