import Goish.Runtime.Sysmon.Impl.Sysmon

open Function

namespace Time

namespace Timer

variable {G : Type u} {T : Type v} [DecidableEq G] [DecidableEq T]

structure State (G : Type u) (T : Type v) where
  sys : Sysmon.State G T
  sent : T → Nat

namespace State

def new (clock : Int64) : State G T :=
  { sys := .new clock, sent := fun _ => 0 }

def send (s : State G T) (g : G) : Option (State G T) :=
  match s.sys.pc g with
  | .returned tok true =>
    some { sys := s.sys.goto g .idle, sent := update s.sent tok (s.sent tok + 1) }
  | _ => none

end State

end Timer

end Time
