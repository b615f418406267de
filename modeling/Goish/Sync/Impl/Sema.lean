import Mathlib.Logic.Function.Basic

open Function

namespace Sync

variable {G : Type u} [DecidableEq G]

structure SemaState (G : Type u) where
  credit : Int
  head : Option G
  tail : Option G

namespace SemaState

def new : SemaState G :=
  { credit := 0, head := none, tail := none }

def acquire (s : SemaState G) (semaNext : G → Option G) (g : G)
    : Bool × SemaState G × (G → Option G) :=
  if s.credit > 0 then
    (true, { s with credit := s.credit - 1 }, semaNext)
  else
    let semaNext := update semaNext g none
    match s.tail with
    | none => (false, { s with head := some g, tail := some g }, semaNext)
    | some tail => (false, { s with tail := some g }, update semaNext tail (some g))

def popHead (s : SemaState G) (semaNext : G → Option G) : Option G × SemaState G :=
  match s.head with
  | none => (none, s)
  | some g =>
    let head := semaNext g
    (some g, { s with head := head, tail := if head.isNone then none else s.tail })

-- A critical section of `release_n`, with `left` units to release. `release` is the case of one unit.
def releaseNext (s : SemaState G) (semaNext : G → Option G) (left : Nat) : Option G × SemaState G :=
  match s.popHead semaNext with
  | (some g, s) => (some g, s)
  | (none, s) => (none, { s with credit := s.credit + left })

end SemaState

structure Sema (G : Type u) where
  credit : Nat
  queue : List G
  deriving DecidableEq, Repr

namespace Sema

def new : Sema G :=
  { credit := 0, queue := [] }

def acquire (s : Sema G) (g : G) : Bool × Sema G :=
  if s.credit > 0 then
    (true, { s with credit := s.credit - 1 })
  else
    (false, { s with queue := s.queue ++ [g] })

def releaseNext (s : Sema G) (left : Nat) : Option G × Sema G :=
  match s.queue with
  | g :: queue => (some g, { s with queue := queue })
  | [] => (none, { s with credit := s.credit + left })

end Sema

end Sync
