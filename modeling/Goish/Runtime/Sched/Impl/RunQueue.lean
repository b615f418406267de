import Mathlib.Data.Fin.Basic
import Mathlib.Algebra.GroupWithZero.Nat

/-! The run queues of `runtime::sched::p`: those of each processor, and the one that they share. -/

open Function

namespace Sched

def localRunqSize : Nat :=
  256

instance : NeZero localRunqSize :=
  ⟨by decide⟩

structure P (G : Type u) where
  runqhead : UInt32
  runqtail : UInt32
  runq : Fin localRunqSize → Option G
  runnext : Option G

structure State (n : Nat) (G : Type u) where
  ps : Fin n → P G
  runq : List G

namespace P

def new : P G :=
  { runqhead := 0, runqtail := 0, runq := fun _ => none, runnext := none }

def slot (i : UInt32) : Fin localRunqSize :=
  Fin.ofNat localRunqSize i.toNat

def batch (p : P G) (h n : UInt32) : List (Option G) :=
  (List.range n.toNat).map fun i => p.runq (slot (h + UInt32.ofNat i))

def runqputslow (p : P G) (gp : G) (h t : UInt32) : List (Option G) × P G :=
  let n := (t - h) / 2
  (p.batch h n ++ [some gp], { p with runqhead := h + n })

def runqputRing (p : P G) (gp : G) : List (Option G) × P G :=
  let h := p.runqhead
  let t := p.runqtail
  if (t - h).toNat < localRunqSize then
    ([], { p with runq := update p.runq (slot t) (some gp), runqtail := t + 1 })
  else
    p.runqputslow gp h t

def runqput (p : P G) (gp : G) (next : Bool) : List (Option G) × P G :=
  if next then
    match p.runnext with
    | none => ([], { p with runnext := some gp })
    | some oldnext => { p with runnext := some gp }.runqputRing oldnext
  else
    p.runqputRing gp

def runqgetRing (p : P G) (fuel : Nat) : Option G × P G :=
  match fuel with
  | 0 => (none, p)
  | fuel + 1 =>
    if p.runqtail = p.runqhead then
      (none, p)
    else
      let gp := p.runq (slot p.runqhead)
      let p := { p with runqhead := p.runqhead + 1 }
      match gp with
      | none => p.runqgetRing fuel
      | some g => (some g, p)

def runqget (p : P G) : Option G × P G :=
  match p.runnext with
  | some next => (some next, { p with runnext := none })
  | none => p.runqgetRing ((p.runqtail - p.runqhead).toNat + 1)

def copy (p : P G) (dst : Fin localRunqSize → Option G) (batchHead h n : UInt32)
    : Fin localRunqSize → Option G :=
  (List.range n.toNat).foldl
    (fun dst i => update dst (slot (batchHead + UInt32.ofNat i)) (p.runq (slot (h + UInt32.ofNat i)))) dst

-- It returns the number of goroutines, the processor and the cells of the caller. There is no result if
-- the loop does not end.
def runqgrab (p : P G) (dst : Fin localRunqSize → Option G) (batchHead : UInt32) (stealRunnextG : Bool)
    : Option (UInt32 × P G × (Fin localRunqSize → Option G)) :=
  let h := p.runqhead
  let n := p.runqtail - h
  let n := n - n / 2
  if n = 0 then
    if !stealRunnextG then
      some (0, p, dst)
    else
      match p.runnext with
      | none => some (0, p, dst)
      | some next => some (1, { p with runnext := none }, update dst (slot batchHead) (some next))
  else if n.toNat > localRunqSize / 2 then
    none
  else
    some (n, { p with runqhead := h + n }, p.copy dst batchHead h n)

end P

namespace State

variable {n : Nat} {G : Type u}

def new : State n G :=
  { ps := fun _ => .new, runq := [] }

def setP (s : State n G) (i : Fin n) (p : P G) : State n G :=
  { s with ps := update s.ps i p }

def globrunqputBatch (s : State n G) (batch : List (Option G)) : State n G :=
  { s with runq := s.runq ++ batch.reduceOption }

def runqput (s : State n G) (i : Fin n) (gp : G) (next : Bool) : State n G :=
  let (batch, p) := (s.ps i).runqput gp next
  (s.setP i p).globrunqputBatch batch

def runqget (s : State n G) (i : Fin n) : Option G × State n G :=
  let (gp, p) := (s.ps i).runqget
  (gp, s.setP i p)

def runqsteal (s : State n G) (i j : Fin n) (stealRunnextG : Bool) : Option (Option G × State n G) :=
  let t := (s.ps i).runqtail
  match (s.ps j).runqgrab (s.ps i).runq t stealRunnextG with
  | none => none
  | some (grabbed, target, runq) =>
    let s := s.setP j target
    let p := { s.ps i with runq := runq }
    if grabbed = 0 then
      some (none, s.setP i p)
    else
      let k := grabbed - 1
      let gp := p.runq (P.slot (t + k))
      if k = 0 then
        some (gp, s.setP i p)
      else
        some (gp, s.setP i { p with runqtail := t + k })

end State

end Sched
