import Mathlib.Data.Multiset.Basic
import Mathlib.Algebra.Order.Group.Multiset

/-! The run queue of a processor without its ring: the goroutine that runs next, and the others in order. -/

open List Multiset

namespace Sched

structure Local (G : Type u) where
  runnext : Option G
  ring : List G

namespace Local

def push (capacity : Nat) (q : Local G) (g : G) : List G × Local G :=
  if q.ring.length < capacity then
    ([], { q with ring := q.ring ++ [g] })
  else
    (q.ring.take (q.ring.length / 2) ++ [g], { q with ring := q.ring.drop (q.ring.length / 2) })

def put (capacity : Nat) (q : Local G) (g : G) (next : Bool) : List G × Local G :=
  if next then
    match q.runnext with
    | none => ([], { q with runnext := some g })
    | some old => { q with runnext := some g }.push capacity old
  else
    q.push capacity g

def get (q : Local G) : Option G × Local G :=
  match q.runnext with
  | some g => (some g, { q with runnext := none })
  | none => (q.ring.head?, { q with ring := q.ring.tail })

def grab (q : Local G) (next : Bool) : List G × Local G :=
  if q.ring = [] then
    if next then
      (q.runnext.toList, { q with runnext := none })
    else
      ([], q)
  else
    (q.ring.take (q.ring.length - q.ring.length / 2),
      { q with ring := q.ring.drop (q.ring.length - q.ring.length / 2) })

def keep (q : Local G) (batch : List G) : Option G × Local G :=
  (batch.getLast?, { q with ring := batch.dropLast })

def bag (q : Local G) : Multiset G :=
  (q.runnext.toList : Multiset G) + (q.ring : Multiset G)

variable {q : Local G}

theorem coe_take_add_drop (l : List G) (k : Nat)
    : (l.take k : Multiset G) + (l.drop k : Multiset G) = (l : Multiset G) := by
  rw [coe_add, take_append_drop]

theorem coe_append_singleton (l : List G) (g : G) : ((l ++ [g] : List G) : Multiset G) = g ::ₘ (l : Multiset G) := by
  rw [← coe_add, coe_singleton, add_comm, singleton_add]

theorem push_bag (capacity : Nat) (g : G)
    : ((q.push capacity g).1 : Multiset G) + (q.push capacity g).2.bag = g ::ₘ q.bag := by
  unfold push bag
  split
  . simp only [coe_append_singleton, coe_nil, zero_add, add_cons]
  . simp only [coe_append_singleton, cons_add]
    rw [add_left_comm, coe_take_add_drop]

theorem put_bag (capacity : Nat) (g : G) (next : Bool)
    : ((q.put capacity g next).1 : Multiset G) + (q.put capacity g next).2.bag = g ::ₘ q.bag := by
  unfold put
  split
  . split
    . next hnext => simp [bag, hnext]
    . next old hnext =>
      rw [push_bag]
      simp only [bag, hnext, Option.toList_some, coe_singleton, singleton_add]
      exact cons_swap old g _
  . exact push_bag capacity g

theorem get_bag : (q.get.1.toList : Multiset G) + q.get.2.bag = q.bag := by
  unfold get
  split
  . next g hnext => simp [bag, hnext]
  . next hnext =>
    cases hring : q.ring with
    | nil | cons => simp [bag, hnext, hring]

theorem grab_bag (next : Bool) : ((q.grab next).1 : Multiset G) + (q.grab next).2.bag = q.bag := by
  unfold grab
  split
  . split
    . simp [bag]
    . simp
  . simp only [bag]
    rw [add_left_comm, coe_take_add_drop]

theorem length_grab (hle : q.ring.length ≤ capacity) (hcap : 0 < capacity) (next : Bool)
    : (q.grab next).1.length ≤ capacity - capacity / 2 := by
  unfold grab
  split
  . split
    . cases q.runnext with
      | none => simp
      | some =>
        simp only [Option.toList_some, length_singleton]
        omega
    . simp
  . simp only [length_take]
    omega

theorem keep_bag (batch : List G) (hring : q.ring = [])
    : ((q.keep batch).1.toList : Multiset G) + (q.keep batch).2.bag = q.bag + (batch : Multiset G) := by
  simp only [keep, bag, hring, coe_nil, add_zero]
  rw [add_left_comm]
  apply congrArg
  cases hlast : batch.getLast? with
  | none => simp [List.getLast?_eq_none_iff.mp hlast]
  | some g =>
    have hbatch := dropLast_append_getLast? g hlast
    rw [← hbatch, coe_append_singleton]
    simp

end Local

end Sched
