import Goish.Data.Ring
import Goish.Runtime.Sched.Impl.RunQueue
import Goish.Runtime.Sched.Local
import Mathlib.Data.List.ReduceOption

open List Function UInt32

namespace Sched

namespace P

variable {G : Type u} {p : P G} {q : Local G}

theorem reduceOption_map_some (l : List G) : (l.map some).reduceOption = l := by
  simp [List.reduceOption]

theorem slot_add (h : UInt32) (i : Nat) : slot (h + ofNat i) = Fin.ofNat localRunqSize (h.toNat + i) := by
  apply Ring.ofNat_congr
  simp only [localRunqSize, UInt32.toNat_add, toNat_ofNat']
  omega

theorem toNat_add_mod (h n : UInt32) : (h + n).toNat % localRunqSize = (h.toNat + n.toNat) % localRunqSize := by
  simp only [localRunqSize, UInt32.toNat_add]
  omega

theorem toNat_ofNat_small (h : k ≤ localRunqSize) : (ofNat k).toNat = k := by
  simp only [localRunqSize] at h
  rw [toNat_ofNat', Nat.mod_eq_of_lt (by omega)]

theorem toNat_sub_add (hsub : (t - h).toNat = k + m) (hle : k + m ≤ localRunqSize)
    : (t - (h + ofNat k)).toNat = m := by
  have hk := toNat_ofNat_small (k := k) (by omega)
  have hh := h.toNat_lt
  rw [UInt32.toNat_sub] at hsub ⊢
  rw [UInt32.toNat_add, hk]
  omega

theorem toNat_add_sub (hsub : (t - h).toNat = k) (hle : k + m ≤ localRunqSize)
    : (t + ofNat m - h).toNat = k + m := by
  have hm := toNat_ofNat_small (k := m) (by omega)
  simp only [localRunqSize] at hle
  rw [UInt32.toNat_sub] at hsub ⊢
  rw [UInt32.toNat_add, hm]
  omega

def ring (p : P G) : List (Option G) :=
  Ring.read p.runq p.runqhead.toNat (p.runqtail - p.runqhead).toNat

structure Holds (p : P G) (l : List G) : Prop where
  ring : p.ring = l.map some
  length_le : l.length ≤ localRunqSize

theorem Holds.length (h : p.Holds l) : (p.runqtail - p.runqhead).toNat = l.length := by
  have := congrArg List.length h.ring
  simpa [P.ring] using this

theorem Holds.tail (h : p.Holds l) : p.runqtail = p.runqhead + ofNat l.length := by
  rw [← h.length, UInt32.ofNat_toNat]
  rw [UInt32.add_comm, UInt32.sub_add_cancel]

theorem Holds.runqtail_eq_iff (h : p.Holds l) : p.runqtail = p.runqhead ↔ l = [] := by
  have hlen := h.length
  constructor
  . intro heq
    rw [heq, UInt32.sub_self] at hlen
    exact length_eq_zero_iff.mp hlen.symm
  . intro heq
    rw [h.tail, heq]
    simp

theorem new_holds : (new : P G).Holds [] :=
  ⟨by simp [P.ring, new], by simp⟩

theorem Holds.setNext (h : p.Holds l) : { p with runnext := x }.Holds l :=
  ⟨h.ring, h.length_le⟩

theorem Holds.append (h : p.Holds (l ++ l')) : Ring.read p.runq p.runqhead.toNat l.length = l.map some ∧
        { p with runqhead := p.runqhead + ofNat l.length }.Holds l' := by
  have hle := h.length_le
  have hlen := h.length
  rw [length_append] at hle hlen
  have hring := h.ring
  rw [P.ring, hlen, Ring.read_add, map_append] at hring
  have hparts := append_inj hring (by simp)
  refine ⟨hparts.1, ?_, by omega⟩
  simp only [P.ring, toNat_sub_add hlen hle]
  rw [← hparts.2]
  apply Ring.read_congr
  rw [toNat_add_mod, toNat_ofNat_small (by omega)]

theorem Holds.push (h : p.Holds l) (hlt : l.length < localRunqSize) (g : G)
    : { p with runq := update p.runq (slot p.runqtail) (some g), runqtail := p.runqtail + 1 }.Holds
        (l ++ [g]) := by
  have hring := h.ring
  rw [P.ring, h.length] at hring
  refine ⟨?_, by rw [length_append, length_singleton]; omega⟩
  have hlen : (p.runqtail + 1 - p.runqhead).toNat = l.length + 1 :=
    toNat_add_sub (m := 1) h.length (by omega)
  have hslot : slot p.runqtail = Fin.ofNat localRunqSize (p.runqhead.toNat + l.length) := by
    rw [h.tail, slot_add]
  simp only [P.ring, hlen, hslot]
  rw [Ring.read_update_push hlt, hring, map_append]
  rfl

theorem batch_eq (h n : UInt32) : p.batch h n = Ring.read p.runq h.toNat n.toNat := by
  simp only [batch, slot_add]
  rfl

theorem copy_eq (dst : Fin localRunqSize → Option G) (b h n : UInt32)
    : p.copy dst b h n = Ring.write dst b.toNat (Ring.read p.runq h.toNat n.toNat) := by
  simp only [copy, slot_add]
  exact Ring.foldl_update _ _

structure Repr (p : P G) (q : Local G) : Prop where
  runnext : p.runnext = q.runnext
  ring : p.Holds q.ring

theorem new_repr : (new : P G).Repr { runnext := none, ring := [] } :=
  ⟨rfl, new_holds⟩

section

variable (h : p.Repr q)
include h

theorem Repr.drop (hk : k ≤ q.ring.length) : Ring.read p.runq p.runqhead.toNat k = (q.ring.take k).map some ∧
        { p with runqhead := p.runqhead + ofNat k }.Repr { q with ring := q.ring.drop k } := by
  have hsplit := h.ring
  rw [← take_append_drop k q.ring] at hsplit
  have hparts := hsplit.append
  rw [length_take_of_le hk] at hparts
  exact ⟨hparts.1, h.runnext, hparts.2⟩

theorem Repr.runqputRing (g : G) : (p.runqputRing g).1 = (q.push localRunqSize g).1.map some ∧
        (p.runqputRing g).2.Repr (q.push localRunqSize g).2 := by
  have hlen := h.ring.length
  unfold P.runqputRing Local.push
  simp only [hlen]
  split
  . next hlt => exact ⟨rfl, h.runnext, h.ring.push hlt g⟩
  next hge =>
  have hhalf : (p.runqtail - p.runqhead) / 2 = ofNat (q.ring.length / 2) := by
    apply UInt32.toNat_inj.mp
    rw [UInt32.toNat_div, hlen, toNat_ofNat_small (by have := h.ring.length_le; omega)]
    rfl
  have hdrop := h.drop (k := q.ring.length / 2) (by omega)
  simp only [P.runqputslow, batch_eq, hhalf]
  rw [toNat_ofNat_small (by have := h.ring.length_le; omega), hdrop.1, map_append]
  exact ⟨rfl, hdrop.2⟩

theorem Repr.runqput (g : G) (next : Bool) : (p.runqput g next).1 = (q.put localRunqSize g next).1.map some ∧
        (p.runqput g next).2.Repr (q.put localRunqSize g next).2 := by
  unfold P.runqput Local.put
  cases next with
  | false => exact h.runqputRing g
  | true =>
    simp only [if_true, h.runnext]
    cases q.runnext with
    | none => exact ⟨rfl, rfl, h.ring.setNext⟩
    | some old =>
      have hset : { p with runnext := some g }.Repr { q with runnext := some g } := ⟨rfl, h.ring.setNext⟩
      exact hset.runqputRing old

theorem Repr.runqgetRing (fuel : Nat) : (p.runqgetRing (fuel + 1)).1 = q.ring.head? ∧
        (p.runqgetRing (fuel + 1)).2.Repr { q with ring := q.ring.tail } := by
  unfold P.runqgetRing
  simp only [h.ring.runqtail_eq_iff]
  cases hq : q.ring with
  | nil =>
    have hring := h.ring
    rw [hq] at hring
    exact ⟨rfl, h.runnext, hring⟩
  | cons g =>
    have hdrop := h.drop (k := 1) (by simp [hq])
    rw [hq, Ring.read_one] at hdrop
    have hslot : p.runq (slot p.runqhead) = some g := head_eq_of_cons_eq hdrop.1
    simp only [hslot]
    exact ⟨rfl, hdrop.2⟩

theorem Repr.runqget : p.runqget.1 = q.get.1 ∧ p.runqget.2.Repr q.get.2 := by
  unfold P.runqget Local.get
  simp only [h.runnext]
  cases hnext : q.runnext with
  | some => exact ⟨rfl, rfl, h.ring.setNext⟩
  | none =>
    have hget := h.runqgetRing (p.runqtail - p.runqhead).toNat
    rwa [hnext] at hget

theorem Repr.runqgrab (dst : Fin localRunqSize → Option G) (b : UInt32) (next : Bool)
    : ∃ target, p.runqgrab dst b next = some (ofNat (q.grab next).1.length, target,
        Ring.write dst b.toNat ((q.grab next).1.map some)) ∧ target.Repr (q.grab next).2 := by
  have hlen := h.ring.length
  have hle := h.ring.length_le
  have hsize : localRunqSize = 256 := rfl
  generalize hk : q.ring.length - q.ring.length / 2 = k
  have hn : (p.runqtail - p.runqhead) - (p.runqtail - p.runqhead) / 2 = ofNat k := by
    apply UInt32.toNat_inj.mp
    rw [UInt32.toNat_sub_of_le, UInt32.toNat_div, hlen, toNat_ofNat_small (by omega), ← hk]
    . rfl
    rw [le_iff_toNat_le, UInt32.toNat_div]
    exact Nat.div_le_self _ _
  have hkn : (ofNat k).toNat = k := toNat_ofNat_small (by omega)
  unfold P.runqgrab Local.grab
  simp only [hn, h.runnext, hk]
  cases hq : q.ring with
  | nil =>
    have hk0 : k = 0 := by simp [← hk, hq]
    have hring := h.ring
    rw [hq] at hring
    rw [hk0]
    cases next with
    | false => exact ⟨p, rfl, h⟩
    | true =>
      cases hnext : q.runnext with
      | none => exact ⟨p, rfl, h.runnext.trans hnext, hring⟩
      | some => exact ⟨{ p with runnext := none }, rfl, rfl, hring.setNext⟩
  | cons =>
    have hpos : 0 < k := by
      rw [← hk, hq, length_cons]
      omega
    have hne : ofNat k ≠ 0 := by
      intro heq
      rw [heq] at hkn
      simp at hkn
      omega
    have hk_le : k ≤ q.ring.length := by omega
    have hdrop := h.drop hk_le
    rw [hq] at hdrop hk_le
    rw [if_neg hne, if_neg (by rw [hkn]; omega), if_neg (by simp), copy_eq, hkn, hdrop.1]
    refine ⟨_, ?_, hdrop.2⟩
    rw [length_take_of_le hk_le, h.runnext]

theorem Repr.keep (hring : q.ring = []) (l : List G) (g : G) (hle : l.length < localRunqSize)
    : Ring.write p.runq p.runqtail.toNat ((l ++ [g]).map some) (slot (p.runqtail + ofNat l.length))
          = some g ∧
        { p with
          runq := Ring.write p.runq p.runqtail.toNat ((l ++ [g]).map some)
          runqtail := p.runqtail + ofNat l.length }.Repr { q with ring := l } := by
  have hread := Ring.read_write (f := p.runq) (h := p.runqtail.toNat) ((l ++ [g]).map some)
    (by simp only [length_map, length_append, length_singleton]; omega)
  rw [length_map, length_append, length_singleton, Ring.read_succ_last, map_append]
    at hread
  have hparts := append_inj hread (by simp)
  have hempty : p.runqtail = p.runqhead := h.ring.runqtail_eq_iff.mpr hring
  have hlen : (p.runqtail + ofNat l.length - p.runqhead).toNat = l.length := by
    have hzero : (p.runqtail - p.runqhead).toNat = 0 := by
      rw [hempty, UInt32.sub_self]
      rfl
    rw [toNat_add_sub hzero (by omega), zero_add]
  rw [slot_add, map_append]
  refine ⟨head_eq_of_cons_eq hparts.2, h.runnext, ?_, hle.le⟩
  simp only [P.ring, hlen]
  rw [← hempty]
  exact hparts.1

end

def goroutines (p : P G) : Multiset G :=
  (p.runnext.toList : Multiset G) + (p.ring.reduceOption : Multiset G)

theorem Repr.goroutines (h : p.Repr q) : p.goroutines = q.bag := by
  rw [P.goroutines, Local.bag, h.runnext, h.ring.ring, reduceOption_map_some]

end P

end Sched
