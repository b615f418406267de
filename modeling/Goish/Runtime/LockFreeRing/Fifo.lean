import Goish.Runtime.LockFreeRing.Impl.LockFreeRing

open List BitVec

namespace LockFreeRing

inductive Op (α : Type u) where
  | send (v : α)
  | recv
  | len

inductive Outcome (α : Type u) where
  | sent
  | full (v : α)
  | received (v : α)
  | empty
  | length (n : Nat)
  deriving DecidableEq

namespace BoundedQueue

def exec (cap : Nat) (q : List α) : Op α → Outcome α × List α
  | .send v => if q.length = cap then (.full v, q) else (.sent, q ++ [v])
  | .recv =>
    match q with
    | [] => (.empty, [])
    | v :: q => (.received v, q)
  | .len => (.length q.length, q)

def run (cap : Nat) (q : List α) : List (Op α) → List (Outcome α)
  | [] => []
  | op :: ops =>
    let (x, q) := exec cap q op
    x :: run cap q ops

end BoundedQueue

def exec (fuel weak : Nat) (r : LockFreeRing α) : Op α → Option (Outcome α × LockFreeRing α)
  | .send v =>
    (r.trySend fuel weak v).map fun
      | (.ok _, r) => (.sent, r)
      | (.error v, r) => (.full v, r)
  | .recv =>
    (r.tryRecv fuel weak).map fun
      | (some v, r) => (.received v, r)
      | (none, r) => (.empty, r)
  | .len => some (.length r.len.toNat, r)

def run (fuel : Nat) (r : LockFreeRing α) : List (Op α × Nat) → Option (List (Outcome α))
  | [] => some []
  | (op, weak) :: ops =>
    match r.exec fuel weak op with
    | none => none
    | some (x, r) => (r.run fuel ops).map (x :: ·)

def IsFifo (r : LockFreeRing α) : Prop :=
  ∀ (ops : List (Op α × Nat)) (fuel : Nat), (∀ op ∈ ops, op.2 < fuel) →
    r.run fuel ops = some (BoundedQueue.run r.capacity.toNat [] (ops.map Prod.fst))

structure Holds (r : LockFreeRing α) (cap h : Nat) (q : List α) : Prop where
  len_slots : r.slots.length = cap
  two_le : 2 ≤ cap
  le : cap ≤ 2 ^ 63
  pow : ∃ k, cap = 2 ^ k
  capMask : r.capMask = BitVec.ofNat 64 (cap - 1)
  head : r.head = BitVec.ofNat 64 h
  tail : r.tail = BitVec.ofNat 64 (h + q.length)
  len_le : q.length ≤ cap
  full : ∀ j, (hj : j < q.length) →
    r.slots[(h + j) % cap]? = some ⟨BitVec.ofNat 64 (h + j + 1), some q[j]⟩
  free : ∀ j, q.length ≤ j → j < cap →
    ∃ v, r.slots[(h + j) % cap]? = some ⟨BitVec.ofNat 64 (h + j), v⟩

section Loops

variable {r : LockFreeRing α}

def sent (r : LockFreeRing α) (v : α) : LockFreeRing α :=
  {
    r with
    tail := r.tail + 1#64
    slots := r.slots.set (r.slotIndex r.tail) ⟨r.tail + 1#64, some v⟩
  }

def received (r : LockFreeRing α) (v : α) : LockFreeRing α :=
  {
    r with
    head := r.head + 1#64
    slots := r.slots.set (r.slotIndex r.head) ⟨r.head + r.capacity, some v⟩
  }

theorem trySend_ok (hslot : r.slots[r.slotIndex r.tail]? = some ⟨r.tail, x⟩) (hweak : weak < fuel)
    : r.trySend fuel weak v = some (.ok (), r.sent v) := by
  obtain ⟨fuel, rfl⟩ := Nat.exists_eq_add_of_lt hweak
  unfold trySend
  rw [show weak + fuel + 1 = fuel + weak + 1 by omega]
  induction weak with
  | zero => simp [trySend.loop, hslot, sent]
  | succ weak ih =>
    rw [show fuel + (weak + 1) + 1 = (fuel + weak + 1) + 1 by omega, trySend.loop, hslot]
    simpa using ih (by omega)

theorem trySend_full (hslot : r.slots[r.slotIndex r.tail]? = some slot) (hneg : (slot.seq - r.tail).toInt < 0)
    (hfuel : weak < fuel) : r.trySend fuel weak v = some (.error v, r) := by
  obtain ⟨_, rfl⟩ := Nat.exists_eq_add_of_lt hfuel
  unfold trySend trySend.loop
  rw [hslot]
  dsimp only
  rw [if_neg (by omega), if_pos hneg]

theorem tryRecv_some (hslot : r.slots[r.slotIndex r.head]? = some ⟨r.head + 1#64, some v⟩)
    (hweak : weak < fuel) : r.tryRecv fuel weak = some (some v, r.received v) := by
  obtain ⟨fuel, rfl⟩ := Nat.exists_eq_add_of_lt hweak
  unfold tryRecv
  rw [show weak + fuel + 1 = fuel + weak + 1 by omega]
  induction weak with
  | zero => simp [tryRecv.loop, hslot, received]
  | succ weak ih =>
    rw [show fuel + (weak + 1) + 1 = (fuel + weak + 1) + 1 by omega, tryRecv.loop, hslot]
    simpa using ih (by omega)

theorem tryRecv_none (hslot : r.slots[r.slotIndex r.head]? = some slot)
    (hneg : (slot.seq - (r.head + 1#64)).toInt < 0) (hfuel : weak < fuel) : r.tryRecv fuel weak = some (none, r) := by
  obtain ⟨_, rfl⟩ := Nat.exists_eq_add_of_lt hfuel
  unfold tryRecv tryRecv.loop
  rw [hslot]
  dsimp only
  rw [if_neg (by omega), if_pos hneg]

end Loops

namespace Holds

variable {r : LockFreeRing α} (hr : r.Holds cap h q)
include hr

theorem slotIndex (n : Nat) : r.slotIndex (BitVec.ofNat 64 n) = n % cap := by
  obtain ⟨_, hk⟩ := hr.pow
  have hle := hr.le
  have hdvd : cap ∣ 2 ^ 64 := by
    rw [hk]
    apply Nat.pow_dvd_pow
    apply (Nat.pow_le_pow_iff_right (by decide : 1 < 2)).mp
    omega
  unfold LockFreeRing.slotIndex
  rw [hr.capMask, toNat_and, toNat_ofNat, toNat_ofNat,
    Nat.mod_eq_of_lt (by omega : cap - 1 < 2 ^ 64), hk, Nat.and_two_pow_sub_one_eq_mod, ← hk]
  exact Nat.mod_mod_of_dvd n hdvd

theorem capacity : r.capacity = BitVec.ofNat 64 cap := by
  have := hr.two_le
  unfold LockFreeRing.capacity
  rw [hr.capMask]
  apply eq_of_toNat_eq
  simp
  omega

theorem len : r.len.toNat = q.length := by
  have := hr.le
  have := hr.len_le
  unfold LockFreeRing.len
  rw [hr.head, hr.tail]
  simp
  omega

omit hr in
theorem getElem?_set_lap (slots : List (Slot α)) (hi : i < cap) (hj : j < cap) (hne : i ≠ j) (x : Slot α)
    : (slots.set ((h + i) % cap) x)[(h + j) % cap]? = slots[(h + j) % cap]? := by
  apply List.getElem?_set_ne
  intro heq
  apply hne
  have hmod : i % cap = j % cap := Nat.ModEq.add_left_cancel' h heq
  rwa [Nat.mod_eq_of_lt hi, Nat.mod_eq_of_lt hj] at hmod

theorem getElem?_set_self (n : Nat) (x : Slot α) : (r.slots.set (n % cap) x)[n % cap]? = some x := by
  have := hr.two_le
  apply List.getElem?_set_self
  rw [hr.len_slots]
  exact Nat.mod_lt _ (by omega)

theorem send (hroom : q.length < cap) (v : α) : (r.sent v).Holds cap h (q ++ [v]) := by
  have hidx : r.slotIndex r.tail = (h + q.length) % cap := by
    rw [hr.tail, hr.slotIndex]
  have htail : r.tail + 1#64 = BitVec.ofNat 64 (h + q.length + 1) := by
    rw [hr.tail, ← ofNat_add]
  unfold sent
  rw [hidx, htail]
  refine ⟨?_, hr.two_le, hr.le, hr.pow, hr.capMask, hr.head, ?_, ?_, ?_, ?_⟩
  . rw [length_set]
    exact hr.len_slots
  . rw [length_append]
    rfl
  . rwa [length_append]
  . intro j hj
    rcases lt_or_ge j q.length with hlt | _
    . rw [getElem?_set_lap _ hroom (by omega) (by omega), hr.full j hlt, getElem_append_left hlt]
    have heq : j = q.length := by
      simp at hj
      omega
    subst heq
    rw [hr.getElem?_set_self]
    simp
  . intro j hj hlt
    simp at hj
    rw [getElem?_set_lap _ hroom hlt (by omega)]
    exact hr.free j (by omega) hlt

omit hr in
theorem recv (hr : r.Holds cap h (v :: q)) : (r.received v).Holds cap (h + 1) q := by
  have htwo := hr.two_le
  have hlen : q.length + 1 ≤ cap := hr.len_le
  have hidx : r.slotIndex r.head = (h + 0) % cap := by
    rw [hr.head, hr.slotIndex, add_zero]
  have hhead : r.head + 1#64 = BitVec.ofNat 64 (h + 1) := by
    rw [hr.head, ← ofNat_add]
  have hnext : r.head + r.capacity = BitVec.ofNat 64 (h + cap) := by
    rw [hr.head, hr.capacity, ← ofNat_add]
  unfold received
  rw [hidx, hhead, hnext]
  refine ⟨?_, htwo, hr.le, hr.pow, hr.capMask, rfl, ?_, by omega, ?_, ?_⟩
  . rw [length_set]
    exact hr.len_slots
  . rw [hr.tail, length_cons, show h + 1 + q.length = h + (q.length + 1) by omega]
  . intro j _
    rw [show h + 1 + j = h + (j + 1) by omega]
    rw [getElem?_set_lap _ (by omega) (by omega) (by omega)]
    exact hr.full (j + 1) (by rw [length_cons]; omega)
  intro j _ _
  cases lt_or_ge (j + 1) cap with
  | inl hlt' =>
    rw [show h + 1 + j = h + (j + 1) by omega]
    rw [getElem?_set_lap _ (by omega) hlt' (by omega)]
    exact hr.free (j + 1) (by rw [length_cons]; omega) hlt'
  | inr =>
    -- The slot that the value came from is the last one of the next lap.
    have heq : h + 1 + j = h + cap := by omega
    rw [heq, Nat.add_mod_right, add_zero]
    exact ⟨_, hr.getElem?_set_self h _⟩

theorem exec (op : Op α) (hweak : weak < fuel)
    : ∃ r' h', r.exec fuel weak op = some ((BoundedQueue.exec cap q op).1, r') ∧
        r'.Holds cap h' (BoundedQueue.exec cap q op).2 := by
  have htwo := hr.two_le
  have hle := hr.le
  cases op with
  | len => exact ⟨r, h, by rw [LockFreeRing.exec, hr.len]; rfl, hr⟩
  | send v =>
    have hidx : r.slotIndex r.tail = (h + q.length) % cap := by
      rw [hr.tail, hr.slotIndex]
    by_cases hfull : q.length = cap
    . have hslot := hr.full 0 (by omega)
      rw [show (h + 0) % cap = r.slotIndex r.tail by rw [hidx, hfull, Nat.add_mod_right, add_zero]] at hslot
      have hspec : BoundedQueue.exec cap q (.send v) = (.full v, q) := if_pos hfull
      rw [hspec, LockFreeRing.exec, trySend_full hslot _ hweak]
      . exact ⟨r, h, rfl, hr⟩
      dsimp only
      rw [hr.tail, hfull, toInt_eq_toNat_cond]
      simp
      omega
    . have hroom : q.length < cap := by
        have := hr.len_le
        omega
      obtain ⟨_, hslot⟩ := hr.free q.length le_rfl hroom
      rw [← hidx, ← hr.tail] at hslot
      have hspec : BoundedQueue.exec cap q (.send v) = (.sent, q ++ [v]) := if_neg hfull
      rw [hspec, LockFreeRing.exec, trySend_ok hslot hweak]
      exact ⟨r.sent v, h, rfl, hr.send hroom v⟩
  | recv =>
    have hidx : r.slotIndex r.head = (h + 0) % cap := by
      rw [hr.head, hr.slotIndex, add_zero]
    unfold LockFreeRing.exec BoundedQueue.exec
    cases q with
    | nil =>
      obtain ⟨_, hslot⟩ := hr.free 0 le_rfl (by omega)
      rw [← hidx, add_zero, ← hr.head] at hslot
      rw [tryRecv_none hslot _ hweak]
      . exact ⟨r, h, rfl, hr⟩
      . dsimp only
        rw [toInt_eq_toNat_cond]
        simp
    | cons v =>
      have hslot := hr.full 0 (Nat.zero_lt_succ _)
      rw [← hidx, add_zero, ofNat_add, ← hr.head] at hslot
      rw [tryRecv_some hslot hweak]
      exact ⟨r.received v, h + 1, rfl, hr.recv⟩

theorem run (ops : List (Op α × Nat)) (hfuel : ∀ op ∈ ops, op.2 < fuel)
    : r.run fuel ops = some (BoundedQueue.run cap q (ops.map Prod.fst)) := by
  induction ops generalizing r h q with
  | nil => rfl
  | cons op _ ih =>
    obtain ⟨_, _, hexec, hr'⟩ := hr.exec op.1 (hfuel op mem_cons_self)
    unfold LockFreeRing.run
    rw [hexec]
    dsimp only
    rw [ih hr' fun x hx => hfuel x (mem_cons_of_mem _ hx)]
    rfl

end Holds

section New

variable {cap : BitVec 64}

theorem toNat_nextPowerOfTwo (htwo : 2 ≤ n) (hle : n ≤ 2 ^ 63)
    : ∃ k, (nextPowerOfTwo n).toNat = 2 ^ k ∧ 1 ≤ k ∧ k ≤ 63 := by
  have hlog : (n - 1).log2 < 63 := (Nat.log2_lt (by omega)).mpr (by omega)
  refine ⟨(n - 1).log2 + 1, ?_, by omega, by omega⟩
  unfold nextPowerOfTwo
  rw [if_neg (by omega), toNat_ofNat, Nat.mod_eq_of_lt]
  exact Nat.pow_lt_pow_right (by decide) (by omega)

theorem nextPowerOfTwo_eq_zero (hlt : 2 ^ 63 < n) (hn : n < 2 ^ 64) : nextPowerOfTwo n = 0#64 := by
  have hlog : (n - 1).log2 = 63 := by
    apply le_antisymm
    . apply Nat.le_of_lt_succ
      exact (Nat.log2_lt (by omega)).mpr (by omega)
    . exact (Nat.le_log2 (by omega)).mpr (by omega)
  unfold nextPowerOfTwo
  rw [if_neg (by omega), hlog]
  rfl

theorem new_holds (htwo : 2 ≤ cap.toNat) (hle : cap.toNat ≤ 2 ^ 63) : ∃ n, (new cap : LockFreeRing α).Holds n 0 [] := by
  obtain ⟨k, hk, hpos, hk63⟩ := toNat_nextPowerOfTwo htwo hle
  have hmax : max cap.toNat 1 = cap.toNat := by omega
  have hlo : 2 ^ 1 ≤ 2 ^ k := Nat.pow_le_pow_right (by decide) hpos
  have hhi : 2 ^ k ≤ 2 ^ 63 := Nat.pow_le_pow_right (by decide) hk63
  refine ⟨2 ^ k, ?_, by omega, hhi, ⟨k, rfl⟩, ?_, rfl, rfl, Nat.zero_le _, ?_, ?_⟩
  . unfold new
    dsimp only
    rw [hmax, hk, length_map, length_range]
  . unfold new
    rw [hmax]
    apply eq_of_toNat_eq
    rw [toNat_sub, hk]
    simp
    omega
  . intro _ _
    contradiction
  . intro j _ hj
    refine ⟨none, ?_⟩
    unfold new
    dsimp only
    rw [hmax, hk, zero_add, Nat.mod_eq_of_lt hj, List.getElem?_map, List.getElem?_range hj]
    rfl

theorem new_of_le_one (hle : cap.toNat ≤ 1) : (new cap : LockFreeRing α) = new 1#64 := by
  unfold new
  rw [show max cap.toNat 1 = 1 by omega]
  rfl

theorem new_of_lt (hlt : 2 ^ 63 < cap.toNat) : (new cap : LockFreeRing α).slots = [] := by
  unfold new
  rw [nextPowerOfTwo_eq_zero (by omega) (by omega)]
  rfl

theorem not_isFifo_one (v : α) : ¬ (new 1#64 : LockFreeRing α).IsFifo := by
  intro h
  have hrun := h [(.send v, 0), (.send v, 0)] 1 (by simp)
  have hring : (new 1#64 : LockFreeRing α).run 1 [(.send v, 0), (.send v, 0)] = some [.sent, .sent] := by
    simp [run, exec, trySend, trySend.loop, new, nextPowerOfTwo, slotIndex]
  have hqueue : BoundedQueue.run (new 1#64 : LockFreeRing α).capacity.toNat []
      ([(.send v, 0), (.send v, 0)].map Prod.fst) = [.sent, .full v] :=
    rfl
  rw [hring, hqueue] at hrun
  simp at hrun

theorem not_isFifo_nil {r : LockFreeRing α} (v : α) (hnil : r.slots = []) : ¬ r.IsFifo := by
  intro h
  have hrun := h [(.send v, 0)] 1 (by simp)
  have hring : r.run 1 [(.send v, 0)] = none := by
    unfold run exec trySend trySend.loop
    rw [hnil]
    rfl
  rw [hring] at hrun
  contradiction

end New

theorem ring_fifo [Inhabited α] (cap : BitVec 64)
    : (new cap : LockFreeRing α).IsFifo ↔ 2 ≤ cap.toNat ∧ cap.toNat ≤ 2 ^ 63 := by
  constructor
  . intro h
    constructor
    . apply le_of_not_gt
      intro _
      rw [new_of_le_one (by omega)] at h
      exact not_isFifo_one default h
    . apply le_of_not_gt
      intro hlt
      exact not_isFifo_nil default (new_of_lt hlt) h
  . intro ⟨htwo, hle⟩ ops _ hfuel
    obtain ⟨n, hr⟩ : ∃ n, (new cap : LockFreeRing α).Holds n 0 [] := new_holds htwo hle
    have := hr.le
    rw [hr.capacity, toNat_ofNat, Nat.mod_eq_of_lt (by omega)]
    exact hr.run ops hfuel

theorem ring_overwrites : ∃ r : LockFreeRing Nat,
        (new 1#64 : LockFreeRing Nat).capacity = 1#64 ∧
        ((new 1#64).trySend 1 0 7).bind (fun x => x.2.trySend 1 0 8) = some (.ok (), r) ∧
        ∀ fuel weak, r.tryRecv fuel weak = none := by
  refine ⟨⟨0#64, 2#64, [⟨2#64, some 8⟩], 0#64⟩, by decide, by decide +kernel, ?_⟩
  intro fuel _
  induction fuel with
  | zero => rfl
  | succ _ ih => exact ih

end LockFreeRing
