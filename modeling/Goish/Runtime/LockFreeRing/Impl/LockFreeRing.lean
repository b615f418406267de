import Mathlib.Data.BitVec

/-! `runtime::lockfree_ring`: the sequence number of a slot says for which position of the head or of the tail it is
ready. -/

structure LockFreeRing.Slot (α : Type u) where
  seq : BitVec 64
  val : Option α
  deriving DecidableEq

structure LockFreeRing (α : Type u) where
  head : BitVec 64
  tail : BitVec 64
  slots : List (LockFreeRing.Slot α)
  capMask : BitVec 64
  deriving DecidableEq

namespace LockFreeRing

def nextPowerOfTwo (n : Nat) : BitVec 64 :=
  if n ≤ 1 then 1#64 else BitVec.ofNat 64 (2 ^ ((n - 1).log2 + 1))

def new (cap : BitVec 64) : LockFreeRing α :=
  let cap := nextPowerOfTwo (max cap.toNat 1)
  {
    head := 0#64
    tail := 0#64
    slots := (List.range cap.toNat).map fun i => ⟨BitVec.ofNat 64 i, none⟩
    capMask := cap - 1#64
  }

def capacity (r : LockFreeRing α) : BitVec 64 :=
  r.capMask + 1#64

def len (r : LockFreeRing α) : BitVec 64 :=
  r.tail - r.head

def slotIndex (r : LockFreeRing α) (index : BitVec 64) : Nat :=
  (index &&& r.capMask).toNat

def trySend (fuel weak : Nat) (r : LockFreeRing α) (v : α)
    : Option (Except α Unit × LockFreeRing α) :=
  loop fuel weak r.tail
where
  loop (fuel weak : Nat) (tail : BitVec 64) : Option (Except α Unit × LockFreeRing α) :=
    match fuel with
    | 0 => none
    | fuel + 1 =>
      match r.slots[r.slotIndex tail]? with
      | none => none
      | some slot =>
        let diff := (slot.seq - tail).toInt
        if diff = 0 then
          match weak with
          | 0 =>
            if r.tail = tail then
              let slots := r.slots.set (r.slotIndex tail) ⟨tail + 1#64, some v⟩
              some (.ok (), { r with tail := tail + 1#64, slots := slots })
            else
              loop fuel 0 r.tail
          | weak + 1 => loop fuel weak r.tail
        else if diff < 0 then
          some (.error v, r)
        else
          loop fuel weak r.tail

def tryRecv (fuel weak : Nat) (r : LockFreeRing α) : Option (Option α × LockFreeRing α) :=
  loop fuel weak r.head
where
  loop (fuel weak : Nat) (head : BitVec 64) : Option (Option α × LockFreeRing α) :=
    match fuel with
    | 0 => none
    | fuel + 1 =>
      match r.slots[r.slotIndex head]? with
      | none => none
      | some slot =>
        let diff := (slot.seq - (head + 1#64)).toInt
        if diff = 0 then
          match weak with
          | 0 =>
            if r.head = head then
              slot.val.map fun v =>
                let slots := r.slots.set (r.slotIndex head) ⟨head + r.capacity, slot.val⟩
                (some v, { r with head := head + 1#64, slots := slots })
            else
              loop fuel 0 r.head
          | weak + 1 => loop fuel weak r.head
        else if diff < 0 then
          some (none, r)
        else
          loop fuel weak r.head

end LockFreeRing
