import Goish.Data.Bitmap

/-! `runtime::mcentral::span`: a run of pages cut into slots, their bitmap and the owner's window of claimed slots. -/

open Word

namespace Central

def nilSpan : Nat := 0

def maxObjsPerSpan : Nat := 1024

def allocBitsWords : Nat := maxObjsPerSpan / 64

def u16 (n : Nat) : Nat :=
  n % 2 ^ 16

structure Span where
  base : Nat
  npages : Nat
  elemsize : Nat
  nelems : Nat
  sizeclass : Nat
  allocCount : Nat
  freeindex : Nat
  allocBits : Bitmap allocBitsWords
  allocCache : BitVec 64
  next : Nat
  prev : Nat
  cached : Bool
  deriving DecidableEq, Repr

namespace Span

def new : Span :=
  {
    base := 0
    npages := 0
    elemsize := 0
    nelems := 0
    sizeclass := 0
    allocCount := 0
    freeindex := 0
    allocBits := Bitmap.zero allocBitsWords
    allocCache := 0#64
    next := nilSpan
    prev := nilSpan
    cached := false
  }

def isFull (s : Span) : Bool :=
  s.allocCount = s.nelems

def isEmpty (s : Span) : Bool :=
  s.allocCount = 0

def fetchAddCount (s : Span) (n : Nat) : Span :=
  { s with allocCount := u16 (s.allocCount + n) }

def fetchSubCount (s : Span) (n : Nat) : Span :=
  { s with allocCount := u16 (s.allocCount + (2 ^ 16 - n)) }

def fetchOr (s : Span) (wi : Nat) (mask : BitVec 64) : Span :=
  { s with allocBits := s.allocBits.setWord wi (s.allocBits.word wi ||| mask) }

def fetchAnd (s : Span) (wi : Nat) (mask : BitVec 64) : Span :=
  { s with allocBits := s.allocBits.setWord wi (s.allocBits.word wi &&& mask) }

def refillAllocCache (s : Span) (wi : Nat) (load : BitVec 64) : Span × Nat :=
  let claimMask := ~~~load
  let s := if claimMask ≠ 0#64 then s.fetchOr wi claimMask else s
  ({ s with allocCache := claimMask }, countOnes claimMask)

def refill (s : Span) (wi : Nat) (load : BitVec 64) : Span :=
  let (s, claimed) := s.refillAllocCache wi load
  if claimed ≠ 0 then s.fetchAddCount claimed else s

-- `next_free_owner` refills the window in its loop, and behind the sale of `slot`.
inductive Refill where
  | window (sfreeindex : Nat)
  | prefetch (slot : Nat)
  deriving DecidableEq, Repr

def Refill.wordIndex : Refill → Nat
  | .window sfreeindex => sfreeindex / 64
  | .prefetch slot => u16 (slot + 1) / 64

-- `overrun` returns nothing because the next claimed bit is at or behind `nelems`.
inductive Outcome where
  | done (slot : Option Nat) (s : Span)
  | overrun (s : Span)
  | refill (at_ : Refill) (s : Span)

namespace nextFreeOwner

def scan (s : Span) (sfreeindex : Nat) : Outcome :=
  let acache := s.allocCache
  let bitIndex := trailingZeros acache
  if bitIndex = 64 then
    let sfreeindex := u16 (sfreeindex + 64) / 64 * 64
    if sfreeindex ≥ s.nelems then
      .done none { s with freeindex := s.nelems }
    else
      .refill (.window sfreeindex) s
  else
    let slot := u16 (sfreeindex + bitIndex)
    if slot ≥ s.nelems then
      .overrun { s with freeindex := s.nelems }
    else
      let s := { s with allocCache := acache >>> (bitIndex + 1) }
      let newFreeindex := u16 (slot + 1)
      if newFreeindex % 64 = 0 ∧ newFreeindex < s.nelems then
        .refill (.prefetch slot) s
      else
        .done (some slot) { s with freeindex := newFreeindex }

def start (s : Span) : Outcome :=
  let sfreeindex := s.freeindex
  if sfreeindex ≥ s.nelems then .done none s else scan s sfreeindex

def resume (s : Span) (r : Refill) (load : BitVec 64) : Outcome :=
  let s := s.refill r.wordIndex load
  match r with
  | .window sfreeindex => scan s sfreeindex
  | .prefetch slot => .done (some slot) { s with freeindex := u16 (slot + 1) }

def run : Nat → Outcome → Outcome
  | fuel + 1, .refill r s => run fuel (resume s r (s.allocBits.word r.wordIndex))
  | _, o => o

end nextFreeOwner

def nextFreeOwner (s : Span) : Outcome :=
  nextFreeOwner.run (allocBitsWords + 1) (nextFreeOwner.start s)

def releaseUnsold (s : Span) : Span :=
  let acache := s.allocCache
  if acache = 0#64 then
    s
  else
    let wi := s.freeindex / 64
    let bitOffset := s.freeindex % 64
    let s :=
      if wi < allocBitsWords then
        let releaseMask := acache <<< bitOffset
        if releaseMask ≠ 0#64 then
          let cleared := countOnes releaseMask
          (s.fetchAnd wi (~~~releaseMask)).fetchSubCount cleared
        else
          s
      else
        s
    { s with allocCache := 0#64 }

def allocSlotLocked (s : Span) : Option Nat × Span :=
  if s.freeindex ≥ s.nelems then
    (none, s)
  else
    go (allocBitsWords - s.freeindex / 64) (s.freeindex / 64)
where
  go (fuel wi : Nat) : Option Nat × Span :=
    match fuel with
    | 0 => (none, s)
    | fuel + 1 =>
      let inv := ~~~s.allocBits.word wi
      let wordBase := u16 (wi * 64)
      let startBit := if wordBase < s.freeindex then s.freeindex - wordBase else 0
      let mask := if startBit = 0 then BitVec.allOnes 64 else BitVec.allOnes 64 <<< startBit
      let candidate := inv &&& mask
      if candidate = 0#64 then
        go fuel (wi + 1)
      else
        let bit := trailingZeros candidate
        let slot := u16 (wordBase + bit)
        if slot ≥ s.nelems then
          (none, { s with freeindex := s.nelems })
        else
          let s := (s.fetchOr wi (1#64 <<< bit)).fetchAddCount 1
          (some slot, { s with freeindex := u16 (slot + 1) })

def slotMask (idx : Nat) : BitVec 64 :=
  1#64 <<< (idx % 64)

def freeSlotLocked (s : Span) (idx : Nat) : Span :=
  let wi := idx / 64
  if wi ≥ allocBitsWords then
    s
  else
    let prev := s.allocBits.word wi
    let s := s.fetchAnd wi (~~~slotMask idx)
    if prev &&& slotMask idx ≠ 0#64 then
      let s := s.fetchSubCount 1
      if idx < s.freeindex then { s with freeindex := idx } else s
    else
      s

def freeSlotAtomic (s : Span) (idx : Nat) : Span :=
  let wi := idx / 64
  if wi ≥ allocBitsWords then
    s
  else
    let prev := s.allocBits.word wi
    let s := s.fetchAnd wi (~~~slotMask idx)
    if prev &&& slotMask idx ≠ 0#64 then s.fetchSubCount 1 else s

def slotAddr (s : Span) (idx : Nat) : Nat :=
  s.base + idx * s.elemsize

def slotOf (s : Span) (addr : Nat) : Nat :=
  u16 ((addr - s.base) / s.elemsize)

end Span

end Central
