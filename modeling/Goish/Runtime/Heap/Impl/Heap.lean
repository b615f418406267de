import Goish.Runtime.MCentral.Impl.MCentral

/-! `runtime::heap` and the span caches of `runtime::sched::p`: the routing of a request and the way back. -/

open Loop MHeap Central

def largeThreshold : Nat := 32 * 1024

def initialArenaChunks : Nat := 256

def maxArenaChunks : Nat := 81920

structure Heap where
  pages : PageAlloc
  central : MCentral
  mcache : Nat → Nat → Nat

namespace Heap

def mheapAllocPages (h : PageAlloc) (npages : Nat) : Nat × PageAlloc :=
  let (addr, h) := h.alloc npages
  if addr ≠ allocFailed then
    (addr, h)
  else
    -- The product is one of machine words.
    let need := (npages * pageSize + pallocChunkBytes - 1) % 2 ^ 64 / pallocChunkBytes
    let room := h.capacityChunks - h.endChunk
    let step := min (max need 64) room
    if step < need then
      (allocFailed, h)
    else
      (h.grow step).alloc npages

def mheapCapacityPages (h : PageAlloc) : Nat :=
  h.capacityChunks * (pallocChunkBytes / pageSize)

def init (arenaBase : Nat) : Heap :=
  let pages := PageAlloc.new arenaBase initialArenaChunks maxArenaChunks
  {
    pages := pages
    central := MCentral.init arenaBase (mheapCapacityPages pages)
    mcache := fun _ _ => nilSpan
  }

def setMcache (h : Heap) (p cls idx : Nat) : Heap :=
  { h with mcache := fun p' c => if p' = p ∧ c = cls then idx else h.mcache p' c }

def freePages (h : Heap) : Option (Nat × Nat) → Heap
  | none => h
  | some (base, npages) => { h with pages := h.pages.free base npages }

def cacheSpan (h : Heap) (cls : Nat) : Option (Nat × Heap) :=
  if cls = 0 ∨ cls ≥ numSizeClasses then
    some (nilSpan, h)
  else if (h.central.partialSpan cls).1 = nilSpan then
    let (base, pages) := mheapAllocPages h.pages (npagesOfClass.getD cls 0)
    (h.central.cacheSpan cls base).map fun (idx, m) => (idx, { h with pages := pages, central := m })
  else
    (h.central.cacheSpan cls allocFailed).map fun (idx, m) => (idx, { h with central := m })

def uncacheSpan (h : Heap) (idx : Nat) : Heap :=
  let (m, pages) := h.central.uncacheSpan idx
  freePages { h with central := m } pages

def allocSlotIn (h : Heap) (idx : Nat) : Option (Nat × Nat) × Heap :=
  let (x, m) := MCentral.allocSlotIn.take h.central idx
  (x, { h with central := m })

def mcacheAlloc.refill (h : Heap) (p cls : Nat) : Option (Option (Nat × Nat) × Heap) :=
  match h.cacheSpan cls with
  | none => none
  | some (idx, h) =>
    if idx = nilSpan then some (none, h) else some ((h.setMcache p cls idx).allocSlotIn idx)

def mcacheAlloc (h : Heap) (p size align : Nat) : Option (Option (Nat × Nat) × Heap) :=
  match classFor size align with
  | none => some (none, h)
  | some cls =>
    if cls < 1 then
      some (none, h)
    else
      let idx := h.mcache p cls
      if idx ≠ nilSpan then
        match h.allocSlotIn idx with
        | (some x, h) => some (some x, h)
        | (none, h) => mcacheAlloc.refill ((h.uncacheSpan idx).setMcache p cls nilSpan) p cls
      else
        mcacheAlloc.refill h p cls

def mcacheFlush (h : Heap) (p : Nat) : Heap :=
  forRange 1 numSizeClasses h fun cls h =>
    let idx := h.mcache p cls
    if idx ≠ nilSpan then (h.setMcache p cls nilSpan).uncacheSpan idx else h

def centralAlloc (h : Heap) (size align : Nat) : Option (Option (Nat × Nat) × Heap) :=
  let draws :=
    match classFor size align with
    | none => none
    | some cls => if 1 ≤ cls ∧ (h.central.partialSpan cls).1 = nilSpan then some cls else none
  match draws with
  | none =>
    (MCentral.alloc.take h.central size align allocFailed).map fun (x, m) =>
      (x, { h with central := m })
  | some cls =>
    let (base, pages) := mheapAllocPages h.pages (npagesOfClass.getD cls 0)
    (MCentral.alloc.take h.central size align base).map fun (x, m) =>
      (x, { h with pages := pages, central := m })

def pagesFor (size : Nat) : Nat :=
  (size + pageSize - 1) / pageSize

inductive Block where
  | slot (idx slot : Nat)
  | run (addr npages : Nat)
  deriving DecidableEq, Repr

def addrOf (h : Heap) : Block → Nat
  | .slot idx slot => (h.central.spans idx).slotAddr slot
  | .run addr _ => addr

def mheapAlloc (h : Heap) (size align : Nat) : Option (Block × Heap) :=
  let npages := pagesFor (max size align)
  let (addr, pages) := mheapAllocPages h.pages npages
  if addr = allocFailed then none else some (.run addr npages, { h with pages := pages })

def routeToMheap (size : Nat) : Bool :=
  size > largeThreshold

def routeToMcentral (size align : Nat) : Bool :=
  size > 0 ∧ size ≤ largeThreshold ∧ align ≤ pageSize

def alloc.central (h : Heap) (size align : Nat) : Option (Block × Heap) :=
  match h.centralAlloc size align with
  | none => none
  | some (some (idx, slot), h) => some (.slot idx slot, h)
  | some (none, h) => h.mheapAlloc size align

def alloc (h : Heap) (p : Option Nat) (size align : Nat) : Option (Block × Heap) :=
  if routeToMheap size then
    h.mheapAlloc size align
  else if routeToMcentral size align then
    match p with
    | none => alloc.central h size align
    | some p =>
      match h.mcacheAlloc p size align with
      | none => none
      | some (some (idx, slot), h) => some (.slot idx slot, h)
      | some (none, h) => alloc.central h size align
  else
    h.mheapAlloc size align

def mheapFree (h : Heap) (ptr size align : Nat) : Heap :=
  { h with pages := h.pages.free ptr (pagesFor (max size align)) }

def deallocRouted (h : Heap) (ptr size align : Nat) : Heap :=
  if routeToMheap size then
    h.mheapFree ptr size align
  else
    match h.central.free ptr with
    | (true, m, pages) => freePages { h with central := m } pages
    | (false, m, _) => mheapFree { h with central := m } ptr size align

end Heap
