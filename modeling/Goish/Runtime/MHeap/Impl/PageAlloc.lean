import Goish.Runtime.MHeap.Impl.PallocBits

/-! `runtime::mheap::page_alloc`: the radix tree of summaries over the bitmaps of the chunks, the search for a run of
free pages, and the allocation, release and growth. -/

open Loop FreeRun

namespace MHeap

-- The arrays are zero-filled mappings with an entry at every index. `summaryLen` and `endChunk` are the lengths of the
-- slices of them.
structure PageAlloc where
  summary : Nat → Nat → PallocSum
  summaryLen : Nat → Nat
  chunks : Nat → PallocBits
  chunksCapacity : Nat
  arenaBase : Nat
  startChunk : Nat
  endChunk : Nat

def allocFailed : Nat := 0

namespace PageAlloc

def setSummary (p : PageAlloc) (l i : Nat) (v : PallocSum) : PageAlloc :=
  { p with summary := fun l' i' => if l' = l ∧ i' = i then v else p.summary l' i' }

def setChunk (p : PageAlloc) (c : Nat) (v : PallocBits) : PageAlloc :=
  { p with chunks := fun c' => if c' = c then v else p.chunks c' }

def refreshLeaf (p : PageAlloc) (ci : Nat) : PageAlloc :=
  p.setSummary (summaryLevels - 1) ci (p.chunks ci).summarize

def summarySlice (p : PageAlloc) (l lo hi : Nat) : List PallocSum :=
  (List.range' lo (hi - lo)).map (p.summary l)

def summaryLenOf (maxChunks l : Nat) : Nat :=
  if l = 0 then
    1 <<< levelBits 0
  else
    let levelBitsTotal := (((List.range summaryLevels).drop l).map levelBits).sum
    let shift := levelBitsTotal - levelBits l
    let entriesForHeap := max ((maxChunks + (1 <<< shift) - 1) >>> shift) 1
    let block := 1 <<< levelBits l
    (entriesForHeap + block - 1) / block * block

def bubbleUpInitial (p : PageAlloc) : PageAlloc :=
  (List.range (summaryLevels - 1)).reverse.foldl (fun p l => level l (p.summaryLen l) 0 p) p
where
  level (l fuel i : Nat) (p : PageAlloc) : PageAlloc :=
    match fuel with
    | 0 => p
    | fuel + 1 =>
      let lo := i <<< levelBits (l + 1)
      let hi := lo + 1 <<< levelBits (l + 1)
      if hi > p.summaryLen (l + 1) then
        p
      else
        let merged := mergeSummaries (p.summarySlice (l + 1) lo hi) (levelLogPages (l + 1))
        level l fuel (i + 1) (p.setSummary l i merged)

def mapped (arenaBase nChunks maxChunks : Nat) : PageAlloc :=
  {
    summary := fun _ _ => PallocSum.empty
    summaryLen := summaryLenOf maxChunks
    chunks := fun _ => PallocBits.zero
    chunksCapacity := maxChunks
    arenaBase := arenaBase
    startChunk := 0
    endChunk := nChunks
  }

def new (arenaBase nChunks maxChunks : Nat) : PageAlloc :=
  let p := mapped arenaBase nChunks maxChunks
  let p := forRange 0 nChunks p fun ci p => p.refreshLeaf ci
  p.bubbleUpInitial

def chunkIndex (p : PageAlloc) (addr : Nat) : Nat :=
  (addr - p.arenaBase) / pallocChunkBytes

def chunkPageIndex (_ : PageAlloc) (addr : Nat) : Nat :=
  (addr % pallocChunkBytes) / pageSize

def chunkBase (p : PageAlloc) (ci : Nat) : Nat :=
  p.arenaBase + ci * pallocChunkBytes

def addrToLevelIndex (p : PageAlloc) (l addr : Nat) : Nat :=
  (addr - p.arenaBase) >>> levelShift l

def update (p : PageAlloc) (base npages : Nat) : PageAlloc :=
  let limit := base + npages * pageSize - 1
  let sc := p.chunkIndex base
  let ec := p.chunkIndex limit
  let p := forRange sc (ec + 1) p fun ci p => p.refreshLeaf ci
  walkUp base limit (summaryLevels - 1) p
where
  -- The levels below `levels`, from the bottom up, as long as the last one has changed.
  walkUp (base limit levels : Nat) (p : PageAlloc) : PageAlloc :=
    match levels with
    | 0 => p
    | l + 1 =>
      let lo := p.addrToLevelIndex l base
      let hi := p.addrToLevelIndex l limit + 1
      let (p, changed) := forRange lo hi (p, false) (entry l)
      if changed then walkUp base limit l p else p
  entry (l i : Nat) : PageAlloc × Bool → PageAlloc × Bool
    | (p, changed) =>
      let childLo := i <<< levelBits (l + 1)
      let childHi := childLo + 1 <<< levelBits (l + 1)
      if childHi > p.summaryLen (l + 1) then
        (p, changed)
      else
        let merged := mergeSummaries (p.summarySlice (l + 1) childLo childHi) (levelLogPages (l + 1))
        if p.summary l i ≠ merged then (p.setSummary l i merged, true) else (p, changed)

def eachChunk (p : PageAlloc) (f : PallocBits → Nat → Nat → PallocBits) (base npages : Nat)
    : PageAlloc :=
  let limit := base + npages * pageSize - 1
  let sc := p.chunkIndex base
  let ec := p.chunkIndex limit
  let si := p.chunkPageIndex base
  let ei := p.chunkPageIndex limit
  if sc = ec then
    p.setChunk sc (f (p.chunks sc) si (ei + 1 - si))
  else
    let p := p.setChunk sc (f (p.chunks sc) si (pallocChunkPages - si))
    let p := forRange (sc + 1) ec p fun c p => p.setChunk c (f (p.chunks c) 0 pallocChunkPages)
    p.setChunk ec (f (p.chunks ec) 0 (ei + 1))

def allocRange (p : PageAlloc) (base npages : Nat) : PageAlloc :=
  let p := p.eachChunk PallocBits.allocRange base npages
  p.update base npages

-- A scan of a block ends with the entry to go into or with the running window.
inductive ScanResult where
  | descend (j : Nat)
  | window (base size : Nat)

def find (p : PageAlloc) (npages : Nat) : Nat :=
  level summaryLevels 0 0
where
  level (fuel l i : Nat) : Nat :=
    match fuel with
    | 0 =>
      let ci := i
      match ((p.chunks ci).find npages 0).1 with
      | none => allocFailed
      | some j => p.chunkBase ci + j * pageSize
    | fuel + 1 =>
      let i := i <<< levelBits l
      let blockEnd := min (i + 1 <<< levelBits l) (p.summaryLen l)
      match scan l i (blockEnd - i) i 0 0 with
      | .descend j => level fuel (l + 1) j
      | .window base size =>
        if size ≥ npages then
          p.arenaBase + (i <<< levelShift l) + (base <<< pageShift)
        else if l = 0 then
          allocFailed
        else
          level fuel (l + 1) i
  scan (l i fuel j base size : Nat) : ScanResult :=
    match fuel with
    | 0 => .window base size
    | fuel + 1 =>
      let sum := p.summary l j
      if sum.raw = 0#64 then
        scan l i fuel (j + 1) base 0
      else
        let s := sum.start
        if size + s ≥ npages then
          let base := if size = 0 then (j - i) <<< levelLogPages l else base
          .window base (size + s)
        else if sum.max ≥ npages then
          .descend j
        else if size = 0 ∨ s < 1 <<< levelLogPages l then
          let size := sum.end
          scan l i fuel (j + 1) (((j - i + 1) <<< levelLogPages l) - size) size
        else
          scan l i fuel (j + 1) base (size + 1 <<< levelLogPages l)

def alloc (p : PageAlloc) (npages : Nat) : Nat × PageAlloc :=
  let addr := p.find npages
  if addr = allocFailed then
    (allocFailed, p)
  else
    (addr, p.allocRange addr npages)

def free (p : PageAlloc) (base npages : Nat) : PageAlloc :=
  let p :=
    if npages = 1 then
      let i := p.chunkIndex base
      let pi := p.chunkPageIndex base
      p.setChunk i ((p.chunks i).free pi 1)
    else
      p.eachChunk PallocBits.free base npages
  p.update base npages

def capacityChunks (p : PageAlloc) : Nat :=
  p.chunksCapacity

def grow (p : PageAlloc) (nMore : Nat) : PageAlloc :=
  if nMore = 0 then
    p
  else
    let oldCount := p.endChunk
    let newCount := oldCount + nMore
    let p := { p with endChunk := newCount }
    let p := forRange oldCount newCount p fun ci p => p.refreshLeaf ci
    bubbleUp (summaryLevels - 1) oldCount newCount p
where
  -- The levels below `levels`, from the bottom up; `loChunk..hiChunk` are the entries that the level
  -- below has rewritten.
  bubbleUp (levels loChunk hiChunk : Nat) (p : PageAlloc) : PageAlloc :=
    match levels with
    | 0 => p
    | l + 1 =>
      let parentLo := loChunk >>> levelBits (l + 1)
      let parentHi := (hiChunk + 1 <<< levelBits (l + 1) - 1) >>> levelBits (l + 1)
      let p := forRange parentLo parentHi p (entry l)
      bubbleUp l parentLo parentHi p
  entry (l i : Nat) (p : PageAlloc) : PageAlloc :=
    let childLo := i <<< levelBits (l + 1)
    let childHi := childLo + 1 <<< levelBits (l + 1)
    if childHi > p.summaryLen (l + 1) then
      p
    else
      let merged := mergeSummaries (p.summarySlice (l + 1) childLo childHi) (levelLogPages (l + 1))
      if i < p.summaryLen l then p.setSummary l i merged else p

end PageAlloc

end MHeap
