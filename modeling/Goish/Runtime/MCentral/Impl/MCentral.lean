import Goish.Runtime.MHeap.Impl.PageAlloc
import Goish.Runtime.MCentral.Impl.SizeClasses
import Goish.Runtime.MCentral.Impl.Span

/-! `runtime::mcentral`: the span table, the lists of each size class, the map from pages to spans, and the locked
operations. -/

open Loop MHeap

namespace Central

def maxSpans : Nat := 65535

structure MCentral where
  partialHead : Nat → Nat
  fullHead : Nat → Nat
  spans : Nat → Span
  spansBump : Nat
  spansFreeHead : Nat
  pageToSpan : Nat → Nat
  trackedPages : Nat
  arenaBase : Nat

namespace MCentral

def init (arenaBase trackedPages : Nat) : MCentral :=
  {
    partialHead := fun _ => nilSpan
    fullHead := fun _ => nilSpan
    spans := fun _ => Span.new
    spansBump := 0
    spansFreeHead := nilSpan
    pageToSpan := fun _ => nilSpan
    trackedPages := trackedPages
    arenaBase := arenaBase
  }

def setSpan (m : MCentral) (idx : Nat) (s : Span) : MCentral :=
  { m with spans := fun i => if i = idx then s else m.spans i }

def setNext (m : MCentral) (idx next : Nat) : MCentral :=
  m.setSpan idx { m.spans idx with next := next }

def setPrev (m : MCentral) (idx prev : Nat) : MCentral :=
  m.setSpan idx { m.spans idx with prev := prev }

def setPartialHead (m : MCentral) (cls idx : Nat) : MCentral :=
  { m with partialHead := fun c => if c = cls then idx else m.partialHead c }

def setFullHead (m : MCentral) (cls idx : Nat) : MCentral :=
  { m with fullHead := fun c => if c = cls then idx else m.fullHead c }

def setPages (m : MCentral) (first npages idx : Nat) : MCentral :=
  { m with
    pageToSpan := forRange first (first + npages) m.pageToSpan fun p f q => if q = p then idx else f q }

def allocSpanIdx (m : MCentral) : Option (Nat × MCentral) :=
  if m.spansFreeHead ≠ nilSpan then
    let idx := m.spansFreeHead
    let m := { m with spansFreeHead := (m.spans idx).next }
    some (idx, m.setSpan idx Span.new)
  else
    let idx := m.spansBump + 1
    if idx ≥ maxSpans then none else some (idx, { m with spansBump := m.spansBump + 1 })

def releaseSpanIdx (m : MCentral) (idx : Nat) : MCentral :=
  let m := m.setSpan idx { Span.new with next := m.spansFreeHead }
  { m with spansFreeHead := idx }

def partialPush (m : MCentral) (idx : Nat) : MCentral :=
  let cls := (m.spans idx).sizeclass
  let head := m.partialHead cls
  let m := (m.setNext idx head).setPrev idx nilSpan
  let m := if head ≠ nilSpan then m.setPrev head idx else m
  m.setPartialHead cls idx

def fullPush (m : MCentral) (idx : Nat) : MCentral :=
  let cls := (m.spans idx).sizeclass
  let head := m.fullHead cls
  let m := (m.setNext idx head).setPrev idx nilSpan
  let m := if head ≠ nilSpan then m.setPrev head idx else m
  m.setFullHead cls idx

def listRemove (m : MCentral) (idx : Nat) : MCentral :=
  let next := (m.spans idx).next
  let prev := (m.spans idx).prev
  let cls := (m.spans idx).sizeclass
  let m :=
    if prev ≠ nilSpan then
      m.setNext prev next
    else if m.partialHead cls = idx then
      m.setPartialHead cls next
    else if m.fullHead cls = idx then
      m.setFullHead cls next
    else
      m
  let m := if next ≠ nilSpan then m.setPrev next prev else m
  (m.setNext idx nilSpan).setPrev idx nilSpan

def initSpan (m : MCentral) (idx cls base : Nat) : MCentral :=
  let elemsize := sizeOfClass.getD cls 0
  let npages := npagesOfClass.getD cls 0
  let nelems := npages * pageSize / elemsize
  let m := m.setSpan idx { m.spans idx with
    base := base
    npages := npages
    elemsize := elemsize
    nelems := u16 nelems
    sizeclass := cls
    allocCount := 0
    freeindex := 0
    allocBits := Bitmap.zero allocBitsWords
    allocCache := 0#64
    next := nilSpan
    prev := nilSpan }
  let firstPage := (base - m.arenaBase) / pageSize
  m.setPages firstPage npages idx

def rescueScanBound : Nat := 64

def rescueFull (m : MCentral) (cls : Nat) : Nat × MCentral :=
  go rescueScanBound (m.fullHead cls) nilSpan m
where
  go (fuel idx first : Nat) (m : MCentral) : Nat × MCentral :=
    match fuel with
    | 0 => (first, m)
    | fuel + 1 =>
      if idx = nilSpan then
        (first, m)
      else
        let next := (m.spans idx).next
        if (m.spans idx).isFull then
          go fuel next first m
        else
          let m := (m.listRemove idx).partialPush idx
          go fuel next (if first = nilSpan then idx else first) m

def partialSpan (m : MCentral) (cls : Nat) : Nat × MCentral :=
  let idx := m.partialHead cls
  if idx = nilSpan then m.rescueFull cls else (idx, m)

def alloc.span (m : MCentral) (cls base : Nat) : Option (Nat × MCentral) :=
  let (idx, m) := m.partialSpan cls
  if idx ≠ nilSpan then
    some (idx, m)
  else if base = allocFailed then
    some (nilSpan, m)
  else
    match m.allocSpanIdx with
    | none => none
    | some (idx, m) => some (idx, (m.initSpan idx cls base).partialPush idx)

def alloc.slot (m : MCentral) (idx : Nat) : Option Nat × MCentral :=
  match (m.spans idx).allocSlotLocked with
  | (none, s) =>
    let m := m.setSpan idx s
    (none, (m.listRemove idx).fullPush idx)
  | (some slot, s) =>
    let m := m.setSpan idx s
    let m := if s.isFull then (m.listRemove idx).fullPush idx else m
    (some slot, m)

def alloc.take (m : MCentral) (size align base : Nat) : Option (Option (Nat × Nat) × MCentral) :=
  match classFor size align with
  | none => some (none, m)
  | some cls =>
    if cls < 1 then
      some (none, m)
    else
      match alloc.span m cls base with
      | none => none
      | some (idx, m) =>
        if idx = nilSpan then
          some (none, m)
        else
          let (slot, m) := alloc.slot m idx
          some (slot.map fun slot => (idx, slot), m)

def addrOf (m : MCentral) : Option (Nat × Nat) → Nat
  | none => 0
  | some (idx, slot) => (m.spans idx).slotAddr slot

def alloc (m : MCentral) (size align base : Nat) : Option (Nat × MCentral) :=
  (alloc.take m size align base).map fun (x, m) => (m.addrOf x, m)

def releaseSpan (m : MCentral) (idx : Nat) : MCentral × (Nat × Nat) :=
  let base := (m.spans idx).base
  let npages := (m.spans idx).npages
  let firstPage := (base - m.arenaBase) / pageSize
  let m := { m with
    pageToSpan := forRange firstPage (firstPage + npages) m.pageToSpan fun p f =>
      if p < m.trackedPages then fun q => if q = p then nilSpan else f q else f }
  (m, (base, npages))

def lookup (m : MCentral) (p : Nat) : Option (Nat × Nat) :=
  if p < m.arenaBase then
    none
  else
    let pageIdx := (p - m.arenaBase) / pageSize
    if pageIdx ≥ m.trackedPages then
      none
    else
      let idx := m.pageToSpan pageIdx
      if idx = nilSpan then
        none
      else
        let span := m.spans idx
        if p < span.base ∨ p ≥ span.base + span.npages * pageSize then
          none
        else
          some (idx, span.slotOf p)

def freeLocked (m : MCentral) (idx slot : Nat) : MCentral × Option (Nat × Nat) :=
  let wasFull := (m.spans idx).isFull
  let m := m.setSpan idx ((m.spans idx).freeSlotLocked slot)
  let m := if wasFull then (m.listRemove idx).partialPush idx else m
  if (m.spans idx).isEmpty then
    let (m, pages) := m.releaseSpan idx
    ((m.listRemove idx).releaseSpanIdx idx, some pages)
  else
    (m, none)

def freeAtomic (m : MCentral) (idx slot : Nat) : MCentral :=
  m.setSpan idx ((m.spans idx).freeSlotAtomic slot)

def free (m : MCentral) (p : Nat) : Bool × MCentral × Option (Nat × Nat) :=
  match m.lookup p with
  | none => (false, m, none)
  | some (idx, slot) =>
    if (m.spans idx).cached then
      (true, m.freeAtomic idx slot, none)
    else
      (true, m.freeLocked idx slot)

def cacheSpan.take (m : MCentral) (cls base : Nat) : Option (Nat × MCentral) :=
  if cls = 0 ∨ cls ≥ numSizeClasses then
    some (nilSpan, m)
  else
    let (idx, m) := m.partialSpan cls
    if idx ≠ nilSpan then
      let m := m.listRemove idx
      some (idx, m.setSpan idx { m.spans idx with freeindex := 0 })
    else if base = allocFailed then
      some (nilSpan, m)
    else
      match m.allocSpanIdx with
      | none => none
      | some (idx, m) => some (idx, m.initSpan idx cls base)

def cacheSpan.publish (m : MCentral) (idx : Nat) (load : BitVec 64) : MCentral :=
  m.setSpan idx { (m.spans idx).refill 0 load with cached := true }

def cacheSpan (m : MCentral) (cls base : Nat) : Option (Nat × MCentral) :=
  match cacheSpan.take m cls base with
  | none => none
  | some (idx, m) =>
    if idx = nilSpan then
      some (nilSpan, m)
    else
      some (idx, cacheSpan.publish m idx ((m.spans idx).allocBits.word 0))

def uncacheSpan (m : MCentral) (idx : Nat) : MCentral × Option (Nat × Nat) :=
  if idx = nilSpan then
    (m, none)
  else
    let s := { (m.spans idx).releaseUnsold with cached := false }
    let m := m.setSpan idx s
    if s.isEmpty then
      let (m, pages) := m.releaseSpan idx
      (m.releaseSpanIdx idx, some pages)
    else if s.isFull then
      (m.fullPush idx, none)
    else
      (m.partialPush idx, none)

def allocSlotIn.take (m : MCentral) (idx : Nat) : Option (Nat × Nat) × MCentral :=
  if idx = nilSpan then
    (none, m)
  else
    match (m.spans idx).nextFreeOwner with
    | .done slot s => (slot.map fun slot => (idx, slot), m.setSpan idx s)
    | .overrun s => (none, m.setSpan idx s)
    | .refill _ s => (none, m.setSpan idx s)

def allocSlotIn (m : MCentral) (idx : Nat) : Nat × MCentral :=
  let (x, m) := allocSlotIn.take m idx
  (m.addrOf x, m)

end MCentral

end Central
