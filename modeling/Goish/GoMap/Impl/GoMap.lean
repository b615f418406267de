import Goish.GoMap.Impl.GoHash

/-! `gomap`: Go's map as buckets of eight cells with chains of overflow buckets. -/

namespace GoMap

def bucketCount : Nat := 8

def loadFactorNum : Nat := 13

def loadFactorDen : Nat := 2

def emptyOne : UInt8 := 1

def minTopHash : UInt8 := 5

def tophash (hash : UInt64) : UInt8 :=
  let top := (hash >>> 56).toUInt8
  if top < minTopHash then top + minTopHash else top

structure Cell (K : Type u) (V : Type v) where
  tophash : UInt8
  key : Option K
  elem : Option V

namespace Cell

def empty : Cell K V :=
  ⟨emptyOne, none, none⟩

def entry (c : Cell K V) : Option (K × V) :=
  match c.key, c.elem with
  | some k, some v => some (k, v)
  | _, _ => none

def holds [BEq K] (top : UInt8) (key : K) (c : Cell K V) : Bool :=
  c.tophash == top && c.key.any (· == key)

end Cell

structure Chain (K : Type u) (V : Type v) where
  cells : List (Cell K V)
  overflow : Nat
  length_eq : cells.length = bucketCount * (overflow + 1)

namespace Chain

def new : Chain K V :=
  ⟨List.replicate bucketCount .empty, 0, List.length_replicate⟩

def modify (c : Chain K V) (p : Nat) (f : Cell K V → Cell K V) : Chain K V :=
  { c with cells := c.cells.modify p f, length_eq := (List.length_modify ..).trans c.length_eq }

def extend (c : Chain K V) (x : Cell K V) : Chain K V :=
  {
    cells := c.cells ++ x :: List.replicate (bucketCount - 1) .empty
    overflow := c.overflow + 1
    length_eq := by
      rw [List.length_append, c.length_eq, List.length_cons, List.length_replicate]
      rfl
  }

def entries (c : Chain K V) : List (K × V) :=
  c.cells.filterMap Cell.entry

inductive Place where
  | found (p : Nat)
  | missing (first : Option Nat)

variable [BEq K]

def search (c : Chain K V) (top : UInt8) (key : K) : Place :=
  go c.cells 0 none
where
  go : List (Cell K V) → Nat → Option Nat → Place
    | [], _, first => .missing first
    | x :: cells, p, first =>
      if x.holds top key then
        .found p
      else
        go cells (p + 1) (if x.tophash < minTopHash ∧ first.isNone then some p else first)

-- The update of `insert_no_grow` and `index_mut`: `f` gives the new value. The numbers are those of the new entries and
-- of the new overflow buckets.
def upsert (c : Chain K V) (top : UInt8) (key : K) (f : Option V → V) : Chain K V × Nat × Nat :=
  match c.search top key with
  | .found p => (c.modify p fun x => { x with elem := some (f x.elem) }, 0, 0)
  | .missing (some p) => (c.modify p fun _ => ⟨top, some key, some (f none)⟩, 1, 0)
  | .missing none => (c.extend ⟨top, some key, some (f none)⟩, 1, 1)

end Chain

structure Map (K : Type u) (V : Type v) where
  count : Nat
  b : Nat
  noverflow : Nat
  hash0 : UInt32
  buckets : List (Chain K V)
  zero : Option V

namespace Map

def new (hash0 : UInt32) (zero : Option V) : Map K V :=
  { count := 0, b := 0, noverflow := 0, hash0 := hash0, buckets := [], zero := zero }

def bucketMask (m : Map K V) : Nat :=
  2 ^ m.b - 1

def tooManyOverflowBuckets (m : Map K V) : Bool :=
  let limit := if m.b > 15 then 15 else m.b
  m.noverflow ≥ 2 ^ limit

def entries (m : Map K V) : List (K × V) :=
  m.buckets.flatMap Chain.entries

variable [BEq K] [GoHash K]

def hash (m : Map K V) (key : K) : UInt64 :=
  GoHash.goHash key m.hash0.toUInt64

def bucketIdx (m : Map K V) (key : K) : Nat :=
  (m.hash key).toNat &&& m.bucketMask

def put (m : Map K V) (key : K) (f : Option V → V) : Map K V :=
  match m.buckets[m.bucketIdx key]? with
  | none => m
  | some c =>
    let (c, entries, overflow) := c.upsert (tophash (m.hash key)) key f
    {
      m with
      buckets := m.buckets.set (m.bucketIdx key) c
      count := m.count + entries
      noverflow := (m.noverflow + overflow) % 2 ^ 16
    }

def insertNoGrow (m : Map K V) (key : K) (value : V) : Map K V :=
  m.put key fun _ => value

def fresh (m : Map K V) (b : Nat) : Map K V :=
  { m with b := b, buckets := List.replicate (2 ^ b) .new, noverflow := 0, count := 0 }

def grow (m : Map K V) (sameSize : Bool) : Map K V :=
  let b := if sameSize then m.b else m.b + 1
  m.entries.foldl (fun m e => m.insertNoGrow e.1 e.2) (m.fresh b)

def prepare (m : Map K V) : Map K V :=
  let m := if m.buckets.isEmpty then { m with buckets := [.new] } else m
  let countAfter := m.count + 1
  if countAfter > bucketCount ∧ countAfter > loadFactorNum * 2 ^ m.b / loadFactorDen then
    m.grow false
  else if m.tooManyOverflowBuckets then
    m.grow true
  else
    m

def set (m : Map K V) (key : K) (value : V) : Map K V :=
  m.prepare.insertNoGrow key value

def indexMut [Inhabited V] (m : Map K V) (key : K) (f : V → V) : Map K V :=
  m.prepare.put key fun old => f (old.getD default)

def delete (m : Map K V) (key : K) : Map K V :=
  if m.count = 0 ∨ m.buckets.isEmpty then
    m
  else
    match m.buckets[m.bucketIdx key]? with
    | none => m
    | some c =>
      match c.cells.findIdx? (Cell.holds (tophash (m.hash key)) key) with
      | none => m
      | some p =>
        let c := c.modify p fun _ => .empty
        { m with buckets := m.buckets.set (m.bucketIdx key) c, count := m.count - 1 }

def clear (m : Map K V) : Map K V :=
  if m.count = 0 then
    m
  else
    let wipe (c : Chain K V) : Chain K V :=
      { c with
        cells := c.cells.map fun _ => .empty
        length_eq := (List.length_map ..).trans c.length_eq }
    { m with buckets := m.buckets.map wipe, count := 0 }

def candidates (m : Map K V) (key : K) : List (Cell K V) :=
  if m.count = 0 ∨ m.buckets.isEmpty then
    []
  else
    match m.buckets[m.bucketIdx key]? with
    | none => []
    | some c => c.cells.filter (Cell.holds (tophash (m.hash key)) key)

def getRef (m : Map K V) (key : K) : Option V :=
  (m.candidates key).findSome? Cell.elem

def has (m : Map K V) (key : K) : Bool :=
  !(m.candidates key).isEmpty

def get (m : Map K V) (key : K) : Option (V × Bool) :=
  match m.getRef key with
  | some v => some (v, true)
  | none => m.zero.map fun v => (v, false)

def index (m : Map K V) (key : K) : Option V :=
  match m.candidates key with
  | x :: _ => x.elem
  | [] => m.zero

def len (m : Map K V) : Nat :=
  m.count

end Map

-- `overflow` is the number of the overflow bucket that the iterator is in, if any.
structure MapRefIter where
  bucket : Nat
  overflow : Option Nat
  slot : Nat
  startBucket : Nat
  offset : Nat
  visitedBuckets : Nat
  yielded : Nat

namespace MapRefIter

def new (m : Map K V) (rand0 rand1 : Nat) : MapRefIter :=
  let startBucket := if m.buckets.length > 0 then rand0 % m.buckets.length else 0
  {
    bucket := startBucket
    overflow := none
    slot := 0
    startBucket := startBucket
    offset := rand1 % bucketCount
    visitedBuckets := 0
    yielded := 0
  }

def entryAt (c : Chain K V) (n idx : Nat) : Option (K × V) :=
  c.cells[bucketCount * n + idx]?.bind Cell.entry

def scan (c : Chain K V) (n offset slot : Nat) : Option ((K × V) × Nat) :=
  go (bucketCount - slot) slot
where
  go : Nat → Nat → Option ((K × V) × Nat)
    | 0, _ => none
    | fuel + 1, slot =>
      match entryAt c n ((slot + offset) % bucketCount) with
      | some e => some (e, slot + 1)
      | none => go fuel (slot + 1)

-- The bucket that the iterator is in, or the next main bucket if there is one.
def locate (m : Map K V) (it : MapRefIter) : Option (Nat × MapRefIter) :=
  match it.overflow with
  | some n => some (n, it)
  | none =>
    if it.slot > 0 then
      some (0, it)
    else if it.visitedBuckets ≥ m.buckets.length then
      none
    else
      some (0,
        {
          it with
          bucket := (it.startBucket + it.visitedBuckets) % m.buckets.length
          visitedBuckets := it.visitedBuckets + 1
        })

def next (fuel : Nat) (m : Map K V) (it : MapRefIter) : Option (Option (K × V) × MapRefIter) :=
  if it.yielded ≥ m.count then some (none, it) else loop fuel it
where
  loop : Nat → MapRefIter → Option (Option (K × V) × MapRefIter)
    | 0, _ => none
    | fuel + 1, it =>
      match it.locate m with
      | none => some (none, it)
      | some (n, it) =>
        match m.buckets[it.bucket]? with
        | none => none
        | some c =>
          match scan c n it.offset it.slot with
          | some (e, slot) => some (some e, { it with slot := slot, yielded := it.yielded + 1 })
          | none =>
            let overflow := if n < c.overflow then some (n + 1) else none
            loop fuel { it with slot := 0, overflow := overflow }

def collect (fuel : Nat) (m : Map K V) : Nat → MapRefIter → Option (List (Option (K × V)))
  | 0, _ => some []
  | n + 1, it =>
    match it.next fuel m with
    | none => none
    | some (x, it) => (it.collect fuel m n).map (x :: ·)

end MapRefIter

def Map.clone [BEq K] [GoHash K] [Inhabited V] (fuel : Nat) (hash0 : UInt32) (rand0 rand1 : Nat)
    (m : Map K V) : Option (Map K V) :=
  loop fuel (.new m rand0 rand1) (.new hash0 (some default))
where
  loop : Nat → MapRefIter → Map K V → Option (Map K V)
    | 0, _, _ => none
    | n + 1, it, out =>
      match it.next fuel m with
      | none => none
      | some (none, _) => some out
      | some (some e, it) => loop n it (out.set e.1 e.2)

end GoMap
