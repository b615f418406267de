import Mathlib.Logic.Function.Basic

open Function (update)

namespace Container

def rootId : Nat := 0

def firstRealId : Nat := 1

structure Node where
  next : Nat
  prev : Nat
  value : Option Nat
  deriving DecidableEq

-- `nextId` is a `u64` that grows by one with every element, and no run makes `2 ^ 64` of them.
structure ListInner where
  nodes : Nat → Option Node
  nextId : Nat
  len : Int

namespace ListInner

def rootNode : Node :=
  { next := rootId, prev := rootId, value := none }

def new : ListInner :=
  { nodes := update (fun _ => none) rootId (some rootNode), nextId := firstRealId, len := 0 }

def setNext (l : ListInner) (i x : Nat) : Option ListInner :=
  (l.nodes i).map fun n => { l with nodes := update l.nodes i (some { n with next := x }) }

def setPrev (l : ListInner) (i x : Nat) : Option ListInner :=
  (l.nodes i).map fun n => { l with nodes := update l.nodes i (some { n with prev := x }) }

def setLinks (l : ListInner) (i prev next : Nat) : Option ListInner :=
  (l.nodes i).map fun n => { l with nodes := update l.nodes i (some { n with prev := prev, next := next }) }

def insert (l : ListInner) (value pos : Nat) : Option (ListInner × Nat) := do
  let newId := l.nextId
  let posNext := (← l.nodes pos).next
  let l := { l with nextId := l.nextId + 1,
                    nodes := update l.nodes newId (some { next := posNext, prev := pos, value := some value }) }
  let l ← l.setNext pos newId
  let l ← l.setPrev posNext newId
  return ({ l with len := l.len + 1 }, newId)

def insertValue (l : ListInner) (v pos : Nat) : Option (ListInner × Nat) :=
  l.insert v pos

def lazyInit (l : ListInner) : ListInner :=
  if (l.nodes rootId).isSome then
    l
  else
    { nodes := update l.nodes rootId (some rootNode), nextId := firstRealId, len := 0 }

def remove (l : ListInner) (e : Nat) : ListInner :=
  match l.nodes e with
  | none => l
  | some n =>
    let l := (l.setNext n.prev n.next).getD l
    let l := (l.setPrev n.next n.prev).getD l
    { l with nodes := update l.nodes e none, len := l.len - 1 }

def move (l : ListInner) (e pos : Nat) : Option ListInner :=
  if e = pos then
    some l
  else do
    let n ← l.nodes e
    let l ← l.setNext n.prev n.next
    let l ← l.setPrev n.next n.prev
    let posNext := (← l.nodes pos).next
    let l ← l.setLinks e pos posNext
    let l ← l.setNext pos e
    l.setPrev posNext e

def init (l : ListInner) : ListInner :=
  { l with nodes := update (fun _ => none) rootId (some rootNode), nextId := firstRealId, len := 0 }

def snapshot (l : ListInner) (link : Node → Nat) : Nat → Nat → Option (List Nat)
  | 0, _ => none
  | fuel + 1, cur =>
    if cur = rootId then
      some []
    else do
      let n ← l.nodes cur
      let rest ← l.snapshot link fuel (link n)
      return n.value.toList ++ rest

end ListInner

structure Element where
  list : Nat
  id : Nat
  cell : Nat
  deriving DecidableEq

structure State (T : Type) where
  lists : Nat → ListInner
  nlists : Nat
  cells : Nat → T
  ncells : Nat

inductive Op (ε T : Type) where
  | new
  | init (l : Nat)
  | pushFront (l : Nat) (v : T)
  | pushBack (l : Nat) (v : T)
  | insertBefore (l : Nat) (v : T) (mark : ε)
  | insertAfter (l : Nat) (v : T) (mark : ε)
  | remove (l : Nat) (e : ε)
  | moveToFront (l : Nat) (e : ε)
  | moveToBack (l : Nat) (e : ε)
  | moveBefore (l : Nat) (e mark : ε)
  | moveAfter (l : Nat) (e mark : ε)
  | pushBackList (l other : Nat)
  | pushFrontList (l other : Nat)
  | len (l : Nat)
  | front (l : Nat)
  | back (l : Nat)
  | next (e : ε)
  | prev (e : ε)
  | value (e : ε)
  | setValue (e : ε) (v : T)

inductive Ret (ε T : Type) where
  | none
  | list (l : Nat)
  | int (n : Int)
  | elem (e : Option ε)
  | value (v : T)

namespace State

variable {T : Type}

def set (s : State T) (l : Nat) (inner : ListInner) : State T :=
  { s with lists := update s.lists l inner }

def alloc (s : State T) (v : T) : State T × Nat :=
  ({ s with cells := update s.cells s.ncells v, ncells := s.ncells + 1 }, s.ncells)

def insertAt (s : State T) (l : Nat) (v : T) (pos : Nat) : Option (State T × Element) :=
  let (s, cell) := s.alloc v
  ((s.lists l).insertValue cell pos).map fun (inner, id) =>
    (s.set l inner, { list := l, id := id, cell := cell })

def elemAt (s : State T) (l id : Nat) : Option Element := do
  let cell ← (← (s.lists l).nodes id).value
  return { list := l, id := id, cell := cell }

def front (s : State T) (l : Nat) : Option Element :=
  if (s.lists l).len = 0 then
    none
  else do
    let root ← (s.lists l).nodes rootId
    s.elemAt l root.next

def back (s : State T) (l : Nat) : Option Element :=
  if (s.lists l).len = 0 then
    none
  else do
    let root ← (s.lists l).nodes rootId
    s.elemAt l root.prev

def next (s : State T) (e : Element) : Option Element := do
  let n ← (s.lists e.list).nodes e.id
  if n.next = rootId then none else s.elemAt e.list n.next

def prev (s : State T) (e : Element) : Option Element := do
  let n ← (s.lists e.list).nodes e.id
  if n.prev = rootId then none else s.elemAt e.list n.prev

def pushFront (s : State T) (l : Nat) (v : T) : Option (State T × Element) :=
  (s.set l (s.lists l).lazyInit).insertAt l v rootId

def pushBack (s : State T) (l : Nat) (v : T) : Option (State T × Element) := do
  let inner := (s.lists l).lazyInit
  let root ← inner.nodes rootId
  (s.set l inner).insertAt l v root.prev

def insertBefore (s : State T) (l : Nat) (v : T) (mark : Element) : Option (State T × Option Element) :=
  if mark.list ≠ l then
    some (s, none)
  else
    match (s.lists l).nodes mark.id with
    | none => some (s, none)
    | some n => (s.insertAt l v n.prev).map fun (s, e) => (s, some e)

def insertAfter (s : State T) (l : Nat) (v : T) (mark : Element) : Option (State T × Option Element) :=
  if mark.list ≠ l then
    some (s, none)
  else if (s.lists l).nodes mark.id = none then
    some (s, none)
  else
    (s.insertAt l v mark.id).map fun (s, e) => (s, some e)

def remove (s : State T) (l : Nat) (e : Element) : State T :=
  if e.list = l ∧ ((s.lists l).nodes e.id).isSome ∧ e.id ≠ rootId then
    s.set l ((s.lists l).remove e.id)
  else
    s

def moveToFront (s : State T) (l : Nat) (e : Element) : Option (State T) :=
  if e.list ≠ l then
    some s
  else
    match (s.lists l).nodes rootId with
    | none => some s
    | some root =>
      if root.next = e.id then
        some s
      else if (s.lists l).nodes e.id = none ∨ e.id = rootId then
        some s
      else
        ((s.lists l).move e.id rootId).map (s.set l)

def moveToBack (s : State T) (l : Nat) (e : Element) : Option (State T) :=
  if e.list ≠ l then
    some s
  else
    match (s.lists l).nodes rootId with
    | none => some s
    | some root =>
      if root.prev = e.id then
        some s
      else if (s.lists l).nodes e.id = none ∨ e.id = rootId then
        some s
      else
        ((s.lists l).move e.id root.prev).map (s.set l)

def moveBefore (s : State T) (l : Nat) (e mark : Element) : Option (State T) :=
  if e.list ≠ l ∨ e.id = mark.id ∨ mark.list ≠ l then
    some s
  else
    match (s.lists l).nodes e.id, (s.lists l).nodes mark.id with
    | some _, some m => ((s.lists l).move e.id m.prev).map (s.set l)
    | _, _ => some s

def moveAfter (s : State T) (l : Nat) (e mark : Element) : Option (State T) :=
  if e.list ≠ l ∨ e.id = mark.id ∨ mark.list ≠ l then
    some s
  else
    match (s.lists l).nodes e.id, (s.lists l).nodes mark.id with
    | some _, some _ => ((s.lists l).move e.id mark.id).map (s.set l)
    | _, _ => some s

def snapshotForward (s : State T) (l : Nat) : Option (List T) := do
  let root ← (s.lists l).nodes rootId
  let cells ← (s.lists l).snapshot Node.next ((s.lists l).len.toNat + 1) root.next
  return cells.map s.cells

def snapshotBackward (s : State T) (l : Nat) : Option (List T) := do
  let root ← (s.lists l).nodes rootId
  let cells ← (s.lists l).snapshot Node.prev ((s.lists l).len.toNat + 1) root.prev
  return cells.map s.cells

def pushBackList (s : State T) (l other : Nat) : Option (State T) := do
  let snap ← s.snapshotForward other
  let s := s.set l (s.lists l).lazyInit
  snap.foldlM (fun s v => do
    let root ← (s.lists l).nodes rootId
    let (s, _) ← s.insertAt l v root.prev
    return s) s

def pushFrontList (s : State T) (l other : Nat) : Option (State T) := do
  let snap ← s.snapshotBackward other
  let s := s.set l (s.lists l).lazyInit
  snap.foldlM (fun s v => (s.insertAt l v rootId).map Prod.fst) s

def exec (s : State T) : Op Element T → Option (State T × Ret Element T)
  | .new => some ({ s with lists := update s.lists s.nlists .new, nlists := s.nlists + 1 }, .list s.nlists)
  | .init l => some (s.set l (s.lists l).init, .none)
  | .pushFront l v => (s.pushFront l v).map fun (s, e) => (s, .elem (some e))
  | .pushBack l v => (s.pushBack l v).map fun (s, e) => (s, .elem (some e))
  | .insertBefore l v mark => (s.insertBefore l v mark).map fun (s, e) => (s, .elem e)
  | .insertAfter l v mark => (s.insertAfter l v mark).map fun (s, e) => (s, .elem e)
  | .remove l e => some (s.remove l e, .value (s.cells e.cell))
  | .moveToFront l e => (s.moveToFront l e).map fun s => (s, .none)
  | .moveToBack l e => (s.moveToBack l e).map fun s => (s, .none)
  | .moveBefore l e mark => (s.moveBefore l e mark).map fun s => (s, .none)
  | .moveAfter l e mark => (s.moveAfter l e mark).map fun s => (s, .none)
  | .pushBackList l other => (s.pushBackList l other).map fun s => (s, .none)
  | .pushFrontList l other => (s.pushFrontList l other).map fun s => (s, .none)
  | .len l => some (s, .int (s.lists l).len)
  | .front l => some (s, .elem (s.front l))
  | .back l => some (s, .elem (s.back l))
  | .next e => some (s, .elem (s.next e))
  | .prev e => some (s, .elem (s.prev e))
  | .value e => some (s, .value (s.cells e.cell))
  | .setValue e v => some ({ s with cells := update s.cells e.cell v }, .none)

end State

end Container
