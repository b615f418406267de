import Goish.Container.Impl.List
import Goish.Data.Sequence

/-! What the operations on lists mean. An operation on an element that is not in the sequence does nothing. -/

open Function (update)

namespace Container

structure Elem where
  list : Nat
  cell : Nat
  deriving DecidableEq

def Element.toElem (e : Element) : Elem :=
  { list := e.list, cell := e.cell }

structure Model (T : Type) where
  seqs : Nat → List Nat
  nlists : Nat
  cells : Nat → T
  ncells : Nat

def Op.map (f : ε → ε') : Op ε T → Op ε' T
  | .new => .new
  | .init l => .init l
  | .pushFront l v => .pushFront l v
  | .pushBack l v => .pushBack l v
  | .insertBefore l v mark => .insertBefore l v (f mark)
  | .insertAfter l v mark => .insertAfter l v (f mark)
  | .remove l e => .remove l (f e)
  | .moveToFront l e => .moveToFront l (f e)
  | .moveToBack l e => .moveToBack l (f e)
  | .moveBefore l e mark => .moveBefore l (f e) (f mark)
  | .moveAfter l e mark => .moveAfter l (f e) (f mark)
  | .pushBackList l other => .pushBackList l other
  | .pushFrontList l other => .pushFrontList l other
  | .len l => .len l
  | .front l => .front l
  | .back l => .back l
  | .next e => .next (f e)
  | .prev e => .prev (f e)
  | .value e => .value (f e)
  | .setValue e v => .setValue (f e) v

def Ret.map (f : ε → ε') : Ret ε T → Ret ε' T
  | .none => .none
  | .list l => .list l
  | .int n => .int n
  | .elem e => .elem (e.map f)
  | .value v => .value v

namespace Model

variable {T : Type}

def set (m : Model T) (l : Nat) (seq : List Nat) : Model T :=
  { m with seqs := update m.seqs l seq }

def insert (m : Model T) (l : Nat) (v : T) (place : Nat → List Nat → List Nat) : Model T × Ret Elem T :=
  ({ m with seqs := update m.seqs l (place m.ncells (m.seqs l)), cells := update m.cells m.ncells v,
            ncells := m.ncells + 1 }, .elem (some { list := l, cell := m.ncells }))

def pushFront (m : Model T) (l : Nat) (v : T) : Model T × Ret Elem T :=
  m.insert l v fun c seq => c :: seq

def pushBack (m : Model T) (l : Nat) (v : T) : Model T × Ret Elem T :=
  m.insert l v fun c seq => seq ++ [c]

def exec (m : Model T) : Op Elem T → Model T × Ret Elem T
  | .new => ({ m with seqs := update m.seqs m.nlists [], nlists := m.nlists + 1 }, .list m.nlists)
  | .init l => (m.set l [], .none)
  | .pushFront l v => m.pushFront l v
  | .pushBack l v => m.pushBack l v
  | .insertBefore l v mark =>
    if mark.cell ∈ m.seqs l then m.insert l v (Sequence.insertBefore mark.cell) else (m, .elem none)
  | .insertAfter l v mark =>
    if mark.cell ∈ m.seqs l then m.insert l v (Sequence.insertAfter mark.cell) else (m, .elem none)
  | .remove l e => (m.set l ((m.seqs l).erase e.cell), .value (m.cells e.cell))
  | .moveToFront l e =>
    (if e.cell ∈ m.seqs l then m.set l (e.cell :: (m.seqs l).erase e.cell) else m, .none)
  | .moveToBack l e =>
    (if e.cell ∈ m.seqs l then m.set l ((m.seqs l).erase e.cell ++ [e.cell]) else m, .none)
  | .moveBefore l e mark =>
    (if e.cell ∈ m.seqs l ∧ mark.cell ∈ m.seqs l ∧ e.cell ≠ mark.cell then
      m.set l (Sequence.insertBefore mark.cell e.cell ((m.seqs l).erase e.cell)) else m, .none)
  | .moveAfter l e mark =>
    (if e.cell ∈ m.seqs l ∧ mark.cell ∈ m.seqs l ∧ e.cell ≠ mark.cell then
      m.set l (Sequence.insertAfter mark.cell e.cell ((m.seqs l).erase e.cell)) else m, .none)
  | .pushBackList l other => (((m.seqs other).map m.cells).foldl (fun m v => (m.pushBack l v).1) m, .none)
  | .pushFrontList l other => (((m.seqs other).reverse.map m.cells).foldl (fun m v => (m.pushFront l v).1) m, .none)
  | .len l => (m, .int (m.seqs l).length)
  | .front l => (m, .elem ((m.seqs l).head?.map fun c => { list := l, cell := c }))
  | .back l => (m, .elem ((m.seqs l).getLast?.map fun c => { list := l, cell := c }))
  | .next e => (m, .elem ((Sequence.after e.cell (m.seqs e.list)).map fun c => { list := e.list, cell := c }))
  | .prev e => (m, .elem ((Sequence.after e.cell (m.seqs e.list).reverse).map fun c => { list := e.list, cell := c }))
  | .value e => (m, .value (m.cells e.cell))
  | .setValue e v => ({ m with cells := update m.cells e.cell v }, .none)

end Model

end Container
