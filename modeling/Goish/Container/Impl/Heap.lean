import Goish.Sort.Impl.Sort

/-! The operations of `container/heap` on a collection whose `Push` appends and whose `Pop` takes the last element. -/

namespace ContainerHeap

open SortInterface

variable (lt : α → α → Bool)

def up : Nat → List α → Int → Option (List α)
  | 0, _, _ => none
  | fuel + 1, d, j =>
    let i := (j - 1).tdiv 2
    if i = j then
      some d
    else do
      if ← less lt d j i then
        up fuel (← swap d i j) i
      else
        return d

def child (d : List α) (j1 n : Int) : Option Int :=
  if j1 + 1 < n then
    (less lt d (j1 + 1) j1).map fun right => if right then j1 + 1 else j1
  else
    some j1

def down (d : List α) (i0 n : Int) : Option (List α × Bool) :=
  (go (d.length + 1) d i0).map fun (d, i) => (d, decide (i > i0))
where
  go : Nat → List α → Int → Option (List α × Int)
    | 0, _, _ => none
    | fuel + 1, d, i =>
      let j1 := i64 (2 * i + 1)
      if j1 ≥ n ∨ j1 < 0 then
        some (d, i)
      else do
        let j ← child lt d j1 n
        if ← less lt d j i then
          go fuel (← swap d i j) j
        else
          return (d, i)

def downOrUp (d : List α) (i n : Int) : Option (List α) := do
  let (d, moved) ← down lt d i n
  if moved then return d else up lt (d.length + 1) d i

def popLast (d : List α) : Option (α × List α) :=
  d.getLast?.map fun x => (x, d.dropLast)

def init (d : List α) : Option (List α) :=
  go d.length (d.length / 2) d
where
  go (n : Nat) : Nat → List α → Option (List α)
    | 0, d => some d
    | i + 1, d => do go n i (← down lt d i n).1

def push (d : List α) (x : α) : Option (List α) :=
  up lt (d.length + 2) (d ++ [x]) ((d ++ [x]).length - 1)

def pop (d : List α) : Option (α × List α) := do
  let n : Int := d.length - 1
  let (d, _) ← down lt (← swap d 0 n) 0 n
  popLast d

def remove (d : List α) (i : Int) : Option (α × List α) := do
  let n : Int := d.length - 1
  if n ≠ i then
    popLast (← downOrUp lt (← swap d i n) i n)
  else
    popLast d

def fix (d : List α) (i : Int) : Option (List α) :=
  downOrUp lt d i d.length

end ContainerHeap
