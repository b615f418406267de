import Mathlib.Algebra.Group.Int.Defs
import Mathlib.Algebra.Group.Nat.Defs

/-! `sort.Sort`, a heapsort, and `sort.Stable`, which merges sorted blocks in place. -/

namespace SortInterface

def i64 (x : Int) : Int :=
  x.bmod (2 ^ 64)

def avg (i j : Int) : Int :=
  i64 ((i + j) % 2 ^ 64 / 2)

variable (lt : α → α → Bool)

def less (d : List α) (i j : Int) : Option Bool :=
  if 0 ≤ i ∧ 0 ≤ j then
    match d[i.toNat]?, d[j.toNat]? with
    | some x, some y => some (lt x y)
    | _, _ => none
  else
    none

def swap (d : List α) (i j : Int) : Option (List α) :=
  if 0 ≤ i ∧ 0 ≤ j then
    match d[i.toNat]?, d[j.toNat]? with
    | some x, some y => some ((d.set i.toNat y).set j.toNat x)
    | _, _ => none
  else
    none

def pick (d : List α) (child stop : Int) : Option Int :=
  if child + 1 < stop then
    (less lt d child (child + 1)).map fun right => if right then child + 1 else child
  else
    some child

def siftDown : Nat → List α → Int → Int → Option (List α)
  | 0, _, _, _ => none
  | fuel + 1, d, r, stop =>
    let child := i64 (r * 2 + 1)
    if child ≥ stop then
      some d
    else do
      let child ← pick lt d child stop
      if ← less lt d r child then
        siftDown fuel (← swap d r child) child stop
      else
        return d

def sort (d : List α) : Option (List α) :=
  if d.length ≤ 1 then
    some d
  else do
    drain (← heapify d ((d.length - 1) / 2)) (d.length - 1)
where
  heapify (d : List α) : Nat → Option (List α)
    | 0 => siftDown lt d.length d 0 d.length
    | start + 1 => do
      heapify (← siftDown lt d.length d (start + 1 : Nat) d.length) start
  drain (d : List α) : Nat → Option (List α)
    | 0 => some d
    | stop + 1 => do
      let d ← swap d 0 (stop + 1 : Nat)
      drain (← siftDown lt d.length d 0 (stop + 1 : Nat)) stop

def insert (a : Int) : Nat → List α → Option (List α)
  | 0, d => some d
  | k + 1, d => do
    let j := a + (k + 1 : Nat)
    if ← less lt d j (j - 1) then
      insert a k (← swap d j (j - 1))
    else
      return d

def insertionSort (d : List α) (a b : Int) : Option (List α) :=
  (List.range (b - (a + 1)).toNat).foldlM (fun d i => insert lt a (i + 1) d) d

def swapRange (d : List α) (a b n : Int) : Option (List α) :=
  (List.range n.toNat).foldlM (fun d (i : Nat) => swap d (a + i) (b + i)) d

def rotate (d : List α) (a m b : Int) : Option (List α) :=
  go (b - a).toNat d (m - a) (b - m)
where
  go : Nat → List α → Int → Int → Option (List α)
    | 0, _, _, _ => none
    | fuel + 1, d, i, j =>
      if i = j then
        swapRange d (m - i) m i
      else if i > j then do
        go fuel (← swapRange d (m - i) m j) (i - j) j
      else do
        go fuel (← swapRange d (m - i) (m + j - i) i) i (j - i)

def search (p : Int → Option Bool) (i j : Int) : Option Int :=
  go (j - i).toNat i j
where
  go : Nat → Int → Int → Option Int
    | 0, i, _ => some i
    | fuel + 1, i, j =>
      if i < j then do
        let h := avg i j
        if ← p h then
          go fuel (h + 1) j
        else
          go fuel i h
      else
        some i

def onlyIf (c : Prop) [Decidable c] (f : List α → Option (List α)) (d : List α) : Option (List α) :=
  if c then f d else some d

def symMerge : Nat → List α → Int → Int → Int → Option (List α)
  | 0, _, _, _, _ => none
  | fuel + 1, d, a, m, b =>
    if m - a = 1 then do
      let i ← search (fun h => less lt d h a) m b
      (List.range (i - 1 - a).toNat).foldlM (fun d (k : Nat) => swap d (a + k) (a + k + 1)) d
    else if b - m = 1 then do
      let i ← search (fun h => (less lt d m h).map not) a m
      (List.range (m - i).toNat).foldlM (fun d (k : Nat) => swap d (m - k) (m - k - 1)) d
    else do
      let mid := avg a b
      let n := i64 (mid + m)
      let p := i64 (n - 1)
      let start := if m > mid then i64 (n - b) else a
      let r := if m > mid then mid else m
      let start ← search (fun c => (less lt d (i64 (p - c)) c).map not) start r
      let stop := i64 (n - start)
      let d ← onlyIf (start < m ∧ m < stop) (rotate · start m stop) d
      let d ← onlyIf (a < start ∧ start < mid) (symMerge fuel · a start mid) d
      onlyIf (mid < stop ∧ stop < b) (symMerge fuel · mid stop b) d

def blocks (f : List α → Int → Int → Option (List α)) (step n : Int)
    : Nat → List α → Int → Int → Option (List α × Int)
  | 0, _, _, _ => none
  | fuel + 1, d, a, b =>
    if b ≤ n then do
      blocks f step n fuel (← f d a b) b (i64 (b + step))
    else
      some (d, a)

def stable (d : List α) : Option (List α) := do
  let (d, a) ← blocks (insertionSort lt) 20 d.length (d.length + 1) d 0 20
  merges (d.length + 1) (← insertionSort lt d a d.length) 20
where
  merges : Nat → List α → Int → Option (List α)
    | 0, _, _ => none
    | fuel + 1, d, blockSize =>
      if blockSize < d.length then do
        let step := i64 (2 * blockSize)
        let merge (d : List α) (a m b : Int) : Option (List α) := symMerge lt d.length d a m b
        let (d, a) ← blocks (fun d a b => merge d a (i64 (a + blockSize)) b) step d.length (d.length + 1) d 0 step
        let m := i64 (a + blockSize)
        let d ← onlyIf (m < d.length) (merge · a m d.length) d
        merges fuel d (i64 (blockSize * 2))
      else
        some d

end SortInterface
