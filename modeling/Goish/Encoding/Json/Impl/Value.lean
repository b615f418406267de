import Mathlib.Data.List.Basic

namespace Json

inductive Value where
  | null
  | bool (b : Bool)
  | number (bits : Nat)
  | string (s : List UInt8)
  | array (items : List Value)
  | object (m : List (List UInt8 × Value))

def setEntry (key : List UInt8) (v : α) : List (List UInt8 × α) → List (List UInt8 × α)
  | [] => [(key, v)]
  | (k, x) :: m =>
    if key = k then
      (key, v) :: m
    else if key < k then
      (key, v) :: (k, x) :: m
    else
      (k, x) :: setEntry key v m

structure Fold (α : Type) where
  null : α
  bool : Bool → α
  number : Nat → α
  string : List UInt8 → α
  array : List α → α
  object : List (List UInt8 × α) → α

namespace Value

mutual

def fold (f : Fold α) : Value → α
  | .null => f.null
  | .bool b => f.bool b
  | .number x => f.number x
  | .string s => f.string s
  | .array items => f.array (foldItems f items)
  | .object m => f.object (foldEntries f m)

def foldItems (f : Fold α) : List Value → List α
  | [] => []
  | v :: items => fold f v :: foldItems f items

def foldEntries (f : Fold α) : List (List UInt8 × Value) → List (List UInt8 × α)
  | [] => []
  | (k, v) :: m => (k, fold f v) :: foldEntries f m

end

def foldEntry (f : Fold α) (e : List UInt8 × Value) : List UInt8 × α :=
  (e.1, fold f e.2)

theorem foldItems_eq_map (f : Fold α) (items : List Value) : foldItems f items = items.map (fold f) := by
  induction items with
  | nil => rfl
  | cons _ _ ih => rw [foldItems, ih, List.map_cons]

theorem foldEntries_eq_map (f : Fold α) (m : List (List UInt8 × Value)) : foldEntries f m = m.map (foldEntry f) := by
  induction m with
  | nil => rfl
  | cons e m ih => rw [foldEntries, ih, List.map_cons, foldEntry]

theorem fold_array (f : Fold α) (items : List Value) : fold f (.array items) = f.array (items.map (fold f)) := by
  rw [fold, foldItems_eq_map]

theorem fold_object (f : Fold α) (m : List (List UInt8 × Value)) : fold f (.object m) = f.object (m.map (foldEntry f)) := by
  rw [fold, foldEntries_eq_map]

theorem induct {p : Value → Prop} (null : p .null) (bool : ∀ b, p (.bool b)) (number : ∀ x, p (.number x))
    (string : ∀ s, p (.string s)) (array : ∀ items, (∀ v ∈ items, p v) → p (.array items))
    (object : ∀ m, (∀ e ∈ m, p e.2) → p (.object m)) (v : Value) : p v :=
  @Value.rec p (fun items => ∀ v ∈ items, p v) (fun m => ∀ e ∈ m, p e.2) (fun e => p e.2) null bool number string array
    object (by simp) (fun _ _ hv hitems => List.forall_mem_cons.mpr ⟨hv, hitems⟩) (by simp)
    (fun _ _ he hm => List.forall_mem_cons.mpr ⟨he, hm⟩) (fun _ _ hv => hv) v

end Value

end Json
