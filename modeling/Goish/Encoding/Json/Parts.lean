import Goish.Encoding.Json.Impl.Value

open List

namespace Json

namespace Value

def nesting : Value → Nat :=
  fold {
    null := 0
    bool := fun _ => 0
    number := fun _ => 0
    string := fun _ => 0
    array := fun ns => ns.foldr max 0 + 1
    object := fun m => (m.map (·.2)).foldr max 0 + 1 }

def strings : Value → List (List UInt8) :=
  fold {
    null := []
    bool := fun _ => []
    number := fun _ => []
    string := fun s => [s]
    array := List.flatten
    object := fun m => m.flatMap fun e => e.1 :: e.2 }

def numbers : Value → List Nat :=
  fold {
    null := []
    bool := fun _ => []
    number := fun x => [x]
    string := fun _ => []
    array := List.flatten
    object := fun m => m.flatMap (·.2) }

def Ordered : Value → Prop :=
  fold {
    null := True
    bool := fun _ => True
    number := fun _ => True
    string := fun _ => True
    array := fun ps => ∀ p ∈ ps, p
    object := fun m => m.Pairwise (fun a b => a.1 < b.1) ∧ ∀ e ∈ m, e.2 }

theorem le_foldr_max {l : List Nat} (h : n ∈ l) : n ≤ l.foldr max 0 := by
  induction l with
  | nil => contradiction
  | cons m l ih =>
    rw [foldr_cons]
    cases h with
    | head => exact Nat.le_max_left _ _
    | tail _ h => exact Nat.le_trans (ih h) (Nat.le_max_right _ _)

theorem nesting_array (h : v ∈ items) : v.nesting + 1 ≤ (array items).nesting := by
  unfold nesting
  rw [fold_array]
  exact Nat.succ_le_succ (le_foldr_max (mem_map_of_mem h))

theorem nesting_object {e : List UInt8 × Value} (h : e ∈ m) : e.2.nesting + 1 ≤ (object m).nesting := by
  unfold nesting
  rw [fold_object]
  apply Nat.succ_le_succ
  apply le_foldr_max
  rw [map_map]
  exact mem_map_of_mem (f := (·.2) ∘ foldEntry _) h

theorem nesting_array_pos (items : List Value) : 0 < (array items).nesting := by
  unfold nesting
  rw [fold_array]
  exact Nat.succ_pos _

theorem nesting_object_pos (m : List (List UInt8 × Value)) : 0 < (object m).nesting := by
  unfold nesting
  rw [fold_object]
  exact Nat.succ_pos _

theorem strings_array (h : v ∈ items) (hs : s ∈ v.strings) : s ∈ (array items).strings := by
  unfold strings
  rw [fold_array]
  exact mem_flatten.mpr ⟨_, mem_map_of_mem h, hs⟩

theorem strings_key (h : e ∈ m) : e.1 ∈ (object m).strings := by
  unfold strings
  rw [fold_object]
  exact mem_flatMap.mpr ⟨_, mem_map_of_mem h, mem_cons_self⟩

theorem strings_object (h : e ∈ m) (hs : s ∈ e.2.strings) : s ∈ (object m).strings := by
  unfold strings
  rw [fold_object]
  exact mem_flatMap.mpr ⟨_, mem_map_of_mem h, mem_cons_of_mem _ hs⟩

theorem numbers_array (h : v ∈ items) (hx : x ∈ v.numbers) : x ∈ (array items).numbers := by
  unfold numbers
  rw [fold_array]
  exact mem_flatten.mpr ⟨_, mem_map_of_mem h, hx⟩

theorem numbers_object (h : e ∈ m) (hx : x ∈ e.2.numbers) : x ∈ (object m).numbers := by
  unfold numbers
  rw [fold_object]
  exact mem_flatMap.mpr ⟨_, mem_map_of_mem h, hx⟩

theorem ordered_array (h : (array items).Ordered) (hv : v ∈ items) : v.Ordered := by
  unfold Ordered at h
  rw [fold_array] at h
  exact h _ (mem_map_of_mem hv)

theorem ordered_object (h : (object m).Ordered) (he : e ∈ m) : e.2.Ordered := by
  unfold Ordered at h
  rw [fold_object] at h
  exact h.2 _ (mem_map_of_mem he)

theorem ordered_keys (h : (object m).Ordered) : m.Pairwise fun a b => a.1 < b.1 := by
  unfold Ordered at h
  rw [fold_object] at h
  have hkeys := h.1
  rwa [pairwise_map] at hkeys

end Value

end Json
