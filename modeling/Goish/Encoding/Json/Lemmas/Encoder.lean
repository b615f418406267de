import Goish.Encoding.Json.Impl.Encoder
import Mathlib.Algebra.BigOperators.Group.List.Basic

open List

namespace Json

section Render

variable (cfg : Option IndentCfg)

def layout (d : Nat) : List UInt8 :=
  cfg.elim [] fun c => writeNewlineIndent c d

def colon : List UInt8 :=
  if cfg.isSome then [0x3A, 0x20] else [0x3A]

def elementsText (d : Nat) : Bool → List (Nat → List UInt8) → List UInt8
  | _, [] => layout cfg d ++ [0x5D]
  | more, x :: items =>
    (if more then [0x2C] else []) ++ (layout cfg (d + 1) ++ (x (d + 1) ++ elementsText d true items))

def membersText (d : Nat) : Bool → List (List UInt8 × (Nat → List UInt8)) → List UInt8
  | _, [] => layout cfg d ++ [0x7D]
  | more, (k, x) :: m =>
    (if more then [0x2C] else []) ++
      (layout cfg (d + 1) ++ (encodeString k ++ (colon cfg ++ (x (d + 1) ++ membersText d true m))))

def arrayText (items : List (Nat → List UInt8)) (d : Nat) : List UInt8 :=
  match items with
  | [] => [0x5B, 0x5D]
  | items => 0x5B :: elementsText cfg d false items

def objectText (m : List (List UInt8 × (Nat → List UInt8))) (d : Nat) : List UInt8 :=
  match m with
  | [] => [0x7B, 0x7D]
  | m => 0x7B :: membersText cfg d false (sortEntries m)

def render : Value → Nat → List UInt8 :=
  Value.fold {
    null := fun _ => [0x6E, 0x75, 0x6C, 0x6C]
    bool := fun b _ => if b then [0x74, 0x72, 0x75, 0x65] else [0x66, 0x61, 0x6C, 0x73, 0x65]
    number := fun x _ => encodeNumber x
    string := fun s _ => encodeString s
    array := arrayText cfg
    object := objectText cfg }

def renderEntry (e : List UInt8 × Value) : List UInt8 × (Nat → List UInt8) :=
  (e.1, render cfg e.2)

theorem render_array (items : List Value) : render cfg (.array items) = arrayText cfg (items.map (render cfg)) :=
  Value.fold_array _ items

theorem render_object (m : List (List UInt8 × Value)) : render cfg (.object m) = objectText cfg (m.map (renderEntry cfg)) :=
  Value.fold_object _ m

end Render

theorem sortEntries_perm (m : List (List UInt8 × α)) : (sortEntries m).Perm m :=
  perm_insertionSort _ m

theorem sortEntries_map (f : List UInt8 × α → List UInt8 × β) (hf : ∀ e, (f e).1 = e.1) (m : List (List UInt8 × α))
    : sortEntries (m.map f) = (sortEntries m).map f := by
  symm
  apply map_insertionSort
  intro a _ b _
  rw [hf, hf]

theorem sortEntries_ne_nil (h : m ≠ []) : sortEntries m ≠ [] := by
  intro hnil
  have := (sortEntries_perm m).length_eq
  rw [hnil] at this
  exact h (eq_nil_of_length_eq_zero this.symm)

section Run

variable {cfg : Option IndentCfg} {stack tasks : List Task} {out bytes : List UInt8}

theorem runTasks_cons (h : runTask cfg t = (bytes, tasks)) (fuel : Nat) (stack : List Task) (out : List UInt8)
    : runTasks cfg (fuel + 1) (t :: stack) out = runTasks cfg fuel (tasks ++ stack) (out ++ bytes) := by
  rw [runTasks, h]

def Writes (cfg : Option IndentCfg) (tasks : List Task) (bytes : List UInt8) (n : Nat) : Prop :=
  ∀ stack out, ∃ k ≤ n, ∀ fuel, runTasks cfg (fuel + k) (tasks ++ stack) out = runTasks cfg fuel stack (out ++ bytes)

theorem Writes.nil : Writes cfg [] [] 0 := by
  intro _ _
  exact ⟨0, Nat.le_refl 0, fun fuel => by rw [append_nil]; rfl⟩

theorem Writes.append (h : Writes cfg tasks bytes n) (h' : Writes cfg tasks' bytes' n')
    : Writes cfg (tasks ++ tasks') (bytes ++ bytes') (n + n') := by
  intro stack out
  obtain ⟨k, _, hrun⟩ := h (tasks' ++ stack) out
  obtain ⟨k', _, hrun'⟩ := h' stack (out ++ bytes)
  refine ⟨k' + k, by omega, ?_⟩
  intro _
  rw [← add_assoc, append_assoc, hrun, hrun', append_assoc]

theorem Writes.mono (h : Writes cfg tasks bytes n) (hn : n ≤ n') : Writes cfg tasks bytes n' := by
  intro stack out
  obtain ⟨k, hk, hrun⟩ := h stack out
  exact ⟨k, le_trans hk hn, hrun⟩

theorem writes_task (ht : runTask cfg t = (bytes, tasks)) (h : Writes cfg tasks bytes' n)
    : Writes cfg [t] (bytes ++ bytes') (n + 1) := by
  intro stack out
  obtain ⟨k, _, hrun⟩ := h stack (out ++ bytes)
  refine ⟨k + 1, by omega, ?_⟩
  intro _
  rw [← add_assoc, singleton_append, runTasks_cons ht, hrun, append_assoc]

theorem writes_last (ht : runTask cfg t = (bytes, [])) : Writes cfg [t] bytes 1 := by
  have := writes_task ht .nil
  rwa [append_nil] at this

theorem writes_comma (cfg : Option IndentCfg) (more : Bool)
    : Writes cfg (if more then [.lit [0x2C]] else []) (if more then [0x2C] else []) 1 := by
  cases more
  . exact Writes.nil.mono (Nat.zero_le 1)
  . exact writes_last rfl

theorem writes_elements (h : ∀ v ∈ items, ∀ d, Writes cfg [.val v d] (render cfg v d) v.work) (d : Nat) (more : Bool)
    : Writes cfg (elementTasks d more items) (elementsText cfg d more (items.map (render cfg)))
        ((items.map Value.work).sum + 2 * items.length + 2) := by
  induction items generalizing more with
  | nil => exact (writes_last rfl).append (writes_last rfl)
  | cons v _ ih =>
    have hfirst := h v mem_cons_self (d + 1)
    have hrest := ih (fun v' hv' => h v' (mem_cons_of_mem v hv')) true
    have := (writes_comma cfg more).append ((writes_last (t := .indent (d + 1)) rfl).append (hfirst.append hrest))
    apply this.mono
    rw [map_cons, sum_cons, length_cons]
    omega

theorem writes_members (h : ∀ e ∈ m, ∀ d, Writes cfg [.val e.2 d] (render cfg e.2 d) e.2.work) (d : Nat) (more : Bool)
    : Writes cfg (memberTasks d more m) (membersText cfg d more (m.map (renderEntry cfg)))
        ((m.map (·.2.work)).sum + 3 * m.length + 2) := by
  induction m generalizing more with
  | nil => exact (writes_last rfl).append (writes_last rfl)
  | cons e m ih =>
    have hfirst := h e mem_cons_self (d + 1)
    have hrest := ih (fun e' he' => h e' (mem_cons_of_mem e he')) true
    have hkey := (writes_last (t := .key e.1) rfl).append (hfirst.append hrest)
    have := (writes_comma cfg more).append ((writes_last (t := .indent (d + 1)) rfl).append hkey)
    rw [append_assoc] at this
    apply this.mono
    rw [map_cons, sum_cons, length_cons]
    omega

theorem work_array (items : List Value)
    : (Value.array items).work = (items.map Value.work).sum + 2 * items.length + 3 := by
  unfold Value.work
  rw [Value.fold_array]
  dsimp only
  rw [length_map]

theorem work_object (m : List (List UInt8 × Value))
    : (Value.object m).work = (m.map (·.2.work)).sum + 3 * m.length + 3 := by
  unfold Value.work
  rw [Value.fold_object]
  dsimp only
  rw [length_map, map_map]
  rfl

theorem writes_val (cfg : Option IndentCfg) (v : Value) (d : Nat) : Writes cfg [.val v d] (render cfg v d) v.work := by
  induction v using Value.induct generalizing d with
  | null | number | string => exact writes_last rfl
  | bool b =>
    cases b
    all_goals exact writes_last rfl
  | array items ih =>
    rw [render_array, work_array]
    cases items with
    | nil => exact (writes_last rfl).mono (by simp)
    | cons v items =>
      have := writes_task (t := .val (.array (v :: items)) d) rfl (writes_elements ih d false)
      exact this.mono le_rfl
  | object m ih =>
    rw [render_object, work_object]
    cases m with
    | nil => exact (writes_last rfl).mono (by simp)
    | cons e m =>
      have hperm := sortEntries_perm (e :: m)
      have hsorted := writes_members (m := sortEntries (e :: m)) (fun e' he' => ih e' (hperm.mem_iff.mp he')) d false
      have := writes_task (t := .val (.object (e :: m)) d) rfl hsorted
      rw [← sortEntries_map (renderEntry cfg) (fun _ => rfl)] at this
      apply this.mono
      rw [(hperm.map _).sum_eq, hperm.length_eq]

theorem encodeValue_eq (cfg : Option IndentCfg) (v : Value) (d : Nat) : encodeValue cfg v d = some (render cfg v d) := by
  obtain ⟨k, _, hrun⟩ := writes_val cfg v d [] []
  unfold encodeValue
  have hfuel : v.work + 1 = v.work - k + 1 + k := by omega
  rw [append_nil] at hrun
  rw [hfuel, hrun]
  rfl

end Run

end Json
