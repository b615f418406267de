import Goish.GoMap.Impl.GoMap

open List Option

namespace GoMap

theorem minTopHash_le_tophash (hash : UInt64) : ¬ tophash hash < minTopHash := by
  unfold tophash
  dsimp only
  split
  . next h =>
    rw [UInt8.lt_iff_toNat_lt] at *
    have hmin : minTopHash.toNat = 5 := rfl
    rw [UInt8.toNat_add, hmin]
    omega
  . next h => exact h

theorem split_of_findIdx? {p : α → Bool} (h : l.findIdx? p = some i)
    : ∃ l1 x l2, l = l1 ++ x :: l2 ∧ p x = true ∧ (∀ y ∈ l1, p y = false) ∧
        ∀ f : α → α, l.modify i f = l1 ++ f x :: l2 := by
  induction l generalizing i with
  | nil => contradiction
  | cons a l ih =>
    rw [List.findIdx?_cons] at h
    split at h
    . next ha =>
      cases h
      exact ⟨[], a, l, rfl, ha, by simp, fun _ => rfl⟩
    next ha =>
    obtain ⟨_, hj, hi⟩ := map_eq_some_iff.mp h
    obtain ⟨l1, x, l2, hl, hx, hbefore, hmod⟩ := ih hj
    refine ⟨a :: l1, x, l2, by rw [hl, cons_append], hx, ?_, ?_⟩
    . exact forall_mem_cons.mpr ⟨Bool.eq_false_iff.mpr ha, hbefore⟩
    . intro f
      rw [← hi, modify_succ_cons, hmod, cons_append]

namespace Cell

def Ok (hash : K → UInt64) (b i : Nat) (x : Cell K V) : Prop :=
  match x.key, x.elem with
  | none, none => x.tophash < minTopHash
  | some k, some _ => x.tophash = GoMap.tophash (hash k) ∧ (hash k).toNat &&& (2 ^ b - 1) = i
  | _, _ => False

variable {hash : K → UInt64} {x : Cell K V}

theorem empty_ok : (empty : Cell K V).Ok hash b i :=
  show emptyOne < minTopHash by decide

theorem Ok.cases (h : x.Ok hash b i) : (x.key = none ∧ x.elem = none ∧ x.entry = none ∧ x.tophash < minTopHash) ∨
        ∃ k v, x.key = some k ∧ x.elem = some v ∧ x.entry = some (k, v) ∧ x.tophash = GoMap.tophash (hash k) ∧
          (hash k).toNat &&& (2 ^ b - 1) = i := by
  obtain ⟨_, key, elem⟩ := x
  cases key <;> cases elem <;> simp_all [Ok, entry]

theorem Ok.entry_eq_none_iff (h : x.Ok hash b i) : x.entry = none ↔ x.tophash < minTopHash := by
  obtain ⟨_, _, he, ht⟩ | ⟨_, _, _, _, he, ht, _⟩ := h.cases
  . simp [he, ht]
  . simp [he, ht, minTopHash_le_tophash]

end Cell

namespace Chain

variable {hash : K → UInt64} {c : Chain K V}

def Ok (hash : K → UInt64) (b i : Nat) (c : Chain K V) : Prop :=
  ∀ x ∈ c.cells, x.Ok hash b i

def live (c : Chain K V) : List Bool :=
  c.cells.map fun x => x.entry.isSome

def Packed (c : Chain K V) : Prop :=
  ∃ n m, c.live = List.replicate n true ++ List.replicate m false ∧
    (c.overflow = 0 ∨ bucketCount * c.overflow < n)

theorem new_ok : (new : Chain K V).Ok hash b i := by
  intro x hx
  rw [eq_of_mem_replicate hx]
  exact Cell.empty_ok

theorem new_packed : (new : Chain K V).Packed :=
  ⟨0, bucketCount, rfl, .inl rfl⟩

theorem entries_new : (new : Chain K V).entries = [] := rfl

theorem entries_eq (h : c.cells = l1 ++ x :: l2) (hx : x.entry = o)
    : c.entries = l1.filterMap Cell.entry ++ (o.toList ++ l2.filterMap Cell.entry) := by
  unfold entries
  rw [h, filterMap_append]
  congr 1
  cases o with
  | none => rw [filterMap_cons_none hx]; rfl
  | some => rw [filterMap_cons_some hx]; rfl

theorem live_eq (h : c.cells = l1 ++ x :: l2)
    : c.live = l1.map (fun x => x.entry.isSome) ++ x.entry.isSome :: l2.map fun x => x.entry.isSome := by
  unfold live
  rw [h, map_append, map_cons]

theorem length_entries (c : Chain K V) : c.entries.length = c.live.count true := by
  unfold entries live
  induction c.cells with
  | nil => rfl
  | cons x l ih =>
    cases h : x.entry with
    | none => simp [filterMap_cons_none h, h, ih]
    | some => simp [filterMap_cons_some h, h, ih]

theorem Packed.length_entries (h : c.Packed) : c.overflow = 0 ∨ bucketCount * c.overflow < c.entries.length := by
  obtain ⟨_, _, hlive, hover⟩ := h
  rw [c.length_entries, hlive, count_append, count_replicate_self, count_replicate]
  simpa using hover

theorem length_entries_le (c : Chain K V) : c.entries.length ≤ bucketCount * (c.overflow + 1) := by
  rw [← c.length_eq]
  exact length_filterMap_le ..

theorem replicate_split (h : List.replicate a true ++ false :: r
      = List.replicate n true ++ List.replicate m false)
    : a = n ∧ false :: r = List.replicate m false := by
  induction a generalizing n with
  | zero =>
    cases n with
    | zero => exact ⟨rfl, h⟩
    | succ => simp [replicate_succ] at h
  | succ a ih =>
    cases n with
    | zero => cases m <;> simp [replicate_succ] at h
    | succ =>
      rw [replicate_succ, replicate_succ, cons_append, cons_append,
        List.cons.injEq] at h
      obtain ⟨hn, hr⟩ := ih h.2
      exact ⟨by rw [hn], hr⟩

theorem Packed.replace (hp : c.Packed) (hlive : (c.modify p f).live = c.live) : (c.modify p f).Packed := by
  unfold Packed
  rwa [hlive]

theorem Packed.fill (hp : c.Packed) (hold : c.live = List.replicate a true ++ false :: r)
    (hnew : (c.modify p f).live = List.replicate a true ++ true :: r) : (c.modify p f).Packed := by
  obtain ⟨_, m, hcells, _⟩ := hp
  obtain ⟨rfl, hr⟩ := replicate_split (hold.symm.trans hcells)
  rcases m with _ | m
  . simp at hr
  rw [replicate_succ, List.cons.injEq] at hr
  refine ⟨a + 1, m, ?_, ?_⟩
  . rw [hnew, hr.2, replicate_succ', append_assoc]
    rfl
  . show c.overflow = 0 ∨ bucketCount * c.overflow < a + 1
    omega

theorem Ok.modify (h : c.Ok hash b i) (hcells : c.cells = l1 ++ x :: l2) (hmod : c.cells.modify p f = l1 ++ f x :: l2)
    (hx : (f x).Ok hash b i) : (c.modify p f).Ok hash b i := by
  have hold : ∀ y ∈ l1 ++ x :: l2, y.Ok hash b i := hcells ▸ h
  have hnew : ∀ y ∈ l1 ++ f x :: l2, y.Ok hash b i := by
    rw [forall_mem_append, forall_mem_cons] at hold ⊢
    exact ⟨hold.1, hx, hold.2.2⟩
  exact fun y hy => hnew y (hmod ▸ hy)

theorem Ok.live_eq_replicate (h : c.Ok hash b i) {l : List (Cell K V)} (hsub : ∀ x ∈ l, x ∈ c.cells)
    (hfull : ∀ x ∈ l, decide (x.tophash < minTopHash) = false)
    : (l.map fun x => x.entry.isSome) = List.replicate l.length true := by
  rw [eq_replicate_iff]
  refine ⟨length_map .., ?_⟩
  intro o ho
  obtain ⟨x, hx, rfl⟩ := mem_map.mp ho
  rw [isSome_iff_ne_none, ne_eq, (h x (hsub x hx)).entry_eq_none_iff]
  exact of_decide_eq_false (hfull x hx)

theorem Ok.mem_entries (h : c.Ok hash b i) (he : e ∈ c.entries) : (hash e.1).toNat &&& (2 ^ b - 1) = i ∧
        ∃ x ∈ c.cells, x.tophash = tophash (hash e.1) ∧ x.key = some e.1 ∧ x.elem = some e.2 := by
  obtain ⟨x, hx, hentry⟩ := mem_filterMap.mp he
  obtain ⟨-, -, hnone, -⟩ | ⟨_, _, hkey, helem, hsome, htop, hk⟩ := (h x hx).cases
  . rw [hnone] at hentry
    contradiction
  . rw [hsome] at hentry
    obtain rfl := some.inj hentry
    exact ⟨hk, x, hx, htop, hkey, helem⟩

variable [BEq K]

inductive Upserted (hash : K → UInt64) (c : Chain K V) (key : K) (f : Option V → V)
    : Chain K V × Nat × Nat → Prop where
  | replaced {c' : Chain K V} (hold : c.entries = l₁ ++ (k, v) :: l₂) (heq : (k == key) = true)
      (hnew : c'.entries = l₁ ++ (k, f (some v)) :: l₂) (hover : c'.overflow = c.overflow)
    : Upserted hash c key f (c', 0, 0)
  | added {c' : Chain K V}
      (hnone : ∀ e ∈ c.entries, tophash (hash e.1) = tophash (hash key) → (e.1 == key) = false)
      (hnew : c'.entries.Perm ((key, f none) :: c.entries)) (hover : c'.overflow = c.overflow + n)
      (hn : n ≤ 1) : Upserted hash c key f (c', 1, n)

theorem search_eq (c : Chain K V) (top : UInt8) (key : K) : c.search top key =
        match c.cells.findIdx? (Cell.holds top key) with
        | some p => .found p
        | none => .missing (c.cells.findIdx? fun x => decide (x.tophash < minTopHash)) := by
  have hgo : ∀ (cells : List (Cell K V)) (p : Nat) (first : Option Nat),
      search.go top key cells p first =
        match cells.findIdx? (Cell.holds top key) with
        | some q => .found (p + q)
        | none =>
          .missing (first.or
            ((cells.findIdx? fun x => decide (x.tophash < minTopHash)).map (p + ·))) := by
    intro cells
    induction cells with
    | nil =>
      intro p first
      cases first <;> rfl
    | cons x cells ih =>
      intro p first
      rw [search.go, List.findIdx?_cons]
      split
      . rfl
      rw [ih, List.findIdx?_cons]
      cases cells.findIdx? (Cell.holds top key) with
      | some => simp only [map_some, add_assoc, add_comm 1]
      | none =>
        have hshift : ∀ o : Option Nat, o.map (p + 1 + ·) = (o.map (· + 1)).map (p + ·) := by
          intro o
          cases o <;> simp [add_assoc, add_comm 1]
        cases first with
        | some => simp
        | none =>
          by_cases hx : x.tophash < minTopHash
          . simp [hx]
          . simp [hx, hshift]
  unfold search
  rw [hgo]
  cases c.cells.findIdx? (Cell.holds top key) with
  | some | none => simp

theorem Ok.not_mem (h : c.Ok hash b i) (hno : ∀ x ∈ c.cells, x.holds (tophash (hash key)) key = false) (e)
    (he : e ∈ c.entries) (htop : tophash (hash e.1) = tophash (hash key)) : (e.1 == key) = false := by
  obtain ⟨-, x, hx, hxtop, hkey, -⟩ := h.mem_entries he
  have := hno x hx
  simpa [Cell.holds, hxtop, hkey, htop] using this

theorem upsert_spec (h : c.Ok hash b i) (key : K) (f : Option V → V) (hi : (hash key).toNat &&& (2 ^ b - 1) = i)
    : Upserted hash c key f (c.upsert (tophash (hash key)) key f) ∧
        (c.upsert (tophash (hash key)) key f).1.Ok hash b i ∧
        (c.Packed → (c.upsert (tophash (hash key)) key f).1.Packed) := by
  have hnew : (⟨tophash (hash key), some key, some (f none)⟩ : Cell K V).Ok hash b i := ⟨rfl, hi⟩
  unfold upsert
  rw [search_eq]
  cases hfind : c.cells.findIdx? (Cell.holds (tophash (hash key)) key) with
  | some p =>
    obtain ⟨_, x, _, hcells, hx, -, hmod⟩ := split_of_findIdx? hfind
    have hmod := hmod fun x => { x with elem := some (f x.elem) }
    have hok := h x (by rw [hcells]; simp)
    obtain ⟨hkey, -, -, -⟩ | ⟨k, v, hkey, helem, hentry, htop, hk⟩ := hok.cases
    . simp [Cell.holds, hkey] at hx
    have hentry' : ({ x with elem := some (f x.elem) } : Cell K V).entry = some (k, f (some v)) := by
      simp [Cell.entry, hkey, helem]
    refine ⟨.replaced (entries_eq hcells hentry) ?_ (entries_eq hmod hentry') rfl, ?_, ?_⟩
    . simp only [Cell.holds, hkey, any_some, Bool.and_eq_true] at hx
      exact hx.2
    . apply h.modify hcells hmod
      rw [hkey]
      exact ⟨htop, hk⟩
    . intro hp
      apply hp.replace
      rw [live_eq hcells, live_eq (c := c.modify p _) hmod, hentry, hentry']
      rfl
  | none =>
    have hno := h.not_mem (List.findIdx?_eq_none_iff.mp hfind)
    cases hvac : c.cells.findIdx? fun x => decide (x.tophash < minTopHash) with
    | some p =>
      obtain ⟨l1, x, _, hcells, hx, hbefore, hmod⟩ := split_of_findIdx? hvac
      have hmod := hmod fun _ => ⟨tophash (hash key), some key, some (f none)⟩
      have hok := h x (by rw [hcells]; simp)
      have hentry : x.entry = none := hok.entry_eq_none_iff.mpr (of_decide_eq_true hx)
      have hlive := h.live_eq_replicate (l := l1)
        (fun y hy => by rw [hcells]; exact mem_append_left _ hy) hbefore
      refine ⟨.added hno ?_ rfl (Nat.zero_le 1), h.modify hcells hmod hnew, ?_⟩
      . rw [entries_eq hcells hentry, entries_eq (c := c.modify p _) hmod rfl]
        exact perm_middle
      intro hp
      apply hp.fill
      . rw [live_eq hcells, hlive, hentry]
        rfl
      . rw [live_eq (c := c.modify p _) hmod, hlive]
        rfl
    | none =>
      have hlive := h.live_eq_replicate (fun _ hy => hy) (List.findIdx?_eq_none_iff.mp hvac)
      refine ⟨.added hno ?_ rfl (Nat.le_refl 1), ?_, ?_⟩
      . rw [entries_eq (c := c.extend _) rfl rfl]
        exact perm_append_singleton _ _
      . refine forall_mem_append.mpr ⟨h, forall_mem_cons.mpr ⟨hnew, ?_⟩⟩
        intro y hy
        rw [eq_of_mem_replicate hy]
        exact Cell.empty_ok
      intro _
      refine ⟨c.cells.length + 1, bucketCount - 1, ?_, .inr ?_⟩
      . rw [live_eq (c := c.extend _) rfl, hlive, replicate_succ', append_assoc]
        rfl
      . rw [c.length_eq]
        exact Nat.lt_succ_self _

end Chain

end GoMap
