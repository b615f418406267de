import Mathlib.Data.Finmap
import Goish.GoMap.Iteration

open List

namespace GoMap

theorem Map.eq_of_distinct [BEq K] {m : Map K V} (hd : Map.Distinct m.entries) (he : e ∈ m.entries) (he' : e' ∈ m.entries)
    (heq : (e.1 == e'.1) = true) : e = e' := by
  apply Classical.byContradiction
  intro hne
  have : Std.Symm fun e e' : K × V => (e.1 == e'.1) = false ∧ (e'.1 == e.1) = false := ⟨fun _ _ => And.symm⟩
  have hapart := (hd.forall he he' hne).1
  rw [heq] at hapart
  contradiction

theorem Map.candidates_spec [BEq K] [GoHash K] {m : Map K V} (h : m.Inv) (k : K)
    (hhash : ∀ e ∈ m.entries, (e.1 == k) = true → m.hash e.1 = m.hash k)
    : (m.candidates k = [] ∧ ∀ e ∈ m.entries, (e.1 == k) = false) ∨
        ∃ x xs e, m.candidates k = x :: xs ∧ e ∈ m.entries ∧ (e.1 == k) = true ∧ x.elem = some e.2 := by
  unfold Map.candidates
  split
  . next hempty =>
    left
    refine ⟨rfl, ?_⟩
    rw [h.entries_eq_nil_of_empty hempty]
    simp
  next hempty =>
  have hne : m.buckets ≠ [] := fun hnil => hempty (.inr (isEmpty_iff.mpr hnil))
  obtain ⟨c, hc, hok, -⟩ := h.chain hne k
  rw [hc]
  dsimp only
  cases hfilter : c.cells.filter (Cell.holds (tophash (m.hash k)) k) with
  | nil =>
    refine .inl ⟨rfl, ?_⟩
    intro e he
    rw [Bool.eq_false_iff]
    intro heq
    have hsame := hhash e he heq
    have hno := hok.not_mem (fun x hx => Bool.eq_false_iff.mpr (filter_eq_nil_iff.mp hfilter x hx)) e
      (h.mem_chain hc he hsame) (by rw [hsame])
    exact Bool.false_ne_true (hno.symm.trans heq)
  | cons x xs =>
    obtain ⟨hx, hholds⟩ := mem_filter.mp (hfilter ▸ mem_cons_self : x ∈ c.cells.filter _)
    obtain ⟨hkey, -⟩ | ⟨k', v, hkey, helem, hentry, -⟩ := (hok x hx).cases
    . simp [Cell.holds, hkey] at hholds
    refine .inr ⟨x, xs, (k', v), rfl, ?_, ?_, helem⟩
    . exact mem_flatMap.mpr ⟨c, mem_of_getElem? hc, mem_filterMap.mpr ⟨x, hx, hentry⟩⟩
    . simp only [Cell.holds, hkey, Option.any_some, Bool.and_eq_true] at hholds
      exact hholds.2

section Keys

variable (K : Type u) [BEq K] [EquivBEq K]

def keySetoid : Setoid K where
  r k k' := (k == k') = true
  iseqv := ⟨fun _ => BEq.rfl, BEq.symm, BEq.trans⟩

def Key : Type u :=
  Quotient (keySetoid K)

instance : DecidableEq (Key K) :=
  @Quotient.decidableEq _ (keySetoid K) fun k k' => inferInstanceAs (Decidable ((k == k') = true))

end Keys

variable [BEq K] [EquivBEq K]

def Key.of (k : K) : Key K :=
  Quotient.mk (keySetoid K) k

theorem Key.of_inj {k k' : K} : Key.of k = Key.of k' ↔ (k == k') = true :=
  @Quotient.eq _ (keySetoid K) k k'

theorem Key.exists_of (k : Key K) : ∃ k', Key.of k' = k :=
  Quotient.exists_rep k

def spec [Inhabited V] (s : Finmap fun _ : Key K => V) : Map.Op K V → Finmap fun _ : Key K => V
  | .set key value => s.insert (.of key) value
  | .indexMut key f => s.insert (.of key) (f ((s.lookup (.of key)).getD default))
  | .delete key => s.erase (.of key)
  | .clear => ∅

namespace Map

def Holds (m : Map K V) (s : Finmap fun _ : Key K => V) : Prop :=
  ∀ k v, s.lookup (.of k) = some v ↔ ∃ e ∈ m.entries, (e.1 == k) = true ∧ e.2 = v

variable {m m' : Map K V} {s s' : Finmap fun _ : Key K => V}

theorem Holds.perm (h : m.Holds s) (hp : m'.entries.Perm m.entries) : m'.Holds s := by
  intro k v
  rw [h k v]
  simp only [hp.mem_iff]

theorem Holds.lookup_eq_none (h : m.Holds s) (k : K)
    : s.lookup (.of k) = none ↔ ∀ e ∈ m.entries, (e.1 == k) = false := by
  rw [Option.eq_none_iff_forall_ne_some]
  simp only [ne_eq, h k, not_exists, not_and, Bool.eq_false_iff]
  constructor
  . intro hnone e he heq
    exact hnone e.2 e he heq rfl
  . intro hnone v e he heq _
    exact hnone e he heq

theorem Holds.update (h : m.Holds s) (hmem : ∀ e, (e.1 == key) = false → (e ∈ m'.entries ↔ e ∈ m.entries))
    (hne : ∀ k, k ≠ .of key → s'.lookup k = s.lookup k)
    (hkey : ∀ v, s'.lookup (.of key) = some v ↔ ∃ e ∈ m'.entries, (e.1 == key) = true ∧ e.2 = v) : m'.Holds s' := by
  intro k v
  by_cases hk : (k == key) = true
  . rw [Key.of_inj.mpr hk, hkey]
    simp only [BEq.congr_right hk]
  have hother : ∀ e : K × V, (e.1 == k) = true → (e ∈ m'.entries ↔ e ∈ m.entries) := by
    intro e he
    apply hmem
    rw [BEq.congr_left he]
    exact Bool.eq_false_iff.mpr hk
  rw [hne _ (fun heq => hk (Key.of_inj.mp heq)), h k v]
  constructor
  . intro ⟨e, he, heq, hv⟩
    exact ⟨e, (hother e heq).mpr he, heq, hv⟩
  . intro ⟨e, he, heq, hv⟩
    exact ⟨e, (hother e heq).mp he, heq, hv⟩

theorem exists_entry_iff (hd : Distinct m.entries) (he : e ∈ m.entries) (hkey : (e.1 == key) = true) (v : V)
    : (∃ e ∈ m.entries, (e.1 == key) = true ∧ e.2 = v) ↔ e.2 = v := by
  constructor
  . intro ⟨_, he', heq, hv⟩
    rwa [eq_of_distinct hd he he' (BEq.trans hkey (BEq.symm heq))]
  . intro hv
    exact ⟨e, he, hkey, hv⟩

variable [GoHash K]

theorem put_holds (h : m.Holds s) (hput : m.Put key f m') (hd' : Distinct m'.entries)
    (hhash : ∀ e ∈ m.entries, (e.1 == key) = true → m.hash e.1 = m.hash key)
    : m'.Holds (s.insert (.of key) (f (s.lookup (.of key)))) := by
  suffices hmem : (∃ k, (k == key) = true ∧ (k, f (s.lookup (.of key))) ∈ m'.entries) ∧
      ∀ e, (e.1 == key) = false → (e ∈ m'.entries ↔ e ∈ m.entries) by
    obtain ⟨⟨_, hk, hentry⟩, hmem⟩ := hmem
    apply h.update hmem
    . intro _ hk'
      exact Finmap.lookup_insert_of_ne _ hk'
    . intro v
      rw [Finmap.lookup_insert, exists_entry_iff hd' hentry hk, Option.some.injEq]
  cases hput with
  | @replaced _ k v _ hold heq hnew =>
    have hlook : s.lookup (.of key) = some v := (h key v).mpr ⟨(k, v), by rw [hold]; simp, heq, rfl⟩
    rw [hlook, hold, hnew]
    refine ⟨⟨k, heq, by simp⟩, ?_⟩
    intro e he
    have hne : ∀ v, e ≠ (k, v) := by
      rintro v rfl
      rw [heq] at he
      contradiction
    simp [hne]
  | added hnone hnew =>
    have hlook : s.lookup (.of key) = none := by
      rw [h.lookup_eq_none]
      intro e he
      rw [Bool.eq_false_iff]
      intro heq
      exact Bool.false_ne_true ((hnone e he (hhash e he heq)).symm.trans heq)
    rw [hlook]
    refine ⟨⟨key, BEq.rfl, hnew.mem_iff.mpr mem_cons_self⟩, ?_⟩
    intro e he
    rw [hnew.mem_iff, mem_cons]
    constructor
    . rintro (rfl | hin)
      . rw [BEq.rfl] at he
        contradiction
      . exact hin
    . exact .inr

theorem removed_holds (h : m.Holds s) (hd : Distinct m.entries) (hrem : m.Removed key m')
    (hhash : ∀ e ∈ m.entries, (e.1 == key) = true → m.hash e.1 = m.hash key) : m'.Holds (s.erase (.of key)) := by
  suffices hmem : (∀ e ∈ m'.entries, (e.1 == key) = false) ∧
      ∀ e, (e.1 == key) = false → (e ∈ m'.entries ↔ e ∈ m.entries) by
    apply h.update hmem.2
    . intro k hk
      exact Finmap.lookup_erase_ne hk
    intro v
    rw [Finmap.lookup_erase]
    simp only [reduceCtorEq, false_iff, not_exists, not_and]
    intro e he heq
    rw [hmem.1 e he] at heq
    contradiction
  cases hrem with
  | absent hnone hnew =>
    rw [hnew]
    refine ⟨?_, fun _ _ => .rfl⟩
    intro e he
    rw [Bool.eq_false_iff]
    intro heq
    exact Bool.false_ne_true ((hnone e he (hhash e he heq)).symm.trans heq)
  | @removed _ k v _ hold heq hnew =>
    rw [hold] at hd
    have hk := (hd.perm perm_middle)
    rw [hold, hnew]
    constructor
    . intro e he
      have hapart := (rel_of_pairwise_cons hk he).2
      rwa [← BEq.congr_right heq]
    intro e he
    have hne : e ≠ (k, v) := by
      rintro rfl
      rw [heq] at he
      contradiction
    simp [hne]

structure Refines (m : Map K V) (s : Finmap fun _ : Key K => V) : Prop where
  getRef : ∀ k, m.getRef k = s.lookup (.of k)
  has : ∀ k, m.has k = (s.lookup (.of k)).isSome
  get : ∀ k, m.get k
    = ((s.lookup (.of k)).map fun v => (v, true)).or (m.zero.map fun v => (v, false))
  index : ∀ k, m.index k = (s.lookup (.of k)).or m.zero
  len : m.len = s.keys.card
  count : m.count = m.entries.length
  distinct : Distinct m.entries
  grow : ∀ sameSize, (m.grow sameSize).entries.Perm m.entries

theorem len_eq_card (h : m.Inv) (hd : Distinct m.entries) (hs : m.Holds s) : m.len = s.keys.card := by
  have hkeys : s.keys = (m.entries.map fun e => Key.of e.1).toFinset := by
    ext k
    obtain ⟨k, rfl⟩ := Key.exists_of k
    rw [Finmap.mem_keys, Finmap.mem_iff, mem_toFinset, mem_map]
    constructor
    . intro ⟨v, hv⟩
      obtain ⟨e, he, heq, -⟩ := (hs k v).mp hv
      exact ⟨e, he, Key.of_inj.mpr heq⟩
    . intro ⟨e, he, heq⟩
      exact ⟨e.2, (hs k e.2).mpr ⟨e, he, Key.of_inj.mp heq, rfl⟩⟩
  have hnodup : (m.entries.map fun e => Key.of e.1).Nodup := by
    apply pairwise_map.mpr
    apply hd.imp
    intro _ _ hapart heq
    rw [Key.of_inj.mp heq] at hapart
    simp at hapart
  rw [hkeys, toFinset_card_of_nodup hnodup, length_map]
  exact h.count

theorem refines (h : m.Inv) (hd : Distinct m.entries) (hs : m.Holds s)
    (hhash : ∀ k k' : K, (k == k') = true → m.hash k = m.hash k') : m.Refines s := by
  have hfind : ∀ k, (m.candidates k = [] ∧ s.lookup (.of k) = none) ∨
      ∃ x xs v, m.candidates k = x :: xs ∧ x.elem = some v ∧ s.lookup (.of k) = some v := by
    intro k
    obtain ⟨hnil, hnone⟩ | ⟨x, xs, e, hcons, he, heq, helem⟩ :=
      candidates_spec h k fun e _ heq => hhash e.1 k heq
    . exact .inl ⟨hnil, (hs.lookup_eq_none k).mpr hnone⟩
    . exact .inr ⟨x, xs, e.2, hcons, helem, (hs k e.2).mpr ⟨e, he, heq, rfl⟩⟩
  have hget : ∀ k, m.getRef k = s.lookup (.of k) := by
    intro k
    unfold getRef
    obtain ⟨hnil, hlook⟩ | ⟨_, _, _, hcons, helem, hlook⟩ := hfind k
    . rw [hnil, hlook]
      rfl
    . rw [hcons, hlook, List.findSome?_cons_of_isSome (by rw [helem]; rfl), helem]
  constructor
  case getRef => exact hget
  case has =>
    intro k
    unfold has
    obtain ⟨hnil, hlook⟩ | ⟨_, _, _, hcons, _, hlook⟩ := hfind k
    . rw [hnil, hlook]
      rfl
    . rw [hcons, hlook]
      rfl
  case get =>
    intro k
    unfold get
    rw [hget]
    cases s.lookup (.of k) with
    | none | some => rfl
  case index =>
    intro k
    unfold index
    obtain ⟨hnil, hlook⟩ | ⟨_, _, _, hcons, helem, hlook⟩ := hfind k
    . rw [hnil, hlook]
      rfl
    . rwa [hcons, hlook]
  case len => exact len_eq_card h hd hs
  case count => exact h.count
  case distinct => exact hd
  case grow => exact fun sameSize => (m.grow_spec sameSize).1.perm hd

theorem write_holds (hlawful : ∀ (k k' : K) seed, (k == k') = true → GoHash.goHash k seed = GoHash.goHash k' seed)
    (h : m.Inv) (hd : Distinct m.entries) (hs : m.Holds s) (key : K) (f : Option V → V)
    : (m.prepare.put key f).Inv ∧ Distinct (m.prepare.put key f).entries ∧
        (m.prepare.put key f).Holds (s.insert (.of key) (f (s.lookup (.of key)))) ∧
        (m.prepare.put key f).zero = m.zero := by
  have hr := prepare_rehashed h
  have hperm := hr.perm hd
  obtain ⟨hput, hup, -⟩ := write_spec h key f
  have hd' := hput.distinct (hd.perm hperm.symm) (fun k k' => BEq.comm) fun e _ heq => hlawful e.1 key _ heq
  have hs' := put_holds (hs.perm hperm) hput hd' fun e _ heq => hlawful e.1 key _ heq
  exact ⟨hup.inv, hd', hs', hup.zero.trans hr.zero⟩

variable [Inhabited V]

def refinement (hash0 : UInt32) (zero : Option V) : System (Map K V × Finmap fun _ : Key K => V) where
  init p := p = (new hash0 zero, ∅)
  step p q :=
    (∃ op, q = (p.1.exec op, spec p.2 op)) ∨
      ∃ fuel hash0 rand0 rand1, p.1.totalBuckets + p.1.len < fuel ∧
        p.1.clone fuel hash0 rand0 rand1 = some q.1 ∧ q.2 = p.2

theorem exec_holds (hlawful : ∀ (k k' : K) seed, (k == k') = true → GoHash.goHash k seed = GoHash.goHash k' seed)
    (h : m.Inv) (hd : Distinct m.entries) (hs : m.Holds s) (op : Op K V)
    : (m.exec op).Inv ∧ Distinct (m.exec op).entries ∧ (m.exec op).Holds (spec s op) ∧
        (m.exec op).zero = m.zero := by
  cases op with
  | set key value => exact write_holds hlawful h hd hs key fun _ => value
  | indexMut key f => exact write_holds hlawful h hd hs key fun old => f (old.getD default)
  | delete key =>
    obtain ⟨hrem, hemp⟩ := delete_spec h key
    exact ⟨hemp.inv, hd.sublist hrem.sublist, removed_holds hs hd hrem fun e _ => hlawful e.1 key _, hemp.zero⟩
  | clear =>
    obtain ⟨hnil, hemp⟩ := clear_spec h
    refine ⟨hemp.inv, ?_, ?_, hemp.zero⟩
    . unfold exec
      rw [hnil]
      exact .nil
    . intro k v
      unfold exec spec
      rw [hnil, Finmap.lookup_empty]
      simp

theorem map_refines {hash0 : UInt32} {zero : Option V}
    (hlawful : ∀ (k k' : K) seed, (k == k') = true → GoHash.goHash k seed = GoHash.goHash k' seed)
    (h : (refinement hash0 zero).Reachable (m, s)) : m.Refines s ∧ (m.zero = zero ∨ m.zero = some default) ∧
        (∀ key value, m.indexMut key (fun _ => value) = m.set key value) ∧
        ∀ fuel hash0 rand0 rand1, m.totalBuckets + m.len < fuel →
          (m.clone fuel hash0 rand0 rand1).isSome = true := by
  have hinv : m.Inv ∧ Distinct m.entries ∧ m.Holds s ∧ (m.zero = zero ∨ m.zero = some default) := by
    apply h.invariant fun p => p.1.Inv ∧ Distinct p.1.entries ∧ p.1.Holds p.2 ∧
      (p.1.zero = zero ∨ p.1.zero = some default)
    . rintro _ rfl
      refine ⟨new_inv hash0 zero, .nil, ?_, .inl rfl⟩
      intro k v
      rw [Finmap.lookup_empty]
      simp [entries, new]
    rintro ⟨m, s⟩ ⟨m', s'⟩ ⟨hinv, hd, hs, hzero⟩ (⟨op, heq⟩ | ⟨fuel, hash0', rand0, rand1, hfuel, hclone, heq⟩)
    . obtain ⟨rfl, rfl⟩ := Prod.mk.inj heq
      obtain ⟨hinv', hd', hs', hzero'⟩ := exec_holds hlawful hinv hd hs op
      exact ⟨hinv', hd', hs', hzero' ▸ hzero⟩
    obtain ⟨_, hsome, hinv', hperm, hzero'⟩ := clone_spec hinv hd hash0' rand0 rand1 hfuel
    obtain rfl := Option.some.inj (hclone.symm.trans hsome)
    refine ⟨hinv', hd.perm hperm.symm, ?_, .inr hzero'⟩
    rw [heq]
    exact hs.perm hperm
  obtain ⟨hinv, hd, hs, hzero⟩ := hinv
  refine ⟨refines hinv hd hs (fun k k' => hlawful k k' _), hzero, fun _ _ => rfl, ?_⟩
  intro _ hash0 rand0 rand1 hfuel
  obtain ⟨_, hsome, -⟩ := clone_spec hinv hd hash0 rand0 rand1 hfuel
  rw [hsome]
  rfl

theorem reachable_foldl {hash0 : UInt32} {zero : Option V} (ops : List (Op K V)) {m : Map K V}
    {s : Finmap fun _ : Key K => V} (h : (refinement hash0 zero).Reachable (m, s))
    : (refinement hash0 zero).Reachable (ops.foldl exec m, ops.foldl spec s) := by
  induction ops generalizing m s with
  | nil => exact h
  | cons op ops ih => exact ih (.step h (.inl ⟨op, rfl⟩))

-- The ninth key makes the map grow, and a deleted key leaves a hole.
theorem map_refines_run : ∃ (m : Map (List UInt8) Nat) (s : Finmap fun _ : Key (List UInt8) => Nat),
        (refinement 7 (some 0)).Reachable (m, s) ∧ m.b = 1 ∧ m.len = 8 ∧ m.getRef [3] = none ∧ m.getRef [5] = some 7 ∧
          m.getRef [0] = some 9 ∧ m.Refines s := by
  have hinit : (refinement 7 (some 0)).Reachable ((new 7 (some 0) : Map (List UInt8) Nat), ∅) := .init rfl
  have h := reachable_foldl
    ([0, 1, 2, 3, 4, 5, 6, 7, 8].map (fun b => .set [b] b.toNat) ++
      [.delete [3], .indexMut [5] (· + 2), .set [0] 9] : List (Op (List UInt8) Nat)) hinit
  exact ⟨_, _, h, by decide +kernel, by decide +kernel, by decide +kernel, by decide +kernel, by decide +kernel,
    (map_refines (fun k k' seed heq => by rw [eq_of_beq heq]) h).1⟩

end Map

end GoMap
