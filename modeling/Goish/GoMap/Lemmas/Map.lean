import Goish.Data.System
import Goish.GoMap.Lemmas.Chain

open List

namespace GoMap

namespace Map

def overflowBuckets (m : Map K V) : Nat :=
  (m.buckets.map Chain.overflow).sum

def Packed (m : Map K V) : Prop :=
  ∀ c ∈ m.buckets, c.Packed

variable {m : Map K V}

theorem fresh_packed (m : Map K V) (b : Nat) : (m.fresh b).Packed := by
  intro c hc
  rw [eq_of_mem_replicate hc]
  exact Chain.new_packed

theorem entries_fresh (m : Map K V) (b : Nat) : (m.fresh b).entries = [] := by
  unfold entries fresh
  rw [flatMap_eq_nil_iff]
  intro c hc
  rw [eq_of_mem_replicate hc, Chain.entries_new]

structure Swapped (m : Map K V) (i : Nat) (c c' : Chain K V) (m' : Map K V) : Prop where
  b : m'.b = m.b
  hash0 : m'.hash0 = m.hash0
  zero : m'.zero = m.zero
  split : ∃ l₁ l₂, l₁.length = i ∧ m.buckets = l₁ ++ c :: l₂ ∧ m'.buckets = l₁ ++ c' :: l₂

namespace Swapped

variable {m' : Map K V} {c c' : Chain K V} (hs : m.Swapped i c c' m')
include hs

theorem entries : ∃ e1 e2, m.entries = e1 ++ (c.entries ++ e2) ∧ m'.entries = e1 ++ (c'.entries ++ e2) := by
  obtain ⟨l1, l2, -, hold, hnew⟩ := hs.split
  refine ⟨l1.flatMap Chain.entries, l2.flatMap Chain.entries, ?_, ?_⟩
  . unfold Map.entries
    rw [hold, flatMap_append, flatMap_cons]
  . unfold Map.entries
    rw [hnew, flatMap_append, flatMap_cons]

theorem overflowBuckets (hn : c'.overflow = c.overflow + n) : m'.overflowBuckets = m.overflowBuckets + n := by
  obtain ⟨_, _, -, hold, hnew⟩ := hs.split
  unfold Map.overflowBuckets
  rw [hold, hnew]
  simp only [map_append, map_cons, sum_append, sum_cons]
  omega

theorem packed (hp : m.Packed) (hc : c.Packed → c'.Packed) : m'.Packed := by
  obtain ⟨_, _, -, hold, hnew⟩ := hs.split
  unfold Packed at *
  rw [hold] at hp
  rw [hnew]
  intro d hd
  rcases mem_append.mp hd with hd | hd
  . exact hp d (mem_append_left _ hd)
  rcases mem_cons.mp hd with heq | hd
  . rw [heq]
    exact hc (hp c (by simp))
  . exact hp d (mem_append_right _ (mem_cons_of_mem _ hd))

end Swapped

def Distinct [BEq K] (l : List (K × V)) : Prop :=
  l.Pairwise fun e e' => (e.1 == e'.1) = false ∧ (e'.1 == e.1) = false

theorem Distinct.perm [BEq K] {l l' : List (K × V)} (h : Distinct l) (hp : l.Perm l') : Distinct l' :=
  (hp.pairwise_iff And.symm).mp h

variable [GoHash K]

structure Inv (m : Map K V) : Prop where
  length : m.buckets = [] ∧ m.b = 0 ∨ m.buckets.length = 2 ^ m.b
  chains : ∀ (i : Nat) (c : Chain K V), m.buckets[i]? = some c → c.Ok m.hash m.b i
  count : m.count = m.entries.length
  noverflow : m.noverflow = m.overflowBuckets % 2 ^ 16

theorem bucketIdx_lt (m : Map K V) (key : K) : m.bucketIdx key < 2 ^ m.b := by
  have hpos : 0 < 2 ^ m.b := Nat.two_pow_pos _
  unfold bucketIdx bucketMask
  rw [Nat.and_two_pow_sub_one_eq_mod]
  exact Nat.mod_lt _ hpos

theorem new_inv (hash0 : UInt32) (zero : Option V) : (new hash0 zero : Map K V).Inv where
  length := .inl ⟨rfl, rfl⟩
  chains := by simp [new]
  count := rfl
  noverflow := rfl

theorem fresh_inv (m : Map K V) (b : Nat) : (m.fresh b).Inv where
  length := .inr length_replicate
  chains := by
    intro i c hc
    rw [eq_of_mem_replicate (mem_of_getElem? hc)]
    exact Chain.new_ok
  count := by
    rw [m.entries_fresh]
    rfl
  noverflow := by
    have hzero : (m.fresh b).overflowBuckets = 0 := by
      unfold overflowBuckets fresh
      rw [map_replicate, sum_replicate_nat]
      exact mul_zero _
    rw [hzero]
    rfl

theorem Swapped.inv (hs : m.Swapped i c c' m') (h : m.Inv)
    (hok : c'.Ok m.hash m.b i) (hcount : m'.count = m'.entries.length) (hn : c'.overflow = c.overflow + n)
    (hover : m'.noverflow = (m.noverflow + n) % 2 ^ 16) : m'.Inv := by
  have hhash : m'.hash = m.hash := by
    funext k
    unfold hash
    rw [hs.hash0]
  have hsum := hs.overflowBuckets hn
  obtain ⟨l1, _, hlen, hold, hnew⟩ := hs.split
  constructor
  case length =>
    rcases h.length with h0 | hl
    . rw [h0.1] at hold
      simp at hold
    . right
      rw [hnew, hs.b, ← hl, hold, length_append, length_append, length_cons,
        length_cons]
  case chains =>
    intro j d hd
    rw [hhash, hs.b]
    rw [hnew] at hd
    have hchain := h.chains j
    rw [hold] at hchain
    rcases lt_trichotomy j l1.length with hlt | hge
    . rw [List.getElem?_append_left hlt] at hd hchain
      exact hchain d hd
    rcases hge with heq | _
    . rw [heq, List.getElem?_append_right le_rfl, Nat.sub_self, List.getElem?_cons_zero,
        Option.some.injEq] at hd
      rwa [← hd, heq, hlen]
    . rw [List.getElem?_append_right (by omega), show j - l1.length = j - l1.length - 1 + 1 by omega,
        List.getElem?_cons_succ] at hd hchain
      exact hchain d hd
  case count => exact hcount
  case noverflow =>
    rw [hover, h.noverflow, hsum]
    omega

def swap (m : Map K V) (i : Nat) (c : Chain K V) (count noverflow : Nat) : Map K V :=
  { m with buckets := m.buckets.set i c, count := count, noverflow := noverflow }

theorem Inv.chain (h : m.Inv) (hne : m.buckets ≠ []) (key : K)
    : ∃ c, m.buckets[m.bucketIdx key]? = some c ∧ c.Ok m.hash m.b (m.bucketIdx key) ∧
        ∀ c' n o, m.Swapped (m.bucketIdx key) c c' (m.swap (m.bucketIdx key) c' n o) := by
  have hlt : m.bucketIdx key < m.buckets.length := by
    rcases h.length with h0 | hl
    . exact absurd h0.1 hne
    rw [hl]
    exact m.bucketIdx_lt key
  refine ⟨_, List.getElem?_eq_getElem hlt, h.chains _ _ (List.getElem?_eq_getElem hlt), ?_⟩
  intro _ _ _
  refine ⟨rfl, rfl, rfl, m.buckets.take (m.bucketIdx key), m.buckets.drop (m.bucketIdx key + 1), ?_, ?_, ?_⟩
  . rw [length_take]
    omega
  . rw [getElem_cons_drop, take_append_drop]
  . exact set_eq_take_append_cons_drop.trans (if_pos hlt)

theorem Inv.mem_chain (h : m.Inv) (hc : m.buckets[m.bucketIdx key]? = some c) (he : e ∈ m.entries)
    (hhash : m.hash e.1 = m.hash key) : e ∈ c.entries := by
  obtain ⟨d, hd, he⟩ := mem_flatMap.mp he
  obtain ⟨j, hj⟩ := mem_iff_getElem?.mp hd
  have hidx := ((h.chains j d hj).mem_entries he).1
  have hj' : m.buckets[m.bucketIdx key]? = some d := by
    rw [← hj, ← hidx, hhash]
    rfl
  rw [hc, Option.some.injEq] at hj'
  rwa [hj']

structure Emptied (m m' : Map K V) : Prop where
  inv : m'.Inv
  b : m'.b = m.b
  hash0 : m'.hash0 = m.hash0
  zero : m'.zero = m.zero
  overflowBuckets : m'.overflowBuckets = m.overflowBuckets
  count_le : m'.count ≤ m.count

theorem Inv.emptied (h : m.Inv) : m.Emptied m :=
  ⟨h, rfl, rfl, rfl, rfl, le_rfl⟩

theorem Inv.entries_eq_nil (h : m.Inv) (hzero : m.count = 0) : m.entries = [] :=
  length_eq_zero_iff.mp (h.count.symm.trans hzero)

theorem Inv.entries_eq_nil_of_empty (h : m.Inv) (hempty : m.count = 0 ∨ m.buckets.isEmpty = true) : m.entries = [] := by
  rcases hempty with hzero | hb
  . exact h.entries_eq_nil hzero
  . unfold entries
    rw [isEmpty_iff.mp hb]
    rfl

theorem clear_spec (h : m.Inv) : m.clear.entries = [] ∧ m.Emptied m.clear := by
  unfold clear
  split
  . next hzero => exact ⟨h.entries_eq_nil hzero, h.emptied⟩
  generalize hwipe : (fun c : Chain K V => ({ c with
      cells := c.cells.map fun _ => .empty
      length_eq := (length_map ..).trans c.length_eq } : Chain K V)) = wipe
  have hcells : ∀ c : Chain K V, (wipe c).cells = c.cells.map fun _ => .empty := by
    intro c
    rw [← hwipe]
  have hover : ∀ c : Chain K V, (wipe c).overflow = c.overflow := by
    intro c
    rw [← hwipe]
  have hnil : (m.buckets.map wipe).flatMap Chain.entries = [] := by
    rw [flatMap_eq_nil_iff]
    intro d hd
    obtain ⟨_, -, rfl⟩ := mem_map.mp hd
    unfold Chain.entries
    rw [hcells, filterMap_map, filterMap_eq_nil_iff]
    intro x _
    rfl
  have hsum : ((m.buckets.map wipe).map Chain.overflow).sum = m.overflowBuckets := by
    unfold overflowBuckets
    rw [map_map, funext (f := Chain.overflow ∘ wipe) hover]
  refine ⟨hnil, ⟨?_, ?_, ?_, ?_⟩, rfl, rfl, rfl, hsum, Nat.zero_le _⟩
  . dsimp only
    rw [length_map, map_eq_nil_iff]
    exact h.length
  . intro i c hc x hx
    obtain ⟨_, -, rfl⟩ := mem_map.mp (mem_of_getElem? hc)
    rw [hcells] at hx
    obtain ⟨_, -, rfl⟩ := mem_map.mp hx
    exact Cell.empty_ok
  . unfold entries
    rw [hnil]
    rfl
  . exact h.noverflow.trans (congrArg (· % 2 ^ 16) hsum.symm)

inductive Put [BEq K] (m : Map K V) (key : K) (f : Option V → V) (m' : Map K V) : Prop where
  | replaced (hold : m.entries = l₁ ++ (k, v) :: l₂) (heq : (k == key) = true)
      (hnew : m'.entries = l₁ ++ (k, f (some v)) :: l₂)
  | added (hnone : ∀ e ∈ m.entries, m.hash e.1 = m.hash key → (e.1 == key) = false)
      (hnew : m'.entries.Perm ((key, f none) :: m.entries))

variable [BEq K]

theorem put_eq (hc : m.buckets[m.bucketIdx key]? = some c) (hups : c.upsert (tophash (m.hash key)) key f = (c', n, o))
    : m.put key f = m.swap (m.bucketIdx key) c' (m.count + n) ((m.noverflow + o) % 2 ^ 16) := by
  unfold put
  rw [hc]
  dsimp only
  rw [hups]
  rfl

structure Updated (m m' : Map K V) : Prop where
  inv : m'.Inv
  nonempty : m'.buckets ≠ []
  b : m'.b = m.b
  hash0 : m'.hash0 = m.hash0
  zero : m'.zero = m.zero
  packed : m.Packed → m'.Packed

theorem put_spec (h : m.Inv) (hne : m.buckets ≠ []) (key : K) (f : Option V → V)
    : m.Put key f (m.put key f) ∧ m.Updated (m.put key f) ∧
        (m.put key f).overflowBuckets ≤ m.overflowBuckets + 1 := by
  obtain ⟨c, hc, hok, hswap⟩ := h.chain hne key
  have hspec := Chain.upsert_spec hok key f rfl
  generalize hups : c.upsert (tophash (m.hash key)) key f = r at hspec
  obtain ⟨c', n, o⟩ := r
  obtain ⟨hups', hok', hpacked⟩ := hspec
  have hs := hswap c' (m.count + n) ((m.noverflow + o) % 2 ^ 16)
  have hcount : (m.put key f).count = m.count + n := by rw [put_eq hc hups]; rfl
  have hover : (m.put key f).noverflow = (m.noverflow + o) % 2 ^ 16 := by rw [put_eq hc hups]; rfl
  rw [← put_eq hc hups] at hs
  generalize m.put key f = m' at *
  obtain ⟨e1, e2, hold, hnew⟩ := hs.entries
  have hne' : m'.buckets ≠ [] := by
    obtain ⟨_, _, -, -, hb⟩ := hs.split
    rw [hb]
    simp
  rw [h.count, hold] at hcount
  suffices hput : m.Put key f m' ∧ m'.Inv ∧ m'.overflowBuckets ≤ m.overflowBuckets + 1 from
    ⟨hput.1, ⟨hput.2.1, hne', hs.b, hs.hash0, hs.zero, fun hp => hs.packed hp hpacked⟩, hput.2.2⟩
  cases hups' with
  | @replaced l1 k v l2 _ h1 heq h2 h3 =>
    have h1' : m.entries = e1 ++ l1 ++ (k, v) :: (l2 ++ e2) := by
      rw [hold, h1]
      simp
    have h2' : m'.entries = e1 ++ l1 ++ (k, f (some v)) :: (l2 ++ e2) := by
      rw [hnew, h2]
      simp
    refine ⟨.replaced h1' heq h2', hs.inv h hok' ?_ (n := 0) h3 hover, ?_⟩
    . rw [hcount, ← hold, h1', h2']
      simp
    . rw [hs.overflowBuckets (n := 0) h3]
      omega
  | added h1 h2 h3 =>
    have hperm : m'.entries.Perm ((key, f none) :: m.entries) := by
      rw [hnew, hold]
      apply ((h2.append_right e2).append_left e1).trans
      exact perm_middle
    refine ⟨.added ?_ hperm, hs.inv h hok' ?_ h3 hover, ?_⟩
    . intro e he hhash
      exact h1 e (h.mem_chain hc he hhash) (by rw [hhash])
    . rw [hcount, hperm.length_eq, length_cons, hold]
    . rw [hs.overflowBuckets h3]
      omega

theorem Put.length_le (h : m.Put key f m') : m'.entries.length ≤ m.entries.length + 1 := by
  cases h with
  | replaced hold _ hnew =>
    rw [hold, hnew]
    simp
  | added _ hnew => rw [hnew.length_eq, length_cons]

theorem Put.distinct (hput : m.Put key f m') (hd : Distinct m.entries) (hcomm : ∀ k k' : K, (k == k') = (k' == k))
    (hhash : ∀ e ∈ m.entries, (e.1 == key) = true → m.hash e.1 = m.hash key) : Distinct m'.entries := by
  cases hput with
  | replaced hold _ hnew =>
    unfold Distinct at *
    rw [← pairwise_map (f := Prod.fst) (R := fun k k' => (k == k') = false ∧ (k' == k) = false)] at *
    rw [hold] at hd
    rw [hnew]
    simpa using hd
  | added hnone hnew =>
    apply Distinct.perm _ hnew.symm
    apply List.Pairwise.cons _ hd
    intro e he
    have hne : (e.1 == key) = false := by
      rw [Bool.eq_false_iff]
      intro heq
      rw [hnone e he (hhash e he heq)] at heq
      contradiction
    exact ⟨(hcomm _ _).trans hne, hne⟩

theorem Put.perm_of_distinct (hput : m.Put e.1 (fun _ => e.2) m') (hd : Distinct (m.entries ++ e :: l))
    : m'.entries.Perm (e :: m.entries) := by
  cases hput with
  | @replaced _ k v _ hold heq =>
    have hapart := ((pairwise_append.mp hd).2.2 (k, v) (by rw [hold]; simp) e mem_cons_self).1
    rw [heq] at hapart
    contradiction
  | added _ hnew => exact hnew

structure Rehashed (m m' : Map K V) : Prop where
  inv : m'.Inv
  nonempty : m'.buckets ≠ []
  hash0 : m'.hash0 = m.hash0
  zero : m'.zero = m.zero
  length_le : m'.entries.length ≤ m.entries.length
  perm : Distinct m.entries → m'.entries.Perm m.entries

theorem Rehashed.count_le (h : m.Inv) (hr : m.Rehashed m') : m'.count ≤ m.count := by
  rw [hr.inv.count, h.count]
  exact hr.length_le

theorem insertAll_spec (h : m.Inv) (hne : m.buckets ≠ []) (l : List (K × V))
    : let m' := l.foldl (fun m e => m.insertNoGrow e.1 e.2) m
      m.Updated m' ∧ m'.entries.length ≤ m.entries.length + l.length ∧
        (Distinct (m.entries ++ l) → m'.entries.Perm (m.entries ++ l)) := by
  induction l generalizing m with
  | nil =>
    refine ⟨⟨h, hne, rfl, rfl, rfl, id⟩, le_rfl, ?_⟩
    intro _
    rw [append_nil]
    exact .refl _
  | cons e l ih =>
    obtain ⟨hput, hup, -⟩ := put_spec h hne e.1 fun _ => e.2
    obtain ⟨hup', hlen, hperm⟩ := ih hup.inv hup.nonempty
    have hle := hput.length_le
    refine ⟨?_, ?_, ?_⟩
    . exact ⟨hup'.inv, hup'.nonempty, hup'.b.trans hup.b, hup'.hash0.trans hup.hash0,
        hup'.zero.trans hup.zero, fun hp => hup'.packed (hup.packed hp)⟩
    . rw [length_cons]
      exact hlen.trans (by omega)
    . intro hd
      have hmove := (hput.perm_of_distinct hd).append_right l |>.trans perm_middle.symm
      exact (hperm (hd.perm hmove.symm)).trans hmove

theorem grow_spec (m : Map K V) (sameSize : Bool) : m.Rehashed (m.grow sameSize) ∧ (m.grow sameSize).Packed ∧
        (m.grow sameSize).b = if sameSize then m.b else m.b + 1 := by
  have hne : ∀ b, (m.fresh b).buckets ≠ [] := by
    intro b h
    have hlen := congrArg List.length h
    rw [show (m.fresh b).buckets.length = 2 ^ b from length_replicate] at hlen
    exact absurd hlen (Nat.two_pow_pos b).ne'
  obtain ⟨hup, hlen, hperm⟩ := insertAll_spec (m.fresh_inv _) (hne (if sameSize then m.b else m.b + 1)) m.entries
  rw [m.entries_fresh, nil_append] at hperm
  rw [m.entries_fresh, length_nil, zero_add] at hlen
  exact ⟨⟨hup.inv, hup.nonempty, hup.hash0, hup.zero, hlen, hperm⟩, hup.packed (m.fresh_packed _), hup.b⟩

def opened (m : Map K V) : Map K V :=
  if m.buckets.isEmpty then { m with buckets := [.new] } else m

theorem opened_spec (h : m.Inv)
    : m.Rehashed m.opened ∧ m.opened.b = m.b ∧ m.opened.overflowBuckets = m.overflowBuckets ∧
        (m.Packed → m.opened.Packed) := by
  unfold opened
  split
  . next hempty =>
    have hnil := isEmpty_iff.mp hempty
    have hb : m.b = 0 := by
      rcases h.length with h0 | hl
      . exact h0.2
      . rw [hnil] at hl
        exact absurd hl (Nat.two_pow_pos _).ne
    have hentries : m.entries = [] := by
      unfold entries
      rw [hnil]
      rfl
    have hover : m.overflowBuckets = 0 := by
      unfold overflowBuckets
      rw [hnil]
      rfl
    refine ⟨⟨⟨?_, ?_, ?_, ?_⟩, ?_, rfl, rfl, ?_, ?_⟩, rfl, ?_, ?_⟩
    . right
      rw [hb]
      rfl
    . intro i c hc
      rw [mem_singleton.mp (mem_of_getElem? hc)]
      exact Chain.new_ok
    . rw [h.count, hentries]
      rfl
    . rw [h.noverflow, hover]
      rfl
    . exact cons_ne_nil _ _
    . exact Nat.zero_le _
    . intro _
      rw [hentries]
      exact .refl _
    . exact hover.symm
    . intro _ c hc
      rw [mem_singleton.mp hc]
      exact Chain.new_packed
  . next hempty =>
    refine ⟨⟨h, ?_, rfl, rfl, le_rfl, fun _ => .refl _⟩, rfl, rfl, id⟩
    intro hnil
    rw [hnil] at hempty
    contradiction

def Room (b count : Nat) : Prop :=
  count ≤ bucketCount ∨ loadFactorDen * count ≤ loadFactorNum * 2 ^ b

theorem prepare_cases (m : Map K V) : (m.prepare = m.opened.grow false ∧ ¬ Room m.opened.b (m.opened.count + 1)) ∨
        (Room m.opened.b (m.opened.count + 1) ∧
          (m.prepare = m.opened.grow true ∨
            m.prepare = m.opened ∧ m.opened.tooManyOverflowBuckets = false)) := by
  have heq : m.prepare =
      if m.opened.count + 1 > bucketCount ∧
          m.opened.count + 1 > loadFactorNum * 2 ^ m.opened.b / loadFactorDen then
        m.opened.grow false
      else if m.opened.tooManyOverflowBuckets then m.opened.grow true
      else m.opened := rfl
  rw [heq]
  unfold Room loadFactorDen loadFactorNum bucketCount
  split
  . next h => exact .inl ⟨rfl, by omega⟩
  next h =>
  refine .inr ⟨by omega, ?_⟩
  split
  . exact .inl rfl
  . next hmany => exact .inr ⟨rfl, Bool.eq_false_iff.mpr hmany⟩

theorem Rehashed.trans (h1 : m.Rehashed m1) (h2 : m1.Rehashed m2) : m.Rehashed m2 where
  inv := h2.inv
  nonempty := h2.nonempty
  hash0 := h2.hash0.trans h1.hash0
  zero := h2.zero.trans h1.zero
  length_le := h2.length_le.trans h1.length_le
  perm := by
    intro hd
    have hp := h1.perm hd
    exact (h2.perm (hd.perm hp.symm)).trans hp

theorem prepare_rehashed (h : m.Inv) : m.Rehashed m.prepare := by
  have hopen := (opened_spec h).1
  obtain ⟨heq, -⟩ | ⟨-, heq | ⟨heq, -⟩⟩ := m.prepare_cases
  . rw [heq]
    exact hopen.trans (m.opened.grow_spec false).1
  . rw [heq]
    exact hopen.trans (m.opened.grow_spec true).1
  . rwa [heq]

theorem prepare_packed (h : m.Inv) (hp : m.Packed) : m.prepare.Packed := by
  obtain ⟨heq, -⟩ | ⟨-, heq | ⟨heq, -⟩⟩ := m.prepare_cases
  . rw [heq]
    exact (m.opened.grow_spec false).2.1
  . rw [heq]
    exact (m.opened.grow_spec true).2.1
  . rw [heq]
    exact (opened_spec h).2.2.2 hp

theorem prepare_room (h : m.Inv) (hroom : Room m.b m.count) : Room m.prepare.b (m.prepare.count + 1) := by
  obtain ⟨hopen, hb, -⟩ := opened_spec h
  have hcount := hopen.count_le h
  have hgrow : ∀ sameSize, (m.opened.grow sameSize).count ≤ m.opened.count :=
    fun sameSize => (m.opened.grow_spec sameSize).1.count_le hopen.inv
  have hpos : 0 < 2 ^ m.b := Nat.two_pow_pos _
  obtain ⟨heq, -⟩ | ⟨hroom', heq | ⟨heq, -⟩⟩ := m.prepare_cases
  . have hle := hgrow false
    rw [heq, (m.opened.grow_spec false).2.2, hb]
    unfold Room loadFactorDen loadFactorNum bucketCount at *
    rw [if_neg Bool.false_ne_true, pow_succ]
    omega
  . have hle := hgrow true
    rw [heq, (m.opened.grow_spec true).2.2, if_pos rfl]
    unfold Room loadFactorDen loadFactorNum bucketCount at *
    omega
  . rw [heq]
    exact hroom'

inductive Removed (m : Map K V) (key : K) (m' : Map K V) : Prop where
  | absent (hnone : ∀ e ∈ m.entries, m.hash e.1 = m.hash key → (e.1 == key) = false)
      (hnew : m'.entries = m.entries)
  | removed (hold : m.entries = l₁ ++ (k, v) :: l₂) (heq : (k == key) = true) (hnew : m'.entries = l₁ ++ l₂)

theorem Removed.sublist (h : m.Removed key m') : m'.entries.Sublist m.entries := by
  cases h with
  | absent _ hnew => rw [hnew]
  | removed hold _ hnew =>
    rw [hold, hnew]
    exact (List.Sublist.refl _).append (sublist_cons_self _ _)

theorem delete_spec (h : m.Inv) (key : K) : m.Removed key (m.delete key) ∧ m.Emptied (m.delete key) := by
  unfold delete
  split
  . next hempty =>
    refine ⟨.absent ?_ rfl, h.emptied⟩
    rw [h.entries_eq_nil_of_empty hempty]
    simp
  next hempty =>
  have hne : m.buckets ≠ [] := fun hnil => hempty (.inr (isEmpty_iff.mpr hnil))
  obtain ⟨c, hc, hok, hswap⟩ := h.chain hne key
  rw [hc]
  dsimp only
  cases hfind : c.cells.findIdx? (Cell.holds (tophash (m.hash key)) key) with
  | none =>
    refine ⟨.absent ?_ rfl, h.emptied⟩
    intro e he hhash
    apply hok.not_mem (List.findIdx?_eq_none_iff.mp hfind) e (h.mem_chain hc he hhash)
    rw [hhash]
  | some p =>
    obtain ⟨l1, x, l2, hcells, hx, -, hmod⟩ := split_of_findIdx? hfind
    have hmod := hmod fun _ => .empty
    obtain ⟨hkey, -, -, -⟩ | ⟨_, _, hkey, _, hentry, -, -⟩ := (hok x (by rw [hcells]; simp)).cases
    . simp [Cell.holds, hkey] at hx
    have hs := hswap (c.modify p fun _ => .empty) (m.count - 1) m.noverflow
    have hcount : (m.swap (m.bucketIdx key) (c.modify p fun _ => .empty) (m.count - 1) m.noverflow).count
        = m.count - 1 := rfl
    have hover : (m.swap (m.bucketIdx key) (c.modify p fun _ => .empty) (m.count - 1)
        m.noverflow).noverflow = m.noverflow := rfl
    change m.Removed key (m.swap ..) ∧ m.Emptied (m.swap ..)
    generalize m.swap (m.bucketIdx key) (c.modify p fun _ => .empty) (m.count - 1) m.noverflow = m' at *
    obtain ⟨e1, e2, hold, hnew⟩ := hs.entries
    rw [Chain.entries_eq hcells hentry] at hold
    rw [Chain.entries_eq (c := c.modify p _) hmod rfl] at hnew
    simp only [Option.toList_some, append_assoc, cons_append, nil_append] at hold
    rw [← append_assoc] at hold
    have hnew : m'.entries = e1 ++ l1.filterMap Cell.entry ++ (l2.filterMap Cell.entry ++ e2) := by
      rw [hnew]
      simp [Cell.entry, Cell.empty]
    refine ⟨.removed hold ?_ hnew, hs.inv h ?_ ?_ (n := 0) rfl ?_, hs.b, hs.hash0, hs.zero, ?_, ?_⟩
    . simp only [Cell.holds, hkey, Option.any_some, Bool.and_eq_true] at hx
      exact hx.2
    . exact hok.modify hcells hmod Cell.empty_ok
    . rw [hcount, h.count, hold, hnew]
      simp only [length_append, length_cons]
      omega
    . rw [hover, h.noverflow, add_zero, Nat.mod_mod]
    . exact hs.overflowBuckets (n := 0) rfl
    . rw [hcount]
      omega

theorem write_spec (h : m.Inv) (key : K) (f : Option V → V)
    : m.prepare.Put key f (m.prepare.put key f) ∧ m.prepare.Updated (m.prepare.put key f) ∧
        (m.prepare.put key f).overflowBuckets ≤ m.prepare.overflowBuckets + 1 ∧
        (m.prepare.put key f).count ≤ m.prepare.count + 1 := by
  have hr := prepare_rehashed h
  obtain ⟨hput, hup, hover⟩ := put_spec hr.inv hr.nonempty key f
  refine ⟨hput, hup, hover, ?_⟩
  rw [hup.inv.count, hr.inv.count]
  exact hput.length_le

theorem Room.of_le {b n k : Nat} (h : Room b n) (hle : k ≤ n) : Room b k := by
  unfold Room loadFactorDen at *
  omega

inductive Op (K : Type u) (V : Type v) where
  | set (key : K) (value : V)
  | indexMut (key : K) (f : V → V)
  | delete (key : K)
  | clear

variable [Inhabited V]

def exec (m : Map K V) : Op K V → Map K V
  | .set key value => m.set key value
  | .indexMut key f => m.indexMut key f
  | .delete key => m.delete key
  | .clear => m.clear

def Op.key? : Op K V → Option K
  | .set key _ | .indexMut key _ => some key
  | .delete _ | .clear => none

def system (guard : Map K V → Op K V → Prop) (hash0 : UInt32) (zero : Option V) : System (Map K V) where
  init m := m = new hash0 zero
  step m m' := ∃ op, guard m op ∧ m' = m.exec op

theorem exec_cases (h : m.Inv) (op : Op K V) : (∃ key f, op.key? = some key ∧ m.exec op = m.prepare.put key f) ∨
        op.key? = none ∧ m.Emptied (m.exec op) ∧ (m.exec op).entries.Sublist m.entries := by
  cases op with
  | set key value => exact .inl ⟨key, fun _ => value, rfl, rfl⟩
  | indexMut key f => exact .inl ⟨key, fun old => f (old.getD default), rfl, rfl⟩
  | delete key =>
    obtain ⟨hrem, hemp⟩ := delete_spec h key
    exact .inr ⟨rfl, hemp, hrem.sublist⟩
  | clear =>
    obtain ⟨hnil, hemp⟩ := clear_spec h
    refine .inr ⟨rfl, hemp, ?_⟩
    unfold exec
    rw [hnil]
    exact nil_sublist _

theorem inv_of_reachable {guard : Map K V → Op K V → Prop} {hash0 : UInt32} {zero : Option V}
    (h : (system guard hash0 zero).Reachable m) : m.Inv ∧ Room m.b m.count := by
  apply h.invariant fun m => m.Inv ∧ Room m.b m.count
  . rintro _ rfl
    exact ⟨new_inv hash0 zero, .inl (Nat.zero_le _)⟩
  rintro m _ ⟨hinv, hroom⟩ ⟨op, -, rfl⟩
  obtain ⟨key, f, -, heq⟩ | ⟨-, hemp, -⟩ := exec_cases hinv op
  . obtain ⟨-, hup, -, hcount⟩ := write_spec hinv key f
    rw [heq]
    refine ⟨hup.inv, ?_⟩
    rw [hup.b]
    exact (prepare_room hinv hroom).of_le hcount
  . refine ⟨hemp.inv, ?_⟩
    rw [hemp.b]
    exact hroom.of_le hemp.count_le

end Map

end GoMap
