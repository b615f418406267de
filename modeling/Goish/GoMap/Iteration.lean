import Goish.GoMap.Lemmas.Map
import Mathlib.Data.List.Rotate

open List

namespace GoMap

theorem range_map_add_mod_perm (start n : Nat) : ((range n).map fun v => (start + v) % n).Perm (range n) := by
  have heq : ((range n).map fun v => (start + v) % n) = (range n).rotate start := by
    apply ext_getElem
    . simp
    . intro _ _ _
      simp [getElem_rotate, add_comm]
  rw [heq]
  exact rotate_perm _ _

theorem filterMap_range_getElem? (l : List α) : (range l.length).filterMap (l[·]?) = l := by
  induction l with
  | nil => rfl
  | cons a l ih =>
    rw [length_cons, range_succ_eq_map, filterMap_cons_some getElem?_cons_zero,
      filterMap_map]
    exact congrArg (a :: ·) ih

theorem range_mul (k m : Nat) : range (k * m) = (range m).flatMap fun j => (range k).map (k * j + ·) := by
  induction m with
  | zero => rfl
  | succ m ih => rw [Nat.mul_succ, range_add, ih, range_succ, flatMap_append, flatMap_singleton]

def Map.totalBuckets (m : Map K V) : Nat :=
  (m.buckets.map fun c => c.overflow + 1).sum

namespace MapRefIter

def bucketFrom (c : Chain K V) (offset n slot : Nat) : List (K × V) :=
  (range' slot (bucketCount - slot)).filterMap fun s => entryAt c n ((s + offset) % bucketCount)

def chainFrom (c : Chain K V) (offset n : Nat) : List (List (K × V)) :=
  (range' n (c.overflow + 1 - n)).map fun n => bucketFrom c offset n 0

def chainsFrom (m : Map K V) (start visited : Nat) : List (Chain K V) :=
  (range' visited (m.buckets.length - visited)).filterMap fun v =>
    m.buckets[(start + v) % m.buckets.length]?

def rest (m : Map K V) (it : MapRefIter) : List (List (K × V)) :=
  (chainsFrom m it.startBucket it.visitedBuckets).flatMap fun c => chainFrom c it.offset 0

theorem chainFrom_perm (c : Chain K V) (offset : Nat) : (chainFrom c offset 0).flatten.Perm c.entries := by
  have hbucket : ∀ n, (bucketFrom c offset n 0).Perm ((range bucketCount).filterMap (entryAt c n)) := by
    intro n
    have hrot := (range_map_add_mod_perm offset bucketCount).filterMap (entryAt c n)
    rw [filterMap_map] at hrot
    unfold bucketFrom
    rw [Nat.sub_zero, ← range_eq_range']
    simpa only [Function.comp_def, add_comm offset] using hrot
  have hentries : c.entries
      = (range (c.overflow + 1)).flatMap fun n => (range bucketCount).filterMap (entryAt c n) := by
    unfold Chain.entries
    conv => lhs; rw [← filterMap_range_getElem? c.cells, c.length_eq, range_mul]
    rw [filterMap_filterMap, filterMap_flatMap]
    simp only [filterMap_map]
    rfl
  unfold chainFrom
  rw [hentries, Nat.sub_zero, ← range_eq_range', ← flatMap_def]
  exact List.Perm.flatMap_left _ fun n _ => hbucket n

theorem chainsFrom_perm (m : Map K V) (start : Nat) : (chainsFrom m start 0).Perm m.buckets := by
  have hrot := (range_map_add_mod_perm start m.buckets.length).filterMap (m.buckets[·]?)
  rw [filterMap_range_getElem?, filterMap_map] at hrot
  unfold chainsFrom
  rwa [Nat.sub_zero, ← range_eq_range']

theorem scan_spec (c : Chain K V) (n offset slot : Nat) : match bucketFrom c offset n slot with
      | [] => scan c n offset slot = none
      | e :: l => ∃ slot', scan c n offset slot = some (e, slot' + 1) ∧ bucketFrom c offset n (slot' + 1) = l := by
  unfold scan bucketFrom
  generalize hk : bucketCount - slot = k
  induction k generalizing slot with
  | zero => rfl
  | succ k ih =>
    have hk' : bucketCount - (slot + 1) = k := by omega
    rw [range'_succ, scan.go, filterMap_cons]
    cases entryAt c n ((slot + offset) % bucketCount) with
    | none => exact ih (slot + 1) hk'
    | some =>
      refine ⟨slot, rfl, ?_⟩
      rw [hk']

theorem chainFrom_cons (h : n ≤ c.overflow) (offset : Nat)
    : chainFrom c offset n = bucketFrom c offset n 0 :: chainFrom c offset (n + 1) := by
  unfold chainFrom
  rw [show c.overflow + 1 - n = c.overflow + 1 - (n + 1) + 1 by omega, range'_succ, map_cons]

theorem chainFrom_nil (c : Chain K V) (offset : Nat) : chainFrom c offset (c.overflow + 1) = [] := by
  unfold chainFrom
  rw [Nat.sub_self]
  rfl

inductive Pending (m : Map K V) (it : MapRefIter) : List (List (K × V)) → Prop where
  | between (hover : it.overflow = none) (hslot : it.slot = 0) : Pending m it (it.rest m)
  | inside {c : Chain K V} (hc : m.buckets[it.bucket]? = some c) (hn : n ≤ c.overflow)
      (hover : it.overflow = some n ∨ it.overflow = none ∧ n = 0 ∧ 0 < it.slot)
    : Pending m it (bucketFrom c it.offset n it.slot :: (chainFrom c it.offset (n + 1) ++ it.rest m))

theorem locate_spec (h : Pending m it (l :: ls))
    : ∃ n it' c, it.locate m = some (n, it') ∧ m.buckets[it'.bucket]? = some c ∧ n ≤ c.overflow ∧
        l = bucketFrom c it'.offset n it'.slot ∧ ls = chainFrom c it'.offset (n + 1) ++ it'.rest m ∧
        it'.yielded = it.yielded ∧
        (it'.overflow = some n ∨ it'.overflow = none ∧ n = 0) := by
  generalize hbs : l :: ls = bs at h
  unfold locate
  cases h with
  | between hover hslot =>
    rw [hover, hslot]
    dsimp only
    rw [if_neg (lt_irrefl 0)]
    unfold rest chainsFrom at hbs
    split
    . next hge =>
      rw [Nat.sub_eq_zero_of_le hge] at hbs
      contradiction
    next hlt =>
    have hidx : (it.startBucket + it.visitedBuckets) % m.buckets.length < m.buckets.length :=
      Nat.mod_lt _ (by omega)
    have hc := getElem?_eq_getElem hidx
    rw [show m.buckets.length - it.visitedBuckets = m.buckets.length - (it.visitedBuckets + 1) + 1 by omega,
      range'_succ, filterMap_cons, hc] at hbs
    rw [flatMap_cons, chainFrom_cons (Nat.zero_le _), cons_append, cons.injEq] at hbs
    refine ⟨0, _, _, rfl, hc, Nat.zero_le _, hbs.1, hbs.2, rfl, .inr ⟨rfl, rfl⟩⟩
  | @inside n c hc hn hover =>
    obtain ⟨rfl, rfl⟩ := cons.inj hbs
    rcases hover with hover | hover
    . rw [hover]
      exact ⟨n, it, c, rfl, hc, hn, rfl, rfl, rfl, .inl hover⟩
    obtain ⟨hover, rfl, hslot⟩ := hover
    rw [hover]
    rw [if_pos hslot]
    exact ⟨0, it, c, rfl, hc, hn, rfl, rfl, rfl, .inr ⟨hover, rfl⟩⟩

theorem loop_spec (h : Pending m it bs) (hfuel : bs.length < fuel) (he : bs.flatten = e :: es)
    : ∃ it' bs', next.loop m fuel it = some (some e, it') ∧ Pending m it' bs' ∧ bs'.flatten = es ∧
        bs'.length ≤ bs.length ∧ it'.yielded = it.yielded + 1 := by
  induction fuel generalizing it bs with
  | zero => contradiction
  | succ _ ih =>
    rcases bs with _ | ⟨l, ls⟩
    . contradiction
    obtain ⟨n, it1, c, hloc, hc, hn, hl, hls, hy, hover⟩ := locate_spec h
    have hscan := scan_spec c n it1.offset it1.slot
    rw [length_cons] at hfuel
    rw [next.loop, hloc]
    dsimp only
    rw [hc]
    dsimp only
    rw [← hl] at hscan
    cases l with
    | nil =>
      -- The bucket has no entry left: on to the next one.
      have hpend : Pending m
          { it1 with slot := 0, overflow := if n < c.overflow then some (n + 1) else none } ls := by
        rw [hls]
        split
        . next hlt =>
          rw [chainFrom_cons hlt, cons_append]
          exact @Pending.inside _ _ m { it1 with slot := 0, overflow := some (n + 1) } _ _ hc hlt (.inl rfl)
        . next hge =>
          rw [show n = c.overflow by omega, chainFrom_nil, nil_append]
          exact @Pending.between _ _ m { it1 with slot := 0, overflow := none } rfl rfl
      obtain ⟨it', bs', hloop, hpend', hes, _, hy'⟩ := ih hpend (by omega) he
      rw [hscan]
      exact ⟨it', bs', hloop, hpend', hes, by rw [length_cons]; omega, by rw [hy', hy]⟩
    | cons a l =>
      obtain ⟨slot, hscan, hfrom⟩ := hscan
      obtain ⟨rfl, rfl⟩ := he
      rw [hscan]
      refine ⟨{ it1 with slot := slot + 1, yielded := it1.yielded + 1 }, l :: ls, rfl, ?_, rfl, le_rfl, ?_⟩
      . rw [← hfrom, hls]
        apply @Pending.inside _ _ m { it1 with slot := slot + 1, yielded := it1.yielded + 1 } _ _ hc hn
        rcases hover with hover | hover
        . exact .inl hover
        . exact .inr ⟨hover.1, hover.2, Nat.succ_pos slot⟩
      . rw [hy]

theorem next_spec {m : Map K V} (h : Pending m it bs) (hfuel : bs.length < fuel)
    (hcount : it.yielded + bs.flatten.length = m.count) : match bs.flatten with
      | [] => it.next fuel m = some (none, it)
      | e :: es => ∃ it' bs', it.next fuel m = some (some e, it') ∧ Pending m it' bs' ∧ bs'.flatten = es ∧
          bs'.length < fuel ∧ it'.yielded + es.length = m.count := by
  unfold next
  cases hes : bs.flatten with
  | nil =>
    rw [hes] at hcount
    exact if_pos hcount.ge
  | cons =>
    rw [hes, length_cons] at hcount
    obtain ⟨it', bs', hloop, hpend, hes', _⟩ := loop_spec h hfuel hes
    rw [if_neg (by omega), hloop]
    exact ⟨it', bs', rfl, hpend, hes', by omega, by omega⟩

theorem collect_spec {m : Map K V} (h : Pending m it bs) (hfuel : bs.length < fuel)
    (hcount : it.yielded + bs.flatten.length = m.count) (n : Nat)
    : it.collect fuel m (bs.flatten.length + n) = some (bs.flatten.map some ++ replicate n none) := by
  have hnext := next_spec h hfuel hcount
  generalize hes : bs.flatten = es at *
  induction es generalizing it bs with
  | nil =>
    rw [length_nil, zero_add]
    induction n with
    | zero => rfl
    | succ n ih =>
      rw [collect, hnext]
      dsimp only
      rw [ih]
      rfl
  | cons _ _ ih =>
    obtain ⟨_, _, hnext, hpend, rfl, hfuel', hcount'⟩ := hnext
    rw [length_cons, Nat.succ_add, collect, hnext]
    dsimp only
    rw [ih hpend hfuel' rfl hcount' (next_spec hpend hfuel' hcount')]
    rfl

theorem new_pending (hcount : m.count = m.entries.length) (rand0 rand1 : Nat)
    : ∃ bs, Pending m (.new m rand0 rand1) bs ∧ bs.flatten.Perm m.entries ∧ bs.length = m.totalBuckets ∧
        (MapRefIter.new m rand0 rand1).yielded + bs.flatten.length = m.count := by
  generalize hit : MapRefIter.new m rand0 rand1 = it
  have hstart : it.overflow = none ∧ it.slot = 0 ∧ it.visitedBuckets = 0 ∧ it.yielded = 0 := by
    rw [← hit]
    exact ⟨rfl, rfl, rfl, rfl⟩
  have hchains := chainsFrom_perm m it.startBucket
  rw [← hstart.2.2.1] at hchains
  have hperm : (it.rest m).flatten.Perm m.entries := by
    unfold rest Map.entries
    rw [← flatMap_id, flatMap_assoc]
    simp only [flatMap_id]
    exact (hchains.flatMap_right _).trans (List.Perm.flatMap_left _ fun c _ => chainFrom_perm c _)
  refine ⟨it.rest m, .between hstart.1 hstart.2.1, hperm, ?_, ?_⟩
  . unfold rest Map.totalBuckets
    rw [length_flatMap]
    apply (hchains.map _).sum_nat.trans
    simp only [chainFrom, length_map, length_range', Nat.sub_zero]
  . rw [hstart.2.2.2, zero_add, hcount, hperm.length_eq]

end MapRefIter

open MapRefIter in
theorem iterates_once [GoHash K] [BEq K] [Inhabited V] {m : Map K V}
    (h : (Map.system (fun _ _ => True) hash0 zero).Reachable m) (rand0 rand1 : Nat)
    (hfuel : m.totalBuckets < fuel) : ∃ es : List (K × V), es.Perm m.entries ∧
        ∀ n, (MapRefIter.new m rand0 rand1).collect fuel m (m.len + n)
          = some (es.map some ++ replicate n none) := by
  have hcount := (Map.inv_of_reachable h).1.count
  obtain ⟨bs, hpend, hperm, hlen, htotal⟩ := new_pending hcount rand0 rand1
  refine ⟨bs.flatten, hperm, ?_⟩
  intro n
  have hes : m.len = bs.flatten.length := hcount.trans hperm.length_eq.symm
  rw [hes]
  exact collect_spec hpend (hlen.trans_lt hfuel) htotal n

theorem iterates_once_two : let m : Map Bool Nat := ((Map.new 7 (some 0)).set true 1).set false 2
      ∃ es : List (Bool × Nat), es.length = 2 ∧
        ∀ n, (MapRefIter.new m 5 3).collect 2 m (2 + n) = some (es.map some ++ replicate n none) := by
  intro m
  have h : (Map.system (fun _ _ => True) 7 (some 0)).Reachable m :=
    .step (.step (.init rfl) ⟨.set true 1, trivial, rfl⟩) ⟨.set false 2, trivial, rfl⟩
  obtain ⟨es, hperm, hes⟩ := iterates_once h 5 3 (show m.totalBuckets < 2 by decide +kernel)
  exact ⟨es, hperm.length_eq.trans (by decide +kernel), hes⟩

namespace Map

variable [GoHash K] [BEq K] {m : Map K V}

theorem setAll_spec (h : m.Inv) (l : List (K × V)) (hd : Distinct (m.entries ++ l))
    : let m' := l.foldl (fun m e => m.set e.1 e.2) m
      m'.Inv ∧ m'.entries.Perm (m.entries ++ l) ∧ m'.zero = m.zero := by
  induction l generalizing m with
  | nil =>
    rw [append_nil]
    exact ⟨h, .refl _, rfl⟩
  | cons e l ih =>
    have hr := prepare_rehashed h
    have hperm := hr.perm (hd.sublist (sublist_append_left ..))
    obtain ⟨hput, hup, -⟩ := write_spec h e.1 fun _ => e.2
    have hmove : ((m.set e.1 e.2).entries ++ l).Perm (m.entries ++ e :: l) := by
      have hadd := hput.perm_of_distinct (hd.perm (hperm.symm.append_right _))
      exact ((hadd.trans (hperm.cons e)).append_right l).trans perm_middle.symm
    obtain ⟨hinv, hperm', hzero⟩ := ih hup.inv (hd.perm hmove.symm)
    exact ⟨hinv, hperm'.trans hmove, hzero.trans (hup.zero.trans hr.zero)⟩

theorem clone_loop_spec (h : MapRefIter.Pending m it bs) (hfuel : bs.length < fuel)
    (hcount : it.yielded + bs.flatten.length = m.count) (hn : bs.flatten.length < n) (out : Map K V)
    : clone.loop fuel m n it out = some (bs.flatten.foldl (fun m e => m.set e.1 e.2) out) := by
  have hnext := MapRefIter.next_spec h hfuel hcount
  generalize hes : bs.flatten = es at *
  induction es generalizing it bs n out with
  | nil =>
    rcases n with _ | _
    . contradiction
    rw [clone.loop, hnext]
    rfl
  | cons _ _ ih =>
    obtain ⟨_, _, hnext, hpend, rfl, hfuel', hcount'⟩ := hnext
    rcases n with _ | _
    . contradiction
    rw [clone.loop, hnext]
    exact ih hpend hfuel' _ rfl hcount' (Nat.lt_of_succ_lt_succ hn) (MapRefIter.next_spec hpend hfuel' hcount')

theorem clone_spec [Inhabited V] (h : m.Inv) (hd : Distinct m.entries) (hash0 : UInt32) (rand0 rand1 : Nat)
    (hfuel : m.totalBuckets + m.len < fuel)
    : ∃ m', m.clone fuel hash0 rand0 rand1 = some m' ∧ m'.Inv ∧ m'.entries.Perm m.entries ∧
        m'.zero = some default := by
  obtain ⟨bs, hpend, hperm, _, hcount⟩ := MapRefIter.new_pending h.count rand0 rand1
  have hlen' : m.len = bs.flatten.length := h.count.trans hperm.length_eq.symm
  obtain ⟨hinv, hperm', hzero⟩ := setAll_spec (m := new hash0 (some default)) (new_inv _ _) bs.flatten
    (hd.perm hperm.symm)
  exact ⟨_, clone_loop_spec hpend (by omega) hcount (by omega) _, hinv, hperm'.trans hperm, hzero⟩

end Map

end GoMap
