import Goish.GoMap.Lemmas.Map

open List

namespace GoMap

namespace Map

theorem Packed.overflowBuckets_lt {m : Map K V} (hp : m.Packed)
    : m.overflowBuckets = 0 ∨ bucketCount * m.overflowBuckets < m.entries.length := by
  unfold Packed overflowBuckets entries at *
  generalize m.buckets = l at *
  induction l with
  | nil => exact .inl rfl
  | cons c l ih =>
    have hc := (hp c mem_cons_self).length_entries
    have hl := ih fun d hd => hp d (mem_cons_of_mem _ hd)
    rw [map_cons, sum_cons, flatMap_cons, length_append]
    unfold bucketCount at *
    omega

variable [GoHash K]

def Collapses (m : Map K V) : Prop :=
  Room m.b (m.count + 1) ∧ m.tooManyOverflowBuckets = true

theorem Packed.overflowBuckets_small {m : Map K V} (hp : m.Packed) (h : m.Inv) (hsmall : m.count ≤ 2 ^ 18)
    : m.overflowBuckets < 2 ^ 15 := by
  have hlt := hp.overflowBuckets_lt
  rw [← h.count] at hlt
  unfold bucketCount at hlt
  omega

theorem Packed.tooMany_eq_false {m : Map K V} (hp : m.Packed) (h : m.Inv) (hroom : Room m.b m.count)
    (hsmall : m.count ≤ 2 ^ 18) : m.tooManyOverflowBuckets = false := by
  have hlt := hp.overflowBuckets_lt
  rw [← h.count] at hlt
  have hover := hp.overflowBuckets_small h hsmall
  have hpos : 0 < 2 ^ m.b := Nat.two_pow_pos _
  unfold tooManyOverflowBuckets
  rw [h.noverflow, Nat.mod_eq_of_lt (by omega)]
  rw [decide_eq_false_iff_not, not_le]
  split
  . exact hover
  . unfold Room bucketCount loadFactorDen loadFactorNum at *
    omega

theorem overflowBuckets_lt_of_tooMany {m : Map K V} (h : m.Inv) (hover : m.overflowBuckets ≤ 2 ^ 15)
    (hmany : m.tooManyOverflowBuckets = false) : m.overflowBuckets < 2 ^ 15 := by
  unfold tooManyOverflowBuckets at hmany
  rw [h.noverflow, Nat.mod_eq_of_lt (by omega)] at hmany
  rw [decide_eq_false_iff_not, not_le] at hmany
  apply hmany.trans_le
  apply Nat.pow_le_pow_right (by decide)
  split <;> omega

variable [BEq K]

theorem prepare_overflow {m : Map K V} (h : m.Inv) (hover : m.overflowBuckets ≤ 2 ^ 15)
    (hsmall : m.count ≤ 2 ^ 18) : m.prepare.overflowBuckets < 2 ^ 15 := by
  obtain ⟨hopen, -, hsame, -⟩ := opened_spec h
  have hgrow : ∀ sameSize, (m.opened.grow sameSize).overflowBuckets < 2 ^ 15 := by
    intro sameSize
    obtain ⟨hr, hp, -⟩ := m.opened.grow_spec sameSize
    apply hp.overflowBuckets_small hr.inv
    exact (hr.count_le hopen.inv).trans ((hopen.count_le h).trans hsmall)
  obtain ⟨heq, -⟩ | ⟨-, heq | ⟨heq, hmany⟩⟩ := m.prepare_cases
  . rw [heq]
    exact hgrow false
  . rw [heq]
    exact hgrow true
  . rw [heq]
    exact overflowBuckets_lt_of_tooMany hopen.inv (hsame ▸ hover) hmany

def Small (m : Map K V) (op : Op K V) : Prop :=
  op.key?.isSome = true → m.count + 1 ≤ 2 ^ 18

theorem prepare_eq_of_collapses {m : Map K V} (h : m.Collapses) : m.prepare = m.opened.grow true := by
  obtain ⟨hroom, hmany⟩ := h
  have hopen : m.opened.b = m.b ∧ m.opened.count = m.count ∧
      m.opened.tooManyOverflowBuckets = m.tooManyOverflowBuckets := by
    unfold opened
    split
    all_goals exact ⟨rfl, rfl, rfl⟩
  rw [← hopen.1, ← hopen.2.1] at hroom
  rw [← hopen.2.2] at hmany
  obtain ⟨-, _⟩ | ⟨-, heq | ⟨-, hfew⟩⟩ := m.prepare_cases
  . contradiction
  . exact heq
  . rw [hmany] at hfew
    contradiction

variable [Inhabited V]

theorem small_inv {m : Map K V} {hash0 : UInt32} {zero : Option V} (h : (system Small hash0 zero).Reachable m)
    : m.count ≤ 2 ^ 18 ∧ m.overflowBuckets ≤ 2 ^ 15 := by
  suffices hinv : m.Inv ∧ m.count ≤ 2 ^ 18 ∧ m.overflowBuckets ≤ 2 ^ 15 from hinv.2
  apply h.invariant fun m => m.Inv ∧ m.count ≤ 2 ^ 18 ∧ m.overflowBuckets ≤ 2 ^ 15
  . rintro _ rfl
    exact ⟨new_inv hash0 zero, Nat.zero_le _, Nat.zero_le _⟩
  rintro m _ ⟨hinv, hcount, hover⟩ ⟨op, hsmall, rfl⟩
  obtain ⟨key, f, hkey, heq⟩ | ⟨-, hemp, -⟩ := exec_cases hinv op
  . obtain ⟨-, hup, _⟩ := write_spec hinv key f
    have hone := hsmall (by rw [hkey]; rfl)
    have hprep := (prepare_rehashed hinv).count_le hinv
    have hlt := prepare_overflow hinv hover hcount
    rw [heq]
    exact ⟨hup.inv, by omega, by omega⟩
  . exact ⟨hemp.inv, hemp.count_le.trans hcount, hemp.overflowBuckets.trans_le hover⟩

theorem rehash_settles {m : Map K V} {hash0 : UInt32} {zero : Option V}
    (h : (system Small hash0 zero).Reachable m) : (m.grow true).tooManyOverflowBuckets = false ∧
        (∀ op, Small m op → op.key?.isSome = true → m.Collapses → ¬ (m.exec op).Collapses) ∧
        m.noverflow = m.overflowBuckets ∧ (m.grow true).noverflow = (m.grow true).overflowBuckets := by
  obtain ⟨hinv, hroom⟩ := inv_of_reachable h
  obtain ⟨hcount, _⟩ := small_inv h
  obtain ⟨hr, hp, hb⟩ := m.grow_spec true
  have hle := hr.count_le hinv
  refine ⟨?_, ?_, ?_, ?_⟩
  . apply hp.tooMany_eq_false hr.inv _ (hle.trans hcount)
    rw [hb]
    exact hroom.of_le hle
  . intro op hsmall hkey hcol hcol'
    obtain ⟨key, f, -, heq⟩ | ⟨hnone, -⟩ := exec_cases hinv op
    . obtain ⟨-, hup, -, hcount'⟩ := write_spec hinv key f
      have hone := hsmall hkey
      have hprep := (prepare_rehashed hinv).count_le hinv
      have hpacked : m.prepare.Packed := by
        rw [prepare_eq_of_collapses hcol]
        exact (m.opened.grow_spec true).2.1
      rw [heq] at hcol'
      apply Bool.false_ne_true
      rw [← hcol'.2, (hup.packed hpacked).tooMany_eq_false hup.inv _ (by omega)]
      rw [hup.b]
      exact (prepare_room hinv hroom).of_le hcount'
    . rw [hnone] at hkey
      contradiction
  . rw [hinv.noverflow, Nat.mod_eq_of_lt (by omega)]
  . have hlt := hp.overflowBuckets_small hr.inv (hle.trans hcount)
    rw [hr.inv.noverflow, Nat.mod_eq_of_lt (by omega)]

-- Nine keys of one bucket have an overflow bucket. A collapse takes `2 ^ 15` of them.
theorem rehash_settles_nine : ∃ m : Map (List UInt8) Nat, (system Small 7 (some 0)).Reachable m ∧ m.overflowBuckets = 1 ∧
      (m.grow true).tooManyOverflowBuckets = false ∧ m.noverflow = m.overflowBuckets := by
  obtain ⟨m, hrun, hm⟩ := System.exists_run (system Small 7 (some 0))
    (fun m op => if m.count + 1 ≤ 2 ^ 18 then some (m.exec op) else none)
    (fun m op t h => by
      obtain ⟨hsmall, ht⟩ := Option.ite_none_right_eq_some.mp h
      exact ⟨op, fun _ => hsmall, (Option.some.inj ht).symm⟩)
    (new 7 (some 0)) ([0, 2, 4, 6, 8, 10, 12, 14, 16].map fun b => Op.set [b] 0 : List (Op (List UInt8) Nat))
    (fun m => m.overflowBuckets = 1) (by decide +kernel)
  have h := System.Reachable.trans (.init rfl) hrun
  obtain ⟨hmany, -, hover, -⟩ := rehash_settles h
  exact ⟨m, h, by simpa using hm, hmany, hover⟩

end Map

structure Flat where
  id : Nat
  deriving DecidableEq

instance : GoHash Flat where
  goHash _ _ := 0

namespace Map

theorem overflowBuckets_flat {m : Map Flat V} (h : m.Inv) (hp : m.Packed)
    : m.overflowBuckets = (m.count - 1) / bucketCount := by
  have htail : ∀ i, ∀ c : Chain Flat V, m.buckets[i + 1]? = some c → c.entries = [] ∧ c.overflow = 0 := by
    intro i c hc
    have hnil : c.entries = [] := by
      rw [eq_nil_iff_forall_not_mem]
      intro e he
      have hidx := ((h.chains (i + 1) c hc).mem_entries he).1
      rw [show (m.hash e.1).toNat = 0 from rfl, Nat.zero_and] at hidx
      contradiction
    have hlt := (hp c (mem_of_getElem? hc)).length_entries
    rw [hnil] at hlt
    exact ⟨hnil, hlt.resolve_right (Nat.not_lt_zero _)⟩
  rw [h.count]
  unfold overflowBuckets entries
  unfold Packed at hp
  generalize m.buckets = l at *
  cases l with
  | nil => simp
  | cons c l =>
    have hc := (hp c mem_cons_self).length_entries
    have hle := c.length_entries_le
    have hsum : (l.map Chain.overflow).sum = 0 := by
      rw [List.sum_eq_zero_iff_forall_eq_nat]
      intro n hn
      obtain ⟨d, hd, rfl⟩ := mem_map.mp hn
      obtain ⟨i, hi⟩ := mem_iff_getElem?.mp hd
      exact (htail i d hi).2
    have hentries : l.flatMap Chain.entries = [] := by
      rw [flatMap_eq_nil_iff]
      intro d hd
      obtain ⟨i, hi⟩ := mem_iff_getElem?.mp hd
      exact (htail i d hi).1
    rw [map_cons, sum_cons, hsum, flatMap_cons, hentries, append_nil]
    unfold bucketCount at *
    omega

def fill (hash0 : UInt32) : Nat → Map Flat Unit
  | 0 => new hash0 none
  | n + 1 => (fill hash0 n).set ⟨n⟩ ()

theorem fill_spec (hash0 : UInt32) (n : Nat)
    : (system (fun _ _ => True) hash0 none).Reachable (fill hash0 n) ∧ (fill hash0 n).Packed ∧
        (fill hash0 n).count = n ∧ Distinct (fill hash0 n).entries ∧ ∀ e ∈ (fill hash0 n).entries, e.1.id < n := by
  induction n with
  | zero =>
    refine ⟨.init rfl, ?_, rfl, .nil, ?_⟩
    . intro _ _
      contradiction
    . intro _ _
      contradiction
  | succ n ih =>
    obtain ⟨hr, hp, hcount, hd, hlt⟩ := ih
    have hinv := (inv_of_reachable hr).1
    have hrehash := prepare_rehashed hinv
    have hperm := hrehash.perm hd
    obtain ⟨hput, hup, -⟩ := write_spec hinv (⟨n⟩ : Flat) fun _ => ()
    have hadd : (fill hash0 (n + 1)).entries.Perm ((⟨n⟩, ()) :: (fill hash0 n).entries) := by
      cases hput with
      | @replaced _ k v _ hold heq =>
        have hk := hlt (k, v) (hperm.mem_iff.mp (by rw [hold]; simp))
        rw [eq_of_beq heq] at hk
        exact absurd hk (lt_irrefl n)
      | added _ hnew => exact hnew.trans (hperm.cons _)
    refine ⟨hr.step ⟨.set ⟨n⟩ (), trivial, rfl⟩, hup.packed (prepare_packed hinv hp), ?_, ?_, ?_⟩
    . apply (hup.inv.count.trans hadd.length_eq).trans
      rw [length_cons, ← hinv.count, hcount]
    . apply Distinct.perm _ hadd.symm
      apply List.Pairwise.cons _ hd
      intro e he
      have hne : e.1 ≠ ⟨n⟩ := fun heq => (hlt e he).ne (congrArg Flat.id heq)
      exact ⟨beq_eq_false_iff_ne.mpr hne.symm, beq_eq_false_iff_ne.mpr hne⟩
    . intro e he
      rcases mem_cons.mp (hadd.mem_iff.mp he) with heq | he
      . rw [heq]
        exact Nat.lt_succ_self n
      . exact Nat.lt_succ_of_lt (hlt e he)

theorem exists_flat (hash0 : UInt32) (n : Nat)
    : ∃ m : Map Flat Unit, (system (fun _ _ => True) hash0 none).Reachable m ∧
        m.overflowBuckets = (n - 1) / bucketCount ∧ m.noverflow = (n - 1) / bucketCount % 2 ^ 16 ∧
        (m.grow true).noverflow = (n - 1) / bucketCount % 2 ^ 16 := by
  obtain ⟨hr, hp, hcount, hd, -⟩ := fill_spec hash0 n
  have hinv := (inv_of_reachable hr).1
  obtain ⟨hrehash, hp', -⟩ := (fill hash0 n).grow_spec true
  have hcount' : ((fill hash0 n).grow true).count = n := by
    rw [hrehash.inv.count, (hrehash.perm hd).length_eq, ← hinv.count, hcount]
  refine ⟨fill hash0 n, hr, ?_, ?_, ?_⟩
  . rw [overflowBuckets_flat hinv hp, hcount]
  . rw [hinv.noverflow, overflowBuckets_flat hinv hp, hcount]
  . rw [hrehash.inv.noverflow, overflowBuckets_flat hrehash.inv hp', hcount']

theorem rehash_repeats : (∃ m : Map Flat Unit, (system (fun _ _ => True) 0 none).Reachable m ∧
          (m.grow true).tooManyOverflowBuckets = true) ∧
        ∃ m : Map Flat Unit, (system (fun _ _ => True) 0 none).Reachable m ∧
          m.overflowBuckets = 2 ^ 16 ∧ m.noverflow = 0 := by
  constructor
  . obtain ⟨m, hr, -, -, hover⟩ := exists_flat 0 (2 ^ 18 + 1)
    refine ⟨m, hr, ?_⟩
    unfold tooManyOverflowBuckets
    rw [hover]
    rw [decide_eq_true_iff]
    apply (Nat.pow_le_pow_right (n := 2) (j := 15) (by decide) _).trans
    . decide
    . split <;> omega
  . obtain ⟨m, hr, hbuckets, hover, -⟩ := exists_flat 0 (2 ^ 19 + 1)
    exact ⟨m, hr, hbuckets, hover⟩

end Map

end GoMap
