import Goish.Data.System
import Goish.Runtime.MHeap.Lemmas.PageOps
import Goish.Runtime.MHeap.Lemmas.PageFind

open List FreeRun

namespace MHeap

structure PageHeap where
  alloc : PageAlloc
  held : List (Nat × Nat)

namespace PageHeap

inductive Step : PageHeap → PageHeap → Prop where
  | grow (hk : s.alloc.endChunk + k ≤ s.alloc.capacityChunks)
    : Step s { s with alloc := s.alloc.grow k }
  | alloc (hn : 1 ≤ npages) (ha : s.alloc.alloc npages = (addr, p)) (hne : addr ≠ allocFailed)
    : Step s { alloc := p, held := (addr, npages) :: s.held }
  | allocFailed (hn : 1 ≤ npages) (ha : s.alloc.alloc npages = (MHeap.allocFailed, p))
    : Step s { s with alloc := p }
  | free (hheld : (addr, npages) ∈ s.held)
    : Step s { alloc := s.alloc.free addr npages, held := s.held.erase (addr, npages) }

end PageHeap

def pageSystem (arenaBase nChunks maxChunks : Nat) : System PageHeap where
  init s := s = { alloc := PageAlloc.new arenaBase nChunks maxChunks, held := [] }
  step := PageHeap.Step

def PagesDisjoint (x y : Nat × Nat) : Prop :=
  x.1 + x.2 * pageSize ≤ y.1 ∨ y.1 + y.2 * pageSize ≤ x.1

def PageAlloc.FreeRunAt (p : PageAlloc) (npages addr : Nat) : Prop :=
  ∃ (q : Nat),
    addr = p.arenaBase + q * pageSize ∧
    q + npages ≤ p.endChunk * pallocChunkPages ∧
    ∀ (i : Nat), q ≤ i → i < q + npages → p.pageBit i = false

namespace PageAlloc

variable {p p' : PageAlloc}

theorem pageFree_run (hn : 1 ≤ n)
    : Run p.pageFree q n ↔ q + n ≤ p.endChunk * 512 ∧ ∀ i, q ≤ i → i < q + n → p.pageBit i = false := by
  have hiff (i : Nat) : p.pageFree i = true ↔ i < p.endChunk * 512 ∧ p.pageBit i = false := by
    simp [pageFree_eq]
  constructor
  . intro hr
    have := (hiff _).mp (hr (q + n - 1) (by omega) (by omega))
    exact ⟨by omega, fun i h1 h2 => ((hiff i).mp (hr i h1 h2)).2⟩
  . exact fun ⟨_, hbits⟩ i h1 h2 => (hiff i).mpr ⟨by omega, hbits i h1 h2⟩

theorem freeRunAt_iff (hn : 1 ≤ n)
    : p.FreeRunAt n a ↔ ∃ (q : Nat), a = p.arenaBase + q * pageSize ∧ Run p.pageFree q n := by
  simp only [pageFree_run hn]
  rfl

theorem Inv.run_le (h : Inv p) (hcap : p.chunksCapacity * 512 ≤ 2 ^ 35) (hn : 1 ≤ n)
    (hr : Run p.pageFree q n) : q + n ≤ 2 ^ 35 := by
  have hend := ((pageFree_run hn).mp hr).1
  have hle := Nat.mul_le_mul_right 512 h.endChunk_le
  exact le_trans hend (le_trans hle hcap)

theorem alloc_failed_iff (h : Inv p) (hn : 1 ≤ npages) (hbase : 0 < p.arenaBase)
    (hcap : p.chunksCapacity * 512 ≤ 2 ^ 35) : (p.alloc npages).1 = allocFailed ↔ ∀ q, ¬ Run p.pageFree q npages := by
  obtain ⟨r, hfit, hfind⟩ := find_firstFit h hn
  have hfst : (p.alloc npages).1 = p.find npages := by
    unfold alloc
    dsimp only
    split
    . next h0 => exact h0.symm
    . rfl
  rw [hfst, hfind]
  cases r with
  | none =>
    refine ⟨?_, by intro; rfl⟩
    intro _ q hr
    exact hfit q (Nat.zero_le q) (h.run_le hcap hn hr) hr
  | some q =>
    constructor
    . intro h0
      unfold allocFailed at h0
      dsimp only at h0
      omega
    . intro hno
      exact absurd hfit.2.2.1 (hno q)

theorem alloc_failed (ha : p.alloc npages = (allocFailed, p')) : p' = p := by
  unfold alloc at ha
  dsimp only at ha
  split at ha
  . exact (Prod.mk.inj ha).2.symm
  . next hne => exact absurd (Prod.mk.inj ha).1 hne

theorem alloc_some (h : Inv p) (hn : 1 ≤ npages) (ha : p.alloc npages = (addr, p'))
    (hne : addr ≠ allocFailed) : ∃ (q : Nat),
        addr = p.arenaBase + q * pageSize ∧
        FirstFit p.pageFree 0 (2 ^ 35) npages (some q) ∧
        Inv p' ∧
        SameHeap (p.mapChunks PallocBits.allocRange q npages) p' := by
  obtain ⟨r, hfit, hfind⟩ := find_firstFit h hn
  unfold alloc at ha
  dsimp only at ha
  split at ha
  . exact absurd (Prod.mk.inj ha).1.symm hne
  next hsome =>
  rcases r with _ | q
  . contradiction
  rw [hfind] at ha
  obtain ⟨h1, h2⟩ := Prod.mk.inj ha
  have hend := ((pageFree_run hn).mp hfit.2.2.1).1
  have hspec := allocRange_spec h hn hend
  rw [h2] at hspec
  exact ⟨q, h1.symm, hfit, hspec⟩

theorem alloc_at (h : Inv p) (hn : 1 ≤ n) (hbase : 0 < p.arenaBase) (hcap : p.chunksCapacity * 512 ≤ 2 ^ 35)
    (hrun : Run p.pageFree q n) (hleast : ∀ x < q, ¬ Run p.pageFree x n)
    : ∃ p', p.alloc n = (p.arenaBase + q * pageSize, p') ∧ Inv p' ∧
        SameHeap (p.mapChunks PallocBits.allocRange q n) p' := by
  generalize ha : p.alloc n = a
  obtain ⟨addr, p'⟩ := a
  have hne : addr ≠ allocFailed := by
    have hiff := alloc_failed_iff h hn hbase hcap
    rw [ha] at hiff
    exact fun h0 => hiff.mp h0 q hrun
  obtain ⟨x, haddr, hfit, hinv, hs⟩ := alloc_some h hn ha hne
  have hx : x = q := by
    rcases lt_trichotomy x q with hlt | heq | hgt
    . exact absurd hfit.2.2.1 (hleast x hlt)
    . exact heq
    . exact absurd hrun (hfit.2.2.2 q (Nat.zero_le q) hgt)
  subst hx
  exact ⟨p', by rw [haddr], hinv, hs⟩

structure Holds (p : PageAlloc) (x : Nat × Nat) (q : Nat) : Prop where
  base : x.1 = p.arenaBase + q * pageSize
  pos : 1 ≤ x.2
  active : q + x.2 ≤ p.endChunk * 512
  used : ∀ i, q ≤ i → i < q + x.2 → p.pageBit i = true

theorem Holds.mono (h : Holds p x q) (hbase : p'.arenaBase = p.arenaBase) (hend : p.endChunk ≤ p'.endChunk)
    (hbit : ∀ i, q ≤ i → i < q + x.2 → p.pageBit i = true → p'.pageBit i = true) : Holds p' x q where
  base := by
    rw [hbase]
    exact h.base
  pos := h.pos
  active := le_trans h.active (Nat.mul_le_mul_right 512 hend)
  used := by
    intro i h1 h2
    exact hbit i h1 h2 (h.used i h1 h2)

end PageAlloc

namespace PageHeap

structure Inv (arenaBase maxChunks : Nat) (s : PageHeap) : Prop where
  alloc : s.alloc.Inv
  arenaBase_eq : s.alloc.arenaBase = arenaBase
  capacity_eq : s.alloc.chunksCapacity = maxChunks
  held : ∀ x ∈ s.held, ∃ (q : Nat), s.alloc.Holds x q
  disjoint : s.held.Pairwise PagesDisjoint

section Step

variable {s : PageHeap} (h : Inv arenaBase maxChunks s)
include h

theorem Inv.capacity_le (hspace : arenaBase + maxChunks * pallocChunkBytes ≤ 2 ^ heapAddrBits)
    : s.alloc.chunksCapacity * 512 ≤ 2 ^ 35 := by
  rw [h.capacity_eq]
  rw [pallocChunkBytes_eq, show heapAddrBits = 48 by rfl] at hspace
  omega

theorem grow_inv (hk : s.alloc.endChunk + k ≤ s.alloc.capacityChunks)
    : Inv arenaBase maxChunks { s with alloc := s.alloc.grow k } := by
  obtain ⟨hinv, hs⟩ := PageAlloc.grow_spec h.alloc hk
  have hend : s.alloc.endChunk ≤ (s.alloc.grow k).endChunk := by
    rw [hs.endChunk]
    exact Nat.le_add_right _ k
  refine ⟨hinv, hs.arenaBase.trans h.arenaBase_eq, hs.chunksCapacity.trans h.capacity_eq, ?_, h.disjoint⟩
  intro x hx
  obtain ⟨q, hq⟩ := h.held x hx
  refine ⟨q, hq.mono hs.arenaBase hend ?_⟩
  intro i _ _ hi
  unfold PageAlloc.pageBit at *
  rwa [hs.chunks]

theorem alloc_inv (hn : 1 ≤ npages) (ha : s.alloc.alloc npages = (addr, p)) (hne : addr ≠ allocFailed)
    : Inv arenaBase maxChunks { alloc := p, held := (addr, npages) :: s.held } := by
  obtain ⟨q, haddr, hfit, hinv, hs⟩ := PageAlloc.alloc_some h.alloc hn ha hne
  obtain ⟨hend, hfree⟩ := (PageAlloc.pageFree_run hn).mp hfit.2.2.1
  have hbit := PageAlloc.pageBit_allocRange hn hs
  have hnew : p.Holds (addr, npages) q := {
    base := by
      rwa [hs.arenaBase]
    pos := hn
    active := by
      rwa [hs.endChunk]
    used := by
      intro i h1 h2
      rw [hbit, decide_eq_true ⟨h1, h2⟩, Bool.or_true]
  }
  refine ⟨hinv, hs.arenaBase.trans h.arenaBase_eq, hs.chunksCapacity.trans h.capacity_eq, ?_,
    pairwise_cons.mpr ⟨?_, h.disjoint⟩⟩
  . intro x hx
    rcases mem_cons.mp hx with heq | hx
    . rw [heq]
      exact ⟨q, hnew⟩
    . obtain ⟨r, hr⟩ := h.held x hx
      refine ⟨r, hr.mono hs.arenaBase (le_of_eq hs.endChunk.symm) ?_⟩
      intro i _ _ hi
      rw [hbit, hi, Bool.true_or]
  intro x hx
  obtain ⟨r, hr⟩ := h.held x hx
  -- A page of both would be free and in use.
  have hor : q + npages ≤ r ∨ r + x.2 ≤ q := by
    have hpos := hr.pos
    rcases lt_or_ge r (q + npages) with _ | hge
    . rcases lt_or_ge q (r + x.2) with _ | hge
      . have h1 := hfree (max q r) (by omega) (by omega)
        rw [hr.used (max q r) (by omega) (by omega)] at h1
        contradiction
      . exact Or.inr hge
    . exact Or.inl hge
  have hbase := hr.base
  unfold PagesDisjoint
  rw [pageSize_eq] at *
  omega

theorem free_inv (hheld : (addr, npages) ∈ s.held) : Inv arenaBase maxChunks
        { alloc := s.alloc.free addr npages, held := s.held.erase (addr, npages) } := by
  obtain ⟨q, hq⟩ := h.held _ hheld
  have haddr : addr = s.alloc.arenaBase + q * pageSize := hq.base
  obtain ⟨hinv, hs⟩ := PageAlloc.free_spec h.alloc hq.pos hq.active
  rw [← haddr] at hinv hs
  have hbit := PageAlloc.pageBit_free hq.pos hs
  have hsymm : ∀ {x y}, PagesDisjoint x y → PagesDisjoint y x := Or.symm
  have hpair := ((perm_cons_erase hheld).pairwise_iff hsymm).mp h.disjoint
  rw [pairwise_cons] at hpair
  refine ⟨hinv, hs.arenaBase.trans h.arenaBase_eq, hs.chunksCapacity.trans h.capacity_eq, ?_, hpair.2⟩
  intro x hx
  obtain ⟨r, hr⟩ := h.held x (mem_of_mem_erase hx)
  refine ⟨r, hr.mono hs.arenaBase (le_of_eq hs.endChunk.symm) ?_⟩
  intro _ _ _ hi
  have hdis := hpair.1 x hx
  have hbase := hr.base
  unfold PagesDisjoint at hdis
  rw [pageSize_eq] at *
  rw [hbit, hi, decide_eq_false (by omega)]
  rfl

end Step

theorem reachable_inv (halign : arenaBase % pallocChunkBytes = 0) (hle : nChunks ≤ maxChunks)
    (h : (pageSystem arenaBase nChunks maxChunks).Reachable s) : Inv arenaBase maxChunks s := by
  apply h.invariant (Inv arenaBase maxChunks)
  . intro s hs
    obtain ⟨hinv, hsame⟩ := PageAlloc.new_spec halign hle
    rw [show s = _ from hs]
    exact ⟨hinv, hsame.arenaBase, hsame.chunksCapacity, by simp, List.Pairwise.nil⟩
  intro s t hs hstep
  cases hstep with
  | grow hk => exact grow_inv hs hk
  | alloc hn ha hne => exact alloc_inv hs hn ha hne
  | allocFailed _ ha =>
    rwa [PageAlloc.alloc_failed ha]
  | free hheld => exact free_inv hs hheld

end PageHeap

/-- A small arena with one of two chunks active, whose pages in use are those of `used`. -/
structure Small (s : PageHeap) (used : Nat → Prop) : Prop where
  reachable : (pageSystem (2 ^ 30) 1 2).Reachable s
  summaryLen : 0 < s.alloc.summaryLen 0
  endChunk : s.alloc.endChunk = 1
  bits : ∀ i, s.alloc.pageBit i = true ↔ used i

namespace Small

theorem inv (h : Small s used) : s.Inv (2 ^ 30) 2 :=
  PageHeap.reachable_inv (by decide) (by decide) h.reachable

theorem run_iff (h : Small s used) (hn : 1 ≤ n)
    : Run s.alloc.pageFree q n ↔ q + n ≤ 512 ∧ ∀ i, q ≤ i → i < q + n → ¬used i := by
  simp only [PageAlloc.pageFree_run hn, h.endChunk, one_mul, ← h.bits, Bool.not_eq_true]

theorem alloc (h : Small s (· < q)) (hq : q < 512)
    : ∃ t : PageHeap, Small t (· < q + 1) ∧ t.held = (2 ^ 30 + q * pageSize, 1) :: s.held := by
  have hinv := h.inv
  have hbase := hinv.arenaBase_eq
  obtain ⟨p, ha, -, hs⟩ := PageAlloc.alloc_at hinv.alloc (Nat.le_refl 1) (by rw [hbase]; decide)
    (hinv.capacity_le (by decide)) ((h.run_iff (Nat.le_refl 1)).mpr ⟨hq, fun i _ _ => by omega⟩) fun x hx hr =>
      ((h.run_iff (Nat.le_refl 1)).mp hr).2 x (Nat.le_refl x) (by omega) hx
  rw [hbase] at ha
  refine ⟨⟨p, _⟩, ⟨.step h.reachable (.alloc (Nat.le_refl 1) ha ?_), ?_, hs.endChunk.trans h.endChunk, ?_⟩, rfl⟩
  . unfold allocFailed
    omega
  . rw [hs.summaryLen]
    exact h.summaryLen
  . intro i
    rw [PageAlloc.pageBit_allocRange (Nat.le_refl 1) hs, Bool.or_eq_true, h.bits, decide_eq_true_eq]
    omega

/-- Two of three pages are in use, and the one between them was freed. -/
theorem exists_hole : ∃ s, Small s (fun i => i = 0 ∨ i = 2) ∧
      s.held = [(2 ^ 30 + 2 * pageSize, 1), (2 ^ 30 + 0 * pageSize, 1)] := by
  obtain ⟨hinv, hs⟩ := PageAlloc.new_spec (by decide : 2 ^ 30 % pallocChunkBytes = 0) (by decide : 1 ≤ 2)
  have hnew : Small { alloc := .new (2 ^ 30) 1 2, held := [] } (· < 0) := by
    refine ⟨.init rfl, by rw [hs.summaryLen]; decide, hs.endChunk, fun i => ?_⟩
    unfold PageAlloc.pageBit
    rw [hs.chunks]
    simp [PageAlloc.mapped, PallocBits.zero, PageBits.get_zero]
  obtain ⟨s₁, h₁, hheld₁⟩ := hnew.alloc (by decide)
  obtain ⟨s₂, h₂, hheld₂⟩ := h₁.alloc (by decide)
  obtain ⟨s₃, h₃, hheld₃⟩ := h₂.alloc (by decide)
  rw [hheld₂, hheld₁] at hheld₃
  have hbase := h₃.inv.arenaBase_eq
  obtain ⟨-, hfree⟩ := PageAlloc.free_spec (a := 1) h₃.inv.alloc (Nat.le_refl 1) (by rw [h₃.endChunk]; decide)
  rw [hbase] at hfree
  have hmem : (2 ^ 30 + 1 * pageSize, 1) ∈ s₃.held := by
    rw [hheld₃]
    decide
  refine ⟨_, ⟨.step h₃.reachable (.free hmem), ?_, hfree.endChunk.trans h₃.endChunk, ?_⟩, ?_⟩
  . rw [hfree.summaryLen]
    exact h₃.summaryLen
  . intro i
    rw [PageAlloc.pageBit_free (Nat.le_refl 1) hfree, Bool.and_eq_true, h₃.bits, Bool.not_eq_true', decide_eq_false_iff_not]
    omega
  . dsimp only
    rw [hheld₃]
    decide

end Small

section Reachable

variable {arenaBase nChunks maxChunks : Nat} (halign : arenaBase % pallocChunkBytes = 0)
  (hle : nChunks ≤ maxChunks) (h : (pageSystem arenaBase nChunks maxChunks).Reachable s)
include halign hle h

theorem summary_eq_summaryOf (hl : l < summaryLevels) (hi : i < s.alloc.summaryLen l) : (s.alloc.summary l i).unpack =
      summaryOf s.alloc.pageFree (i <<< levelLogPages l) (1 <<< levelLogPages l) := by
  have hl' : l < 5 := hl
  have hinv := (PageHeap.reachable_inv halign hle h).alloc
  have hs := (hinv.right (4 - l) l i (by omega) hi).isSummary hl'
  rw [Nat.shiftLeft_eq, Nat.shiftLeft_eq, one_mul]
  exact hs.eq_summaryOf

omit halign hle h in
theorem summary_eq_summaryOf_hole : ∃ s : PageHeap, (pageSystem (2 ^ 30) 1 2).Reachable s ∧ s.held.length = 2 ∧
      s.alloc.pageBit 1 = false ∧
      (s.alloc.summary 0 0).unpack = summaryOf s.alloc.pageFree (0 <<< levelLogPages 0) (1 <<< levelLogPages 0) := by
  obtain ⟨s, h, hheld⟩ := Small.exists_hole
  exact ⟨s, h.reachable, by rw [hheld]; rfl, Bool.eq_false_iff.mpr ((h.bits 1).not.mpr (by simp)),
    summary_eq_summaryOf (by decide) (by decide) h.reachable (by decide) h.summaryLen⟩

theorem alloc_isLeast (hbase : 0 < arenaBase) (hspace : arenaBase + maxChunks * pallocChunkBytes ≤ 2 ^ heapAddrBits)
    (hn : 1 ≤ npages) (ha : s.alloc.alloc npages = (addr, p)) : (addr = allocFailed → p = s.alloc) ∧
      (addr = allocFailed ↔ ∀ a, ¬ s.alloc.FreeRunAt npages a) ∧
      (addr ≠ allocFailed →
        IsLeast { a | s.alloc.FreeRunAt npages a } addr ∧
        (∀ q, p.pageBit q
          = (s.alloc.pageBit q
              || decide (addr ≤ p.arenaBase + q * pageSize
                ∧ p.arenaBase + q * pageSize < addr + npages * pageSize))) ∧
        p.arenaBase = s.alloc.arenaBase ∧ p.endChunk = s.alloc.endChunk
          ∧ p.chunksCapacity = s.alloc.chunksCapacity) ∧
      s.held.Pairwise PagesDisjoint := by
  have hinv := PageHeap.reachable_inv halign hle h
  have hiff := PageAlloc.alloc_failed_iff hinv.alloc hn (by rw [hinv.arenaBase_eq]; exact hbase) (hinv.capacity_le hspace)
  rw [ha] at hiff
  refine ⟨?_, ?_, ?_, hinv.disjoint⟩
  . rintro rfl
    exact PageAlloc.alloc_failed ha
  . refine hiff.trans ⟨?_, ?_⟩
    . intro hno a hfree
      obtain ⟨q, _, hr⟩ := (PageAlloc.freeRunAt_iff hn).mp hfree
      exact hno q hr
    . intro hno q hr
      exact hno _ ((PageAlloc.freeRunAt_iff hn).mpr ⟨q, rfl, hr⟩)
  intro hne
  obtain ⟨q, haddr, hfit, _, hs⟩ := PageAlloc.alloc_some hinv.alloc hn ha hne
  have hbit := PageAlloc.pageBit_allocRange hn hs
  have harena : p.arenaBase = s.alloc.arenaBase := hs.arenaBase
  refine ⟨⟨?_, ?_⟩, ?_, harena, hs.endChunk, hs.chunksCapacity⟩
  . exact (PageAlloc.freeRunAt_iff hn).mpr ⟨q, haddr, hfit.2.2.1⟩
  . intro a hfree
    obtain ⟨x, hx, hr⟩ := (PageAlloc.freeRunAt_iff hn).mp hfree
    -- A run below the first fit would be an earlier fit.
    have hqx : q ≤ x := by
      rcases lt_or_ge x q with hlt | hge
      . exact absurd hr (hfit.2.2.2 x (Nat.zero_le x) hlt)
      . exact hge
    rw [haddr, hx]
    exact Nat.add_le_add_left (Nat.mul_le_mul_right _ hqx) _
  . intro x
    rw [hbit x]
    congr 1
    rw [decide_eq_decide, harena, haddr, pageSize_eq]
    omega

omit halign hle h in
theorem alloc_isLeast_hole : ∃ s : PageHeap, (pageSystem (2 ^ 30) 1 2).Reachable s ∧ s.held.length = 2 ∧
      s.alloc.pageBit 1 = false ∧
      (s.alloc.alloc 2).1 = 2 ^ 30 + 3 * pageSize ∧ IsLeast { a | s.alloc.FreeRunAt 2 a } (2 ^ 30 + 3 * pageSize) := by
  obtain ⟨s, h, hheld⟩ := Small.exists_hole
  have hinv := h.inv
  have hbase := hinv.arenaBase_eq
  have hthree : Run s.alloc.pageFree 3 2 := (h.run_iff (by decide)).mpr ⟨by decide, fun i _ _ => by omega⟩
  have hbelow (q : Nat) (hq : q < 3) : ¬ Run s.alloc.pageFree q 2 := by
    intro hr
    have hfree := ((h.run_iff (by decide)).mp hr).2
    have h0 := hfree 0
    have h2 := hfree 2
    omega
  obtain ⟨p, ha, -⟩ := PageAlloc.alloc_at hinv.alloc (by decide) (by rw [hbase]; decide) (hinv.capacity_le (by decide))
    hthree hbelow
  rw [hbase] at ha
  have hleast := alloc_isLeast (by decide) (by decide) h.reachable (by decide) (by decide) (by decide) ha
  exact ⟨s, h.reachable, by rw [hheld]; rfl, Bool.eq_false_iff.mpr ((h.bits 1).not.mpr (by simp)), by rw [ha],
    (hleast.2.2.1 (by decide)).1⟩

end Reachable

end MHeap
