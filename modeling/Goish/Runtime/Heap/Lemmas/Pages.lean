import Goish.Runtime.Heap.Impl.Heap
import Goish.Runtime.MCentral.Lemmas.Central

open List MHeap Central

namespace MHeap

theorem PagesDisjoint.symm (h : PagesDisjoint x y) : PagesDisjoint y x :=
  Or.symm h

theorem PagesDisjoint.ne (h : PagesDisjoint x y) (hpos : 1 ≤ x.2) : x ≠ y := by
  intro heq
  subst heq
  unfold PagesDisjoint at h
  rw [pageSize_eq] at h
  omega

theorem PagesDisjoint.split (h : PagesDisjoint (addr, k + n) y)
    : PagesDisjoint (addr, k) y ∧ PagesDisjoint (addr + k * pageSize, n) y := by
  unfold PagesDisjoint at *
  dsimp only at *
  rw [add_mul] at h
  omega

theorem PageHeap.Inv.perm {held held' : List (Nat × Nat)} (h : PageHeap.Inv arenaBase maxChunks ⟨p, held⟩)
    (hp : held.Perm held') : PageHeap.Inv arenaBase maxChunks ⟨p, held'⟩ where
  __ := h
  held := fun x hx => h.held x (hp.mem_iff.mpr hx)
  disjoint := (hp.pairwise_iff PagesDisjoint.symm).mp h.disjoint

theorem PageHeap.Inv.split {held : List (Nat × Nat)}
    (h : PageHeap.Inv arenaBase maxChunks ⟨p, (addr, k + (n + 1)) :: held⟩) (hk : 1 ≤ k)
    : PageHeap.Inv arenaBase maxChunks
        ⟨p, (addr, k) :: (addr + k * pageSize, n + 1) :: held⟩ := by
  obtain ⟨q, hq⟩ := h.held _ mem_cons_self
  obtain ⟨hdis, hpair⟩ := pairwise_cons.mp h.disjoint
  have hbase : addr = p.arenaBase + q * pageSize := hq.base
  have hactive : q + (k + (n + 1)) ≤ p.endChunk * 512 := hq.active
  have hused : ∀ i, q ≤ i → i < q + (k + (n + 1)) → p.pageBit i = true := hq.used
  refine { h with held := ?held, disjoint := ?disjoint }
  case held =>
    intro x hx
    rw [mem_cons, mem_cons] at hx
    obtain heq | heq | hx := hx
    . rw [heq]
      refine ⟨q, hbase, hk, ?_, fun i h1 h2 => hused i h1 ?_⟩ <;> dsimp only at * <;> omega
    . rw [heq]
      refine ⟨q + k, ?_, Nat.le_add_left 1 n, ?_, fun i h1 h2 => hused i ?_ ?_⟩
      . dsimp only
        rw [hbase, add_mul, add_assoc]
      all_goals
        dsimp only at *
        omega
    . exact h.held x (mem_cons_of_mem _ hx)
  case disjoint =>
    rw [pairwise_cons, pairwise_cons]
    exact ⟨forall_mem_cons.mpr ⟨.inl le_rfl, fun y hy => (hdis y hy).split.1⟩, fun y hy => (hdis y hy).split.2, hpair⟩

end MHeap

namespace Heap

theorem mheapAllocPages_spec (h : PageHeap.Inv arenaBase maxChunks ⟨p, held⟩) (hn : 1 ≤ n)
    (heq : mheapAllocPages p n = (addr, p')) : (addr = allocFailed → PageHeap.Inv arenaBase maxChunks ⟨p', held⟩) ∧
      (addr ≠ allocFailed → PageHeap.Inv arenaBase maxChunks ⟨p', (addr, n) :: held⟩) := by
  have halloc : ∀ {p p' : PageAlloc}, PageHeap.Inv arenaBase maxChunks ⟨p, held⟩ →
      p.alloc n = (addr, p') →
      (addr = allocFailed → PageHeap.Inv arenaBase maxChunks ⟨p', held⟩) ∧
        (addr ≠ allocFailed → PageHeap.Inv arenaBase maxChunks ⟨p', (addr, n) :: held⟩) := by
    intro _ _ h ha
    refine ⟨?_, fun hne => PageHeap.alloc_inv h hn ha hne⟩
    rintro rfl
    rwa [PageAlloc.alloc_failed ha]
  unfold mheapAllocPages at heq
  generalize ha : p.alloc n = a at heq
  obtain ⟨_, p1⟩ := a
  dsimp only at heq
  split at heq
  . next hne =>
    cases heq
    exact halloc h ha
  next h0 =>
  rw [not_not] at h0
  rw [h0] at ha
  have hp := PageAlloc.alloc_failed ha
  subst hp
  split at heq
  . cases heq
    exact ⟨fun _ => h, fun hne => absurd rfl hne⟩
  . have hend : p1.endChunk ≤ p1.capacityChunks := h.alloc.endChunk_le
    apply halloc (PageHeap.grow_inv h _) heq
    dsimp only
    omega

end Heap

namespace Central.MCentral

def run (m : MCentral) (i : Nat) : Nat × Nat :=
  ((m.spans i).base, (m.spans i).npages)

theorem run_of_shape {m m' : MCentral} (h : Span.SameShape (m.spans i) (m'.spans i)) : m'.run i = m.run i := by
  unfold run
  rw [h.base, h.npages]

theorem Changed.shape (h : Changed m idx m') (hj : j ≠ idx) : Span.SameShape (m.spans j) (m'.spans j) :=
  Span.SameShape.of_unlinked (h.spans j hj)

theorem Used.to_shape {m m' : MCentral} (hu : m'.Used i) (hs : Span.SameShape (m.spans i) (m'.spans i)) : m.Used i := by
  unfold Used at *
  rwa [hs.sizeclass] at hu

inductive Obtained (m : MCentral) (cls base idx : Nat) (m' : MCentral) : Prop where
  | kept (hs : Span.SameShape (m.spans idx) (m'.spans idx))
  | fresh (hold : ¬ m.Used idx) (hbase : base ≠ allocFailed)
      (hrun : m'.run idx = (base, npagesOfClass.getD cls 0))

inductive Yielded (m : MCentral) (idx : Nat) (m' : MCentral) : Option (Nat × Nat) → Prop where
  | kept (hs : Span.SameShape (m.spans idx) (m'.spans idx)) : Yielded m idx m' none
  | gone (hold : m.Used idx) (hnew : ¬ m'.Used idx) : Yielded m idx m' (some (m.run idx))

theorem Origin.obtained (ho : Origin m listed cls base idx s)
    (hs : s.SameShape (m'.spans idx)) : Obtained m cls base idx m' := by
  rcases ho with ho | ho
  . exact Obtained.kept ((Span.SameShape.of_unlinked ho.2.2).trans hs)
  have hfresh := (Span.SameShape.of_unlinked ho.2.2).trans hs
  apply Obtained.fresh ho.1 ho.2.1
  unfold run
  rw [hfresh.base, hfresh.npages]
  rfl

theorem Origin.sizeclass (ho : Origin m listed cls base idx s) : s.sizeclass = cls := by
  rcases ho with ho | ho
  . exact (Span.SameShape.of_unlinked ho.2.2).sizeclass.trans ho.2.1
  . exact (Span.SameShape.of_unlinked ho.2.2).sizeclass

theorem Returned.yielded (hr : Returned m listed idx sp r) (hs : Span.SameShape (m.spans idx) sp) (hu : m.Used idx)
    : Changed m idx r.1 ∧ Yielded m idx r.1 r.2 := by
  cases hr with
  | kept _ _ hch heq => exact ⟨hch, Yielded.kept (hs.trans (Span.SameShape.of_unlinked heq))⟩
  | gone _ _ hch hgone => exact ⟨hch, Yielded.gone hu hgone⟩

end Central.MCentral

namespace Heap

def Asked (p : PageAlloc) (cls base : Nat) (p' : PageAlloc) : Prop :=
  (base = allocFailed ∧ p' = p) ∨
    (1 ≤ npagesOfClass.getD cls 0 ∧ mheapAllocPages p (npagesOfClass.getD cls 0) = (base, p'))

structure Owns (arenaBase : Nat) (p : PageAlloc) (m : MCentral) (large : List (Nat × Nat)) : Prop where
  pages : ∃ (held : List (Nat × Nat)), PageHeap.Inv arenaBase maxArenaChunks ⟨p, held⟩ ∧
    (∀ i, m.Used i → m.run i ∈ held) ∧ ∀ x ∈ large, x ∈ held
  spans : ∀ i j, m.Used i → m.Used j → i ≠ j → PagesDisjoint (m.run i) (m.run j)
  apart : ∀ i, m.Used i → ∀ x ∈ large, PagesDisjoint (m.run i) x
  large : large.Pairwise PagesDisjoint

namespace Owns

variable {p p' : PageAlloc} {m m' : MCentral} {large : List (Nat × Nat)}
  (h : Owns arenaBase p m large)
include h

theorem perm (hp : large.Perm large') : Owns arenaBase p m large' where
  pages := by
    obtain ⟨held, h1, h2, h3⟩ := h.pages
    exact ⟨held, h1, h2, fun x hx => h3 x (hp.mem_iff.mpr hx)⟩
  spans := h.spans
  apart := fun i hi x hx => h.apart i hi x (hp.mem_iff.mpr hx)
  large := (hp.pairwise_iff PagesDisjoint.symm).mp h.large

theorem draw (hn : 1 ≤ n) (heq : mheapAllocPages p n = (addr, p')) : (addr = allocFailed → Owns arenaBase p' m large) ∧
      (addr ≠ allocFailed →
        (∃ (held : List (Nat × Nat)),
          PageHeap.Inv arenaBase maxArenaChunks ⟨p', (addr, n) :: held⟩ ∧
            (∀ i, m.Used i → m.run i ∈ held) ∧ ∀ x ∈ large, x ∈ held) ∧
        (∀ i, m.Used i → PagesDisjoint (addr, n) (m.run i)) ∧
        ∀ x ∈ large, PagesDisjoint (addr, n) x) := by
  obtain ⟨held, h1, h2, h3⟩ := h.pages
  obtain ⟨hfail, hsome⟩ := mheapAllocPages_spec h1 hn heq
  constructor
  . intro h0
    exact ⟨⟨held, hfail h0, h2, h3⟩, h.spans, h.apart, h.large⟩
  . intro hne
    have hinv := hsome hne
    have hdis := (pairwise_cons.mp hinv.disjoint).1
    exact ⟨⟨held, hinv, h2, h3⟩, fun i hi => hdis _ (h2 i hi), fun x hx => hdis x (h3 x hx)⟩

theorem leak (hn : 1 ≤ n) (heq : mheapAllocPages p n = (addr, p')) : Owns arenaBase p' m large := by
  by_cases h0 : addr = allocFailed
  . exact (h.draw hn heq).1 h0
  obtain ⟨⟨held, h1, h2, h3⟩, _⟩ := (h.draw hn heq).2 h0
  refine ⟨⟨(addr, n) :: held, h1, ?_, ?_⟩, h.spans, h.apart, h.large⟩
  . exact fun i hi => mem_cons_of_mem _ (h2 i hi)
  . exact fun x hx => mem_cons_of_mem _ (h3 x hx)

theorem drawn (hbase : m.arenaBase = arenaBase) (htracked : m.trackedPages = maxArenaChunks * 512)
    (hasked : Asked p cls addr p') : m.Drawn cls addr := by
  obtain ⟨h0, _⟩ | ⟨hn, heq⟩ := hasked
  . exact Or.inl h0
  by_cases h0 : addr = allocFailed
  . exact Or.inl h0
  obtain ⟨⟨_, h1, _⟩, hspan, _⟩ := (h.draw hn heq).2 h0
  obtain ⟨q, hq⟩ := h1.held _ mem_cons_self
  have hend : p'.endChunk ≤ p'.chunksCapacity := h1.alloc.endChunk_le
  have hcap : p'.chunksCapacity = maxArenaChunks := h1.capacity_eq
  have hactive : q + npagesOfClass.getD cls 0 ≤ p'.endChunk * 512 := hq.active
  refine Or.inr ⟨q, ?_, ?_, hspan⟩
  . rw [hbase, ← h1.arenaBase_eq]
    exact hq.base
  . rw [htracked, ← hcap]
    exact le_trans hactive (Nat.mul_le_mul_right 512 hend)

theorem leak_asked (hasked : Asked p cls addr p') : Owns arenaBase p' m large := by
  obtain ⟨_, heq⟩ | ⟨hn, heq⟩ := hasked
  . rwa [heq]
  . exact h.leak hn heq

theorem drawLarge (hn : 1 ≤ n) (heq : mheapAllocPages p n = (addr, p')) (hne : addr ≠ allocFailed)
    : Owns arenaBase p' m ((addr, n) :: large) := by
  obtain ⟨⟨held, h1, h2, h3⟩, hspan, hlarge⟩ := (h.draw hn heq).2 hne
  exact {
    pages := ⟨(addr, n) :: held, h1, fun i hi => mem_cons_of_mem _ (h2 i hi), cons_subset_cons _ h3⟩
    spans := h.spans
    apart := fun i hi => forall_mem_cons.mpr ⟨(hspan i hi).symm, h.apart i hi⟩
    large := pairwise_cons.mpr ⟨hlarge, h.large⟩
  }

theorem npages_pos (hi : m.Used i) : 1 ≤ (m.run i).2 := by
  obtain ⟨_, h1, h2, _⟩ := h.pages
  obtain ⟨_, hq⟩ := h1.held _ (h2 i hi)
  exact hq.pos

theorem large_pos (hx : x ∈ large) : 1 ≤ x.2 := by
  obtain ⟨_, h1, _, h3⟩ := h.pages
  obtain ⟨_, hq⟩ := h1.held _ (h3 x hx)
  exact hq.pos

theorem releaseLarge {rest : List (Nat × Nat)} (hx : large = (addr, n) :: rest) (hk : 1 ≤ k)
    (hkn : k ≤ n) : Owns arenaBase (p.free addr k) m rest := by
  obtain ⟨held, h1, h2, h3⟩ := h.pages
  have hmem : (addr, n) ∈ large := by
    rw [hx]
    exact mem_cons_self
  have hpos : 1 ≤ n := h.large_pos hmem
  have hpair := h.large
  rw [hx] at hpair
  obtain ⟨hdis, hrest⟩ := pairwise_cons.mp hpair
  have hperm := perm_cons_erase (h3 _ hmem)
  have hfree : ∃ (held' : List (Nat × Nat)),
      PageHeap.Inv arenaBase maxArenaChunks ⟨p.free addr k, held'⟩ ∧
        ∀ y ∈ held, y ≠ (addr, n) → y ∈ held' := by
    have hinv := h1.perm hperm
    by_cases heq : k = n
    . subst heq
      have := PageHeap.free_inv hinv mem_cons_self
      rw [erase_cons_head] at this
      exact ⟨_, this, fun y hy hne => (mem_erase_of_ne hne).mpr hy⟩
    obtain ⟨d, hd⟩ : ∃ d, n = k + (d + 1) := ⟨n - k - 1, by omega⟩
    subst hd
    have := PageHeap.free_inv (hinv.split hk) mem_cons_self
    rw [erase_cons_head] at this
    refine ⟨_, this, fun y hy heq => ?_⟩
    exact mem_cons_of_mem _ ((mem_erase_of_ne heq).mpr hy)
  obtain ⟨held', hinv', hkeep⟩ := hfree
  constructor
  case pages =>
    refine ⟨held', hinv', ?_, ?_⟩
    . intro i hi
      apply hkeep _ (h2 i hi)
      exact ((h.apart i hi _ hmem).symm.ne hpos).symm
    intro y hy
    apply hkeep y
    . apply h3
      rw [hx]
      exact mem_cons_of_mem _ hy
    . exact ((hdis y hy).ne hpos).symm
  case spans => exact h.spans
  case apart =>
    intro i hi y hy
    apply h.apart i hi
    rw [hx]
    exact mem_cons_of_mem _ hy
  case large => exact hrest

variable (hch : m.Changed idx m')
include hch

theorem kept (hs : Span.SameShape (m.spans idx) (m'.spans idx)) : Owns arenaBase p m' large := by
  have hshape : ∀ j, Span.SameShape (m.spans j) (m'.spans j) := by
    intro j
    by_cases heq : j = idx
    . rwa [heq]
    . exact hch.shape heq
  have hrun : ∀ j, m'.run j = m.run j := fun j => MCentral.run_of_shape (hshape j)
  have hused : ∀ j, m'.Used j → m.Used j := fun j hj => hj.to_shape (hshape j)
  obtain ⟨held, h1, h2, h3⟩ := h.pages
  constructor
  case pages =>
    refine ⟨held, h1, ?_, h3⟩
    intro i hi
    rw [hrun]
    exact h2 i (hused i hi)
  case spans =>
    intro i j hi hj hne
    rw [hrun, hrun]
    exact h.spans i j (hused i hi) (hused j hj) hne
  case apart =>
    intro i hi x hx
    rw [hrun]
    exact h.apart i (hused i hi) x hx
  case large => exact h.large

theorem enter (hn : 1 ≤ n) (heq : mheapAllocPages p n = (addr, p')) (hne : addr ≠ allocFailed)
    (hrun : m'.run idx = (addr, n)) : Owns arenaBase p' m' large := by
  obtain ⟨⟨held, h1, h2, h3⟩, hspan, hlarge⟩ := (h.draw hn heq).2 hne
  have hother : ∀ j, j ≠ idx → m'.run j = m.run j := fun j hj => MCentral.run_of_shape (hch.shape hj)
  have hused : ∀ j, j ≠ idx → m'.Used j → m.Used j := fun j hj hu => hu.to_shape (hch.shape hj)
  constructor
  case pages =>
    refine ⟨(addr, n) :: held, h1, ?_, fun x hx => mem_cons_of_mem _ (h3 x hx)⟩
    intro i hi
    by_cases heq : i = idx
    . rw [heq, hrun]
      simp
    . rw [hother i heq]
      exact mem_cons_of_mem _ (h2 i (hused i heq hi))
  case spans =>
    intro i j hi hj hij
    by_cases hne : i = idx
    . have hji : j ≠ idx := fun hj => hij (hne.trans hj.symm)
      rw [hne, hrun, hother j hji]
      exact hspan j (hused j hji hj)
    by_cases heq : j = idx
    . rw [heq, hrun, hother i hne]
      exact (hspan i (hused i hne hi)).symm
    . rw [hother i hne, hother j heq]
      exact h.spans i j (hused i hne hi) (hused j heq hj) hij
  case apart =>
    intro i hi x hx
    by_cases heq : i = idx
    . rw [heq, hrun]
      exact hlarge x hx
    . rw [hother i heq]
      exact h.apart i (hused i heq hi) x hx
  case large => exact h.large

theorem leave (hold : m.Used idx) (hnew : ¬ m'.Used idx)
    : Owns arenaBase (p.free (m.run idx).1 (m.run idx).2) m' large := by
  obtain ⟨held, h1, h2, h3⟩ := h.pages
  have hpos := h.npages_pos hold
  have hne : ∀ j, m'.Used j → j ≠ idx := fun j hj heq => hnew (heq ▸ hj)
  have hother : ∀ j, m'.Used j → m'.run j = m.run j :=
    fun j hj => MCentral.run_of_shape (hch.shape (hne j hj))
  have hused : ∀ j, m'.Used j → m.Used j := fun j hj => hj.to_shape (hch.shape (hne j hj))
  constructor
  case pages =>
    refine ⟨held.erase (m.run idx), PageHeap.free_inv h1 (h2 idx hold), ?_, ?_⟩
    . intro i hi
      rw [hother i hi]
      apply (mem_erase_of_ne _).mpr (h2 i (hused i hi))
      exact ((h.spans idx i hold (hused i hi) (hne i hi).symm).ne hpos).symm
    . intro x hx
      exact (mem_erase_of_ne ((h.apart idx hold x hx).ne hpos).symm).mpr (h3 x hx)
  case spans =>
    intro i j hi hj hij
    rw [hother i hi, hother j hj]
    exact h.spans i j (hused i hi) (hused j hj) hij
  case apart =>
    intro i hi x hx
    rw [hother i hi]
    exact h.apart i (hused i hi) x hx
  case large => exact h.large

theorem obtained (ho : m.Obtained cls base idx m') (hasked : Asked p cls base p') : Owns arenaBase p' m' large := by
  rcases hasked with hasked | hasked
  . rw [hasked.2]
    cases ho with
    | kept hs => exact h.kept hch hs
    | fresh _ hbase => exact absurd hasked.1 hbase
  . cases ho with
    | kept hs => exact (h.leak hasked.1 hasked.2).kept hch hs
    | fresh _ hbase hrun => exact h.enter hch hasked.1 hasked.2 hbase hrun

end Owns

end Heap
