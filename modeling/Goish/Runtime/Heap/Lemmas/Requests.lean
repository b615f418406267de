import Goish.Runtime.Heap.Lemmas.Pages
import Goish.Runtime.MCentral.Reachable

namespace Central

theorem alignDown_eq (hx : x < 2 ^ 64) (hk : k < 64) : alignDown x (2 ^ k) = x / 2 ^ k * 2 ^ k := by
  have hpow : 2 ^ k - 1 < 2 ^ 64 := by
    have := Nat.pow_lt_pow_right (a := 2) (by omega) hk
    omega
  unfold alignDown
  apply Nat.eq_of_testBit_eq
  intro i
  have hbit : (BitVec.ofNat 64 x &&& ~~~BitVec.ofNat 64 (2 ^ k - 1)).toNat.testBit i
      = (BitVec.ofNat 64 x &&& ~~~BitVec.ofNat 64 (2 ^ k - 1)).getLsbD i := rfl
  rw [hbit, BitVec.getLsbD_and, BitVec.getLsbD_not, BitVec.getLsbD_ofNat, BitVec.getLsbD_ofNat,
    Nat.testBit_two_pow_sub_one, ← Nat.shiftRight_eq_div_pow, ← Nat.shiftLeft_eq,
    Nat.testBit_shiftLeft, Nat.testBit_shiftRight]
  rcases lt_or_ge i 64 with hi | hi
  . rcases lt_or_ge i k with hik | hik
    . simp [hi, hik]
    . simp [hi, hik, not_lt.mpr hik]
  . have hzero : x.testBit i = false :=
      Nat.testBit_lt_two_pow (lt_of_lt_of_le hx (Nat.pow_le_pow_right (by omega) hi))
    have hik : k ≤ i := by omega
    simp [not_lt.mpr hi, hik, hzero]

theorem sizeToClass8_size : ∀ i, i ≤ 128 → 8 * i ≤ sizeOfClass.getD (sizeToClass8.getD i 0) 0 := by
  decide +kernel

theorem sizeToClass128_size : ∀ i, i ≤ 248 → 1024 + 128 * i ≤ sizeOfClass.getD (sizeToClass128.getD i 0) 0 := by
  decide +kernel

theorem classFor_size (hsize : size ≤ maxSmallSize) (hk : k ≤ 13)
    (hcls : classFor size (2 ^ k) = some cls) : size ≤ sizeOfClass.getD cls 0 := by
  have hmax : maxSmallSize = 32768 := rfl
  have hpow : 2 ^ k ≤ 2 ^ 13 := Nat.pow_le_pow_right (by omega) hk
  have hpos : 0 < 2 ^ k := Nat.pos_of_ne_zero (by simp)
  unfold classFor at hcls
  dsimp only at hcls
  -- The size after the rounding to the alignment.
  have hround : size ≤ if 2 ^ k > minHeapAlign then
      alignDown ((if size = 0 then 1 else size) + 2 ^ k - 1) (2 ^ k)
      else if size = 0 then 1 else size := by
    generalize heff : (if size = 0 then 1 else size) = eff
    have hle : size ≤ eff ∧ eff ≤ 32768 := by
      rw [← heff]
      split <;> omega
    split
    . rw [alignDown_eq (by omega) (by omega)]
      have hmod := Nat.div_add_mod (eff + 2 ^ k - 1) (2 ^ k)
      have hlt := Nat.mod_lt (eff + 2 ^ k - 1) hpos
      rw [mul_comm] at hmod
      omega
    . exact hle.1
  generalize (if 2 ^ k > minHeapAlign then
      alignDown ((if size = 0 then 1 else size) + 2 ^ k - 1) (2 ^ k)
      else if size = 0 then 1 else size) = eff at hcls hround
  apply le_trans hround
  split at hcls
  . exact nomatch hcls
  next hmax =>
  unfold maxSmallSize at hmax
  split at hcls
  . next hsmall =>
    unfold smallSizeMax at hsmall
    have := sizeToClass8_size ((eff + 8 - 1) / 8) (by omega)
    cases hcls
    apply le_trans _ this
    omega
  . next hlarge =>
    unfold smallSizeMax at hlarge
    have := sizeToClass128_size ((eff - 1024 + 128 - 1) / 128) (by omega)
    cases hcls
    apply le_trans _ this
    omega

end Central

open List Loop MHeap Central Option

namespace Central

open MCentral

theorem SharedHeap.Inv.perm {s : SharedHeap} (h : s.Inv clean) (hp : s.held.Perm held)
    : Inv clean { s with held := held } where
  table := h.table
  spans := fun i => (h.spans i).congr rfl rfl (fun _ => hp.mem_iff.symm) Iff.rfl
  nodup := hp.nodup_iff.mp h.nodup

theorem SharedHeap.Inv.origin_cached {s : SharedHeap} (h : s.Inv clean)
    (ho : s.central.Origin s.listed cls base i sp) : (s.central.spans i).cached = false := by
  rcases ho with ho | ho
  . exact ho.1.2.1
  . exact h.table.not_cached ho.1

namespace SlotHeap

variable {s : SlotHeap} (h : s.shared.Inv clean)
include h

theorem cacheSpan_nil (hexec : s.central.cacheSpan cls base = some (nilSpan, m)) : s.central.SameSpans m := by
  obtain ⟨_, htake⟩ | ⟨hne, _⟩ := cacheSpan_cases hexec
  . exact (cacheSpan_take_nil h.table htake).2
  . contradiction

theorem cacheSpan_obtained (hdrawn : s.central.Drawn cls base) (hexec : s.central.cacheSpan cls base = some (idx, m))
    (hne : idx ≠ nilSpan) : s.central.Changed idx m ∧ s.central.Obtained cls base idx m ∧
        (s.central.spans idx).cached = false ∧ (m.spans idx).cached = true ∧
        (m.spans idx).sizeclass = cls := by
  obtain ⟨_, m1, htake, rfl⟩ := (cacheSpan_cases hexec).resolve_left (hne ·.1)
  obtain ⟨_, hch, _, sp, ho, hsp⟩ := cacheSpan_take_spec h.table hdrawn htake hne
  have hshape : sp.SameShape (m1.spans idx) := by
    exact { Span.SameShape.of_unlinked hsp with }
  have hrefill : Span.SameShape (m1.spans idx)
      ((m1.spans idx).refill 0 ((m1.spans idx).allocBits.word 0)) :=
    Span.SameShape.of_desc Span.desc_refill
  have hself : (cacheSpan.publish m1 idx ((m1.spans idx).allocBits.word 0)).spans idx
      = { (m1.spans idx).refill 0 ((m1.spans idx).allocBits.word 0) with cached := true } := by
    unfold cacheSpan.publish
    rw [spans_setSpan, if_pos rfl]
  have hlast : sp.SameShape
      ((cacheSpan.publish m1 idx ((m1.spans idx).allocBits.word 0)).spans idx) := by
    rw [hself]
    exact { hshape.trans hrefill with }
  refine ⟨hch.trans (MCentral.Changed.setSpan m1 idx _), ho.obtained hlast, h.origin_cached ho, ?_,
    hlast.sizeclass.trans ho.sizeclass⟩
  rw [hself]

theorem allocSlotIn_desc (hcached : (s.central.spans idx).cached = true)
    : ∃ (sp : Span), (allocSlotIn.take s.central idx).2 = s.central.setSpan idx sp ∧
        sp.desc = (s.central.spans idx).desc ∧
        ∀ x, (allocSlotIn.take s.central idx).1 = some x → x.1 = idx := by
  have hu : s.central.Used idx := h.used_of_cached hcached
  have hdesc : (s.central.spans idx).nextFreeOwner.span.desc = (s.central.spans idx).desc := by
    unfold Span.nextFreeOwner
    rw [Span.desc_run, Span.desc_start]
  unfold allocSlotIn.take
  rw [if_neg (h.table.used idx hu).1]
  generalize (s.central.spans idx).nextFreeOwner = o at *
  cases o with
  | done _ sp =>
    refine ⟨sp, rfl, hdesc, ?_⟩
    intro x hx
    obtain ⟨_, _, hk⟩ := map_eq_some_iff.mp hx
    rw [← hk]
  | overrun sp | refill r sp => exact ⟨sp, rfl, hdesc, nofun⟩

theorem uncacheSpan_yielded (hcached : (s.central.spans idx).cached = true)
    : s.central.Changed idx (s.central.uncacheSpan idx).1 ∧
        s.central.Yielded idx (s.central.uncacheSpan idx).1 (s.central.uncacheSpan idx).2 := by
  have hu : s.central.Used idx := h.used_of_cached hcached
  have hnot : ¬ s.shared.listed idx := by
    intro hl
    have hl' : (s.central.spans idx).cached = false := hl.2.1
    rw [hl'] at hcached
    contradiction
  have hshape := Span.SameShape.of_desc (Span.desc_releaseUnsold (s := s.central.spans idx))
  apply (uncacheSpan_returned h.table hu hnot).yielded _ hu
  exact { hshape with }

theorem free_yielded (hheld : (idx, k) ∈ s.held)
    (heq : s.central.free ((s.central.spans idx).slotAddr k) = (found, m, pages))
    : found = true ∧ s.central.Changed idx m ∧ s.central.Yielded idx m pages ∧
        ((s.central.spans idx).cached = true →
          (m.spans idx).cached = true ∧
            (m.spans idx).sizeclass = (s.central.spans idx).sizeclass) := by
  have hu : s.central.Used idx := (h.spans idx).held k hheld
  have hk := ((h.spans idx).slots hu).counted.held_lt k hheld
  have hlookup : s.central.lookup ((s.central.spans idx).slotAddr k) = some (idx, k) :=
    h.table.lookup_slotAddr hu hk
  simp only [free, hlookup] at heq
  split at heq
  . next hc =>
    obtain ⟨h1, h2⟩ := Prod.mk.inj heq
    obtain ⟨h2, h3⟩ := Prod.mk.inj h2
    subst h1 h2 h3
    have hd := Span.desc_freeSlotAtomic (s := s.central.spans idx) (j := k)
    have hshape := Span.SameShape.of_desc hd
    have hself : (s.central.freeAtomic idx k).spans idx = (s.central.spans idx).freeSlotAtomic k :=
      if_pos rfl
    rw [← hself] at hshape
    refine ⟨rfl, MCentral.Changed.setSpan _ _ _, MCentral.Yielded.kept hshape, fun _ => ⟨?_, ?_⟩⟩
    . rw [hself, (Span.links_of_desc hd).2.2, hc]
    . exact hshape.sizeclass
  . next hc =>
    obtain ⟨h1, h2⟩ := Prod.mk.inj heq
    subst h1
    rw [Bool.not_eq_true] at hc
    have hlisted : s.shared.listed idx := ⟨hu, hc, nofun⟩
    have hret := (freeLocked_returned h.table hlisted k).yielded
      (Span.SameShape.of_desc Span.desc_freeSlotLocked) hu
    rw [show s.shared.central.freeLocked idx k = (m, pages) from h2] at hret
    refine ⟨rfl, hret.1, hret.2, fun hc' => ?_⟩
    rw [hc] at hc'
    contradiction

end SlotHeap

end Central

namespace Heap

structure Request where
  block : Block
  size : Nat
  align : Nat
  deriving DecidableEq, Repr

def Block.slot? : Block → Option (Nat × Nat)
  | .slot idx k => some (idx, k)
  | .run _ _ => none

def Block.run? : Block → Option (Nat × Nat)
  | .slot _ _ => none
  | .run addr npages => some (addr, npages)

def slots (reqs : List Request) : List (Nat × Nat) :=
  reqs.filterMap fun r => r.block.slot?

def runs (reqs : List Request) : List (Nat × Nat) :=
  reqs.filterMap fun r => r.block.run?

theorem mem_slots (hr : r ∈ reqs) (hb : r.block = .slot i k) : (i, k) ∈ slots reqs := by
  apply mem_filterMap.mpr
  exact ⟨r, hr, by rw [hb]; rfl⟩

theorem mem_runs (hr : r ∈ reqs) (hb : r.block = .run addr n) : (addr, n) ∈ runs reqs := by
  apply mem_filterMap.mpr
  exact ⟨r, hr, by rw [hb]; rfl⟩

structure Small (size align cls : Nat) : Prop where
  size_le : size ≤ largeThreshold
  align_le : align ≤ pageSize
  cls_eq : classFor size align = some cls

def Request.Fits (h : Heap) (r : Request) : Prop :=
  match r.block with
  | .slot i _ => Small r.size r.align (h.central.spans i).sizeclass
  | .run _ npages => npages = pagesFor (max r.size r.align)

structure Caches (m : MCentral) (mcache : Nat → Nat → Nat) : Prop where
  cached : ∀ p c, mcache p c ≠ nilSpan →
    (m.spans (mcache p c)).cached = true ∧ (m.spans (mcache p c)).sizeclass = c
  owner : ∀ p p' c, mcache p c = mcache p' c → mcache p c ≠ nilSpan → p = p'

structure Inv (arenaBase : Nat) (h : Heap) (reqs : List Request) : Prop where
  central : SharedHeap.Inv False (SlotHeap.shared ⟨h.central, slots reqs⟩)
  owns : Owns arenaBase h.pages h.central (runs reqs)
  caches : Caches h.central h.mcache
  fits : ∀ r ∈ reqs, r.Fits h
  pow : ∀ r ∈ reqs, r.align.isPowerOfTwo
  arenaBase_eq : h.central.arenaBase = arenaBase
  tracked_eq : h.central.trackedPages = maxArenaChunks * 512

namespace Inv

variable {h h' : Heap} {reqs : List Request} (hinv : Inv arenaBase h reqs)
include hinv

theorem perm (hp : reqs.Perm reqs') : Inv arenaBase h reqs' where
  __ := hinv
  central := hinv.central.perm (hp.filterMap _)
  owns := hinv.owns.perm (hp.filterMap _)
  fits := fun r hr => hinv.fits r (hp.mem_iff.mpr hr)
  pow := fun r hr => hinv.pow r (hp.mem_iff.mpr hr)

theorem used (hr : r ∈ reqs) (hb : r.block = .slot i k) : h.central.Used i :=
  (hinv.central.spans i).held k (mem_slots hr hb)

theorem evolve (hch : h.central.Changed idx h'.central)
    (hcentral : SharedHeap.Inv False (SlotHeap.shared ⟨h'.central, slots reqs'⟩))
    (howns : Owns arenaBase h'.pages h'.central (runs reqs'))
    (hshape : h.central.Used idx → h'.central.Used idx →
      Span.SameShape (h.central.spans idx) (h'.central.spans idx))
    (hmcache : h'.mcache = h.mcache)
    (hcaches : ∀ p c, h.mcache p c = idx → idx ≠ nilSpan →
      (h'.central.spans idx).cached = true ∧ (h'.central.spans idx).sizeclass = c)
    (hreqs : ∀ r ∈ reqs', r ∈ reqs ∨ r.Fits h' ∧ r.align.isPowerOfTwo)
    : Inv arenaBase h' reqs' := by
  constructor
  case central => exact hcentral
  case owns => exact howns
  case caches =>
    rw [hmcache]
    refine ⟨?_, hinv.caches.owner⟩
    intro p c hne
    by_cases heq : h.mcache p c = idx
    . rw [heq] at hne ⊢
      exact hcaches p c heq hne
    . obtain ⟨_, hcls, _, hcached⟩ := SharedHeap.unlinked_fields (hch.spans _ heq)
      rw [hcls, hcached]
      exact hinv.caches.cached p c hne
  case fits =>
    intro r hr
    rcases hreqs r hr with hold | hnew
    . have hfits := hinv.fits r hold
      unfold Request.Fits at hfits ⊢
      cases hb : r.block with
      | run =>
        rwa [hb] at hfits
      | slot i k =>
        have hused := hinv.used hold hb
        have hused' : h'.central.Used i := (hcentral.spans i).held k (mem_slots hr hb)
        have hcls : (h'.central.spans i).sizeclass = (h.central.spans i).sizeclass := by
          by_cases heq : i = idx
          . subst heq
            exact (hshape hused hused').sizeclass
          . exact (hch.shape heq).sizeclass
        rw [hb] at hfits
        dsimp only at hfits ⊢
        rwa [hcls]
    . exact hnew.1
  case pow =>
    intro r hr
    rcases hreqs r hr with hold | hnew
    . exact hinv.pow r hold
    . exact hnew.2
  case arenaBase_eq => exact hch.arenaBase.trans hinv.arenaBase_eq
  case tracked_eq => exact hch.trackedPages.trans hinv.tracked_eq

theorem same (hs : h.central.SameSpans m) (hcentral : SharedHeap.Inv False (SlotHeap.shared ⟨m, slots reqs⟩))
    (hasked : Asked h.pages cls base p) : Inv arenaBase { h with pages := p, central := m } reqs := by
  have hshape : ∀ i, Span.SameShape (h.central.spans i) (m.spans i) :=
    fun i => Span.SameShape.of_unlinked (hs.spans i)
  refine hinv.evolve (hs.changed nilSpan) hcentral ?_ (fun _ _ => hshape _) rfl
    (fun _ _ _ hne => absurd rfl hne) (fun r hr => Or.inl hr)
  exact (hinv.owns.leak_asked hasked).kept (hs.changed nilSpan) (hshape _)

def After (arenaBase : Nat) (reqs : List Request) (size align : Nat) (h : Heap)
    : Option (Nat × Nat) → Prop
  | none => Inv arenaBase h reqs
  | some (i, k) => Inv arenaBase h ({ block := .slot i k, size := size, align := align } :: reqs)

omit hinv in
theorem npages_pos : ∀ c, c < numSizeClasses → 1 ≤ c → 1 ≤ npagesOfClass.getD c 0 := by
  decide

omit hinv in
theorem cacheSpan_eq (heq : h.cacheSpan cls = some (idx, h')) : (idx = nilSpan ∧ h' = h) ∨
        ∃ (base : Nat) (p : PageAlloc) (m : MCentral), Asked h.pages cls base p ∧
          h.central.cacheSpan cls base = some (idx, m) ∧ h' = { h with pages := p, central := m } := by
  unfold cacheSpan at heq
  split at heq
  . obtain ⟨h1, h2⟩ := Prod.mk.inj (some.inj heq)
    exact Or.inl ⟨h1.symm, h2.symm⟩
  next hcls =>
  split at heq
  . generalize hp : mheapAllocPages h.pages (npagesOfClass.getD cls 0) = x at heq
    obtain ⟨base, p⟩ := x
    obtain ⟨⟨_, m⟩, hm, hx⟩ := map_eq_some_iff.mp heq
    cases hx
    exact Or.inr ⟨base, p, m, Or.inr ⟨npages_pos cls (by omega) (by omega), hp⟩, hm, rfl⟩
  . obtain ⟨⟨_, m⟩, hm, hx⟩ := map_eq_some_iff.mp heq
    cases hx
    exact Or.inr ⟨allocFailed, h.pages, m, Or.inl ⟨rfl, rfl⟩, hm, rfl⟩

theorem cacheSpan (heq : h.cacheSpan cls = some (idx, h')) : Inv arenaBase h' reqs ∧
        (idx ≠ nilSpan →
          (h'.central.spans idx).cached = true ∧ (h'.central.spans idx).sizeclass = cls ∧
            ∀ p c, h'.mcache p c ≠ idx) := by
  obtain ⟨h0, heq⟩ | ⟨_, p, _, hasked, hm, heq⟩ := cacheSpan_eq heq
  . rw [heq]
    exact ⟨hinv, fun hne => absurd h0 hne⟩
  subst heq
  have hdrawn := hinv.owns.drawn hinv.arenaBase_eq hinv.tracked_eq hasked
  have hcentral := SlotHeap.cacheSpan_inv hinv.central hdrawn hm
  by_cases h0 : idx = nilSpan
  . subst h0
    have hs := SlotHeap.cacheSpan_nil hinv.central hm
    exact ⟨hinv.same hs hcentral hasked, fun hne => absurd rfl hne⟩
  obtain ⟨hch, ho, hold, hcached, hcls⟩ :=
    SlotHeap.cacheSpan_obtained hinv.central hdrawn hm h0
  have hnot : ∀ p c, h.mcache p c ≠ idx := by
    rintro p c rfl
    rw [show _ = true from (hinv.caches.cached p c h0).1] at hold
    contradiction
  refine ⟨?_, fun _ => ⟨hcached, hcls, hnot⟩⟩
  refine hinv.evolve hch hcentral (hinv.owns.obtained hch ho hasked) ?_ rfl
    (fun p c hpc => absurd hpc (hnot p c)) (fun r hr => Or.inl hr)
  intro hu _
  cases ho with
  | kept hs => exact hs
  | fresh hold => contradiction

theorem setMcache (p : Nat) (hcached : idx ≠ nilSpan → (h.central.spans idx).cached = true ∧
      (h.central.spans idx).sizeclass = cls) (hnot : idx ≠ nilSpan → ∀ p c, h.mcache p c ≠ idx)
    : Inv arenaBase (h.setMcache p cls idx) reqs := by
  refine { hinv with caches := ?_ }
  have hcaches := hinv.caches
  unfold Heap.setMcache
  constructor
  case cached =>
    intro p' c hne
    dsimp only at *
    split at hne
    . next hif =>
      rw [if_pos hif, hif.2]
      exact hcached hne
    . next hif =>
      rw [if_neg hif]
      exact hcaches.cached p' c hne
  case owner =>
    intro p1 p2 c heq hne
    dsimp only at *
    split at hne
    . next hif =>
      rw [if_pos hif] at heq
      split at heq
      . next hif' => exact hif.1.trans hif'.1.symm
      . exact absurd heq.symm (hnot hne p2 c)
    . next hif =>
      rw [if_neg hif] at heq
      split at heq
      . exact absurd heq (hnot (heq ▸ hne) p1 c)
      . exact hcaches.owner p1 p2 c heq hne

theorem allocSlotIn (hcached : (h.central.spans idx).cached = true)
    (hsmall : Small size align (h.central.spans idx).sizeclass) (halign : align.isPowerOfTwo)
    (heq : h.allocSlotIn idx = (x, h')) : After arenaBase reqs size align h' x ∧ h'.mcache = h.mcache ∧
        (h'.central.spans idx).cached = true := by
  have hcentral := SlotHeap.allocSlotIn_inv hinv.central hcached False.elim
  obtain ⟨sp, hm, hd, hx⟩ := SlotHeap.allocSlotIn_desc hinv.central hcached
  unfold Heap.allocSlotIn at heq
  generalize MCentral.allocSlotIn.take h.central idx = r at *
  obtain ⟨y, _⟩ := r
  obtain ⟨h1, h2⟩ := Prod.mk.inj heq
  subst h1 h2
  subst hm
  have hself : (h.central.setSpan idx sp).spans idx = sp := if_pos rfl
  have hshape := Span.SameShape.of_desc hd
  have hc := (Span.links_of_desc hd).2.2.trans hcached
  rw [← hself] at hshape hc
  have hch := MCentral.Changed.setSpan h.central idx sp
  refine ⟨?_, rfl, hc⟩
  have hcaches : ∀ p c, h.mcache p c = idx → idx ≠ nilSpan →
      ((h.central.setSpan idx sp).spans idx).cached = true ∧
        ((h.central.setSpan idx sp).spans idx).sizeclass = c := by
    intro p c hpc hne
    rw [← hpc] at hne
    have := (hinv.caches.cached p c hne).2
    rw [hpc] at this
    exact ⟨hc, hshape.sizeclass.trans this⟩
  cases y with
  | none =>
    exact hinv.evolve hch hcentral (hinv.owns.kept hch hshape) (fun _ _ => hshape) rfl hcaches
      (fun r hr => Or.inl hr)
  | some y =>
    obtain ⟨i, _⟩ := y
    have hi : i = idx := hx _ rfl
    subst hi
    refine hinv.evolve hch hcentral (hinv.owns.kept hch hshape) (fun _ _ => hshape) rfl hcaches
      (forall_mem_cons.mpr ⟨.inr ⟨?_, halign⟩, fun _ => .inl⟩)
    unfold Request.Fits
    dsimp only
    rwa [hshape.sizeclass]

omit hinv in
theorem freePages_central (h : Heap) (x : Option (Nat × Nat)) : (h.freePages x).central = h.central := by
  cases x <;> rfl

omit hinv in
theorem freePages_mcache (h : Heap) (x : Option (Nat × Nat)) : (h.freePages x).mcache = h.mcache := by
  cases x <;> rfl

theorem yield (hch : h.central.Changed idx m)
    (hy : h.central.Yielded idx m ret)
    (hcentral : SharedHeap.Inv False (SlotHeap.shared ⟨m, slots reqs'⟩))
    (hruns : runs reqs' = runs reqs) (hreqs : ∀ r ∈ reqs', r ∈ reqs)
    (hcaches : ∀ p c, h.mcache p c = idx → idx ≠ nilSpan →
      (m.spans idx).cached = true ∧ (m.spans idx).sizeclass = c)
    : Inv arenaBase (freePages { h with central := m } ret) reqs' := by
  have hm := freePages_central { h with central := m } ret
  have hchanged : h.central.Changed idx (freePages { h with central := m } ret).central := by
    rwa [hm]
  apply hinv.evolve hchanged
  . rwa [hm]
  . rw [hruns]
    cases hy with
    | kept hs => exact hinv.owns.kept hch hs
    | gone hold hnew => exact hinv.owns.leave hch hold hnew
  . rw [hm]
    intro _ hu
    cases hy with
    | kept hs => exact hs
    | gone _ hnew => contradiction
  . exact freePages_mcache _ _
  . rwa [hm]
  . exact fun r hr => Or.inl (hreqs r hr)

theorem uncacheSpan (hcached : (h.central.spans idx).cached = true) (hnot : ∀ p c, h.mcache p c ≠ idx)
    : Inv arenaBase (h.uncacheSpan idx) reqs := by
  obtain ⟨hch, hy⟩ := SlotHeap.uncacheSpan_yielded hinv.central hcached
  have hcentral := SharedHeap.uncache_inv hinv.central rfl hcached rfl
  exact hinv.yield hch hy hcentral rfl (fun _ hr => hr) (fun p c hpc => absurd hpc (hnot p c))

theorem uncache (p cls : Nat) (hne : h.mcache p cls ≠ nilSpan)
    : Inv arenaBase ((h.setMcache p cls nilSpan).uncacheSpan (h.mcache p cls)) reqs := by
  apply (hinv.setMcache p (absurd rfl) (absurd rfl)).uncacheSpan (hinv.caches.cached p cls hne).1
  intro p' c heq
  unfold Heap.setMcache at heq
  dsimp only at heq
  split at heq
  . exact hne heq.symm
  next hif =>
  -- The span has one class and one owner.
  have hne' : h.mcache p' c ≠ nilSpan := by
    rwa [heq]
  have hcls := (hinv.caches.cached p' c hne').2
  rw [heq, (hinv.caches.cached p cls hne).2] at hcls
  subst hcls
  exact hif ⟨hinv.caches.owner p' p _ heq hne', rfl⟩

theorem mcacheFlush (p : Nat) : Inv arenaBase (h.mcacheFlush p) reqs := by
  apply forRange_induct (fun _ h => Inv arenaBase h reqs)
  . decide
  . exact hinv
  intro cls h _ _ hinv
  dsimp only
  split
  . next hne => exact hinv.uncache p cls hne
  . exact hinv

theorem refill (hsmall : Small size align cls) (halign : align.isPowerOfTwo)
    (heq : mcacheAlloc.refill h p cls = some (x, h')) : After arenaBase reqs size align h' x := by
  unfold mcacheAlloc.refill at heq
  split at heq
  . contradiction
  next idx h1 hc =>
  obtain ⟨hinv1, hspan⟩ := hinv.cacheSpan hc
  split at heq
  . cases heq
    exact hinv1
  next hne =>
  obtain ⟨hcached, hcls, hnot⟩ := hspan hne
  subst hcls
  exact ((hinv1.setMcache p (fun _ => ⟨hcached, rfl⟩) fun _ => hnot).allocSlotIn hcached hsmall halign
    (some.inj heq)).1

omit hinv in
theorem uncacheSpan_setMcache (h : Heap) (p cls i idx : Nat)
    : (h.uncacheSpan idx).setMcache p cls i = (h.setMcache p cls i).uncacheSpan idx := by
  unfold Heap.uncacheSpan Heap.setMcache
  dsimp only
  cases (h.central.uncacheSpan idx).2 <;> rfl

theorem mcacheAlloc (hsize : size ≤ largeThreshold) (hpage : align ≤ pageSize) (halign : align.isPowerOfTwo)
    (heq : h.mcacheAlloc p size align = some (x, h')) : After arenaBase reqs size align h' x := by
  unfold Heap.mcacheAlloc at heq
  split at heq
  . cases heq
    exact hinv
  next cls hclass =>
  have hsmall : Small size align cls := ⟨hsize, hpage, hclass⟩
  split at heq
  . cases heq
    exact hinv
  dsimp only at heq
  split at heq
  . next hne =>
    obtain ⟨hcached, hcls⟩ := hinv.caches.cached p cls hne
    have hsmall' := hsmall
    rw [← hcls] at hsmall'
    split at heq
    . next y h1 hslot =>
      cases heq
      exact (hinv.allocSlotIn hcached hsmall' halign hslot).1
    next h1 hslot =>
    obtain ⟨hinv1, hmc, _⟩ := hinv.allocSlotIn hcached hsmall' halign hslot
    rw [uncacheSpan_setMcache, ← hmc] at heq
    rw [← hmc] at hne
    exact (uncache hinv1 p cls hne).refill hsmall halign heq
  . exact hinv.refill hsmall halign heq

omit hinv in
theorem centralAlloc_eq (heq : h.centralAlloc size align = some (x, h')) (hcls : classFor size align = some cls)
    : ∃ (base : Nat) (p : PageAlloc) (m : MCentral), Asked h.pages cls base p ∧
        MCentral.alloc.take h.central size align base = some (x, m) ∧
        h' = { h with pages := p, central := m } := by
  simp only [Heap.centralAlloc, hcls] at heq
  split at heq
  . obtain ⟨⟨_, m⟩, hm, hx⟩ := map_eq_some_iff.mp heq
    cases hx
    exact ⟨allocFailed, h.pages, m, Or.inl ⟨rfl, rfl⟩, hm, rfl⟩
  next c hc =>
  split at hc
  . next hpos =>
    have := some.inj hc
    subst this
    generalize hp : mheapAllocPages h.pages (npagesOfClass.getD cls 0) = y at heq
    obtain ⟨base, p⟩ := y
    obtain ⟨⟨_, m⟩, hm, hx⟩ := map_eq_some_iff.mp heq
    cases hx
    have hlt := MCentral.classFor_lt hcls
    exact ⟨base, p, m, Or.inr ⟨npages_pos cls hlt hpos.1, hp⟩, hm, rfl⟩
  . contradiction

theorem centralAlloc (hsize : size ≤ largeThreshold) (hpage : align ≤ pageSize) (halign : align.isPowerOfTwo)
    (heq : h.centralAlloc size align = some (x, h')) : After arenaBase reqs size align h' x := by
  cases hcls : classFor size align with
  | none =>
    unfold Heap.centralAlloc MCentral.alloc.take at heq
    rw [hcls] at heq
    cases heq
    exact hinv
  | some =>
    obtain ⟨_, p, m, hasked, htake, heq⟩ := centralAlloc_eq heq hcls
    subst heq
    have hdrawn := hinv.owns.drawn hinv.arenaBase_eq hinv.tracked_eq hasked
    have hcentral := (SharedHeap.alloc_inv hinv.central rfl hcls hdrawn htake).1
    rcases MCentral.alloc_take_spec hinv.central.table hcls hdrawn htake with hnone | hserved
    . obtain ⟨hx, _, hs⟩ := hnone
      subst hx
      exact hinv.same hs hcentral hasked
    obtain ⟨_, idx, s0, hserved⟩ := hserved
    have hlast : s0.SameShape (m.spans idx) :=
      (Span.SameShape.of_desc Span.desc_allocSlotLocked).trans
        (Span.SameShape.of_unlinked hserved.span)
    have ho := hserved.origin.obtained hlast
    have hold : (h.central.spans idx).cached = false := hinv.central.origin_cached hserved.origin
    have hshape : h.central.Used idx → m.Used idx →
        Span.SameShape (h.central.spans idx) (m.spans idx) := by
      intro hu _
      cases ho with
      | kept hs => exact hs
      | fresh hold => contradiction
    have hcaches : ∀ p c, h.mcache p c = idx → idx ≠ nilSpan →
        (m.spans idx).cached = true ∧ (m.spans idx).sizeclass = c := by
      intro p c hpc hne
      rw [← hpc] at hne hold
      rw [show _ = true from (hinv.caches.cached p c hne).1] at hold
      contradiction
    have hsold := hserved.sold
    have howns := hinv.owns.obtained hserved.changed ho hasked
    cases hslot : s0.allocSlotLocked.1 with
    | none =>
      rw [hslot] at hsold
      subst hsold
      exact hinv.evolve hserved.changed hcentral howns hshape rfl hcaches (fun r hr => Or.inl hr)
    | some =>
      rw [hslot] at hsold
      subst hsold
      refine hinv.evolve hserved.changed hcentral howns hshape rfl hcaches
        (forall_mem_cons.mpr ⟨.inr ⟨⟨hsize, hpage, ?_⟩, halign⟩, fun _ => .inl⟩)
      rw [hcls, hlast.sizeclass, hserved.origin.sizeclass]

omit hinv in
theorem pagesFor_pos (halign : align.isPowerOfTwo) (size : Nat) : 1 ≤ pagesFor (max size align) := by
  obtain ⟨k, _⟩ := halign
  have := Nat.two_pow_pos k
  unfold pagesFor
  rw [pageSize_eq]
  omega

theorem mheapAlloc (halign : align.isPowerOfTwo) (heq : h.mheapAlloc size align = some (block, h'))
    : Inv arenaBase h' ({ block := block, size := size, align := align } :: reqs) := by
  unfold Heap.mheapAlloc at heq
  dsimp only at heq
  generalize hp : mheapAllocPages h.pages (pagesFor (max size align)) = y at heq
  split at heq
  . contradiction
  next hne =>
  cases heq
  exact { hinv with
    owns := hinv.owns.drawLarge (pagesFor_pos halign size) hp hne
    fits := forall_mem_cons.mpr ⟨rfl, hinv.fits⟩
    pow := forall_mem_cons.mpr ⟨halign, hinv.pow⟩ }

theorem allocCentral (hsize : size ≤ largeThreshold) (hpage : align ≤ pageSize)
    (halign : align.isPowerOfTwo) (heq : alloc.central h size align = some (block, h'))
    : Inv arenaBase h' ({ block := block, size := size, align := align } :: reqs) := by
  unfold alloc.central at heq
  split at heq
  . contradiction
  . next idx k h1 hc =>
    cases heq
    exact hinv.centralAlloc hsize hpage halign hc
  . next h1 hc => exact mheapAlloc (hinv.centralAlloc hsize hpage halign hc) halign heq

theorem alloc (halign : align.isPowerOfTwo) (heq : h.alloc p size align = some (block, h'))
    : Inv arenaBase h' ({ block := block, size := size, align := align } :: reqs) := by
  unfold Heap.alloc at heq
  split at heq
  . exact hinv.mheapAlloc halign heq
  split at heq
  . next hroute =>
    unfold routeToMcentral at hroute
    rw [decide_eq_true_eq] at hroute
    obtain ⟨_, hsize, hpage⟩ := hroute
    split at heq
    . exact hinv.allocCentral hsize hpage halign heq
    next p =>
    split at heq
    . contradiction
    . next idx k h1 hc =>
      cases heq
      exact hinv.mcacheAlloc hsize hpage halign hc
    . next h1 hc =>
      exact allocCentral (hinv.mcacheAlloc hsize hpage halign hc) hsize hpage halign heq
  . exact hinv.mheapAlloc halign heq

theorem lookup_run (hx : (addr, n) ∈ runs reqs) : h.central.lookup addr = none := by
  unfold MCentral.lookup
  split
  . rfl
  dsimp only
  split
  . rfl
  split
  . rfl
  generalize h.central.pageToSpan ((addr - h.central.arenaBase) / pageSize) = i
  split
  . rfl
  next hin =>
  have hpos : 1 ≤ n := hinv.owns.large_pos hx
  by_cases hu : h.central.Used i
  . have hd := hinv.owns.apart i hu _ hx
    unfold PagesDisjoint MCentral.run at hd
    rw [pageSize_eq] at *
    omega
  have hblank := Span.SameShape.of_unlinked (s := Span.new) (hinv.central.table.unused i hu)
  have hbase : (h.central.spans i).base = 0 := hblank.base
  have hnpages : (h.central.spans i).npages = 0 := hblank.npages
  rw [hbase, hnpages] at hin
  omega

omit hinv in
theorem deallocRouted_inv (hinv : Inv arenaBase h (r :: reqs)) (halign : align = r.align ∨ align = 8)
    : Inv arenaBase (h.deallocRouted (h.addrOf r.block) r.size align) reqs := by
  have hfits := hinv.fits r mem_cons_self
  obtain ⟨block, size, align0⟩ := r
  cases block with
  | slot idx k =>
    have hsize : size ≤ largeThreshold := Small.size_le hfits
    have hheld : (idx, k) ∈ slots ({ block := .slot idx k, size := size, align := align0 } :: reqs) :=
      mem_slots mem_cons_self rfl
    have hcentral := SharedHeap.free_inv hinv.central hheld (Or.inr rfl)
    unfold Heap.deallocRouted
    rw [if_neg (by unfold routeToMheap; simpa using hsize)]
    generalize hfree : h.central.free (h.addrOf (.slot idx k)) = y
    obtain ⟨_, m, _⟩ := y
    obtain ⟨hfound, hch, hy, hc⟩ := SlotHeap.free_yielded hinv.central hheld hfree
    subst hfound
    apply hinv.yield hch hy
    . rw [show slots _ = (idx, k) :: slots reqs from rfl] at hcentral
      dsimp only [SlotHeap.shared] at hcentral
      rw [erase_cons_head] at hcentral
      have hm : (h.central.free ((h.central.spans idx).slotAddr k)).2.1 = m := by
        rw [show h.central.free ((h.central.spans idx).slotAddr k) = _ from hfree]
      rwa [hm] at hcentral
    . rfl
    . exact fun r hr => mem_cons_of_mem _ hr
    . intro p c hpc hne
      rw [← hpc] at hne
      obtain ⟨h1, h2⟩ := hinv.caches.cached p c hne
      rw [hpc] at h1 h2
      obtain ⟨h3, h4⟩ := hc h1
      exact ⟨h3, h4.trans h2⟩
  | run addr n =>
    have hn : n = pagesFor (max size align0) := hfits
    obtain ⟨k, hk⟩ := hinv.pow _ mem_cons_self
    have hpow := Nat.two_pow_pos k
    have hpages : 1 ≤ pagesFor (max size align) ∧ pagesFor (max size align) ≤ n := by
      rw [hn]
      unfold pagesFor
      rw [pageSize_eq]
      dsimp only at hk halign
      omega
    have hlookup := hinv.lookup_run (mem_runs mem_cons_self rfl)
    have hfree : Inv arenaBase (h.mheapFree addr size align) reqs :=
      { hinv with
        owns := hinv.owns.releaseLarge rfl hpages.1 hpages.2
        fits := fun r hr => hinv.fits r (mem_cons_of_mem _ hr)
        pow := fun r hr => hinv.pow r (mem_cons_of_mem _ hr) }
    unfold Heap.deallocRouted
    split
    . exact hfree
    . unfold MCentral.free Heap.addrOf
      rwa [hlookup]

end Inv

end Heap
