import Goish.Runtime.Heap.Lemmas.FirstPages
import Goish.Runtime.Heap.Lemmas.Requests

open List MHeap Central

namespace Heap

structure State where
  heap : Heap
  requests : List Request

inductive Step : State → State → Prop where
  | alloc (halign : align.isPowerOfTwo) (ha : s.heap.alloc p size align = some (block, h)) : Step s
        { heap := h, requests := { block := block, size := size, align := align } :: s.requests }
  | dealloc (hr : r ∈ s.requests) : Step s
        {
          heap := s.heap.deallocRouted (s.heap.addrOf r.block) r.size r.align
          requests := s.requests.erase r
        }
  | free (hr : r ∈ s.requests) : Step s
        {
          heap := s.heap.deallocRouted (s.heap.addrOf r.block) r.size 8
          requests := s.requests.erase r
        }
  | mcacheFlush (p : Nat) : Step s { s with heap := s.heap.mcacheFlush p }

end Heap

def heapSystem (arenaBase : Nat) : System Heap.State where
  init s := s = { heap := Heap.init arenaBase, requests := [] }
  step := Heap.Step

namespace Heap

def extent (h : Heap) : Block → Nat × Nat
  | .slot idx k => ((h.central.spans idx).slotAddr k, (h.central.spans idx).elemsize)
  | .run addr npages => (addr, npages * pageSize)

def bytes (h : Heap) (r : Request) : Nat × Nat :=
  (h.addrOf r.block, r.size)

def Within (x y : Nat × Nat) : Prop :=
  y.1 ≤ x.1 ∧ x.1 + x.2 ≤ y.1 + y.2

def BytesDisjoint (x y : Nat × Nat) : Prop :=
  x.1 + x.2 ≤ y.1 ∨ y.1 + y.2 ≤ x.1

theorem BytesDisjoint.mono (h : BytesDisjoint x y) (hx : Within x' x) (hy : Within y' y) : BytesDisjoint x' y' := by
  unfold BytesDisjoint Within at *
  omega

theorem PagesDisjoint.bytes (h : PagesDisjoint x y) : BytesDisjoint (x.1, x.2 * pageSize) (y.1, y.2 * pageSize) := by
  exact h

theorem Within.refl (x : Nat × Nat) : Within x x :=
  ⟨le_rfl, le_rfl⟩

theorem empty_inv (hp : PageHeap.Inv arenaBase maxArenaChunks ⟨p, []⟩)
    (htracked : tracked = maxArenaChunks * 512) : Inv arenaBase
        {
          pages := p
          central := MCentral.init arenaBase tracked
          mcache := fun _ _ => nilSpan
        } [] := by
  have hused : ∀ i, ¬ (MCentral.init arenaBase tracked).Used i := fun _ hu => hu rfl
  constructor
  case central => exact SharedHeap.init_inv False arenaBase tracked rfl
  case owns =>
    refine ⟨⟨[], hp, ?_, by simp [runs]⟩, ?_, ?_, List.Pairwise.nil⟩
    . exact fun i hi => absurd hi (hused i)
    . exact fun i _ hi => absurd hi (hused i)
    . exact fun i hi => absurd hi (hused i)
  case caches => exact ⟨fun _ _ hne => absurd rfl hne, fun _ _ _ _ hne => absurd rfl hne⟩
  case fits => simp
  case pow => simp
  case arenaBase_eq => rfl
  case tracked_eq => exact htracked

theorem mheapCapacityPages_eq (h : p.chunksCapacity = n) : mheapCapacityPages p = n * 512 := by
  have hchunk : pallocChunkBytes / pageSize = 512 := by decide
  unfold mheapCapacityPages PageAlloc.capacityChunks
  rw [h, hchunk]

theorem init_inv (halign : arenaBase % pallocChunkBytes = 0) : Inv arenaBase (init arenaBase) [] := by
  obtain ⟨hinv, hs⟩ := PageAlloc.new_spec halign
    (by decide : initialArenaChunks ≤ maxArenaChunks)
  unfold init
  generalize PageAlloc.new arenaBase initialArenaChunks maxArenaChunks = p at *
  apply empty_inv
  . exact ⟨hinv, hs.arenaBase, hs.chunksCapacity, by simp, List.Pairwise.nil⟩
  . exact mheapCapacityPages_eq hs.chunksCapacity

theorem step_inv (h : Inv arenaBase s.heap s.requests) (hstep : Step s t) : Inv arenaBase t.heap t.requests := by
  cases hstep with
  | alloc halign ha => exact h.alloc halign ha
  | dealloc hr => exact (h.perm (perm_cons_erase hr)).deallocRouted_inv (Or.inl rfl)
  | free hr => exact (h.perm (perm_cons_erase hr)).deallocRouted_inv (Or.inr rfl)
  | mcacheFlush p =>
    dsimp only
    exact h.mcacheFlush p

theorem reachable_inv (halign : arenaBase % pallocChunkBytes = 0)
    (hr : (heapSystem arenaBase).Reachable s) : Inv arenaBase s.heap s.requests := by
  apply hr.invariant (fun s => Inv arenaBase s.heap s.requests)
  . intro s hs
    subst hs
    exact init_inv halign
  . intro s t h hstep
    exact step_inv h hstep

namespace Inv

variable {h : Heap} {reqs : List Request} (hinv : Inv arenaBase h reqs)
include hinv

theorem geometry (hr : r ∈ reqs) (hb : r.block = .slot i k)
    : (h.central.spans i).Geometry ∧ k < (h.central.spans i).nelems := by
  have hu := hinv.used hr hb
  refine ⟨hinv.central.table.geometry i hu, ?_⟩
  exact ((hinv.central.spans i).slots hu).counted.held_lt k (mem_slots hr hb)

theorem extent_run (hr : r ∈ reqs) (hb : r.block = .slot i k)
    : Within (h.extent r.block) ((h.central.run i).1, (h.central.run i).2 * pageSize) := by
  obtain ⟨hg, hk⟩ := hinv.geometry hr hb
  have := hg.slot_le hk
  rw [hb]
  unfold Within extent MCentral.run Span.slotAddr
  dsimp only
  omega

theorem within (hr : r ∈ reqs) : Within (h.bytes r) (h.extent r.block) := by
  have hfits := hinv.fits r hr
  obtain ⟨_, he⟩ := hinv.pow r hr
  unfold Request.Fits at hfits
  unfold Within bytes
  cases hb : r.block with
  | slot i =>
    rw [hb] at hfits
    have hg := (hinv.geometry hr hb).1
    have hle : r.size ≤ (h.central.spans i).elemsize := by
      have hpage := hfits.align_le
      have hcls := hfits.cls_eq
      rw [he] at hpage hcls
      rw [hg.elemsize]
      apply classFor_size hfits.size_le _ hcls
      exact (Nat.pow_le_pow_iff_right (by decide)).mp hpage
    exact ⟨le_rfl, Nat.add_le_add_left hle _⟩
  | run _ n =>
    rw [hb] at hfits
    refine ⟨le_rfl, Nat.add_le_add_left ?_ _⟩
    have hle : max r.size r.align ≤ n * pageSize := by
      rw [hfits]
      unfold pagesFor
      rw [pageSize_eq]
      omega
    exact le_trans (Nat.le_max_left _ _) hle

omit hinv in
theorem disjoint (hinv : Inv arenaBase h (r :: reqs)) (hr : r' ∈ reqs)
    : BytesDisjoint (h.extent r.block) (h.extent r'.block) := by
  have hself : r ∈ r :: reqs := mem_cons_self
  have hother : r' ∈ r :: reqs := mem_cons_of_mem _ hr
  cases hb : r.block with
  | run addr n =>
    have hx : (addr, n) ∈ runs (r :: reqs) := mem_runs hself hb
    cases hb' : r'.block with
    | run =>
      have hlarge := hinv.owns.large
      unfold runs at hlarge
      rw [filterMap_cons_some (by rw [hb]; rfl), pairwise_cons] at hlarge
      exact PagesDisjoint.bytes (hlarge.1 _ (mem_runs hr hb'))
    | slot i' =>
      have hin := hinv.extent_run hother hb'
      have hd := hinv.owns.apart i' (hinv.used hother hb') _ hx
      rw [hb'] at hin
      exact (PagesDisjoint.bytes hd.symm).mono (Within.refl _) hin
  | slot i k =>
    have hin := hinv.extent_run hself hb
    have hu := hinv.used hself hb
    rw [hb] at hin
    cases hb' : r'.block with
    | run =>
      have hd := hinv.owns.apart i hu _ (mem_runs hother hb')
      exact (PagesDisjoint.bytes hd).mono hin (Within.refl _)
    | slot i' k' =>
      have hin' := hinv.extent_run hother hb'
      have hu' := hinv.used hother hb'
      rw [hb'] at hin'
      by_cases heq : i = i'
      . subst heq
        -- Two slots of one span.
        have hnodup : (slots (r :: reqs)).Nodup := hinv.central.nodup
        unfold slots at hnodup
        rw [filterMap_cons_some (by rw [hb]; rfl), nodup_cons] at hnodup
        have hk : k ≠ k' := by
          intro heq
          subst heq
          exact hnodup.1 (mem_slots hr hb')
        unfold BytesDisjoint extent Span.slotAddr
        dsimp only
        rcases Nat.lt_or_gt_of_ne hk with hlt | hlt
        all_goals
          have := Nat.mul_le_mul_right (h.central.spans i).elemsize hlt
          rw [Nat.succ_mul] at this
          omega
      . exact (PagesDisjoint.bytes (hinv.owns.spans i i' hu hu' heq)).mono hin hin'

theorem page_dvd (halign : arenaBase % pallocChunkBytes = 0)
    (hx : (∃ i, h.central.Used i ∧ x = h.central.run i) ∨ x ∈ runs reqs)
    : pageSize ∣ x.1 := by
  obtain ⟨held, h1, h2, h3⟩ := hinv.owns.pages
  have hmem : x ∈ held := by
    rcases hx with hx | hx
    . obtain ⟨i, hi, heq⟩ := hx
      rw [heq]
      exact h2 i hi
    . exact h3 x hx
  obtain ⟨_, hq⟩ := h1.held x hmem
  rw [hq.base, h1.arenaBase_eq]
  apply (Nat.dvd_add_left (Nat.dvd_mul_left _ _)).mpr
  exact dvd_trans (by decide) (Nat.dvd_of_mod_eq_zero halign)

end Inv

def Aligns (size align : Nat) : Prop :=
  align ≤ pageSize ∧
    (size ≤ largeThreshold → ∀ cls, classFor size align = some cls → align ∣ sizeOfClass.getD cls 0)

theorem pow_dvd_page (hpow : align.isPowerOfTwo) (hle : align ≤ pageSize) : align ∣ pageSize := by
  obtain ⟨_, hk⟩ := hpow
  subst hk
  have : pageSize = 2 ^ 13 := rfl
  rw [this] at *
  exact Nat.pow_dvd_pow 2 ((Nat.pow_le_pow_iff_right (by decide)).mp hle)

theorem Inv.aligned (hinv : Inv arenaBase h reqs) (halign : arenaBase % pallocChunkBytes = 0)
    (hr : r ∈ reqs) (ha : Aligns r.size r.align) : r.align ∣ h.addrOf r.block := by
  have hpage := pow_dvd_page (hinv.pow r hr) ha.1
  have hfits := hinv.fits r hr
  unfold Request.Fits at hfits
  cases hb : r.block with
  | run =>
    apply dvd_trans hpage
    exact hinv.page_dvd halign (Or.inr (mem_runs hr hb))
  | slot i =>
    rw [hb] at hfits
    have hg := (hinv.geometry hr hb).1
    have hbase := hinv.page_dvd halign (Or.inl ⟨i, hinv.used hr hb, rfl⟩)
    apply Nat.dvd_add (dvd_trans hpage hbase)
    apply Dvd.dvd.mul_left
    rw [hg.elemsize]
    exact ha.2 hfits.size_le _ hfits.cls_eq

def Aligned (size align : Nat) : Prop :=
  ∀ (arenaBase : Nat) (s : State) (p : Option Nat) (block : Block) (h : Heap),
    0 < arenaBase → arenaBase % pallocChunkBytes = 0 → (heapSystem arenaBase).Reachable s →
      s.heap.alloc p size align = some (block, h) → align ∣ h.addrOf block

structure Fresh (h : Heap) : Prop where
  filled : h.pages.Filled 0
  endChunk : h.pages.endChunk = initialArenaChunks
  arenaBase : h.pages.arenaBase = 2 ^ 22
  central : h.central = MCentral.init (2 ^ 22) (maxArenaChunks * 512)

theorem init_fresh (halign : arenaBase % pallocChunkBytes = 0) (heq : arenaBase = 2 ^ 22) : Fresh (init arenaBase) := by
  have hpos : 0 < arenaBase := by
    rw [heq]
    exact Nat.two_pow_pos 22
  have hfilled := PageAlloc.new_filled halign hpos
  have hs := (PageAlloc.new_spec halign (by decide : initialArenaChunks ≤ maxArenaChunks)).2
  unfold init
  generalize PageAlloc.new arenaBase initialArenaChunks maxArenaChunks = p at *
  have htracked := mheapCapacityPages_eq hs.chunksCapacity
  refine ⟨hfilled, hs.endChunk, hs.arenaBase.trans heq, ?_⟩
  dsimp only
  rw [htracked, heq]
  rfl

theorem Fresh.misaligned_run (h : Fresh hp) (hpow : align.isPowerOfTwo) (halign : pageSize < align)
    (hn : pagesFor (max size align) ≤ (maxArenaChunks - initialArenaChunks) * 512)
    : ∃ (block1 : Block) (h1 : Heap) (block2 : Block) (h2 : Heap),
        hp.alloc none 32769 1 = some (block1, h1) ∧ h1.alloc none size align = some (block2, h2) ∧
          ¬ align ∣ h2.addrOf block2 := by
  have hbase := h.arenaBase
  obtain ⟨p1, hp1, hf1, hbase1, hend1⟩ :=
    h.filled.mheapAllocPages_first h.endChunk (by decide : 1 ≤ 5) (by decide)
  rw [hbase] at hp1
  have hfive : pagesFor (max 32769 1) = 5 := by decide
  have hfirst : hp.alloc none 32769 1 = some (.run (2 ^ 22) 5, { hp with pages := p1 }) := by
    unfold alloc mheapAlloc
    rw [if_pos (by decide), hfive]
    dsimp only
    rw [hp1]
    rfl
  obtain ⟨p2, hp2, _⟩ :=
    hf1.mheapAllocPages hend1 (by decide) (Inv.pagesFor_pos hpow size) hn
  rw [hbase1, hbase] at hp2
  have hmheap : mheapAlloc { hp with pages := p1 } size align
      = some (.run (2 ^ 22 + 5 * pageSize) (pagesFor (max size align)), { hp with pages := p2 }) := by
    unfold mheapAlloc
    dsimp only
    rw [hp2]
    rfl
  have hsecond : alloc { hp with pages := p1 } none size align
      = some (.run (2 ^ 22 + 5 * pageSize) (pagesFor (max size align)), { hp with pages := p2 }) := by
    unfold alloc
    split
    . exact hmheap
    rw [if_neg]
    . exact hmheap
    . unfold routeToMcentral
      simp [not_le.mpr halign]
  refine ⟨_, _, _, _, hfirst, hsecond, ?_⟩
  intro hdvd
  obtain ⟨k, hk⟩ := hpow
  subst hk
  have hlt : 2 ^ 13 < 2 ^ k := halign
  have h14 : 14 ≤ k := (Nat.pow_lt_pow_iff_right (by decide)).mp hlt
  have hodd : 2 ^ 14 ∣ 2 ^ 22 + 5 * pageSize := dvd_trans (Nat.pow_dvd_pow 2 h14) hdvd
  revert hodd
  decide

def firstTwo (cls : Nat) : Option (Option (Nat × Nat) × Nat × Option (Nat × Nat) × Nat) :=
  match MCentral.alloc.take (MCentral.init (2 ^ 22) (maxArenaChunks * 512)) (sizeOfClass.getD cls 0) 8
      (2 ^ 22) with
  | none => none
  | some (x, m1) =>
    match MCentral.alloc.take m1 (sizeOfClass.getD cls 0) 8 allocFailed with
    | none => none
    | some (y, m2) => some (x, (m1.partialSpan cls).1, y, (m2.spans 1).slotAddr 1)

theorem classFor_sizeOfClass : ∀ c, c < numSizeClasses → 1 ≤ c → classFor (sizeOfClass.getD c 0) 8 = some c := by
  decide +kernel

theorem firstTwo_eq : ∀ c, c < numSizeClasses → 1 ≤ c →
        (pageSize ∣ sizeOfClass.getD c 0 ||
          decide (firstTwo c = some (some (1, 0), 1, some (1, 1), 2 ^ 22 + sizeOfClass.getD c 0)))
          = true := by
  decide +kernel

theorem alloc_take_class (h : classFor size align = some cls) (h' : classFor size' align' = some cls) (m : MCentral)
    (base : Nat) : MCentral.alloc.take m size align base = MCentral.alloc.take m size' align' base := by
  unfold MCentral.alloc.take
  rw [h, h']

theorem take_twice (hcls : classFor size align = some cls) (hpos : 1 ≤ cls)
    (hdvd : ¬ pageSize ∣ sizeOfClass.getD cls 0) : ∃ (m1 m2 : MCentral),
        MCentral.alloc.take (MCentral.init (2 ^ 22) (maxArenaChunks * 512)) size align (2 ^ 22)
          = some (some (1, 0), m1) ∧
        (m1.partialSpan cls).1 = 1 ∧
        MCentral.alloc.take m1 size align allocFailed = some (some (1, 1), m2) ∧
        (m2.spans 1).slotAddr 1 = 2 ^ 22 + sizeOfClass.getD cls 0 := by
  have hlt := MCentral.classFor_lt hcls
  have htwo := firstTwo_eq cls hlt hpos
  rw [decide_eq_false hdvd, Bool.false_or, decide_eq_true_eq] at htwo
  have hclass := classFor_sizeOfClass cls hlt hpos
  unfold firstTwo at htwo
  split at htwo
  . contradiction
  next x m1 h1 =>
  split at htwo
  . contradiction
  next y m2 h2 =>
  simp only [Option.some.injEq, Prod.mk.injEq] at htwo
  obtain ⟨hx, hp, hy, haddr⟩ := htwo
  subst hx hy
  refine ⟨m1, m2, ?_, hp, ?_, haddr⟩
  . rwa [alloc_take_class hcls hclass]
  . rwa [alloc_take_class hcls hclass]

theorem alloc_central_route (h : Heap) (hsize : 1 ≤ size) (hle : size ≤ largeThreshold)
    (halign : align ≤ pageSize) : h.alloc none size align = alloc.central h size align := by
  unfold alloc
  rw [if_neg (by unfold routeToMheap; simpa using hle),
    if_pos (by unfold routeToMcentral; simpa using ⟨hsize, hle, halign⟩)]

theorem Fresh.misaligned_slot (h : Fresh hp) (hsize : 1 ≤ size) (hle : size ≤ largeThreshold)
    (hpow : align.isPowerOfTwo) (halign : align ≤ pageSize) (hcls : classFor size align = some cls)
    (hdvd : ¬ align ∣ sizeOfClass.getD cls 0) : ∃ (block1 : Block) (h1 : Heap) (block2 : Block) (h2 : Heap),
        hp.alloc none size align = some (block1, h1) ∧ h1.alloc none size align = some (block2, h2) ∧
          ¬ align ∣ h2.addrOf block2 := by
  have hpos : 1 ≤ cls := by
    apply Nat.pos_of_ne_zero
    rintro rfl
    exact hdvd (Nat.dvd_zero _)
  have hpage := pow_dvd_page hpow halign
  obtain ⟨m1, m2, h1, hpart, h2, haddr⟩ :=
    take_twice hcls hpos fun h => hdvd (dvd_trans hpage h)
  have hlt := MCentral.classFor_lt hcls
  have hnpages : npagesOfClass.getD cls 0 ≤ initialArenaChunks := by
    have hall : ∀ c, c < numSizeClasses → npagesOfClass.getD c 0 ≤ initialArenaChunks := by decide
    exact hall cls hlt
  obtain ⟨p1, hp1, _⟩ :=
    h.filled.mheapAllocPages_first h.endChunk (Inv.npages_pos cls hlt hpos) hnpages
  rw [h.arenaBase] at hp1
  have hnone : (hp.central.partialSpan cls).1 = nilSpan := by
    rw [h.central]
    rfl
  have hfirst : hp.alloc none size align
      = some (.slot 1 0, { hp with pages := p1, central := m1 }) := by
    rw [← h.central] at h1
    rw [alloc_central_route _ hsize hle halign]
    unfold alloc.central centralAlloc
    rw [hcls]
    dsimp only
    rw [if_pos ⟨hpos, hnone⟩]
    dsimp only
    rw [hp1]
    rw [h1]
    rfl
  have hsecond : alloc { hp with pages := p1, central := m1 } none size align
      = some (.slot 1 1, { hp with pages := p1, central := m2 }) := by
    rw [alloc_central_route _ hsize hle halign]
    unfold alloc.central centralAlloc
    rw [hcls]
    dsimp only
    rw [if_neg (by rw [hpart]; exact fun h => nomatch h.2)]
    rw [h2]
    rfl
  refine ⟨_, _, _, _, hfirst, hsecond, ?_⟩
  intro hdvd'
  have haddr' : addrOf { hp with pages := p1, central := m2 } (.slot 1 1)
      = 2 ^ 22 + sizeOfClass.getD cls 0 := haddr
  rw [haddr'] at hdvd'
  have hbase : align ∣ 2 ^ 22 := dvd_trans hpage (by decide)
  exact hdvd ((Nat.dvd_add_right hbase).mp hdvd')

theorem not_aligned (hpow : align1.isPowerOfTwo)
    (hrun : ∃ (block1 : Block) (h1 : Heap) (block2 : Block) (h2 : Heap),
      (init arenaBase).alloc none size1 align1 = some (block1, h1) ∧
        h1.alloc none size align = some (block2, h2) ∧ ¬ align ∣ h2.addrOf block2)
    : ∃ (s : State) (block : Block) (h : Heap), (heapSystem arenaBase).Reachable s ∧
        s.heap.alloc none size align = some (block, h) ∧ ¬ align ∣ h.addrOf block := by
  obtain ⟨_, _, block2, h2, hfirst, hsecond, hbad⟩ := hrun
  have hr : (heapSystem arenaBase).Reachable { heap := init arenaBase, requests := [] } :=
    System.Reachable.init rfl
  exact ⟨_, block2, h2, hr.step (Step.alloc hpow hfirst), hsecond, hbad⟩

theorem aligned_iff (hsize : 1 ≤ size) (hpow : align.isPowerOfTwo)
    (hpages : pagesFor (max size align) ≤ (maxArenaChunks - initialArenaChunks) * 512)
    : Aligned size align ↔ Aligns size align := by
  have hchunk : 2 ^ 22 % pallocChunkBytes = 0 := by decide
  constructor
  . intro hall
    rcases lt_or_ge pageSize align with hlt | hle
    . have hrun := (init_fresh hchunk rfl).misaligned_run hpow hlt hpages
      obtain ⟨s, block, h, hr, ha, hbad⟩ := not_aligned ⟨0, rfl⟩ hrun
      exact absurd (hall (2 ^ 22) s none block h (by decide) hchunk hr ha) hbad
    refine ⟨hle, fun hsmall cls hcls => ?_⟩
    apply not_not.mp
    intro hdvd
    have hrun := (init_fresh hchunk rfl).misaligned_slot hsize hsmall hpow hle hcls hdvd
    obtain ⟨s, block, h, hr, ha, hbad⟩ := not_aligned hpow hrun
    exact hbad (hall (2 ^ 22) s none block h (by decide) hchunk hr ha)
  . intro ha _ _ _ _ _ _ halign hr heq
    exact ((reachable_inv halign hr).alloc hpow heq).aligned halign mem_cons_self ha

theorem alloc_contract (hsize : 1 ≤ size) (hpow : align.isPowerOfTwo)
    : (∀ (arenaBase : Nat) (s : State) (p : Option Nat) (block : Block) (h : Heap),
        0 < arenaBase → arenaBase % pallocChunkBytes = 0 → (heapSystem arenaBase).Reachable s →
          s.heap.alloc p size align = some (block, h) →
            Within (h.addrOf block, size) (h.extent block) ∧
            (∀ r ∈ s.requests,
              BytesDisjoint (h.extent block) (h.extent r.block) ∧
                BytesDisjoint (h.addrOf block, size) (h.bytes r)) ∧
            (Aligns size align → align ∣ h.addrOf block)) ∧
      (pagesFor (max size align) ≤ (maxArenaChunks - initialArenaChunks) * 512 →
        (Aligned size align ↔ Aligns size align)) := by
  refine ⟨?_, aligned_iff hsize hpow⟩
  intro _ _ _ _ _ _ halign hr heq
  have hinv := (reachable_inv halign hr).alloc hpow heq
  have hwithin := hinv.within mem_cons_self
  refine ⟨hwithin, ?_, fun ha => hinv.aligned halign mem_cons_self ha⟩
  intro r hmem
  have hdis := hinv.disjoint hmem
  exact ⟨hdis, hdis.mono hwithin (hinv.within (mem_cons_of_mem _ hmem))⟩

theorem alloc_contract_small : Aligned 24 8 ↔ Aligns 24 8 :=
  (alloc_contract (by decide : 1 ≤ 24) ⟨3, rfl⟩).2 (by decide)

theorem alloc_misaligned : ∃ (s : State) (block : Block) (h : Heap), (heapSystem (2 ^ 22)).Reachable s ∧
        s.heap.alloc none 2560 256 = some (block, h) ∧ ¬ 256 ∣ h.addrOf block :=
  not_aligned ⟨8, rfl⟩ ((init_fresh (by decide) rfl).misaligned_slot (by decide) (by decide) ⟨8, rfl⟩
    (by decide) (by decide +kernel : classFor 2560 256 = some 40) (by decide +kernel))

end Heap
