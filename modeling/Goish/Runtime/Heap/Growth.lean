import Goish.Runtime.Heap.Lemmas.FirstPages

/-! The growth of the arena on demand against the whole reserved range. -/

open FreeRun MHeap

namespace MHeap.PageAlloc

variable {p : PageAlloc}

def ReservedRunAt (p : PageAlloc) (npages q : Nat) : Prop :=
  q + npages ≤ p.capacityChunks * pallocChunkPages ∧
  ∀ (i : Nat), q ≤ i → i < q + npages → p.endChunk * pallocChunkPages ≤ i ∨ p.pageBit i = false

def roomPages (p : PageAlloc) : Nat :=
  (p.capacityChunks - p.endChunk) * pallocChunkPages

def tailPages (p : PageAlloc) : Nat :=
  (summaryOf p.pageFree 0 (p.endChunk * pallocChunkPages)).last

theorem Inv.pageBit_inactive (h : Inv p) (hi : p.endChunk * 512 ≤ i) : p.pageBit i = false := by
  unfold pageBit
  rw [h.fresh _ (by rw [pallocChunkPages_eq]; omega)]
  exact PageBits.get_zero _

theorem le_need (n : Nat) : n ≤ (n * 8192 + 4194304 - 1) / 4194304 * 512 := by
  omega

theorem le_of_reserved (hno : ∀ q, ¬ Run p.pageFree q n) (hr : p.ReservedRunAt n q)
    : n ≤ p.tailPages + p.roomPages := by
  have hsum := summaryOf_isSummary p.pageFree 0 (p.endChunk * pallocChunkPages)
  obtain ⟨_, hfree⟩ := hr
  unfold tailPages roomPages capacityChunks at *
  rw [pallocChunkPages_eq] at *
  have hmul : (p.chunksCapacity - p.endChunk) * 512 = p.chunksCapacity * 512 - p.endChunk * 512 :=
    Nat.sub_mul ..
  rcases lt_or_ge q (p.endChunk * 512) with _ | hge
  . have hfree' : ∀ i, q ≤ i → i < q + n → i < p.endChunk * 512 → p.pageFree i = true := by
      intro i h1 h2 h3
      rw [pageFree_eq, decide_eq_true h3]
      rcases hfree i h1 h2 with _ | hbit
      . omega
      . simp [hbit]
    rcases lt_or_ge (p.endChunk * 512) (q + n) with _ | _
    . have htail : p.endChunk * 512 - q ≤ (summaryOf p.pageFree 0 (p.endChunk * 512)).last := by
        rcases lt_or_ge (summaryOf p.pageFree 0 (p.endChunk * 512)).last (p.endChunk * 512 - q) with _ | hge
        . have hstop := hsum.last_stop (by omega)
          rw [hfree' _ (by omega) (by omega) (by omega)] at hstop
          contradiction
        . exact hge
      omega
    . refine absurd ?_ (hno q)
      intro i h1 h2
      exact hfree' i h1 h2 (by omega)
  . omega

section Growth

variable (h : Inv p)
include h

theorem Inv.reserved_of_run (hn : 1 ≤ n) (hr : Run p.pageFree q n) : p.ReservedRunAt n q := by
  obtain ⟨hend, hfree⟩ := (pageFree_run hn).mp hr
  have hmono := Nat.mul_le_mul_right 512 h.endChunk_le
  exact ⟨le_trans hend hmono, fun i h1 h2 => Or.inr (hfree i h1 h2)⟩

theorem Inv.reserved_of_le (hle : n ≤ p.tailPages + p.roomPages)
    : p.ReservedRunAt n (p.capacityChunks * pallocChunkPages - n) := by
  have hsum := summaryOf_isSummary p.pageFree 0 (p.endChunk * pallocChunkPages)
  have hend := h.endChunk_le
  have hlast := hsum.last_le
  have hrun := hsum.last_run
  unfold ReservedRunAt tailPages roomPages capacityChunks at *
  rw [pallocChunkPages_eq] at *
  have hmul : (p.chunksCapacity - p.endChunk) * 512 = p.chunksCapacity * 512 - p.endChunk * 512 :=
    Nat.sub_mul ..
  refine ⟨by omega, ?_⟩
  intro i _ _
  rcases lt_or_ge i (p.endChunk * 512) with _ | hge
  . have := hrun i (by omega) (by omega)
    rw [pageFree_eq, Bool.and_eq_true] at this
    exact Or.inr (by simpa using this.2)
  . exact Or.inl hge

theorem Inv.run_activate (hroom : n ≤ k * 512) : Run (p.activate k).pageFree (p.endChunk * 512) n := by
  intro i h1 h2
  have hlt : i < (p.activate k).endChunk * 512 := by
    apply lt_of_lt_of_le h2
    show p.endChunk * 512 + n ≤ (p.endChunk + k) * 512
    rw [add_mul]
    exact Nat.add_le_add_left hroom _
  have hbit : (p.activate k).pageBit i = false := h.pageBit_inactive h1
  rw [pageFree_eq, hbit, decide_eq_true hlt]
  rfl

variable (hn : 1 ≤ n) (hbase : 0 < p.arenaBase) (hcap : p.chunksCapacity * 512 ≤ 2 ^ 35)
include hn hbase hcap

theorem Inv.grow_alloc_failed_iff (hk : p.endChunk + k ≤ p.chunksCapacity)
    : ((p.grow k).alloc n).1 = allocFailed ↔ ∀ q, ¬ Run (p.activate k).pageFree q n := by
  obtain ⟨hinv, hs⟩ := grow_spec h hk
  have hfree : (p.grow k).pageFree = (p.activate k).pageFree := by
    funext i
    rw [pageFree_eq, pageFree_eq]
    unfold pageBit
    rw [hs.endChunk, hs.chunks]
  rw [← hfree]
  apply alloc_failed_iff hinv hn
  . rwa [hs.arenaBase]
  . rwa [hs.chunksCapacity]

theorem Inv.mheapAllocPages_failed_iff : (Heap.mheapAllocPages p n).1 = allocFailed ↔
      (∀ q, ¬ Run p.pageFree q n) ∧ p.roomPages < n := by
  have hiff := alloc_failed_iff h hn hbase hcap
  have hend := h.endChunk_le
  unfold Heap.mheapAllocPages
  generalize ha : p.alloc n = a at hiff
  obtain ⟨_, p'⟩ := a
  dsimp only at hiff ⊢
  split
  . next hne =>
    refine ⟨fun h0 => absurd h0 hne, ?_⟩
    intro ⟨hno, _⟩
    exact absurd (hiff.mpr hno) hne
  next h0 =>
  rw [not_not] at h0
  subst h0
  have hp := alloc_failed ha
  subst hp
  refine Iff.trans ?_ (and_iff_right (hiff.mp rfl)).symm
  rw [pageSize_eq, pallocChunkBytes_eq]
  unfold roomPages
  rw [pallocChunkPages_eq]
  generalize hroom : p'.capacityChunks - p'.endChunk = room
  have hroom' : p'.endChunk + room = p'.chunksCapacity := by
    unfold capacityChunks at hroom
    omega
  generalize hneed : (n * 8192 + 4194304 - 1) % 2 ^ 64 / 4194304 = need
  split
  . next hlt =>
    have hle : need ≤ (n * 8192 + 4194304 - 1) / 4194304 := by
      rw [← hneed]
      exact Nat.div_le_div_right (Nat.mod_le _ _)
    refine ⟨fun _ => ?_, fun _ => rfl⟩
    omega
  next hge =>
  generalize hstep : min (max need 64) room = step at hge
  rw [not_lt] at hge
  rw [h.grow_alloc_failed_iff hn hbase hcap (by omega)]
  -- No word wraps around below the capacity.
  have hexact : n ≤ 2 ^ 35 → need = (n * 8192 + 4194304 - 1) / 4194304 := by
    intro _
    rw [← hneed, Nat.mod_eq_of_lt (by omega)]
  constructor
  . intro hno
    rcases lt_or_ge (room * 512) n with hlt | _
    . exact hlt
    have hstep' : n ≤ step * 512 := by
      apply le_trans _ (Nat.mul_le_mul_right 512 hge)
      rw [hexact (by omega)]
      exact le_need n
    exact absurd (h.run_activate hstep') (hno _)
  . intro _ _ hr
    have hact := ((pageFree_run hn).mp hr).1
    unfold activate at hact
    dsimp only at hact
    omega

end Growth

theorem Filled.refuses_capacity (h : p.Filled 0) (hend : p.endChunk = initialArenaChunks)
    : (Heap.mheapAllocPages p (maxArenaChunks * pallocChunkPages)).1 = allocFailed := by
  apply (h.inv.mheapAllocPages_failed_iff (by decide) h.arenaBase_pos h.capacity_le).mpr
  constructor
  . intro q hr
    have hle := ((h.run_iff (by decide)).mp hr).2
    rw [hend] at hle
    exact absurd (le_trans (Nat.le_add_left _ q) hle) (by decide)
  . unfold roomPages capacityChunks
    rw [h.capacity_eq, hend]
    decide

theorem Filled.reserved_capacity (h : p.Filled 0) : p.ReservedRunAt (maxArenaChunks * pallocChunkPages) 0 := by
  constructor
  . unfold capacityChunks
    rw [h.capacity_eq, zero_add]
  . intro i _ _
    rw [h.bits]
    exact Or.inr rfl

end MHeap.PageAlloc

namespace Heap

section Reachable

variable {s : PageHeap} {arenaBase nChunks maxChunks : Nat}
  (halign : arenaBase % pallocChunkBytes = 0) (hle : nChunks ≤ maxChunks)
  (h : (pageSystem arenaBase nChunks maxChunks).Reachable s) (hbase : 0 < arenaBase)
  (hspace : arenaBase + maxChunks * pallocChunkBytes ≤ 2 ^ heapAddrBits)
include halign hle h hbase hspace

theorem growth_exact (hn : 1 ≤ npages)
    : ((mheapAllocPages s.alloc npages).1 = allocFailed ↔ ∀ q, ¬ s.alloc.ReservedRunAt npages q) ↔
      ((∃ a, s.alloc.FreeRunAt npages a)
        ∨ npages ≤ s.alloc.roomPages
        ∨ s.alloc.tailPages + s.alloc.roomPages < npages) := by
  have hinv := PageHeap.reachable_inv halign hle h
  have hcap := hinv.capacity_le hspace
  have hfailed := hinv.alloc.mheapAllocPages_failed_iff hn (by rwa [hinv.arenaBase_eq]) hcap
  have hrun : (∃ a, s.alloc.FreeRunAt npages a) ↔ ∃ q, Run s.alloc.pageFree q npages := by
    simp only [PageAlloc.freeRunAt_iff hn]
    exact ⟨fun ⟨_, q, _, hr⟩ => ⟨q, hr⟩, fun ⟨q, hr⟩ => ⟨_, q, rfl, hr⟩⟩
  rw [hfailed, hrun]
  by_cases hactive : ∃ q, Run s.alloc.pageFree q npages
  . obtain ⟨q, hr⟩ := hactive
    have hres : s.alloc.ReservedRunAt npages q := hinv.alloc.reserved_of_run hn hr
    refine iff_of_true (iff_of_false ?_ ?_) (Or.inl ⟨q, hr⟩)
    . intro hno
      exact hno.1 q hr
    . intro hno
      exact hno q hres
  have hno : ∀ q, ¬ Run s.alloc.pageFree q npages := not_exists.mp hactive
  rw [and_iff_right hno, or_iff_right hactive]
  rcases lt_or_ge (s.alloc.tailPages + s.alloc.roomPages) npages with hlt | hge
  . refine iff_of_true (iff_of_true (by omega) ?_) (Or.inr hlt)
    intro q hq
    have := PageAlloc.le_of_reserved hno hq
    omega
  . have hex : ¬ ∀ q, ¬ s.alloc.ReservedRunAt npages q :=
      fun hnone => hnone _ (hinv.alloc.reserved_of_le hge)
    rw [iff_false_right hex, not_lt, or_iff_left (not_lt.mpr hge)]

omit halign hle h hbase hspace in
theorem growth_exact_hole : ∃ s : PageHeap, (pageSystem (2 ^ 30) 1 2).Reachable s ∧ s.held.length = 2 ∧
      (∀ a, ¬ s.alloc.FreeRunAt 511 a) ∧ (mheapAllocPages s.alloc 511).1 ≠ allocFailed := by
  obtain ⟨s, h, hheld⟩ := Small.exists_hole
  have hcap := h.inv.capacity_eq
  refine ⟨s, h.reachable, by rw [hheld]; rfl, fun a hfree => ?_, fun h0 => ?_⟩
  . obtain ⟨q, -, hr⟩ := (PageAlloc.freeRunAt_iff (by decide)).mp hfree
    obtain ⟨hend, hno⟩ := (h.run_iff (by decide)).mp hr
    exact hno 2 (by omega) (by omega) (.inr rfl)
  -- The inactive chunk has room for the request.
  have hroom : 511 ≤ s.alloc.roomPages := by
    rw [PageAlloc.roomPages, PageAlloc.capacityChunks, hcap, h.endChunk]
    decide
  refine ((growth_exact (by decide) (by decide) h.reachable (by decide) (by decide) (by decide)).mpr (.inr (.inl hroom))).mp h0
    512 ⟨?_, fun i hi _ => .inl ?_⟩
  . rw [PageAlloc.capacityChunks, hcap]
    decide
  . rwa [h.endChunk]

omit halign hle h hbase hspace in
theorem growth_refuses_free : (mheapAllocPages (PageAlloc.new (2 ^ 30) initialArenaChunks maxArenaChunks)
          (maxArenaChunks * pallocChunkPages)).1 =
      allocFailed ∧
      (PageAlloc.new (2 ^ 30) initialArenaChunks maxArenaChunks).ReservedRunAt
        (maxArenaChunks * pallocChunkPages) 0 := by
  have hf := PageAlloc.new_filled (by decide : 2 ^ 30 % pallocChunkBytes = 0) (by decide)
  have hend := (PageAlloc.new_spec (by decide : 2 ^ 30 % pallocChunkBytes = 0)
    (by decide : initialArenaChunks ≤ maxArenaChunks)).2.endChunk
  exact ⟨hf.refuses_capacity hend, hf.reserved_capacity⟩

end Reachable

end Heap
