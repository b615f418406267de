import Goish.Runtime.Heap.Lemmas.Pages

open FreeRun MHeap

namespace MHeap.PageAlloc

theorem step_spec (hle : n ≤ room * 512) (hroom : room * 512 ≤ 2 ^ 35)
    (hstep : min (max ((n * 8192 + 4194304 - 1) % 2 ^ 64 / 4194304) 64) room = step)
    : (n * 8192 + 4194304 - 1) % 2 ^ 64 / 4194304 ≤ step ∧ step ≤ room ∧ n ≤ step * 512 := by
  omega

structure Filled (p : PageAlloc) (k : Nat) : Prop where
  inv : p.Inv
  arenaBase_pos : 0 < p.arenaBase
  capacity_eq : p.chunksCapacity = maxArenaChunks
  bits : ∀ i, p.pageBit i = decide (i < k)

namespace Filled

variable {p p' : PageAlloc} (h : p.Filled k)
include h

theorem run_iff (hn : 1 ≤ n) : Run p.pageFree q n ↔ k ≤ q ∧ q + n ≤ p.endChunk * 512 := by
  simp only [pageFree_run hn, h.bits, decide_eq_false_iff_not]
  constructor
  . exact fun ⟨hend, hfree⟩ => ⟨not_lt.mp (hfree q (Nat.le_refl q) (by omega)), hend⟩
  . exact fun _ => ⟨by omega, fun _ _ _ => by omega⟩

theorem capacity_le : p.chunksCapacity * 512 ≤ 2 ^ 35 := by
  rw [h.capacity_eq]
  decide

theorem alloc (hn : 1 ≤ n) (hfit : k + n ≤ p.endChunk * 512)
    : ∃ (p' : PageAlloc), p.alloc n = (p.arenaBase + k * pageSize, p') ∧ p'.Filled (k + n) ∧
        p'.arenaBase = p.arenaBase ∧ p'.endChunk = p.endChunk := by
  obtain ⟨p', ha, hinv, hs⟩ := alloc_at h.inv hn h.arenaBase_pos h.capacity_le
    ((h.run_iff hn).mpr ⟨Nat.le_refl k, hfit⟩) fun x hx hr => absurd ((h.run_iff hn).mp hr).1 (by omega)
  refine ⟨p', ha, ⟨hinv, ?_, ?_, ?_⟩, hs.arenaBase, hs.endChunk⟩
  . rw [hs.arenaBase]
    exact h.arenaBase_pos
  . exact hs.chunksCapacity.trans h.capacity_eq
  . intro i
    rw [pageBit_allocRange hn hs, h.bits, Bool.eq_iff_iff]
    simp only [Bool.or_eq_true, decide_eq_true_eq]
    omega

theorem grow (hstep : p.endChunk + n ≤ p.chunksCapacity) : (p.grow n).Filled k ∧ (p.grow n).arenaBase = p.arenaBase ∧
        (p.grow n).endChunk = p.endChunk + n := by
  obtain ⟨hinv, hs⟩ := grow_spec h.inv hstep
  refine ⟨⟨hinv, ?_, ?_, ?_⟩, hs.arenaBase, hs.endChunk⟩
  . rw [hs.arenaBase]
    exact h.arenaBase_pos
  . exact hs.chunksCapacity.trans h.capacity_eq
  intro i
  rw [← h.bits i]
  unfold pageBit
  rw [hs.chunks]
  rfl

theorem mheapAllocPages (hend : p.endChunk = initialArenaChunks) (hk : k ≤ initialArenaChunks * 512)
    (hn : 1 ≤ n) (hle : n ≤ (maxArenaChunks - initialArenaChunks) * 512)
    : ∃ (p' : PageAlloc), Heap.mheapAllocPages p n = (p.arenaBase + k * pageSize, p') ∧
        p'.Filled (k + n) := by
  have hpos := h.arenaBase_pos
  unfold Heap.mheapAllocPages
  cases lt_or_ge (p.endChunk * 512) (k + n) with
  | inr hfit =>
    obtain ⟨p', ha, hp, _⟩ := h.alloc hn hfit
    refine ⟨p', ?_, hp⟩
    rw [ha]
    exact if_pos (by unfold allocFailed; omega)
  | inl =>
    -- The pages behind are too few, and the arena grows.
    have hfail : (p.alloc n).1 = allocFailed := by
      apply (alloc_failed_iff h.inv hn hpos h.capacity_le).mpr
      intro q hr
      have := (h.run_iff hn).mp hr
      omega
    generalize ha : p.alloc n = a at hfail
    obtain ⟨_, p1⟩ := a
    subst hfail
    have := alloc_failed ha
    subst this
    have hcap := h.capacity_eq
    dsimp only
    rw [if_neg (by simp), pageSize_eq, pallocChunkBytes_eq]
    unfold capacityChunks
    rw [hend, hcap]
    generalize hstep : min (max ((n * 8192 + 4194304 - 1) % 2 ^ 64 / 4194304) 64)
      (maxArenaChunks - initialArenaChunks) = step
    obtain ⟨hneed, hroom, hn512⟩ := step_spec hle (by decide) hstep
    rw [if_neg (not_lt.mpr hneed)]
    have hgrow : p1.endChunk + step ≤ p1.chunksCapacity := by
      rw [hend, hcap]
      exact Nat.add_le_of_le_sub' (by decide) hroom
    obtain ⟨hg, hgb, hge⟩ := h.grow hgrow
    have hfit : k + n ≤ (p1.grow step).endChunk * 512 := by
      rw [hge, hend, add_mul]
      exact Nat.add_le_add hk hn512
    obtain ⟨p', ha, hp, _⟩ := hg.alloc hn hfit
    refine ⟨p', ?_, hp⟩
    rw [ha, hgb, pageSize_eq]

omit h in
theorem mheapAllocPages_first (h : p.Filled 0) (hend : p.endChunk = initialArenaChunks) (hn : 1 ≤ n)
    (hle : n ≤ initialArenaChunks) : ∃ (p' : PageAlloc), Heap.mheapAllocPages p n = (p.arenaBase, p') ∧ p'.Filled n ∧
        p'.arenaBase = p.arenaBase ∧ p'.endChunk = initialArenaChunks := by
  have hpos := h.arenaBase_pos
  have hfit : 0 + n ≤ p.endChunk * 512 := by
    rw [hend]
    omega
  obtain ⟨p', ha, hp, hbase, hend'⟩ := h.alloc hn hfit
  rw [zero_add] at hp
  refine ⟨p', ?_, hp, hbase, hend'.trans hend⟩
  unfold Heap.mheapAllocPages
  rw [ha]
  exact if_pos (by unfold allocFailed; omega)

end Filled

theorem new_filled {arenaBase : Nat} (halign : arenaBase % pallocChunkBytes = 0) (hpos : 0 < arenaBase)
    : (new arenaBase initialArenaChunks maxArenaChunks).Filled 0 := by
  obtain ⟨hinv, hs⟩ := new_spec halign
    (by decide : initialArenaChunks ≤ maxArenaChunks)
  refine ⟨hinv, ?_, hs.chunksCapacity, ?_⟩
  . rwa [hs.arenaBase]
  . intro i
    unfold pageBit
    rw [hs.chunks]
    exact PageBits.get_zero _

end MHeap.PageAlloc
