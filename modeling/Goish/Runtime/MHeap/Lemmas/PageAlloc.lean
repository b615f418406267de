import Goish.Runtime.MHeap.Lemmas.PageBits
import Goish.Runtime.MHeap.Lemmas.RadixTree
import Goish.Runtime.MHeap.Lemmas.Find

open Loop FreeRun

namespace MHeap

namespace PageAlloc

def pageFree (p : PageAlloc) (q : Nat) : Bool :=
  decide (q / pallocChunkPages < p.endChunk)
    && (p.chunks (q / pallocChunkPages)).isFree (q % pallocChunkPages)

theorem pageFree_chunk (p : PageAlloc) (ht : t < 512) (hc : c < p.endChunk)
    : p.pageFree (c * 512 + t) = (p.chunks c).isFree t := by
  unfold pageFree
  rw [pallocChunkPages_eq, show (c * 512 + t) / 512 = c by omega,
    show (c * 512 + t) % 512 = t by omega, decide_eq_true hc, Bool.true_and]

theorem pageFree_inactive (p : PageAlloc) (hq : p.endChunk * 512 ≤ q) : p.pageFree q = false := by
  unfold pageFree
  rw [pallocChunkPages_eq, decide_eq_false (by omega), Bool.false_and]

structure Shape (p : PageAlloc) : Prop where
  aligned : p.arenaBase % pallocChunkBytes = 0
  summaryLen : p.summaryLen = summaryLenOf p.chunksCapacity
  endChunk_le : p.endChunk ≤ p.chunksCapacity
  fresh : ∀ (c : Nat), p.endChunk ≤ c → p.chunks c = PallocBits.zero

def LeafOk (p : PageAlloc) (c : Nat) : Prop :=
  p.summary 4 c = if c < p.endChunk then (p.chunks c).summarize else PallocSum.empty

structure Inv (p : PageAlloc) : Prop extends Shape p where
  consistent : Consistent p
  leaves : ∀ (c : Nat), LeafOk p c

theorem Shape.of_sameHeap (h : Shape p) (hs : SameHeap p q) : Shape q where
  aligned := by
    rw [hs.arenaBase]
    exact h.aligned
  summaryLen := by
    rw [hs.summaryLen, hs.chunksCapacity]
    exact h.summaryLen
  endChunk_le := by
    rw [hs.endChunk, hs.chunksCapacity]
    exact h.endChunk_le
  fresh := by
    rw [hs.endChunk, hs.chunks]
    exact h.fresh

theorem Inv.of_refreshed (h : Shape p) (hhi : hi ≤ p.endChunk) (hother : ∀ c, ¬ (lo ≤ c ∧ c < hi) → LeafOk p c)
    (hw : Write p q 4 (fun c => lo ≤ c ∧ c < hi))
    (hleaf : ∀ c, lo ≤ c → c < hi → q.summary 4 c = (p.chunks c).summarize) (hcons : Consistent r)
    (hs : AboveLeaves q r) : Inv r where
  toShape := h.of_sameHeap (hw.toSameHeap.trans hs.toSameHeap)
  consistent := hcons
  leaves := by
    intro c
    have hr := hw.toSameHeap.trans hs.toSameHeap
    unfold LeafOk
    rw [hs.leaves, hr.endChunk, hr.chunks]
    by_cases hc : lo ≤ c ∧ c < hi
    . rw [if_pos (by omega)]
      exact hleaf c hc.1 hc.2
    . rw [hw.other 4 c (by omega)]
      exact hother c hc

theorem summaryLenOf_mod (m : Nat) (h : l < 4) : summaryLenOf m (l + 1) % 8 = 0 := by
  unfold summaryLenOf
  rw [if_neg (by omega), levelBits_succ h]
  exact Nat.mul_mod_left _ 8

theorem summaryLenOf_cover (m : Nat) (h : l < 4) : m * 512 ≤ summaryLenOf m (l + 1) * 2 ^ levelLogPages (l + 1) := by
  have heq : summaryLenOf m (l + 1)
      = (max ((m + 1 <<< (3 * (3 - l)) - 1) >>> (3 * (3 - l))) 1 + 8 - 1) / 8 * 8 := by
    match l, h with
    | 0, _ | 1, _ | 2, _ | 3, _ => rfl
  have hlog : levelLogPages (l + 1) = 3 * (3 - l) + 9 := by
    match l, h with
    | 0, _ | 1, _ | 2, _ | 3, _ => rfl
  rw [heq, hlog, Nat.shiftLeft_eq, one_mul, Nat.shiftRight_eq_div_pow, pow_add,
    ← mul_assoc]
  apply Nat.mul_le_mul_right 512
  have hpos := Nat.two_pow_pos (3 * (3 - l))
  generalize 2 ^ (3 * (3 - l)) = k at hpos ⊢
  calc m ≤ (m + k - 1) / k * k := by
        have := Nat.lt_div_mul_add hpos (a := m + k - 1)
        omega
    _ ≤ (max ((m + k - 1) / k) 1 + 8 - 1) / 8 * 8 * k := by
        apply Nat.mul_le_mul_right
        omega

theorem levelPages_succ (h : l < 4) : 2 ^ levelLogPages l = 8 * 2 ^ levelLogPages (l + 1) := by
  rw [levelLogPages_succ h, Nat.pow_add, Nat.mul_comm]

theorem levelLogPages_le (h : l < 5) : levelLogPages l ≤ 21 := by
  match l, h with
  | 0, _ | 1, _ | 2, _ | 3, _ | 4, _ => decide

def Right (p : PageAlloc) (l i : Nat) : Prop :=
  ∃ (s : Summary),
    IsSummary p.pageFree (i * 2 ^ levelLogPages l) (2 ^ levelLogPages l) s ∧
    p.summary l i = PallocSum.pack s.start s.most s.last

theorem Right.packable {free : Nat → Bool} (h : l < 5)
    (hs : IsSummary free a (2 ^ levelLogPages l) s) : Packable s := by
  apply Packable.of_isSummary hs
  rw [maxPackedValue_eq]
  exact Nat.pow_le_pow_right (by omega) (levelLogPages_le h)

theorem Right.isSummary (hl : l < 5) (h : Right p l i)
    : IsSummary p.pageFree (i * 2 ^ levelLogPages l) (2 ^ levelLogPages l)
        (p.summary l i).unpack := by
  obtain ⟨_, hs, heq⟩ := h
  rwa [heq, PallocSum.unpack_pack (Right.packable hl hs)]

theorem Right.raw_eq_zero_iff (hl : l < 5) (h : Right p l i)
    : (p.summary l i).raw = 0#64 ↔ (p.summary l i).unpack = ⟨0, 0, 0⟩ := by
  obtain ⟨s, hs, heq⟩ := h
  have hp := Right.packable hl hs
  rw [heq, PallocSum.unpack_pack hp, PallocSum.raw_pack_eq_zero_iff hp]
  constructor
  . intro h0
    have := hp.start_le
    have := hp.last_le
    apply Summary.ext
    . show s.start = 0
      omega
    . exact h0
    . show s.last = 0
      omega
  . intro h0
    rw [h0]

theorem Right.empty (hfree : p.endChunk * 512 ≤ i * 2 ^ levelLogPages l)
    (h : p.summary l i = PallocSum.empty) : Right p l i := by
  refine ⟨⟨0, 0, 0⟩, ?_, ?_⟩
  . apply IsSummary.empty
    intro _ _ _
    exact p.pageFree_inactive (by omega)
  . rw [h, PallocSum.pack_zero]

theorem isSummary_chunk (p : PageAlloc) (hc : c < p.endChunk)
    (h : IsSummary (p.chunks c).isFree 0 512 s) : IsSummary p.pageFree (c * 512) 512 s := by
  have hpage : ∀ i, 0 ≤ i → i < 0 + 512 → p.pageFree (i + c * 512) = (p.chunks c).isFree i := by
    intro i _ _
    rw [add_comm i]
    exact p.pageFree_chunk (by omega) hc
  simpa using h.shift (c * 512) hpage

namespace Inv

variable (h : Inv p)
include h

theorem right_leaf (c : Nat) : Right p 4 c := by
  have hleaf := h.leaves c
  unfold LeafOk at hleaf
  split at hleaf
  . next hc =>
    obtain ⟨s, hs, heq⟩ := (p.chunks c).summarize_eq_pack
    refine ⟨s, p.isSummary_chunk hc hs, ?_⟩
    rw [hleaf, heq]
  next hc =>
  apply Right.empty
  . show p.endChunk * 512 ≤ c * 512
    omega
  . exact hleaf

theorem right_node (hl : l < 4) (hi : i < p.summaryLen l)
    (hchildren : ∀ j, j < p.summaryLen (l + 1) → Right p (l + 1) j) : Right p l i := by
  have hlog : i * 2 ^ levelLogPages l = 8 * i * 2 ^ levelLogPages (l + 1) := by
    rw [levelPages_succ hl, ← mul_assoc, mul_comm i]
  cases lt_or_ge (p.summaryLen (l + 1)) (8 * i + 8) with
  | inl hlt =>
    -- The entry has no block below it, so the chunks end before it.
    apply Right.empty
    . have hcover := summaryLenOf_cover p.chunksCapacity hl
      have hmod := summaryLenOf_mod p.chunksCapacity hl
      rw [← h.summaryLen] at hcover hmod
      rw [hlog]
      calc p.endChunk * 512 ≤ p.chunksCapacity * 512 := Nat.mul_le_mul_right 512 h.endChunk_le
        _ ≤ p.summaryLen (l + 1) * 2 ^ levelLogPages (l + 1) := hcover
        _ ≤ 8 * i * 2 ^ levelLogPages (l + 1) := by
          apply Nat.mul_le_mul_right
          omega
    . exact h.consistent.pad l i hl hlt
  | inr hge =>
    have hmerge := h.consistent.merged l i hl hi hge (by simp)
    have hlen : (p.summarySlice (l + 1) (8 * i) (8 * i + 8)).length = 8 := by
      simp [summarySlice]
    have hsums : ∀ (j : Nat) (hj : j < (p.summarySlice (l + 1) (8 * i) (8 * i + 8)).length),
        IsSummary p.pageFree (8 * i * 2 ^ levelLogPages (l + 1) + j * 2 ^ levelLogPages (l + 1))
          (2 ^ levelLogPages (l + 1)) (p.summarySlice (l + 1) (8 * i) (8 * i + 8))[j].unpack := by
      intro j _
      have := (hchildren (8 * i + j) (by omega)).isSummary (by omega)
      rw [← add_mul]
      simpa [summarySlice] using this
    obtain ⟨s, hs, heq⟩ := mergeSummaries_eq_pack _ _ (by omega) hsums
    refine ⟨s, ?_, ?_⟩
    . rw [hlen, ← levelPages_succ hl] at hs
      rwa [hlog]
    . rwa [hmerge]

theorem right : ∀ (k l i : Nat), l + k = 4 → i < p.summaryLen l → Right p l i := by
  intro k
  induction k with
  | zero =>
    intro l i _ _
    have : l = 4 := by omega
    subst this
    exact h.right_leaf i
  | succ k ih =>
    intro l _ _ hi
    apply h.right_node (by omega) hi
    intro j hj
    exact ih (l + 1) j (by omega) hj

end Inv

end PageAlloc

end MHeap
