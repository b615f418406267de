import Goish.Runtime.MHeap.Impl.PageAlloc

open Loop FreeRun

namespace MHeap

theorem levelBits_succ (h : l < 4) : levelBits (l + 1) = 3 := by
  match l, h with
  | 0, _ | 1, _ | 2, _ | 3, _ => rfl

theorem levelShift_succ (h : l < 4) : levelShift l = levelShift (l + 1) + 3 := by
  match l, h with
  | 0, _ | 1, _ | 2, _ | 3, _ => rfl

theorem levelLogPages_succ (h : l < 4) : levelLogPages l = levelLogPages (l + 1) + 3 := by
  match l, h with
  | 0, _ | 1, _ | 2, _ | 3, _ => rfl

theorem levelShift_eq (h : l < 5) : levelShift l = levelLogPages l + pageShift := by
  match l, h with
  | 0, _ | 1, _ | 2, _ | 3, _ | 4, _ => rfl

namespace PageAlloc

def merged (p : PageAlloc) (l i : Nat) : PallocSum :=
  mergeSummaries (p.summarySlice (l + 1) (8 * i) (8 * i + 8)) (levelLogPages (l + 1))

theorem merged_eq (p : PageAlloc) (h : l < 4) : mergeSummaries
        (p.summarySlice (l + 1) (i <<< levelBits (l + 1))
          (i <<< levelBits (l + 1) + 1 <<< levelBits (l + 1)))
        (levelLogPages (l + 1))
      = p.merged l i := by
  rw [levelBits_succ h, Nat.shiftLeft_eq, mul_comm i]
  rfl

theorem childHi_eq (h : l < 4) (i : Nat) : i <<< levelBits (l + 1) + 1 <<< levelBits (l + 1) = 8 * i + 8 := by
  rw [levelBits_succ h, Nat.shiftLeft_eq]
  omega

theorem merged_congr {p q : PageAlloc} (h : ∀ k, k < 8 → q.summary (l + 1) (8 * i + k) = p.summary (l + 1) (8 * i + k))
    : q.merged l i = p.merged l i := by
  unfold merged summarySlice
  congr 1
  apply List.map_congr_left
  intro c hc
  rw [List.mem_range'_1] at hc
  have := h (c - 8 * i) (by omega)
  rwa [show 8 * i + (c - 8 * i) = c by omega] at this

structure SameHeap (p q : PageAlloc) : Prop where
  summaryLen : q.summaryLen = p.summaryLen
  chunks : q.chunks = p.chunks
  chunksCapacity : q.chunksCapacity = p.chunksCapacity
  arenaBase : q.arenaBase = p.arenaBase
  startChunk : q.startChunk = p.startChunk
  endChunk : q.endChunk = p.endChunk

theorem SameHeap.refl (p : PageAlloc) : SameHeap p p :=
  ⟨rfl, rfl, rfl, rfl, rfl, rfl⟩

theorem SameHeap.trans (h1 : SameHeap p q) (h2 : SameHeap q r) : SameHeap p r where
  summaryLen := h2.summaryLen.trans h1.summaryLen
  chunks := h2.chunks.trans h1.chunks
  chunksCapacity := h2.chunksCapacity.trans h1.chunksCapacity
  arenaBase := h2.arenaBase.trans h1.arenaBase
  startChunk := h2.startChunk.trans h1.startChunk
  endChunk := h2.endChunk.trans h1.endChunk

structure Write (p q : PageAlloc) (l : Nat) (R : Nat → Prop) : Prop extends SameHeap p q where
  other : ∀ (l' i : Nat), ¬ (l' = l ∧ R i) → q.summary l' i = p.summary l' i

namespace Write

theorem refl (p : PageAlloc) (l : Nat) (R : Nat → Prop) : Write p p l R :=
  ⟨SameHeap.refl p, by intros; rfl⟩

theorem mono (h : Write p q l R) (hsub : ∀ i, R i → R' i) : Write p q l R' where
  toSameHeap := h.toSameHeap
  other := by
    intro _ i hni
    apply h.other
    intro hi
    exact hni ⟨hi.1, hsub i hi.2⟩

theorem setSummary (h : Write p q l R) (v : PallocSum) : Write p (q.setSummary l i v) l (fun x => R x ∨ x = i) where
  toSameHeap := { h with }
  other := by
    intro _ _ hni
    unfold PageAlloc.setSummary
    dsimp only
    rw [if_neg]
    . apply h.other
      intro hx
      exact hni ⟨hx.1, Or.inl hx.2⟩
    . intro hx
      exact hni ⟨hx.1, Or.inr hx.2⟩

theorem merged_of_ne (h : Write p q l R) (hl : l' + 1 ≠ l) (i : Nat) : q.merged l' i = p.merged l' i := by
  apply merged_congr
  intro k _
  apply h.other
  intro hx
  exact hl hx.1

end Write

theorem summary_setSummary_self (p : PageAlloc) : (p.setSummary l i v).summary l i = v := by
  simp [setSummary]

theorem summary_setSummary_ne (p : PageAlloc) (h : x ≠ i) : (p.setSummary l i v).summary l x = p.summary l x := by
  simp [setSummary, h]

structure Dirty (p : PageAlloc) (S : Nat → Nat → Prop) : Prop where
  pad : ∀ (l i : Nat), l < 4 → p.summaryLen (l + 1) < 8 * i + 8 → p.summary l i = PallocSum.empty
  merged : ∀ (l i : Nat), l < 4 → i < p.summaryLen l → 8 * i + 8 ≤ p.summaryLen (l + 1) → ¬ S l i →
    p.summary l i = p.merged l i

def Consistent (p : PageAlloc) : Prop :=
  Dirty p (fun _ _ => False)

namespace Dirty

theorem mono (h : Dirty p S) (hsub : ∀ l i, l < 4 → i < p.summaryLen l → S l i → S' l i) : Dirty p S' where
  pad := h.pad
  merged := by
    intro l i hl hi hblock hni
    apply h.merged l i hl hi hblock
    intro hs
    exact hni (hsub l i hl hi hs)

theorem congr (h : Dirty p S) (hsum : q.summary = p.summary) (hlen : q.summaryLen = p.summaryLen) : Dirty q S where
  pad := by
    rw [hsum, hlen]
    exact h.pad
  merged := by
    intro l i hl hi hblock hni
    have hmerged : q.merged l i = p.merged l i := by
      apply merged_congr
      intro k _
      rw [hsum]
    rw [hlen] at hi hblock
    rw [hmerged, hsum]
    exact h.merged l i hl hi hblock hni

theorem inter (h1 : Dirty p S) (h2 : Dirty p S') : Dirty p (fun l i => S l i ∧ S' l i) where
  pad := h1.pad
  merged := by
    intro l i hl hi hblock hni
    by_cases hs : S l i
    . apply h2.merged l i hl hi hblock
      intro hs'
      exact hni ⟨hs, hs'⟩
    . exact h1.merged l i hl hi hblock hs

theorem write (h : Dirty p S) (hw : Write p q l R)
    (hpad : ∀ i, R i → l < 4 → p.summaryLen (l + 1) < 8 * i + 8 → q.summary l i = PallocSum.empty)
    (hin : ∀ i, R i → l < 4 → i < p.summaryLen l → 8 * i + 8 ≤ p.summaryLen (l + 1) →
      q.summary l i = q.merged l i)
    : Dirty q (fun l' i => (S l' i ∧ ¬ (l' = l ∧ R i)) ∨ (l' + 1 = l ∧ ∃ k, k < 8 ∧ R (8 * i + k))) where
  pad := by
    intro l' i hl hblock
    rw [hw.summaryLen] at hblock
    by_cases hR : l' = l ∧ R i
    . obtain ⟨heq, hR⟩ := hR
      subst heq
      exact hpad i hR hl hblock
    . rw [hw.other l' i hR]
      exact h.pad l' i hl hblock
  merged := by
    intro l' i hl hi hblock hni
    rw [hw.summaryLen] at hi hblock
    by_cases hR : l' = l ∧ R i
    . obtain ⟨heq, hR⟩ := hR
      subst heq
      exact hin i hR hl hi hblock
    have hmerged : q.merged l' i = p.merged l' i := by
      apply merged_congr
      intro k hk
      apply hw.other
      intro hx
      exact hni (Or.inr ⟨hx.1, k, hk, hx.2⟩)
    rw [hmerged, hw.other l' i hR]
    apply h.merged l' i hl hi hblock
    intro hs
    exact hni (Or.inl ⟨hs, hR⟩)

end Dirty

def Parents (l lo hi : Nat) (l' i : Nat) : Prop :=
  l' + 1 = l ∧ lo / 8 ≤ i ∧ i < (hi + 7) / 8

theorem refreshLeaf_write (p : PageAlloc) (lo hi : Nat) (hle : lo ≤ hi)
    : let q := forRange lo hi p fun ci p => p.refreshLeaf ci
      Write p q 4 (fun i => lo ≤ i ∧ i < hi) ∧
      ∀ i, lo ≤ i → i < hi → q.summary 4 i = (p.chunks i).summarize := by
  intro q
  apply forRange_induct (fun i (q : PageAlloc) =>
    Write p q 4 (fun x => lo ≤ x ∧ x < i) ∧
    ∀ x, lo ≤ x → x < i → q.summary 4 x = (p.chunks x).summarize) hle
  . refine ⟨Write.refl p 4 _, ?_⟩
    intros
    omega
  intro i q _ _ ⟨hw, hleaf⟩
  constructor
  . apply (hw.setSummary _).mono
    intro _ _
    omega
  intro x hx1 _
  rcases lt_or_ge x i with hlt | _
  . rw [← hleaf x hx1 hlt]
    exact summary_setSummary_ne q (by omega)
  . rw [show x = i by omega, ← hw.chunks]
    exact summary_setSummary_self q

theorem Consistent.refreshLeaf (h : Consistent p) (hw : Write p q 4 (fun i => lo ≤ i ∧ i < hi))
    : Dirty q (Parents 4 lo hi) := by
  apply (h.write hw _ _).mono
  . rintro _ _ _ _ (⟨hf, _⟩ | ⟨heq, k, hk, h1, h2⟩)
    . contradiction
    refine ⟨heq, ?_, ?_⟩
    all_goals omega
  . intro _ _ _
    omega
  . intro _ _ _
    omega

structure Rebuilt (p : PageAlloc) (l lo i : Nat) (q : PageAlloc) : Prop
    extends Write p q l (fun x => lo ≤ x ∧ x < i) where
  pad : ∀ x, p.summaryLen (l + 1) < 8 * x + 8 → q.summary l x = p.summary l x
  done : ∀ x, lo ≤ x → x < i → x < p.summaryLen l → 8 * x + 8 ≤ p.summaryLen (l + 1) →
    q.summary l x = p.merged l x

namespace Rebuilt

theorem init (p : PageAlloc) (l lo : Nat) : Rebuilt p l lo lo p where
  toWrite := Write.refl p l _
  pad := by
    intros
    rfl
  done := by
    intros
    omega

theorem merged_self (h : Rebuilt p l lo i q) (x : Nat) : q.merged l x = p.merged l x :=
  h.merged_of_ne (by omega) x

theorem keep (h : Rebuilt p l lo i q)
    (hright : i < p.summaryLen l → 8 * i + 8 ≤ p.summaryLen (l + 1) → q.summary l i = q.merged l i)
    : Rebuilt p l lo (i + 1) q where
  toWrite := h.toWrite.mono (by intro x hx; omega)
  pad := h.pad
  done := by
    intro x hx1 _ hlen hblock
    rcases lt_or_ge x i with hlt | _
    . exact h.done x hx1 hlt hlen hblock
    have heq : x = i := by omega
    rw [heq] at hlen hblock ⊢
    rw [← h.merged_self]
    exact hright hlen hblock

theorem set (h : Rebuilt p l lo i q) (hi : lo ≤ i) (hblock : 8 * i + 8 ≤ p.summaryLen (l + 1))
    : Rebuilt p l lo (i + 1) (q.setSummary l i (q.merged l i)) where
  toWrite := (h.toWrite.setSummary _).mono (by intro x hx; omega)
  pad := by
    intro x hx
    rw [← h.pad x hx]
    exact summary_setSummary_ne q (by intro heq; rw [heq] at hx; omega)
  done := by
    intro x hx1 _ hlen hx3
    rcases lt_or_ge x i with hlt | _
    . rw [← h.done x hx1 hlt hlen hx3]
      exact summary_setSummary_ne q (by omega)
    . rw [show x = i by omega, ← h.merged_self]
      exact summary_setSummary_self q

theorem dirty (h : Rebuilt p l lo hi q) (hl : l < 4) (hp : Dirty p S)
    : Dirty q (fun l' i => (S l' i ∧ ¬ (l' = l ∧ lo ≤ i ∧ i < hi)) ∨ Parents l lo hi l' i) := by
  apply (hp.write h.toWrite _ _).mono
  . rintro _ _ _ _ (hs | ⟨heq, _⟩)
    . exact Or.inl hs
    . refine Or.inr ⟨heq, ?_, ?_⟩
      all_goals omega
  . intro i _ _ hblock
    rw [h.pad i hblock]
    exact hp.pad l i hl hblock
  . intro i hi _ hlen hblock
    rw [h.done i hi.1 hi.2 hlen hblock, h.merged_self]

theorem dirty_parents (h : Rebuilt p l (lo / 8) ((hi + 7) / 8) q) (hl : l < 4)
    (hp : Dirty p (Parents (l + 1) lo hi)) : Dirty q (Parents l (lo / 8) ((hi + 7) / 8)) := by
  apply (h.dirty hl hp).mono
  rintro _ _ _ _ (⟨⟨_, h1, h2⟩, hn⟩ | hs)
  . exact absurd ⟨by omega, h1, h2⟩ hn
  . exact hs

end Rebuilt

theorem Dirty.consistent (h : Dirty p (Parents 0 lo hi)) : Consistent p := by
  apply h.mono
  intro l i _ _ hs
  exact absurd hs.1 (by omega)

structure AboveLeaves (p q : PageAlloc) : Prop extends SameHeap p q where
  leaves : ∀ i, q.summary 4 i = p.summary 4 i

theorem AboveLeaves.refl (p : PageAlloc) : AboveLeaves p p :=
  ⟨SameHeap.refl p, by intro i; rfl⟩

theorem AboveLeaves.trans (h1 : AboveLeaves p q) (h2 : AboveLeaves q r) : AboveLeaves p r where
  toSameHeap := h1.toSameHeap.trans h2.toSameHeap
  leaves := by
    intro i
    rw [h2.leaves i, h1.leaves i]

theorem Rebuilt.aboveLeaves (h : Rebuilt p l lo hi q) (hl : l < 4) : AboveLeaves p q where
  toSameHeap := h.toSameHeap
  leaves := by
    intro i
    apply h.other
    omega

namespace update

structure EntryInv (p : PageAlloc) (l lo i : Nat) (st : PageAlloc × Bool) : Prop where
  rebuilt : Rebuilt p l lo i st.1
  unchanged : st.2 = false → st.1.summary = p.summary

theorem entry_inv (hl : l < 4) (hi : lo ≤ i) (h : EntryInv p l lo i st) : EntryInv p l lo (i + 1) (entry l i st) := by
  obtain ⟨q, _⟩ := st
  obtain ⟨hq, hun⟩ := h
  unfold entry
  dsimp only
  rw [merged_eq q hl, childHi_eq hl, hq.summaryLen]
  split
  . refine ⟨hq.keep ?_, hun⟩
    intros
    omega
  split
  . exact ⟨hq.set hi (by omega), by simp⟩
  . next heq =>
    refine ⟨hq.keep ?_, hun⟩
    intros
    simpa using heq

theorem addrToLevelIndex_succ (p : PageAlloc) (hl : l < 4) (addr : Nat)
    : p.addrToLevelIndex l addr = p.addrToLevelIndex (l + 1) addr / 8 := by
  unfold addrToLevelIndex
  rw [levelShift_succ hl, Nat.shiftRight_add, Nat.shiftRight_eq_div_pow _ 3]

theorem addrToLevelIndex_mono (p : PageAlloc) (hle : a ≤ b) (l : Nat)
    : p.addrToLevelIndex l a ≤ p.addrToLevelIndex l b := by
  unfold addrToLevelIndex
  rw [Nat.shiftRight_eq_div_pow, Nat.shiftRight_eq_div_pow]
  apply Nat.div_le_div_right
  omega

theorem walkUp_consistent (hle : base ≤ limit) : ∀ (levels : Nat) (p : PageAlloc), levels ≤ 4 →
        Dirty p (Parents levels (p.addrToLevelIndex levels base)
          (p.addrToLevelIndex levels limit + 1)) →
        Consistent (walkUp base limit levels p) ∧ AboveLeaves p (walkUp base limit levels p) := by
  intro levels
  induction levels with
  | zero =>
    intro p _ h
    exact ⟨h.consistent, AboveLeaves.refl p⟩
  | succ l ih =>
    intro p _ h
    have hlo := addrToLevelIndex_succ p (by omega : l < 4) base
    have hhi := addrToLevelIndex_succ p (by omega : l < 4) limit
    have hmono := addrToLevelIndex_mono p hle l
    unfold walkUp
    dsimp only
    have hinv : EntryInv p l (p.addrToLevelIndex l base) (p.addrToLevelIndex l limit + 1)
        (forRange (p.addrToLevelIndex l base) (p.addrToLevelIndex l limit + 1) (p, false)
          (entry l)) := by
      apply forRange_induct (fun i st => EntryInv p l (p.addrToLevelIndex l base) i st) (by omega)
      . exact ⟨Rebuilt.init p l _, by simp⟩
      . intro _ _ h1 _ hst
        exact entry_inv (by omega) h1 hst
    generalize forRange _ _ (p, false) (entry l) = st at hinv
    obtain ⟨q, changed⟩ := st
    obtain ⟨hq, hun⟩ := hinv
    have hdirty : Dirty q (Parents l (p.addrToLevelIndex l base)
        (p.addrToLevelIndex l limit + 1)) := by
      have hrange : (p.addrToLevelIndex (l + 1) limit + 1 + 7) / 8
          = p.addrToLevelIndex l limit + 1 := by omega
      rw [hlo, ← hrange] at hq ⊢
      exact hq.dirty_parents (by omega) h
    cases changed with
    | true =>
      rw [if_pos rfl]
      have haddr : ∀ addr, q.addrToLevelIndex l addr = p.addrToLevelIndex l addr := by
        intro _
        unfold addrToLevelIndex
        rw [hq.arenaBase]
      rw [← haddr, ← haddr] at hdirty
      have hrest := ih q (by omega) hdirty
      exact ⟨hrest.1, (hq.aboveLeaves (by omega)).trans hrest.2⟩
    | false =>
      rw [if_neg (by simp)]
      refine ⟨?_, hq.aboveLeaves (by omega)⟩
      -- Nothing has changed, so the parents of the rebuilt entries are not stale.
      apply ((h.congr (hun rfl) hq.summaryLen).inter hdirty).mono
      intro _ _ _ _ hs
      have h1 := hs.1.1
      have h2 := hs.2.1
      omega

end update

namespace grow

theorem entry_rebuilt (hl : l < 4) (hi : lo ≤ i) (h : Rebuilt p l lo i q) : Rebuilt p l lo (i + 1) (entry l i q) := by
  unfold entry
  dsimp only
  rw [merged_eq q hl, childHi_eq hl, h.summaryLen]
  split
  . apply h.keep
    intros
    omega
  split
  . exact h.set hi (by omega)
  . apply h.keep
    intros
    omega

theorem bubbleUp_consistent
    : ∀ (levels lo hi : Nat) (p : PageAlloc), levels ≤ 4 → lo ≤ hi → Dirty p (Parents levels lo hi) →
        Consistent (bubbleUp levels lo hi p) ∧ AboveLeaves p (bubbleUp levels lo hi p) := by
  intro levels
  induction levels with
  | zero =>
    intro _ _ p _ _ h
    exact ⟨h.consistent, AboveLeaves.refl p⟩
  | succ l ih =>
    intro lo hi p _ _ h
    have hlo : lo >>> levelBits (l + 1) = lo / 8 := by
      rw [levelBits_succ (by omega), Nat.shiftRight_eq_div_pow]
    have hhi : (hi + 1 <<< levelBits (l + 1) - 1) >>> levelBits (l + 1) = (hi + 7) / 8 := by
      rw [levelBits_succ (by omega), Nat.shiftRight_eq_div_pow]
      rfl
    unfold bubbleUp
    rw [hlo, hhi]
    have hq : Rebuilt p l (lo / 8) ((hi + 7) / 8)
        (forRange (lo / 8) ((hi + 7) / 8) p (entry l)) := by
      apply forRange_induct (fun i q => Rebuilt p l (lo / 8) i q) (by omega)
      . exact Rebuilt.init p l _
      . intro i q h1 _ hq
        exact entry_rebuilt (by omega) h1 hq
    have hrest := ih _ _ _ (by omega) (by omega) (hq.dirty_parents (by omega) h)
    exact ⟨hrest.1, (hq.aboveLeaves (by omega)).trans hrest.2⟩

end grow

namespace bubbleUpInitial

theorem level_rebuilt (hl : l < 4) : ∀ (fuel i : Nat) (q : PageAlloc), i + fuel = p.summaryLen l → Rebuilt p l 0 i q →
        Rebuilt p l 0 (p.summaryLen l) (level l fuel i q) := by
  intro fuel
  induction fuel with
  | zero =>
    intro i q hi h
    rwa [← hi]
  | succ _ ih =>
    intro i q _ h
    unfold level
    dsimp only
    rw [merged_eq q hl, childHi_eq hl, h.summaryLen]
    split
    . exact {
        toWrite := h.toWrite.mono (by intro x hx; omega)
        pad := h.pad
        done := by
          intro x hx1 _ hlen hblock
          exact h.done x hx1 (by omega) hlen hblock
      }
    . exact ih (i + 1) _ (by omega) (h.set (by omega) (by omega))

theorem level_dirty (hl : l < 4) (h : Dirty p (fun l' _ => l' < l + 1)) : let q := level l (p.summaryLen l) 0 p
      Dirty q (fun l' _ => l' < l) ∧ AboveLeaves p q := by
  intro q
  have hq : Rebuilt p l 0 (p.summaryLen l) q :=
    level_rebuilt hl _ _ p (by omega) (Rebuilt.init p l 0)
  refine ⟨?_, hq.aboveLeaves hl⟩
  apply (hq.dirty hl h).mono
  intro l' i _ hi hs
  rw [hq.summaryLen] at hi
  rcases hs with ⟨_, hn⟩ | hs
  . rcases lt_or_ge l' l with hlt' | _
    . exact hlt'
    . have heq : l' = l := by omega
      subst heq
      exact absurd ⟨rfl, by omega, hi⟩ hn
  . have := hs.1
    omega

end bubbleUpInitial

theorem bubbleUpInitial_consistent (h : Dirty p (fun _ _ => True))
    : Consistent p.bubbleUpInitial ∧ AboveLeaves p p.bubbleUpInitial := by
  have hp : Dirty p (fun l _ => l < 4) := by
    apply h.mono
    intro l i hl _ _
    exact hl
  obtain ⟨h3, hs3⟩ := bubbleUpInitial.level_dirty (by omega) hp
  obtain ⟨h2, hs2⟩ := bubbleUpInitial.level_dirty (by omega) h3
  obtain ⟨h1, hs1⟩ := bubbleUpInitial.level_dirty (by omega) h2
  obtain ⟨h0, hs0⟩ := bubbleUpInitial.level_dirty (by omega) h1
  constructor
  . apply h0.mono
    intro _ _ _ _ _
    omega
  . exact ((hs3.trans hs2).trans hs1).trans hs0

end PageAlloc

end MHeap
