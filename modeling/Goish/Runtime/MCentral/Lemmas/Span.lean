import Goish.Runtime.MCentral.Impl.Span

open Word

namespace Central

namespace Span

theorem allocBitsWords_eq : allocBitsWords = 16 := rfl

section Effects

variable {s : Span}

def desc (s : Span) : Span :=
  { s with
    allocCount := 0
    freeindex := 0
    allocBits := Bitmap.zero allocBitsWords
    allocCache := 0#64 }

theorem desc_fetchOr : (s.fetchOr wi mask).desc = s.desc := rfl

theorem desc_fetchAnd : (s.fetchAnd wi mask).desc = s.desc := rfl

theorem desc_fetchAddCount : (s.fetchAddCount n).desc = s.desc := rfl

theorem desc_fetchSubCount : (s.fetchSubCount n).desc = s.desc := rfl

theorem desc_setFreeindex (s : Span) (f : Nat) : desc { s with freeindex := f } = s.desc := rfl

theorem desc_setAllocCache (s : Span) (c : BitVec 64) : desc { s with allocCache := c } = s.desc := rfl

theorem desc_freeSlotAtomic : (s.freeSlotAtomic j).desc = s.desc := by
  unfold freeSlotAtomic
  dsimp only
  split
  . rfl
  split
  . rw [desc_fetchSubCount, desc_fetchAnd]
  . rw [desc_fetchAnd]

theorem desc_freeSlotLocked : (s.freeSlotLocked j).desc = s.desc := by
  unfold freeSlotLocked
  dsimp only
  split
  . rfl
  split
  . split
    . apply (desc_setFreeindex _ _).trans
      rw [desc_fetchSubCount, desc_fetchAnd]
    . rw [desc_fetchSubCount, desc_fetchAnd]
  . rw [desc_fetchAnd]

theorem desc_refill : (s.refill wi load).desc = s.desc := by
  unfold refill refillAllocCache
  dsimp only
  split <;> split <;> rfl

theorem desc_releaseUnsold : s.releaseUnsold.desc = s.desc := by
  unfold releaseUnsold
  dsimp only
  split
  . rfl
  apply (desc_setAllocCache _ _).trans
  split
  . split
    . rw [desc_fetchSubCount, desc_fetchAnd]
    . rfl
  . rfl

theorem desc_allocSlotLocked : s.allocSlotLocked.2.desc = s.desc := by
  have hgo : ∀ (fuel wi : Nat), (allocSlotLocked.go s fuel wi).2.desc = s.desc := by
    intro fuel
    induction fuel with
    | zero =>
      intro _
      rfl
    | succ _ ih =>
      intro wi
      unfold allocSlotLocked.go
      dsimp only
      generalize (if (if u16 (wi * 64) < s.freeindex then s.freeindex - u16 (wi * 64) else 0) = 0 then
        BitVec.allOnes 64 else _) = mask
      split
      . apply ih
      split
      . rfl
      apply (desc_setFreeindex _ _).trans
      rw [desc_fetchAddCount, desc_fetchOr]
  unfold allocSlotLocked
  split
  . rfl
  . apply hgo

def Outcome.span : Outcome → Span
  | .done _ s => s
  | .overrun s => s
  | .refill _ s => s

theorem desc_scan : (nextFreeOwner.scan s f).span.desc = s.desc := by
  unfold nextFreeOwner.scan
  dsimp only
  split
  . split <;> rfl
  . split
    . rfl
    . split <;> rfl

theorem desc_start : (nextFreeOwner.start s).span.desc = s.desc := by
  unfold nextFreeOwner.start
  dsimp only
  split
  . rfl
  . apply desc_scan

theorem desc_resume : (nextFreeOwner.resume s r load).span.desc = s.desc := by
  unfold nextFreeOwner.resume
  split
  . rw [desc_scan, desc_refill]
  . apply (desc_setFreeindex _ _).trans
    apply desc_refill

@[simp]
theorem allocBits_fetchAddCount : (s.fetchAddCount n).allocBits = s.allocBits := rfl

@[simp]
theorem allocBits_fetchSubCount : (s.fetchSubCount n).allocBits = s.allocBits := rfl

@[simp]
theorem nelems_fetchSubCount : (s.fetchSubCount n).nelems = s.nelems := rfl

@[simp]
theorem allocCache_fetchSubCount : (s.fetchSubCount n).allocCache = s.allocCache := rfl

@[simp]
theorem freeindex_fetchSubCount : (s.fetchSubCount n).freeindex = s.freeindex := rfl

theorem get_fetchOr (hwi : wi < allocBitsWords) : (s.fetchOr wi mask).allocBits.get j
        = (s.allocBits.get j || (decide (wi = j / 64) && mask.getLsbD (j % 64))) := by
  unfold fetchOr
  rw [Bitmap.get_setWord hwi]
  split
  . next heq =>
    rw [decide_eq_true heq, Bool.true_and, BitVec.getLsbD_or, heq]
    rfl
  . next hne => rw [decide_eq_false hne, Bool.false_and, Bool.or_false]

theorem get_fetchAnd_not (hwi : wi < allocBitsWords) : (s.fetchAnd wi (~~~mask)).allocBits.get j
        = (s.allocBits.get j && !(decide (wi = j / 64) && mask.getLsbD (j % 64))) := by
  unfold fetchAnd
  rw [Bitmap.get_setWord hwi]
  split
  . next heq =>
    rw [decide_eq_true heq, Bool.true_and, BitVec.getLsbD_and, BitVec.getLsbD_not,
      decide_eq_true (Nat.mod_lt j (by omega)), Bool.true_and, heq]
    rfl
  . next hne => rw [decide_eq_false hne, Bool.false_and, Bool.not_false, Bool.and_true]

theorem getLsbD_slotMask (j t : Nat) : (slotMask j).getLsbD t = decide (t = j % 64) :=
  getLsbD_one_shiftLeft (Nat.mod_lt j (by omega)) t

theorem popcount_le (s : Span) : s.allocBits.popcount ≤ 1024 :=
  Bitmap.popcount_le

theorem u16_eq (h : n < 2 ^ 16) : u16 n = n :=
  Nat.mod_eq_of_lt h

section

variable (hwi : wi < allocBitsWords) (hc : s.allocCount = s.allocBits.popcount)
include hwi hc

theorem fetchOr_count (hdis : ∀ t, t < 64 → mask.getLsbD t = true → s.allocBits.get (64 * wi + t) = false)
    : ((s.fetchOr wi mask).fetchAddCount (countOnes mask)).allocCount
        = (s.fetchOr wi mask).allocBits.popcount := by
  have hpop : (s.fetchOr wi mask).allocBits.popcount = s.allocBits.popcount + countOnes mask := by
    apply Bitmap.popcount_or hwi
    intro t ht
    have hlt := BitVec.lt_of_getLsbD ht
    rw [← Bitmap.get_word hlt] at ht
    cases hm : mask.getLsbD t with
    | false => rfl
    | true =>
      rw [hdis t hlt hm] at ht
      contradiction
  have hle := popcount_le (s.fetchOr wi mask)
  rw [hpop] at hle ⊢
  show u16 (s.allocCount + countOnes mask) = _
  rw [u16_eq (by omega), hc]

theorem fetchAnd_count (hsub : ∀ t, t < 64 → mask.getLsbD t = true → s.allocBits.get (64 * wi + t) = true)
    : ((s.fetchAnd wi (~~~mask)).fetchSubCount (countOnes mask)).allocCount
        = (s.fetchAnd wi (~~~mask)).allocBits.popcount := by
  have hpop : (s.fetchAnd wi (~~~mask)).allocBits.popcount + countOnes mask
      = s.allocBits.popcount := by
    apply Bitmap.popcount_and_not hwi
    intro t ht
    have hlt := BitVec.lt_of_getLsbD ht
    rw [← Bitmap.get_word hlt]
    exact hsub t hlt ht
  have hle := popcount_le s
  show u16 (s.allocCount + (2 ^ 16 - countOnes mask)) = _
  unfold u16
  omega

end

end Effects

structure Counted (s : Span) (held : Nat → Prop) : Prop where
  nelems_le : s.nelems ≤ 1024
  count : s.allocCount = s.allocBits.popcount
  held_lt : ∀ j, held j → j < s.nelems
  held_get : ∀ j, held j → s.allocBits.get j = true

structure AtRest (clean : Prop) (s : Span) (held : Nat → Prop) : Prop extends Counted s held where
  exact : clean → ∀ j, s.allocBits.get j = true → held j

-- The window `alloc_cache` begins at the slot `f`. Where it has run over the end its bits may be behind the slots that
-- they were claimed for.
structure Claimed (clean : Prop) (s : Span) (held : Nat → Prop) (f : Nat) : Prop
    extends Counted s held where
  le : f ≤ s.nelems
  claimed : ∀ i, s.allocCache.getLsbD i = true → f % 64 + i < 64 →
    s.allocBits.get (f + i) = true ∧ ¬ held (f + i)
  aligned : clean ∨ f < s.nelems → ∀ i, s.allocCache.getLsbD i = true → f % 64 + i < 64
  phantom : f < s.nelems → ∀ j, s.nelems ≤ j → j / 64 = f / 64 → s.allocBits.get j = true
  spent : f = s.nelems → f % 64 = 0 → s.allocCache = 0#64
  exact : clean → ∀ j, s.allocBits.get j = true →
    held j ∨ ∃ i, s.allocCache.getLsbD i = true ∧ j = f + i

def Refill.Ready (s : Span) (held : Nat → Prop) : Refill → Prop
  | .window sfreeindex => sfreeindex % 64 = 0 ∧ sfreeindex < s.nelems
  | .prefetch slot =>
    (slot + 1) % 64 = 0 ∧ slot + 1 < s.nelems ∧ s.allocBits.get slot = true ∧ ¬ held slot

structure Pending (clean : Prop) (s : Span) (held : Nat → Prop) (r : Refill) : Prop
    extends Counted s held where
  ready : r.Ready s held
  exact : clean → ∀ j, s.allocBits.get j = true → held j ∨ r = .prefetch j

structure Loaded (clean : Prop) (s : Span) (held : Nat → Prop) (r : Refill) (load : BitVec 64) : Prop
    extends Pending clean s held r where
  clear : ∀ t, t < 64 → load.getLsbD t = false → s.allocBits.get (64 * r.wordIndex + t) = false
  kept : ∀ t, t < 64 → load.getLsbD t = true → s.nelems ≤ 64 * r.wordIndex + t →
    s.allocBits.get (64 * r.wordIndex + t) = true

theorem Pending.load (h : Pending clean s held r) : Loaded clean s held r (s.allocBits.word r.wordIndex) where
  toPending := h
  clear := by
    intro t ht hload
    rwa [Bitmap.get_word ht]
  kept := by
    intro t ht hload _
    rwa [Bitmap.get_word ht]

section Congr

structure SameSlots (s s' : Span) : Prop where
  nelems : s'.nelems = s.nelems
  allocCount : s'.allocCount = s.allocCount
  allocBits : s'.allocBits = s.allocBits
  allocCache : s'.allocCache = s.allocCache

variable (hs : SameSlots s s')
include hs

theorem SameSlots.eq : s' =
    { s' with
      nelems := s.nelems
      allocCount := s.allocCount
      allocBits := s.allocBits
      allocCache := s.allocCache } := by
  rw [← hs.nelems, ← hs.allocCount, ← hs.allocBits, ← hs.allocCache]

theorem AtRest.congr (h : AtRest clean s held) : AtRest clean s' held := by
  rw [hs.eq]
  exact { h with }

theorem Claimed.congr (h : Claimed clean s held f) : Claimed clean s' held f := by
  rw [hs.eq]
  exact { h with }

theorem Pending.congr (h : Pending clean s held r) : Pending clean s' held r := by
  rw [hs.eq]
  exact { h with }

theorem Loaded.congr (h : Loaded clean s held r load) : Loaded clean s' held r load := by
  rw [hs.eq]
  exact { h with }

end Congr

section Free

structure Freed (s : Span) (j : Nat) (s' : Span) : Prop where
  get : ∀ x, s'.allocBits.get x = (s.allocBits.get x && decide (x ≠ j))
  count : s'.allocCount = s'.allocBits.popcount
  nelems : s'.nelems = s.nelems
  allocCache : s'.allocCache = s.allocCache

section

variable (h : Counted s held) (hj : held j)
include h hj

theorem fetchAnd_freed : Freed s j ((s.fetchAnd (j / 64) (~~~slotMask j)).fetchSubCount 1) ∧
      j / 64 < allocBitsWords ∧
      s.allocBits.word (j / 64) &&& slotMask j ≠ 0#64 := by
  have hlt := h.held_lt j hj
  have hle := h.nelems_le
  have hget := h.held_get j hj
  have hwi : j / 64 < allocBitsWords := by
    rw [allocBitsWords_eq]
    omega
  refine ⟨?_, hwi, ?_⟩
  . refine ⟨?_, ?_, nelems_fetchSubCount, allocCache_fetchSubCount⟩
    . intro x
      rw [allocBits_fetchSubCount, get_fetchAnd_not hwi, getLsbD_slotMask]
      congr 1
      rw [Bool.eq_iff_iff]
      simp only [Bool.not_eq_true', Bool.and_eq_false_imp, decide_eq_true_eq,
        decide_eq_false_iff_not]
      omega
    . have hones : countOnes (slotMask j) = 1 := countOnes_one_shiftLeft (Nat.mod_lt j (by omega))
      rw [← hones]
      apply fetchAnd_count hwi h.count
      intro t _ ht
      rw [getLsbD_slotMask, decide_eq_true_eq] at ht
      rwa [ht, show 64 * (j / 64) + j % 64 = j by omega]
  . intro h0
    have hbit : (s.allocBits.word (j / 64) &&& slotMask j).getLsbD (j % 64) = true := by
      rwa [BitVec.getLsbD_and, getLsbD_slotMask, decide_eq_true rfl, Bool.and_true]
    rw [h0] at hbit
    simp at hbit

theorem freeSlotAtomic_freed : Freed s j (s.freeSlotAtomic j) ∧ (s.freeSlotAtomic j).freeindex = s.freeindex := by
  obtain ⟨hfreed, _, hne⟩ := fetchAnd_freed h hj
  unfold freeSlotAtomic
  rw [if_neg (by omega), if_pos hne]
  exact ⟨hfreed, freeindex_fetchSubCount⟩

theorem freeSlotLocked_freed : Freed s j (s.freeSlotLocked j) := by
  obtain ⟨hfreed, _, hne⟩ := fetchAnd_freed h hj
  unfold freeSlotLocked
  dsimp only
  rw [if_neg (by omega), if_pos hne]
  split
  . exact { hfreed with }
  . exact hfreed

end

variable (hf : Freed s j s')
include hf

theorem Counted.free (h : Counted s held) : Counted s' (fun x => held x ∧ x ≠ j) where
  nelems_le := by
    rw [hf.nelems]
    exact h.nelems_le
  count := hf.count
  held_lt := by
    intro x hx
    rw [hf.nelems]
    exact h.held_lt x hx.1
  held_get := by
    intro x hx
    rw [hf.get, h.held_get x hx.1, decide_eq_true hx.2]
    rfl

theorem Freed.get_of (hx : s'.allocBits.get x = true) : s.allocBits.get x = true ∧ x ≠ j := by
  rwa [hf.get, Bool.and_eq_true, decide_eq_true_eq] at hx

theorem Freed.get_keep (hx : s.allocBits.get x = true) (hne : x ≠ j) : s'.allocBits.get x = true := by
  rw [hf.get, hx, decide_eq_true hne]
  rfl

theorem AtRest.free (h : AtRest clean s held) : AtRest clean s' (fun x => held x ∧ x ≠ j) where
  toCounted := h.toCounted.free hf
  exact := by
    intro hclean x hx
    obtain ⟨hx, hne⟩ := hf.get_of hx
    exact ⟨h.exact hclean x hx, hne⟩

theorem Claimed.free (h : Claimed clean s held f) (hj : held j) : Claimed clean s' (fun x => held x ∧ x ≠ j) f where
  toCounted := h.toCounted.free hf
  le := by
    rw [hf.nelems]
    exact h.le
  claimed := by
    intro i hi hlt
    rw [hf.allocCache] at hi
    obtain ⟨h1, h2⟩ := h.claimed i hi hlt
    refine ⟨hf.get_keep h1 ?_, fun hx => h2 hx.1⟩
    rintro rfl
    exact h2 hj
  aligned := by
    rw [hf.nelems, hf.allocCache]
    exact h.aligned
  phantom := by
    rw [hf.nelems]
    intro hlt x hx1 hx2
    apply hf.get_keep (h.phantom hlt x hx1 hx2)
    have := h.held_lt j hj
    omega
  spent := by
    rw [hf.nelems, hf.allocCache]
    exact h.spent
  exact := by
    intro hclean x hx
    rw [hf.allocCache]
    obtain ⟨hx, hne⟩ := hf.get_of hx
    rcases h.exact hclean x hx with hheld | hcl
    . exact Or.inl ⟨hheld, hne⟩
    . exact Or.inr hcl

theorem Pending.free (h : Pending clean s held r) (hj : held j) : Pending clean s' (fun x => held x ∧ x ≠ j) r where
  toCounted := h.toCounted.free hf
  ready := by
    have hready := h.ready
    cases r with
    | window =>
      unfold Refill.Ready at *
      rwa [hf.nelems]
    | prefetch =>
      obtain ⟨h1, h2, h3, h4⟩ := hready
      unfold Refill.Ready
      rw [hf.nelems]
      refine ⟨h1, h2, hf.get_keep h3 ?_, fun hx => h4 hx.1⟩
      rintro rfl
      exact h4 hj
  exact := by
    intro hclean x hx
    obtain ⟨hx, hne⟩ := hf.get_of hx
    rcases h.exact hclean x hx with hheld | hr
    . exact Or.inl ⟨hheld, hne⟩
    . exact Or.inr hr

theorem Loaded.free (h : Loaded clean s held r load) (hj : held j)
    : Loaded clean s' (fun x => held x ∧ x ≠ j) r load where
  toPending := h.toPending.free hf hj
  clear := by
    intro t ht hload
    rw [hf.get, h.clear t ht hload]
    rfl
  kept := by
    rw [hf.nelems]
    intro t ht hload hle
    apply hf.get_keep (h.kept t ht hload hle)
    have := h.held_lt j hj
    omega

end Free

end Span

end Central
