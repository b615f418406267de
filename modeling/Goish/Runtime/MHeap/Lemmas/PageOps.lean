import Goish.Runtime.MHeap.Lemmas.PageAlloc

open Loop FreeRun

namespace MHeap

namespace PageAlloc

section New

variable {base nChunks maxChunks : Nat}

theorem mapped_dirty : Dirty (mapped base nChunks maxChunks) (fun _ _ => True) where
  pad := by
    intros
    rfl
  merged := by
    intro _ _ _ _ _ hn
    contradiction

section

variable (halign : base % pallocChunkBytes = 0) (hle : nChunks ≤ maxChunks)
include halign hle

theorem mapped_shape : Shape (mapped base nChunks maxChunks) where
  aligned := halign
  summaryLen := rfl
  endChunk_le := hle
  fresh := by
    intros
    rfl

theorem new_spec : Inv (new base nChunks maxChunks) ∧
      SameHeap (mapped base nChunks maxChunks) (new base nChunks maxChunks) := by
  unfold new
  dsimp only
  obtain ⟨hw, hleaf⟩ := refreshLeaf_write (mapped base nChunks maxChunks) 0 nChunks (by omega)
  generalize forRange 0 nChunks (mapped base nChunks maxChunks) _ = q at hw hleaf ⊢
  have hdirty : Dirty q (fun _ _ => True) := by
    apply (mapped_dirty.write hw _ _).mono
    . intros
      trivial
    . intro _ _ _
      omega
    . intro _ _ _
      omega
  have hend : nChunks ≤ (mapped base nChunks maxChunks).endChunk := Nat.le_refl nChunks
  obtain ⟨hcons, hs⟩ := bubbleUpInitial_consistent hdirty
  refine ⟨?_, hw.toSameHeap.trans hs.toSameHeap⟩
  apply Inv.of_refreshed (mapped_shape halign hle) hend _ hw hleaf hcons hs
  intro c _
  unfold LeafOk
  rw [if_neg]
  . rfl
  show ¬ c < nChunks
  omega

end

end New

def activate (p : PageAlloc) (k : Nat) : PageAlloc :=
  { p with endChunk := p.endChunk + k }

theorem activate_shape (h : Shape p) (hk : p.endChunk + k ≤ p.chunksCapacity) : Shape (p.activate k) where
  aligned := h.aligned
  summaryLen := h.summaryLen
  endChunk_le := hk
  fresh := by
    intro c hc
    apply h.fresh
    unfold activate at hc
    dsimp only at hc
    omega

theorem grow_spec (h : Inv p) (hk : p.endChunk + k ≤ p.chunksCapacity)
    : Inv (p.grow k) ∧ SameHeap (p.activate k) (p.grow k) := by
  unfold grow
  split
  . next h0 =>
    have heq : p.activate k = p := by
      rw [h0]
      rfl
    rw [heq]
    exact ⟨h, SameHeap.refl p⟩
  dsimp only
  rw [show ({ p with endChunk := p.endChunk + k } : PageAlloc) = p.activate k by rfl,
    show summaryLevels - 1 = 4 by rfl]
  obtain ⟨hw, hleaf⟩ := refreshLeaf_write (p.activate k) p.endChunk (p.endChunk + k) (by omega)
  generalize forRange p.endChunk (p.endChunk + k) (p.activate k) _ = q at hw hleaf ⊢
  have hcons : Consistent (p.activate k) := h.consistent.congr rfl rfl
  obtain ⟨hcons, hs⟩ := grow.bubbleUp_consistent 4 _ _ q (by omega) (by omega)
    (hcons.refreshLeaf hw)
  have hend : p.endChunk + k ≤ (p.activate k).endChunk := le_rfl
  refine ⟨?_, hw.toSameHeap.trans hs.toSameHeap⟩
  apply Inv.of_refreshed (activate_shape h.toShape hk) hend _ hw hleaf hcons hs
  intro c _
  have hold := h.leaves c
  show p.summary 4 c = if c < p.endChunk + k then (p.chunks c).summarize else _
  rw [hold]
  rcases lt_or_ge c p.endChunk with hlt | _
  . rw [if_pos hlt, if_pos (by omega)]
  . rw [if_neg (by omega), if_neg (by omega)]

theorem update_spec (h : Shape p) (hcons : Consistent p)
    (hn : 1 ≤ npages) (hend : p.chunkIndex (base + npages * pageSize - 1) < p.endChunk)
    (hother : ∀ c, ¬ (p.chunkIndex base ≤ c ∧ c ≤ p.chunkIndex (base + npages * pageSize - 1)) →
      LeafOk p c) : Inv (p.update base npages) ∧ SameHeap p (p.update base npages) := by
  have hpage := pageSize_eq
  have hlimit : base ≤ base + npages * pageSize - 1 := by
    rw [hpage]
    omega
  have hindex : ∀ addr, p.chunkIndex addr = p.addrToLevelIndex 4 addr := by
    intro _
    unfold chunkIndex addrToLevelIndex
    rw [Nat.shiftRight_eq_div_pow]
    rfl
  have hle := update.addrToLevelIndex_mono p hlimit 4
  unfold update
  dsimp only
  generalize base + npages * pageSize - 1 = limit at *
  rw [hindex] at hend hother ⊢
  rw [hindex] at hother ⊢
  rw [show summaryLevels - 1 = 4 by rfl]
  obtain ⟨hw, hleaf⟩ := refreshLeaf_write p (p.addrToLevelIndex 4 base)
    (p.addrToLevelIndex 4 limit + 1) (by omega)
  generalize forRange _ _ p _ = q at hw hleaf ⊢
  have hdirty := hcons.refreshLeaf hw
  have haddr : ∀ addr, p.addrToLevelIndex 4 addr = q.addrToLevelIndex 4 addr := by
    intro _
    unfold addrToLevelIndex
    rw [hw.arenaBase]
  rw [haddr, haddr] at hdirty
  obtain ⟨hcons, hs⟩ := update.walkUp_consistent hlimit 4 q (by omega) hdirty
  refine ⟨?_, hw.toSameHeap.trans hs.toSameHeap⟩
  apply Inv.of_refreshed h (by omega) _ hw hleaf hcons hs
  intro _ _
  apply hother
  omega

section Coordinates

variable (p : PageAlloc)

theorem chunkIndex_base (a : Nat) : p.chunkIndex (p.arenaBase + a * pageSize) = a / 512 := by
  unfold chunkIndex
  rw [pallocChunkBytes_eq, pageSize_eq]
  omega

theorem chunkIndex_limit (a : Nat) (hn : 1 ≤ n)
    : p.chunkIndex (p.arenaBase + a * pageSize + n * pageSize - 1) = (a + n - 1) / 512 := by
  unfold chunkIndex
  rw [pallocChunkBytes_eq, pageSize_eq]
  omega

variable (h : p.arenaBase % pallocChunkBytes = 0)
include h

theorem chunkPageIndex_base (a : Nat) : p.chunkPageIndex (p.arenaBase + a * pageSize) = a % 512 := by
  unfold chunkPageIndex
  rw [pallocChunkBytes_eq, pageSize_eq] at *
  omega

theorem chunkPageIndex_limit (a : Nat) (hn : 1 ≤ n)
    : p.chunkPageIndex (p.arenaBase + a * pageSize + n * pageSize - 1) = (a + n - 1) % 512 := by
  unfold chunkPageIndex
  rw [pallocChunkBytes_eq, pageSize_eq] at *
  omega

end Coordinates

def chunkLo (a c : Nat) : Nat :=
  if c = a / 512 then a % 512 else 0

def chunkHi (a n c : Nat) : Nat :=
  if c = (a + n - 1) / 512 then (a + n - 1) % 512 + 1 else 512

def mapChunks (p : PageAlloc) (f : PallocBits → Nat → Nat → PallocBits) (a n : Nat) : PageAlloc :=
  { p with
    chunks := fun c =>
      if a / 512 ≤ c ∧ c ≤ (a + n - 1) / 512 then
        f (p.chunks c) (chunkLo a c) (chunkHi a n c - chunkLo a c)
      else
        p.chunks c }

theorem forRange_setChunk (p : PageAlloc) (g : PallocBits → PallocBits) (hle : lo ≤ hi)
    : forRange lo hi p (fun c p => p.setChunk c (g (p.chunks c))) =
      { p with chunks := fun c => if lo ≤ c ∧ c < hi then g (p.chunks c) else p.chunks c } := by
  apply forRange_induct (fun i (q : PageAlloc) => q =
    { p with chunks := fun c => if lo ≤ c ∧ c < i then g (p.chunks c) else p.chunks c }) hle
  . have hnone : ∀ c, ¬ (lo ≤ c ∧ c < lo) := by
      intro c
      omega
    simp only [hnone, ↓reduceIte]
  rintro i _ _ _ rfl
  unfold setChunk
  congr 1
  funext c
  dsimp only
  cases Nat.decEq c i with
  | isTrue heq =>
    subst heq
    rw [if_pos rfl, if_neg (by omega), if_pos (by omega)]
  | isFalse hne =>
    rw [if_neg hne]
    rcases lt_or_ge c i with _ | _
    . simp only [show (lo ≤ c ∧ c < i) ↔ (lo ≤ c ∧ c < i + 1) by omega]
    . rw [if_neg (by omega), if_neg (by omega)]

theorem eachChunk_eq (p : PageAlloc) (f : PallocBits → Nat → Nat → PallocBits)
    (halign : p.arenaBase % pallocChunkBytes = 0) (hn : 1 ≤ n)
    : p.eachChunk f (p.arenaBase + a * pageSize) n = p.mapChunks f a n := by
  unfold eachChunk mapChunks
  dsimp only
  rw [chunkIndex_base, chunkIndex_limit p a hn, chunkPageIndex_base p halign,
    chunkPageIndex_limit p halign a hn]
  unfold chunkLo chunkHi
  split
  . next heq =>
    unfold setChunk
    congr 1
    funext c
    cases Nat.decEq c (a / 512) with
    | isTrue hc =>
      subst hc
      rw [if_pos rfl, if_pos (by omega), if_pos rfl, if_pos heq]
    | isFalse hc => rw [if_neg hc, if_neg (by omega)]
  next hne =>
  rw [forRange_setChunk _ (fun b => f b 0 pallocChunkPages) (by omega)]
  unfold setChunk
  congr 1
  funext c
  dsimp only
  cases Nat.decEq c ((a + n - 1) / 512) with
  | isTrue hc =>
    subst hc
    rw [if_pos rfl, if_neg (by omega), if_neg (by omega), if_pos (by omega), if_neg (by omega),
      if_pos rfl]
    rfl
  | isFalse hc =>
    rw [if_neg hc]
    cases Nat.decEq c (a / 512) with
    | isTrue hc' =>
      subst hc'
      rw [if_neg (by omega), if_pos rfl, if_pos (by omega), if_pos rfl, if_neg hc]
      rfl
    | isFalse hc' =>
      rw [if_neg hc', if_neg hc', if_neg hc]
      simp only [show (a / 512 + 1 ≤ c ∧ c < (a + n - 1) / 512)
        ↔ (a / 512 ≤ c ∧ c ≤ (a + n - 1) / 512) by omega]
      rfl

theorem free_eq (p : PageAlloc) (halign : p.arenaBase % pallocChunkBytes = 0) (hn : 1 ≤ n)
    : p.free (p.arenaBase + a * pageSize) n =
      (p.mapChunks PallocBits.free a n).update (p.arenaBase + a * pageSize) n := by
  rw [← eachChunk_eq p PallocBits.free halign hn]
  unfold free
  split
  . next h1 =>
    unfold eachChunk
    dsimp only
    rw [chunkIndex_base, chunkIndex_limit p a hn, chunkPageIndex_base p halign,
      chunkPageIndex_limit p halign a hn]
    rw [if_pos (by rw [h1]; rfl)]
    rw [show (a + n - 1) % 512 + 1 - a % 512 = 1 by rw [h1]; omega]
  . rfl

def pageBit (p : PageAlloc) (q : Nat) : Bool :=
  (p.chunks (q / pallocChunkPages)).bits.get (q % pallocChunkPages)

theorem pageFree_eq (p : PageAlloc) (q : Nat) : p.pageFree q = (decide (q < p.endChunk * 512) && !p.pageBit q) := by
  unfold pageFree pageBit PallocBits.isFree
  rw [pallocChunkPages_eq]
  simp only [show q / 512 < p.endChunk ↔ q < p.endChunk * 512 by omega]

section Range

variable {p : PageAlloc} {f : PallocBits → Nat → Nat → PallocBits} {g : Bool → Bool → Bool}

theorem pageBit_mapChunks
    (hf : ∀ b i n j, 1 ≤ n → i + n ≤ 512 →
      (f b i n).bits.get j = g (b.bits.get j) (decide (i ≤ j ∧ j < i + n)))
    (hg : ∀ x, g x false = x) (hn : 1 ≤ n) (q : Nat)
    : (p.mapChunks f a n).pageBit q = g (p.pageBit q) (decide (a ≤ q ∧ q < a + n)) := by
  unfold pageBit mapChunks
  dsimp only
  rw [pallocChunkPages_eq]
  split
  . next hc =>
    have hlo : chunkLo a (q / 512) < chunkHi a n (q / 512) ∧ chunkHi a n (q / 512) ≤ 512 := by
      unfold chunkLo chunkHi
      split <;> split <;> omega
    rw [hf _ _ _ _ (by omega) (by omega)]
    congr 1
    rw [decide_eq_decide]
    unfold chunkLo chunkHi
    split <;> split <;> omega
  . next hc =>
    rw [decide_eq_false (by omega), hg]

theorem pageBit_allocRange (hn : 1 ≤ n) (hs : SameHeap (p.mapChunks PallocBits.allocRange a n) r)
    (q : Nat) : r.pageBit q = (p.pageBit q || decide (a ≤ q ∧ q < a + n)) := by
  have := pageBit_mapChunks (p := p) (f := PallocBits.allocRange) (g := fun x y => x || y)
    (fun b i n j hn hle => b.bits.get_setRange hn hle) (by simp) hn q (a := a)
  rw [← this]
  unfold pageBit
  rw [hs.chunks]

theorem pageBit_free (hn : 1 ≤ n) (hs : SameHeap (p.mapChunks PallocBits.free a n) r) (q : Nat)
    : r.pageBit q = (p.pageBit q && !decide (a ≤ q ∧ q < a + n)) := by
  have := pageBit_mapChunks (p := p) (f := PallocBits.free) (g := fun x y => x && !y)
    (fun b i n j hn hle => b.bits.get_clearRange hn hle) (by simp) hn q (a := a)
  rw [← this]
  unfold pageBit
  rw [hs.chunks]

variable (h : Inv p) (hn : 1 ≤ n) (hend : a + n ≤ p.endChunk * 512)
include h hn hend

theorem mapChunks_shape : Shape (p.mapChunks f a n) where
  aligned := h.aligned
  summaryLen := h.summaryLen
  endChunk_le := h.endChunk_le
  fresh := by
    intro c hc
    unfold mapChunks at *
    dsimp only at *
    rw [if_neg (by omega)]
    exact h.fresh c hc

theorem mapChunks_update : Inv ((p.mapChunks f a n).update (p.arenaBase + a * pageSize) n) ∧
      SameHeap (p.mapChunks f a n)
        ((p.mapChunks f a n).update (p.arenaBase + a * pageSize) n) := by
  have hbase : (p.mapChunks f a n).chunkIndex (p.arenaBase + a * pageSize) = a / 512 :=
    p.chunkIndex_base a
  have hlimit : (p.mapChunks f a n).chunkIndex (p.arenaBase + a * pageSize + n * pageSize - 1)
      = (a + n - 1) / 512 :=
    p.chunkIndex_limit a hn
  have hlt : (a + n - 1) / 512 < p.endChunk := by omega
  refine update_spec (mapChunks_shape h hn hend) (h.consistent.congr rfl rfl) hn ?_ ?_
  . rwa [hlimit]
  intro c hc
  rw [hbase, hlimit] at hc
  have hleaf := h.leaves c
  unfold LeafOk mapChunks at *
  dsimp only
  rwa [if_neg hc]

theorem allocRange_spec : Inv (p.allocRange (p.arenaBase + a * pageSize) n) ∧
      SameHeap (p.mapChunks PallocBits.allocRange a n)
        (p.allocRange (p.arenaBase + a * pageSize) n) := by
  unfold allocRange
  rw [eachChunk_eq p _ h.aligned hn]
  exact mapChunks_update h hn hend

theorem free_spec : Inv (p.free (p.arenaBase + a * pageSize) n) ∧
      SameHeap (p.mapChunks PallocBits.free a n) (p.free (p.arenaBase + a * pageSize) n) := by
  rw [free_eq p h.aligned hn]
  exact mapChunks_update h hn hend

end Range

end PageAlloc

end MHeap
