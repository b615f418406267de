import Goish.Runtime.MHeap.Lemmas.PageAlloc

open Loop FreeRun

namespace MHeap

namespace PageAlloc

def levelPages (l : Nat) : Nat :=
  2 ^ levelLogPages l

theorem shiftLeft_levelLogPages (l i : Nat) : i <<< levelLogPages l = i * levelPages l :=
  Nat.shiftLeft_eq i (levelLogPages l)

namespace find

def ScanPost (p : PageAlloc) (npages l i e : Nat) : ScanResult → Prop
  | .descend j =>
    i ≤ j ∧ j < e ∧ npages ≤ (p.summary l j).unpack.most ∧
    ∃ (size : Nat),
      Window p.pageFree (i * levelPages l) (j * levelPages l) npages size ∧
      size + (p.summary l j).unpack.start < npages
  | .window base size =>
    FirstFit p.pageFree (i * levelPages l) (e * levelPages l) npages
      (if npages ≤ size then some (i * levelPages l + base) else none)

variable {p : PageAlloc} (h : Inv p)
include h

theorem scan_post (hl : l < 5) (he : e ≤ p.summaryLen l) : ∀ (fuel j base size : Nat), i ≤ j → j + fuel = e →
        Window p.pageFree (i * levelPages l) (j * levelPages l) npages size →
        (size ≠ 0 → i * levelPages l + base + size = j * levelPages l) →
        ScanPost p npages l i e (scan p npages l i fuel j base size) := by
  intro fuel
  induction fuel with
  | zero =>
    intro j _ _ _ _ hw _
    have hlt := hw.size_lt
    unfold scan ScanPost
    dsimp only
    rw [if_neg (by omega)]
    intro x h1 _
    apply hw.none x h1
    rwa [show j = e by omega]
  | succ _ ih =>
    intro j base size hij _ hw hbase
    have hright := h.right (4 - l) l j (by omega) (by omega)
    have hs := hright.isSummary hl
    have hpos : 0 < levelPages l := Nat.two_pow_pos _
    have hnext : (j + 1) * levelPages l = j * levelPages l + levelPages l := Nat.succ_mul j _
    have hle : i * levelPages l ≤ j * levelPages l := Nat.mul_le_mul_right _ hij
    have hsub : (j - i) * levelPages l = j * levelPages l - i * levelPages l := Nat.sub_mul j i _
    have hsub' : (j - i + 1) * levelPages l = (j - i) * levelPages l + levelPages l :=
      Nat.succ_mul _ _
    have hend : (j + 1) * levelPages l ≤ e * levelPages l := by
      apply Nat.mul_le_mul_right
      omega
    unfold scan
    dsimp only
    rw [PallocSum.start_eq_unpack, PallocSum.max_eq_unpack, PallocSum.end_eq_unpack,
      shiftLeft_levelLogPages, shiftLeft_levelLogPages, shiftLeft_levelLogPages, one_mul]
    have hstart_le := hs.start_le
    have hlast_le := hs.last_le
    rw [← levelPages] at hs hstart_le hlast_le
    split
    . next hraw =>
      have hzero := (hright.raw_eq_zero_iff hl).mp hraw
      have hlt := hw.size_lt
      rw [hzero] at hs
      have hw' := hw.extend hs (by simpa using hlt) (by dsimp only; omega)
      rw [if_neg (by dsimp only; omega), ← hnext] at hw'
      apply ih (j + 1) base 0 (by omega) (by omega) hw'
      intro _
      contradiction
    split
    . next hfit =>
      have hfirst := hw.firstFit_straddle hs hfit
        (by omega : j * levelPages l + (p.summary l j).unpack.start ≤ e * levelPages l)
      have hbase' : i * levelPages l + (if size = 0 then (j - i) * levelPages l else base)
          = j * levelPages l - size := by
        split
        . omega
        next hne =>
        omega
      unfold ScanPost
      dsimp only
      rwa [if_pos hfit, hbase']
    next hno =>
    split
    . next hmost => exact ⟨hij, by omega, hmost, size, hw, by omega⟩
    next hmost =>
    have hw' := hw.extend hs (by omega) (by omega)
    rw [← hnext] at hw'
    split
    . next hcase =>
      have hsize : (if (p.summary l j).unpack.start = levelPages l then size + levelPages l
          else (p.summary l j).unpack.last) = (p.summary l j).unpack.last := by
        split
        . next hfull =>
          have := hs.eq_of_run (hs.run_of_start_eq hfull)
          rw [this]
          dsimp only
          omega
        . rfl
      rw [hsize] at hw'
      apply ih (j + 1) _ _ (by omega) (by omega) hw'
      intro _
      omega
    . next hcase =>
      rw [if_pos (by omega)] at hw'
      apply ih (j + 1) _ _ (by omega) (by omega) hw'
      intro _
      omega

theorem chunk_firstFit (hn : 1 ≤ npages) (hmost : npages ≤ (p.summary 4 c).unpack.most) : ∃ (q : Nat),
        FirstFit p.pageFree (c * levelPages 4) ((c + 1) * levelPages 4) npages (some q) ∧
        level p npages 0 5 c = p.arenaBase + q * pageSize := by
  have hs := (h.right_leaf c).isSummary (by omega)
  rw [← levelPages, show levelPages 4 = 512 by rfl] at *
  obtain ⟨x, h1, _, h3⟩ := hs.most_run
  have hc : c < p.endChunk := by
    rcases lt_or_ge c p.endChunk with hlt | hge
    . exact hlt
    . have := h3 x (by omega) (by omega)
      rw [p.pageFree_inactive (le_trans (Nat.mul_le_mul_right 512 hge) h1)] at this
      contradiction
  have hfit := (p.chunks c).find_firstFit hn
  rw [pallocChunkPages_eq] at hfit
  have hpage : ∀ i, 0 ≤ i → i < 512 → p.pageFree (i + c * 512) = (p.chunks c).isFree i := by
    intro i _ hi
    rw [add_comm]
    exact p.pageFree_chunk hi hc
  cases hfind : ((p.chunks c).find npages 0).1 with
  | none =>
    rw [hfind] at hfit
    -- The bitmap holds a fit, so the search does not fail.
    have hrun : Run (p.chunks c).isFree (x - c * 512) npages := by
      intro i _ _
      rw [← hpage i (by omega) (by omega)]
      apply h3 <;> omega
    exact absurd hrun (hfit _ (by omega) (by omega))
  | some j =>
    rw [hfind] at hfit
    refine ⟨j + c * 512, ?_, ?_⟩
    . have := hfit.shift (c * 512) hpage
      rwa [show 0 + c * 512 = c * 512 by omega, show 512 + c * 512 = (c + 1) * 512 by omega] at this
    unfold level
    dsimp only
    rw [hfind]
    unfold chunkBase
    dsimp only
    rw [pallocChunkBytes_eq, pageSize_eq]
    omega

theorem block_firstFit (hn : 1 ≤ npages) (hl : l < 5) (hie : i ≤ e) (he : e ≤ p.summaryLen l)
    (hchild : ∀ j, j < p.summaryLen l → npages ≤ (p.summary l j).unpack.most →
      ∃ (q : Nat),
        FirstFit p.pageFree (j * levelPages l) ((j + 1) * levelPages l) npages (some q) ∧
        level p npages fuel (l + 1) j = p.arenaBase + q * pageSize) : ∃ (r : Option Nat),
        FirstFit p.pageFree (i * levelPages l) (e * levelPages l) npages r ∧
        (match scan p npages l i (e - i) i 0 0 with
          | .descend j => level p npages fuel (l + 1) j
          | .window base size =>
            if size ≥ npages then
              p.arenaBase + (i <<< levelShift l) + (base <<< pageShift)
            else if l = 0 then
              allocFailed
            else
              level p npages fuel (l + 1) i)
        = match r with
          | none => if l = 0 then allocFailed else level p npages fuel (l + 1) i
          | some q => p.arenaBase + q * pageSize := by
  have hpost := scan_post h hl he (e - i) i 0 0 (by omega) (by omega) (Window.init hn) (by simp)
  cases hscan : scan p npages l i (e - i) i 0 0 with
  | descend j =>
    rw [hscan] at hpost
    obtain ⟨_, h2, hmost, _, hw, hno⟩ := hpost
    obtain ⟨q, hfit, heq⟩ := hchild j (by omega) hmost
    have hs := (h.right (4 - l) l j (by omega) (by omega)).isSummary hl
    have hend : (j + 1) * levelPages l ≤ e * levelPages l := Nat.mul_le_mul_right _ h2
    rw [Nat.succ_mul] at hfit hend
    exact ⟨some q, hw.firstFit_descend hs hno hmost hend hfit, heq⟩
  | window =>
    rw [hscan] at hpost
    refine ⟨_, hpost, ?_⟩
    dsimp only
    split
    . rw [levelShift_eq hl, Nat.shiftLeft_add, shiftLeft_levelLogPages,
        Nat.shiftLeft_eq, Nat.shiftLeft_eq]
      dsimp only
      rw [show pageSize = 2 ^ pageShift by rfl, add_mul, add_assoc]
    . rfl

theorem level_firstFit (hn : 1 ≤ npages) : ∀ (fuel l i : Nat), l + 1 + fuel = 5 → i < p.summaryLen l →
        npages ≤ (p.summary l i).unpack.most →
        ∃ (q : Nat),
          FirstFit p.pageFree (i * levelPages l) ((i + 1) * levelPages l) npages (some q) ∧
          level p npages fuel (l + 1) i = p.arenaBase + q * pageSize := by
  intro fuel
  induction fuel with
  | zero =>
    intro l _ _ _ hmost
    have : l = 4 := by omega
    subst this
    exact chunk_firstFit h hn hmost
  | succ _ ih =>
    intro l i _ hi hmost
    -- An entry without a block below it is empty.
    have hblock : 8 * i + 8 ≤ p.summaryLen (l + 1) := by
      rcases lt_or_ge (p.summaryLen (l + 1)) (8 * i + 8) with hlt | hge
      . rw [h.consistent.pad l i (by omega) hlt, show PallocSum.empty.unpack.most = 0 by rfl] at hmost
        omega
      . exact hge
    obtain ⟨r, hfit, heq⟩ := block_firstFit h hn (by omega : l + 1 < 5) (by omega : 8 * i ≤ 8 * i + 8)
      hblock (fun j hj hmost => ih (l + 1) j (by omega) hj hmost)
    have hpages : levelPages l = 8 * levelPages (l + 1) := levelPages_succ (by omega)
    have hlo : 8 * i * levelPages (l + 1) = i * levelPages l := by
      rw [hpages, ← mul_assoc, mul_comm i]
    have hhi : (8 * i + 8) * levelPages (l + 1) = (i + 1) * levelPages l := by
      rw [hpages, ← mul_assoc, show 8 * i + 8 = (i + 1) * 8 by omega]
    rw [hlo, hhi] at hfit
    have hs := (h.right (4 - l) l i (by omega) hi).isSummary (by omega)
    rw [← levelPages] at hs
    cases r with
    | none =>
      obtain ⟨x, h1, _, h3⟩ := hs.most_run
      rw [Nat.succ_mul] at hfit
      exact absurd (h3.mono (Nat.le_refl x) (by omega)) (hfit x h1 (by omega))
    | some q =>
      refine ⟨q, hfit, ?_⟩
      unfold level
      dsimp only
      rw [levelBits_succ (by omega), Nat.shiftLeft_eq, show i * 2 ^ 3 = 8 * i by omega,
        show 1 <<< 3 = 8 by rfl, Nat.min_eq_left hblock]
      exact heq

end find

theorem find_firstFit (h : Inv p) (hn : 1 ≤ npages) : ∃ (r : Option Nat),
        FirstFit p.pageFree 0 (2 ^ 35) npages r ∧
        p.find npages = match r with
          | none => allocFailed
          | some q => p.arenaBase + q * pageSize := by
  have hlen : p.summaryLen 0 = 2 ^ 14 := by
    rw [h.summaryLen]
    rfl
  obtain ⟨r, hfit, heq⟩ := find.block_firstFit h hn (by omega : 0 < 5) (Nat.zero_le (2 ^ 14))
    (by omega) (fun j hj hmost => find.level_firstFit h hn 4 0 j (by omega) hj hmost)
  refine ⟨r, ?_, ?_⟩
  . rwa [zero_mul, show 2 ^ 14 * levelPages 0 = 2 ^ 35 by rfl] at hfit
  . unfold find find.level
    rwa [hlen]

end PageAlloc

end MHeap
