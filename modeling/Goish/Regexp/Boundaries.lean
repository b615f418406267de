import Goish.Regexp.Lemmas.Paths
import Goish.Regexp.Runes
import Goish.Unicode.Utf8.Valid

open List

namespace Regexp

open Utf8 (Scalar encode Text)

structure Boundary (text : List UInt8) (pos : Nat) : Prop where
  le : pos ≤ text.length
  before : Text (text.take pos)
  behind : Text (text.drop pos)

def OnBoundaries (text : List UInt8) (c : Capture) : Prop :=
  (0 ≤ c.1 → Boundary text c.1.toNat) ∧ (0 ≤ c.2 → Boundary text c.2.toNat)

def Whole (text : List UInt8) (m : Nat × Nat × Caps) : Prop :=
  Boundary text m.1 ∧ Boundary text m.2.1 ∧ ∀ c ∈ m.2.2, OnBoundaries text c

def NeverSplits (re : Regexp) (text : List UInt8) : Prop :=
  (∀ start, Boundary text start → ∀ m, findFrom re text start = some m → Whole text m) ∧
    ∀ n, ∀ m ∈ allMatches re text n, Whole text m

/-- Wherever the pattern has a path from an offset inside a character, it has one from the first byte of it. -/
def Begins (re : Regexp) (text : List UInt8) : Prop :=
  ∀ b k, Boundary text b → b < k → k < b + (decodeRune text b).2 → spans .exact re text k ≠ [] → spans .exact re text b ≠ []

/-- No offset of a path that is too large for its slot is stored as one inside a character. -/
def Untruncated (re : Regexp) (text : List UInt8) : Prop :=
  ∀ b x, Boundary text b → (spans .exact re text b).head? = some x → ∀ c ∈ x.2, ∀ p : Nat, p = c.1 ∨ p = c.2 →
    2 ^ 32 ≤ p → 0 ≤ asI32 p → Boundary text (asI32 p).toNat

variable {re : Regexp} {text : List UInt8} {pos b k lo hi : Nat} {caps : Caps}

theorem Boundary.char (h : Boundary text pos) (hlt : pos < text.length)
    : ∃ r rest, Scalar r ∧ text.drop pos = encode r ++ rest ∧ decodeRune text pos = ((r : ℤ), (encode r).length) ∧
        Boundary text (pos + (encode r).length) := by
  obtain ⟨rs, hrs, hdrop⟩ := h.behind
  cases rs with
  | nil =>
    have := congrArg List.length hdrop
    simp at this
    omega
  | cons r rs =>
    rw [flatMap_cons] at hdrop
    rw [forall_mem_cons] at hrs
    have hlen := congrArg List.length hdrop
    rw [length_drop, length_append] at hlen
    refine ⟨r, _, hrs.1, hdrop, ?_, by omega, ?_, ?_⟩
    . unfold decodeRune
      rw [hdrop, Utf8.decodeRune_encode hrs.1]
    . rw [take_add, hdrop, take_left]
      exact h.before.append ⟨[r], by simpa using hrs.1, by simp⟩
    . rw [← drop_drop, hdrop, drop_left]
      exact ⟨rs, hrs.2, rfl⟩

theorem Boundary.not_inside (h : Boundary text b) (hb : b < k) (hk : k < b + (decodeRune text b).2) : ¬Boundary text k := by
  intro hbound
  obtain ⟨_, _, hr, hdrop, hdecode, _⟩ := h.char (lt_of_lt_of_le hb hbound.le)
  rw [hdecode] at hk
  have hlen := congrArg List.length hdrop
  rw [length_drop, length_append] at hlen
  -- The byte at `k` continues the character at `b`, but a character begins there.
  obtain ⟨_, _, hr', hdrop', _⟩ := hbound.char (by omega)
  exact encode_head hr' ⟨_, hdrop'.symm⟩ (encode_tail hr ⟨_, hdrop.symm⟩ hb hk)

theorem Boundary.step {l : Leaf} (h : Boundary text pos) (hstep : l.step text pos = some q) : Boundary text q := by
  have hrune {test : ℤ → Bool} (hstep : rune text pos test = some q) : Boundary text q := by
    unfold rune at hstep
    split at hstep
    . contradiction
    obtain ⟨_, _, _, _, hdecode, hnext⟩ := h.char (by omega)
    rw [hdecode] at hstep
    dsimp only at hstep
    split at hstep
    . cases hstep
      exact hnext
    . contradiction
  unfold Leaf.step at hstep
  split at hstep
  all_goals first
    | exact hrune hstep
    | split at hstep
      . cases hstep
        exact h
      . contradiction

theorem onBoundary (h : Marks (Boundary text) i) (hwrap : ∀ p : Nat, p = i → 2 ^ 32 ≤ p → 0 ≤ asI32 p →
    Boundary text (asI32 p).toNat) (hpos : 0 ≤ i.bmod (2 ^ 32)) : Boundary text (i.bmod (2 ^ 32)).toNat := by
  rcases h with rfl | ⟨p, hp, rfl⟩
  . contradiction
  by_cases hlarge : 2 ^ 32 ≤ p
  . have := hwrap p rfl hlarge
    rw [asI32_eq_bmod] at this
    exact this hpos
  . have heq : (p : ℤ).bmod (2 ^ 32) = p := by
      rw [Int.bmod_def] at hpos ⊢
      split at hpos
      all_goals omega
    rwa [heq]

theorem untruncated_of_lt (re : Regexp) (hlen : text.length < 2 ^ 32) : Untruncated re text := by
  intro b x hb hx c hc p hp _
  obtain ⟨_, hmarks⟩ := spans_marks (fun {l _ _} h hs => (l.step_bounds h hs).2) hb.le x (mem_of_mem_head? hx)
  have hsmall {i : ℤ} (h : Marks (· ≤ text.length) i) : i ≤ text.length := by
    rcases h with rfl | ⟨_, hq, rfl⟩
    . omega
    . exact Int.ofNat_le.mpr hq
  have hlo := hsmall (hmarks c hc).1
  have hhi := hsmall (hmarks c hc).2
  omega

theorem Untruncated.onBoundaries (h : Untruncated re text) (hb : Boundary text b)
    (hmatch : matchAt re text b = some (hi, caps)) : Boundary text hi ∧ ∀ c ∈ caps, OnBoundaries text c := by
  rw [matchAt_stored re hb.le, Option.map_eq_some_iff] at hmatch
  obtain ⟨x, hx, heq⟩ := hmatch
  obtain ⟨rfl, rfl⟩ := heq
  obtain ⟨hhi, hmarks⟩ := spans_marks (fun hb hs => hb.step hs) hb x (mem_of_mem_head? hx)
  refine ⟨hhi, fun c hc => ?_⟩
  obtain ⟨c, hmem, rfl⟩ := mem_map.mp hc
  have hwrap := h b x hb hx c hmem
  have hmarks := hmarks c hmem
  exact ⟨onBoundary hmarks.1 fun p hp => hwrap p (.inl hp), onBoundary hmarks.2 fun p hp => hwrap p (.inr hp)⟩

theorem matchAt_eq_none_iff (re : Regexp) (hpos : pos ≤ text.length)
    : matchAt re text pos = none ↔ spans .exact re text pos = [] := by
  rw [matchAt_stored re hpos, Option.map_eq_none_iff, head?_eq_none_iff]

theorem findFrom_of_matchAt (hb : b ≤ text.length) (h : matchAt re text b = some (hi, caps))
    : findFrom re text b = some (b, hi, caps) := by
  unfold findFrom
  obtain ⟨n, hn⟩ : ∃ n, text.length + 1 - b = n + 1 := ⟨text.length - b, by omega⟩
  rw [hn, findFrom.go, h]

theorem Begins.boundary (h : Begins re text) (n : Nat) (hn : lo ≤ b + n) (hb : Boundary text b) (hle : b ≤ lo)
    (hlen : lo ≤ text.length) (hmatch : matchAt re text lo ≠ none) (hnone : ∀ p, b ≤ p → p < lo → matchAt re text p = none)
    : Boundary text lo := by
  induction n generalizing b with
  | zero => exact (show b = lo by omega) ▸ hb
  | succ n ih =>
    rcases eq_or_lt_of_le hle with heq | hlt
    . exact heq ▸ hb
    obtain ⟨r, _, _, _, hdecode, hnext⟩ := hb.char (by omega)
    have hpos := Utf8.length_encode_pos r
    rcases lt_or_ge lo (b + (encode r).length) with _ | hge
    . have := h b lo hb hlt (by rwa [hdecode]) ((matchAt_eq_none_iff re hlen).not.mp hmatch)
      exact absurd ((matchAt_eq_none_iff re hb.le).mp (hnone b (Nat.le_refl b) hlt)) this
    . exact ih (by omega) hnext hge fun p hp => hnone p (by omega)

theorem Begins.whole (h : Begins re text) (hu : Untruncated re text) (hb : Boundary text b)
    (hfind : findFrom re text b = some m) : Whole text m := by
  obtain ⟨lo, hi, caps⟩ := m
  obtain ⟨hle, hlen, hmatch, hnone⟩ := findFrom_eq_some hfind
  have hlo := h.boundary (lo - b) (by omega) hb hle hlen (by simp [hmatch]) hnone
  exact ⟨hlo, hu.onBoundaries hlo hmatch⟩

theorem Boundary.advance (h : Boundary text pos) (hhi : Boundary text hi) (hle : advance text pos hi ≤ text.length)
    : Boundary text (advance text pos hi) := by
  unfold Regexp.advance at hle ⊢
  split
  . next heq =>
    rw [if_pos heq] at hle
    split
    . next hpos =>
      rw [if_pos hpos] at hle
      obtain ⟨r, rest, hr, hdrop, hdecode, _⟩ := h.char (by omega)
      have hwidth : runeWidth text pos = (encode r).length := by
        rw [(runeWidth_iff text pos).mpr]
        . exact congrArg Prod.snd hdecode
        . rintro ⟨_, _, _, _, _, hnone⟩
          exact hnone r hr ⟨rest, hdrop.symm⟩
      rwa [hwidth]
    . next hpos =>
      rw [if_neg hpos] at hle
      omega
  . exact hhi

theorem Begins.allMatches (h : Begins re text) (hu : Untruncated re text) (max fuel i pos : Nat) (prev : ℤ)
    (hpos : pos ≤ text.length → Boundary text pos) : ∀ m ∈ allMatches.go re text max fuel i pos prev, Whole text m := by
  induction fuel generalizing i pos prev with
  | zero => simp [allMatches.go]
  | succ _ ih =>
    unfold allMatches.go
    split
    . next hle =>
      have hb := hpos hle.2
      split
      . simp
      next lo hi caps hfind =>
      have hwhole := h.whole hu hb hfind
      have hnext := hb.advance hwhole.2.1
      split
      . exact ih _ _ _ hnext
      . exact forall_mem_cons.mpr ⟨hwhole, ih _ _ _ hnext⟩
    . simp

theorem NeverSplits.begins (h : NeverSplits re text) : Begins re text := by
  intro b k hb hlt hk hsome
  have hlen : k ≤ text.length := by
    by_cases hnil : text.drop b = []
    . unfold decodeRune at hk
      rw [hnil] at hk
      exact absurd hlt (Nat.not_lt_of_lt hk)
    . have := (Utf8.decodeRune_length_pos hnil).2
      rw [length_drop] at this
      unfold decodeRune at hk
      omega
  rw [ne_eq, ← matchAt_eq_none_iff re hlen] at hsome
  rw [ne_eq, ← matchAt_eq_none_iff re hb.le]
  cases hfind : findFrom re text b with
  | none => exact absurd (findFrom_eq_none hfind k (by omega) hlen) hsome
  | some m =>
    obtain ⟨lo, _⟩ := m
    obtain ⟨hle, _, hmatch, hnone⟩ := findFrom_eq_some hfind
    have hlo : lo ≤ k := by
      by_contra hgt
      exact hsome (hnone k (by omega) (by omega))
    rcases eq_or_lt_of_le hle with heq | hgt
    . simp [heq, hmatch]
    . exact absurd (h.1 b hb _ hfind).1 (hb.not_inside hgt (by omega))

theorem neverSplits_iff (re : Regexp) (hvalid : Utf8.valid text = true)
    : NeverSplits re text ↔ Begins re text ∧ Untruncated re text := by
  constructor
  . intro h
    refine ⟨h.begins, fun b x hb hx c hc p hp _ hpos => ?_⟩
    have hmatch := matchAt_stored re hb.le
    rw [hx] at hmatch
    have hon := (h.1 b hb _ (findFrom_of_matchAt hb.le hmatch)).2.2 _ (mem_map_of_mem hc)
    rw [asI32_eq_bmod] at hpos ⊢
    rcases hp with hp | hp
    . rw [hp] at hpos ⊢
      exact hon.1 hpos
    . rw [hp] at hpos ⊢
      exact hon.2 hpos
  . rintro ⟨h, hu⟩
    have hzero : Boundary text 0 := ⟨Nat.zero_le _, ⟨[], by simp, rfl⟩, Utf8.valid_iff.mp hvalid⟩
    exact ⟨fun b hb m hfind => h.whole hu hb hfind, fun n => h.allMatches hu _ _ _ _ _ fun _ => hzero⟩

theorem neverSplits_two : NeverSplits ⟨.leaf (.literal 0xE9), 0, []⟩ [0xC3, 0xA9] := by
  refine (neverSplits_iff _ (by decide)).mpr ⟨fun b k _ hlt hk hk' => ?_, untruncated_of_lt _ (by decide)⟩
  rcases b with _ | _ | b
  . have hone : k = 1 := Nat.le_antisymm (Nat.le_of_lt_succ hk) hlt
    exact absurd (hone ▸ hk') (by decide +kernel)
  . exact absurd hlt (Nat.not_lt.mpr (Nat.le_of_lt_succ hk))
  . simp [decodeRune, Utf8.decodeRune] at hk
    omega

theorem splits_char : Utf8.valid [0xC3, 0xA9] = true ∧ ¬NeverSplits ⟨.leaf (.literal 0xFFFD), 0, []⟩ [0xC3, 0xA9] := by
  refine ⟨by decide, fun h => ?_⟩
  have hzero : Boundary [0xC3, 0xA9] 0 := ⟨by decide, ⟨[], by simp, rfl⟩, Utf8.valid_iff.mp (by decide)⟩
  have hlo := (h.1 0 hzero (1, 2, [(1, 2)]) (by decide +kernel)).1
  exact absurd (Utf8.valid_iff.mpr hlo.behind) (by decide)

end Regexp
