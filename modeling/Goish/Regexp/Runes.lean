import Goish.Regexp.Impl.Match
import Goish.Unicode.Utf8.Lemmas.Utf8

open List

namespace Regexp

open Utf8 (Scalar Continues encode)

inductive Reached (text : List UInt8) : Nat → Prop where
  | start : Reached text 0
  | step : Reached text pos → pos < text.length → Reached text (pos + (Utf8.decodeRune (text.drop pos)).2)

def StepsAgree (text : List UInt8) (pos : Nat) : Prop :=
  runeWidth text pos = (Utf8.decodeRune (text.drop pos)).2 ∧
    (0 < pos → (decodeRune text (leading text (pos - 1))).1 = (Utf8.decodeLastRune (text.take pos)).1) ∧
    isWordBoundary text pos =
      (isWordRune (Utf8.decodeLastRune (text.take pos)).1 != isWordRune (Utf8.decodeRune (text.drop pos)).1)

def Shaped (b : UInt8) (t : List UInt8) : Prop :=
  want b ≤ t.length + 1 ∧ ∀ c ∈ t.take (want b - 1), Continues c

def Misshapen (p : List UInt8) : Prop :=
  ∃ b t, p = b :: t ∧ 0xC0 ≤ b.toNat ∧ Shaped b t ∧ ∀ r, Scalar r → ¬encode r <+: p

/-- The bytes before `pos` are those of a character and stray continuation bytes. -/
def Stray (text : List UInt8) (pos : Nat) : Prop :=
  ∃ j r, Scalar r ∧ (r : ℤ) ≠ Utf8.runeError ∧ encode r <+: text.drop j ∧ j + (encode r).length < pos ∧
    ∀ k, j + (encode r).length ≤ k → k < pos → Continues (text.getD k 0)

variable {text p : List UInt8} {pos : Nat}

theorem want_of_begins (hr : Scalar r) (hb : 0x80 ≤ b.toNat) (hpre : encode r <+: b :: t)
    : want b = (encode r).length ∧ Shaped b t := by
  have hseq := (Utf8.seqLen_eq_some_iff b).mp (Utf8.seqLen_of_begins hr hb hpre).1
  have hwant : want b = (encode r).length := by
    unfold want
    split_ifs
    all_goals omega
  obtain ⟨_, _, hencode, _, hcont⟩ := Utf8.encode_eq_cons hr
  refine ⟨hwant, hwant ▸ hpre.length_le, ?_⟩
  rw [hencode, cons_prefix_cons] at hpre
  obtain ⟨_, rfl⟩ := hpre.2
  rwa [hwant, hencode, length_cons, Nat.add_sub_cancel, take_left]

theorem runeWidth_cons (hcons : text.drop pos = b :: t)
    : (Shaped b t → runeWidth text pos = want b) ∧ (¬Shaped b t → runeWidth text pos = 1) := by
  unfold runeWidth Shaped
  rw [hcons]
  dsimp only
  split
  . next hlt => simp [Nat.not_le_of_lt hlt]
  next hge =>
  simp only [ne_eq, Utf8.continues_iff]
  split
  . next hany =>
    grind
  . next hall =>
    grind

theorem runeWidth_iff (text : List UInt8) (pos : Nat)
    : runeWidth text pos = (Utf8.decodeRune (text.drop pos)).2 ↔ ¬Misshapen (text.drop pos) := by
  cases hp : text.drop pos with
  | nil => simp [runeWidth, hp, Misshapen, Utf8.decodeRune]
  | cons b t =>
    obtain ⟨hshaped, hnot⟩ := runeWidth_cons hp
    have hmis : Misshapen (b :: t) ↔ 0xC0 ≤ b.toNat ∧ Shaped b t ∧ ∀ r, Scalar r → ¬encode r <+: b :: t := by
      unfold Misshapen
      grind
    have hwant : 0xC0 ≤ b.toNat ↔ want b ≠ 1 := by
      unfold want
      split_ifs
      all_goals omega
    rw [hmis, hwant]
    rcases Utf8.decodeRune_cases (cons_ne_nil b t) with ⟨r, hr, hpre, hdecode⟩ | ⟨hdecode, _, hnone⟩
    . refine iff_of_true ?_ (fun h => h.2.2 r hr hpre)
      rw [hdecode]
      rcases lt_or_ge b.toNat 0x80 with hlt | hge
      . have hone : want b = 1 := Decidable.byContradiction fun h => absurd (hwant.mpr h) (by omega)
        rw [Utf8.decodeRune_of_lt hlt] at hdecode
        rw [hshaped (by simp [Shaped, hone]), hone]
        exact congrArg Prod.snd hdecode
      . obtain ⟨hlen, hs⟩ := want_of_begins hr hge hpre
        rw [hshaped hs, hlen]
    . rw [hdecode]
      by_cases h : Shaped b t
      . rw [hshaped h]
        exact ⟨fun h1 h2 => h2.1 h1, fun h2 => Decidable.byContradiction fun h1 => h2 ⟨h1, h, hnone⟩⟩
      . exact iff_of_true (hnot h) (fun h2 => h h2.2.1)

theorem leading_spec (text : List UInt8) (i : Nat)
    : leading text i ≤ i ∧ (∀ k, leading text i < k → k ≤ i → Continues (text.getD k 0)) ∧
        (leading text i = 0 ∨ ¬Continues (text.getD (leading text i) 0)) := by
  induction i with
  | zero => exact ⟨le_rfl, fun k hk hle => by omega, .inl rfl⟩
  | succ i ih =>
    simp only [leading, Utf8.continues_iff]
    split
    . next hcont =>
      refine ⟨by omega, fun k hk hle => ?_, ih.2.2⟩
      rcases lt_or_eq_of_le hle with _ | heq
      . exact ih.2.1 k hk (by omega)
      . exact heq ▸ hcont
    . next hcont => exact ⟨le_rfl, fun k hk hle => by omega, .inr hcont⟩

theorem encode_head (hr : Scalar r) (h : encode r <+: text.drop j) : ¬Continues (text.getD j 0) := by
  obtain ⟨_, _, hencode, hnot, _⟩ := Utf8.encode_eq_cons hr
  obtain ⟨rest, hrest⟩ := h
  rw [hencode, cons_append] at hrest
  rwa [getD_eq_getElem?_getD, ← head?_drop, ← hrest]

theorem encode_tail (hr : Scalar r) (h : encode r <+: text.drop j) (hlt : j < k) (hk : k < j + (encode r).length)
    : Continues (text.getD k 0) := by
  obtain ⟨_, t, hencode, _, hcont⟩ := Utf8.encode_eq_cons hr
  obtain ⟨rest, hrest⟩ := h
  rw [hencode, length_cons] at hk
  rw [hencode, cons_append] at hrest
  obtain ⟨i, rfl⟩ : ∃ i, k = j + (i + 1) := ⟨k - j - 1, by omega⟩
  have hi : i < t.length := by omega
  rw [getD_eq_getElem?_getD, ← getElem?_drop, ← hrest, getElem?_cons_succ, getElem?_append_left hi, getElem?_eq_getElem hi]
  exact hcont _ (getElem_mem hi)

theorem Reached.not_inside (h : Reached text pos) (hr : Scalar r) (hpre : encode r <+: text.drop j) (hlt : j < pos)
    : j + (encode r).length ≤ pos := by
  induction h with
  | start => omega
  | @step pos h hlen ih =>
    rcases lt_trichotomy j pos with hj | rfl | hj
    . exact Nat.le_add_right_of_le (ih hj)
    . obtain ⟨rest, hrest⟩ := hpre
      rw [← hrest, Utf8.decodeRune_encode hr]
    -- A character begins at `j`, so it is not inside the one at `pos`.
    rcases Utf8.decodeRune_cases (drop_eq_nil_iff.not.mpr (Nat.not_le_of_lt hlen)) with ⟨_, hr', hpre', hdecode⟩ | ⟨hdecode, _⟩
    . rw [hdecode] at hlt
      exact absurd (encode_tail hr' hpre' hj hlt) (encode_head hr hpre)
    . rw [hdecode] at hlt
      omega

theorem decodeRune_of_continues (hi : i < text.length) (h : Continues (text.getD i 0))
    : Utf8.decodeRune (text.drop i) = (Utf8.runeError, 1) := by
  rcases Utf8.decodeRune_cases (drop_eq_nil_iff.not.mpr (Nat.not_le_of_lt hi)) with ⟨_, hr, hpre, _⟩ | ⟨hdecode, _⟩
  . exact absurd h (encode_head hr hpre)
  . exact hdecode

/-- The rune whose bytes are all those from `i` on. -/
def ending (p : List UInt8) (i : Nat) : ℤ :=
  if (Utf8.decodeRune (p.drop i)).2 = p.length - i then (Utf8.decodeRune (p.drop i)).1 else Utf8.runeError

theorem lastRune_fst (hi : i < p.length) (hstart : p.length - 4 ≤ i)
    : (Utf8.lastRune p (p.length - 4) i).1 = ending p (leading p i) := by
  induction i with
  | zero =>
    unfold Utf8.lastRune leading ending
    split
    . exact apply_ite Prod.fst _ _ _
    . next hcont =>
      rw [decodeRune_of_continues hi (by simpa [Utf8.runeStart, Utf8.continues_iff] using hcont)]
      exact (ite_self _).symm
  | succ i ih =>
    unfold Utf8.lastRune leading
    by_cases hcont : p.getD (i + 1) 0 &&& 0xC0 = 0x80
    . rw [if_neg (by simpa [Utf8.runeStart] using hcont), if_pos hcont]
      dsimp only
      split
      . -- No sequence has more than four bytes.
        have hle := (leading_spec p i).1
        have hwidth : (Utf8.decodeRune (p.drop (leading p i))).2 ≤ 4 := by
          rcases Utf8.decodeRune_cases (p := p.drop (leading p i)) (drop_eq_nil_iff.not.mpr (by omega))
            with ⟨r, _, _, h⟩ | ⟨h, _⟩
          . exact h ▸ Utf8.length_encode_le r
          . simp [h]
        rw [ending, if_neg (by omega)]
      . exact ih (by omega) (by omega)
    . rw [if_pos (by simpa [Utf8.runeStart] using hcont), if_neg hcont]
      exact apply_ite Prod.fst _ _ _

theorem leading_take (hi : i < pos) : leading (text.take pos) i = leading text i := by
  induction i with
  | zero => rfl
  | succ i ih => simp [leading, getD_eq_getElem?_getD, hi, ih (by omega)]

theorem stray_iff (i : Nat)
    : Stray text (i + 1) ↔ ∃ r, Scalar r ∧ (r : ℤ) ≠ Utf8.runeError ∧ encode r <+: text.drop (leading text i) ∧
        leading text i + (encode r).length < i + 1 := by
  obtain ⟨hle, hbehind, hstop⟩ := leading_spec text i
  constructor
  . rintro ⟨j, r, hr, hne, hpre, hlt, hcont⟩
    have hcont (k : Nat) (hk : j < k) (hk' : k < i + 1) : Continues (text.getD k 0) := by
      rcases lt_or_ge k (j + (encode r).length) with hin | hout
      . exact encode_tail hr hpre hk hin
      . exact hcont k hout hk'
    have heq : leading text i = j := by
      rcases lt_trichotomy (leading text i) j with hj | heq | hj
      . exact absurd (hbehind j hj (by omega)) (encode_head hr hpre)
      . exact heq
      . rcases hstop with _ | hnot
        . omega
        . exact absurd (hcont _ hj (by omega)) hnot
    exact heq ▸ ⟨r, hr, hne, hpre, hlt⟩
  . rintro ⟨r, hr, hne, hpre, hlt⟩
    have := Utf8.length_encode_pos r
    exact ⟨_, r, hr, hne, hpre, hlt, fun k hk hk' => hbehind k (by omega) (by omega)⟩

theorem runeBefore_iff (hreached : Reached text (i + 1)) (hpos : i + 1 ≤ text.length)
    : (decodeRune text (leading text i)).1 = (Utf8.decodeLastRune (text.take (i + 1))).1 ↔ ¬Stray text (i + 1) := by
  have hlen : (text.take (i + 1)).length = i + 1 := length_take_of_le hpos
  have hlast := lastRune_fst (p := text.take (i + 1)) (i := i) (by omega) (by omega)
  rw [leading_take (by omega), hlen] at hlast
  have hle := (leading_spec text i).1
  rw [stray_iff, Utf8.decodeLastRune, if_neg (by omega), hlen, Nat.add_sub_cancel, hlast, ending, hlen, drop_take]
  unfold decodeRune
  generalize leading text i = start at *
  have hpre {r : Nat} : encode r <+: (text.drop start).take (i + 1 - start) ↔
      encode r <+: text.drop start ∧ (encode r).length ≤ i + 1 - start := prefix_take_iff
  rcases Utf8.decodeRune_cases (drop_eq_nil_iff.not.mpr (show ¬text.length ≤ start by omega)) with
    ⟨r, hr, hbegins, hdecode⟩ | ⟨hdecode, _, hnone⟩
  . have hin := hreached.not_inside hr hbegins (by omega)
    obtain ⟨rest, hrest⟩ := hpre.mpr ⟨hbegins, by omega⟩
    have huniq {r' : Nat} (hr' : Scalar r') (h : encode r' <+: text.drop start) : r' = r := by
      obtain ⟨rest', hrest'⟩ := h
      rw [← hrest', Utf8.decodeRune_encode hr', Prod.mk.injEq] at hdecode
      exact Int.ofNat.inj hdecode.1
    rw [hdecode, ← hrest, Utf8.decodeRune_encode hr]
    dsimp only
    split
    . refine iff_of_true rfl ?_
      rintro ⟨r', hr', _, h, hlt⟩
      rw [huniq hr' h] at hlt
      omega
    . constructor
      . rintro heq ⟨r', hr', hne, h, _⟩
        exact hne (huniq hr' h ▸ heq)
      . intro h
        by_contra hne
        exact h ⟨r, hr, hne, hbegins, by omega⟩
  . have hne : (text.drop start).take (i + 1 - start) ≠ [] := by
      rw [ne_eq, take_eq_nil_iff, drop_eq_nil_iff]
      omega
    rcases Utf8.decodeRune_cases hne with ⟨r, hr, h, _⟩ | ⟨herror, _⟩
    . exact absurd (hpre.mp h).1 (hnone r hr)
    . rw [hdecode, herror]
      exact iff_of_true (ite_self _).symm fun ⟨r, hr, _, h, _⟩ => hnone r hr h

theorem isWordBoundary_eq
    (h : 0 < pos → (decodeRune text (leading text (pos - 1))).1 = (Utf8.decodeLastRune (text.take pos)).1)
    : isWordBoundary text pos =
        (isWordRune (Utf8.decodeLastRune (text.take pos)).1 != isWordRune (Utf8.decodeRune (text.drop pos)).1) := by
  have hafter : (if pos ≥ text.length then false else isWordRune (decodeRune text pos).1) =
      isWordRune (Utf8.decodeRune (text.drop pos)).1 := by
    split
    . next hge =>
      rw [drop_eq_nil_of_le hge]
      rfl
    . rfl
  unfold isWordBoundary
  rw [hafter]
  cases pos with
  | zero => rfl
  | succ => rw [if_neg (by omega), h (by omega)]

theorem stepsAgree_iff (hreached : Reached text pos)
    : StepsAgree text pos ↔ ¬Misshapen (text.drop pos) ∧ ¬Stray text pos := by
  have hpos : pos ≤ text.length := by
    cases hreached with
    | start => omega
    | step h hlt =>
      have hne : text.drop _ ≠ [] := drop_eq_nil_iff.not.mpr (Nat.not_le_of_lt hlt)
      have := (Utf8.decodeRune_length_pos hne).2
      rw [length_drop] at this
      omega
  refine and_congr (runeWidth_iff text pos) ?_
  rw [and_iff_left_of_imp isWordBoundary_eq]
  cases pos with
  | zero => exact iff_of_true (fun h => by omega) fun ⟨_, _, _, _, _, h, _⟩ => by omega
  | succ i =>
    rw [← runeBefore_iff hreached hpos]
    exact ⟨fun h => h (by omega), fun h _ => h⟩

theorem stepsAgree_two : StepsAgree [0x61, 0xC3, 0xA9] 3 := by
  have hreached : Reached [0x61, 0xC3, 0xA9] 3 := .step (.step .start (by decide)) (by decide)
  refine (stepsAgree_iff hreached).mpr ⟨?_, ?_⟩
  . rintro ⟨b, t, h, _⟩
    contradiction
  . rw [stray_iff, show leading [0x61, 0xC3, 0xA9] 2 = 1 by decide]
    rintro ⟨r, hr, _, ⟨rest, hrest⟩, hlt⟩
    have hwidth := congrArg Prod.snd (Utf8.decodeRune_encode hr rest)
    rw [hrest, show (Utf8.decodeRune (drop 1 [0x61, 0xC3, 0xA9])).2 = 2 by decide] at hwidth
    dsimp only at hwidth
    omega

theorem steps_overlong : Reached [0xC0, 0x80] 0 ∧ ¬StepsAgree [0xC0, 0x80] 0 :=
  ⟨.start, fun h => absurd h.1 (by decide)⟩

end Regexp
