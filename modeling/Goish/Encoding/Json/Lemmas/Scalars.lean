import Goish.Data.JsonText
import Goish.Encoding.Json.Impl.Parser

open List JsonText Strconv

namespace Json

theorem bind_eq_ok {f : α → Except ε β} (h : x >>= f = .ok b) : ∃ a, x = .ok a ∧ f a = .ok b := by
  cases x with
  | error => contradiction
  | ok a => exact ⟨a, rfl, h⟩

section Space

variable {data d w : List UInt8}

theorem isWs_iff (b : UInt8) : isWs b = true ↔ IsSpace b := by
  unfold isWs IsSpace
  simp only [Bool.or_eq_true, decide_eq_true_eq, or_assoc]

theorem skipWs_append (hw : Space w) (d : List UInt8) : skipWs (w ++ d) = skipWs d := by
  apply dropWhile_append_of_pos
  intro b hb
  exact (isWs_iff b).mpr (hw b hb)

theorem skipWs_cons (hb : ¬IsSpace b) (d : List UInt8) : skipWs (b :: d) = b :: d := by
  apply dropWhile_cons_of_neg
  rwa [isWs_iff]

theorem skipWs_value (h : Reads raw n .value d ts r) : skipWs d = d := by
  obtain ⟨_, t, rfl, hb, _⟩ := h.head
  exact skipWs_cons hb t

theorem exists_skipWs (data : List UInt8) : ∃ w, Space w ∧ data = w ++ skipWs data := by
  refine ⟨data.takeWhile isWs, ?_, takeWhile_append_dropWhile.symm⟩
  intro b hb
  rw [← isWs_iff]
  exact mem_takeWhile_imp hb

end Space

theorem literalMatch_eq_some_iff (lit data r : List UInt8) : literalMatch lit data = some r ↔ data = lit ++ r := by
  unfold literalMatch
  constructor
  . intro h
    split at h
    . next hpre =>
      obtain ⟨_, rfl⟩ := hpre
      cases h
      rw [drop_left]
    . contradiction
  . rintro rfl
    rw [if_pos (prefix_append _ _), drop_left]

theorem parseNull_append (r : List UInt8) : parseNull (nullText ++ r) = .ok (.null, r) := by
  unfold parseNull
  rw [(literalMatch_eq_some_iff nullLit (nullText ++ r) r).mpr rfl]

theorem parseNull_sound (h : parseNull data = .ok (v, r)) : data = nullText ++ r := by
  unfold parseNull at h
  split at h
  . next hmatch =>
    cases h
    exact (literalMatch_eq_some_iff _ _ _).mp hmatch
  . contradiction

theorem parseBool_true (r : List UInt8) : parseBool (trueText ++ r) = .ok (.bool true, r) := by
  unfold parseBool
  rw [(literalMatch_eq_some_iff trueLit (trueText ++ r) r).mpr rfl]

theorem parseBool_false (r : List UInt8) : parseBool (falseText ++ r) = .ok (.bool false, r) := by
  have hnone : literalMatch trueLit (falseText ++ r) = none := by
    apply if_neg
    rintro ⟨t, ht⟩
    cases ht
  unfold parseBool
  rw [hnone, (literalMatch_eq_some_iff falseLit (falseText ++ r) r).mpr rfl]

theorem parseBool_sound (h : parseBool data = .ok (v, r)) : data = trueText ++ r ∨ data = falseText ++ r := by
  unfold parseBool at h
  split at h
  . next hmatch =>
    cases h
    exact .inl ((literalMatch_eq_some_iff _ _ _).mp hmatch)
  split at h
  . next hmatch =>
    cases h
    exact .inr ((literalMatch_eq_some_iff _ _ _).mp hmatch)
  . contradiction

section Numbers

variable {data s x r : List UInt8}

theorem isDigit_iff (b : UInt8) : isDigit b = true ↔ IsDigit b := by
  unfold isDigit IsDigit
  simp only [Bool.and_eq_true, decide_eq_true_eq]

theorem startsWithDigit_append (hs : Digits s) (hne : s ≠ []) (x : List UInt8) : startsWithDigit (s ++ x) = true := by
  cases s with
  | nil => contradiction
  | cons b => exact (isDigit_iff b).mpr (hs b mem_cons_self)

theorem dropWhile_digits (hs : Digits s) (hx : ∀ b t, x = b :: t → ¬IsDigit b) : (s ++ x).dropWhile isDigit = x := by
  apply dropWhile_run
  . intro b hb
    exact (isDigit_iff b).mpr (hs b hb)
  . intro b t ht
    rw [← Bool.not_eq_true, isDigit_iff]
    exact hx b t ht

theorem exists_digits (h : startsWithDigit data = true)
    : ∃ s, Digits s ∧ s ≠ [] ∧ data = s ++ data.dropWhile isDigit := by
  refine ⟨data.takeWhile isDigit, ?_, ?_, takeWhile_append_dropWhile.symm⟩
  . intro b hb
    rw [← isDigit_iff]
    exact mem_takeWhile_imp hb
  rcases data with _ | ⟨b, _⟩
  . contradiction
  rw [takeWhile_cons_of_pos (show isDigit b = true from h)]
  exact cons_ne_nil _ _

theorem wholePart_append (hs : Whole s) (hx : ∀ b t, x = b :: t → ¬IsDigit b) : wholePart (s ++ x) = .ok x := by
  unfold wholePart
  rcases hs with rfl | ⟨hs, hne, hzero⟩
  . rfl
  rw [if_neg, if_pos (startsWithDigit_append hs hne x), dropWhile_digits hs hx]
  cases s with
  | nil => contradiction
  | cons => exact hzero

theorem wholePart_sound (h : wholePart data = .ok r) : ∃ s, Whole s ∧ data = s ++ r := by
  unfold wholePart at h
  split at h
  . next hzero =>
    rcases data with _ | ⟨_, _⟩
    . contradiction
    cases h
    cases hzero
    exact ⟨[0x30], .inl rfl, rfl⟩
  next hzero =>
  split at h
  . next hdigit =>
    cases h
    obtain ⟨s, hs, hne, heq⟩ := exists_digits hdigit
    refine ⟨s, .inr ⟨hs, hne, ?_⟩, heq⟩
    rcases s with _ | ⟨_, _⟩
    . contradiction
    rwa [heq] at hzero
  . contradiction

theorem fractionPart_append (hs : Fraction s) (hx : ∀ b t, x = b :: t → ¬IsDigit b ∧ b ≠ 0x2E)
    : fractionPart (s ++ x) = .ok x := by
  unfold fractionPart
  rcases hs with rfl | ⟨_, rfl, hds, hne⟩
  . rw [nil_append, if_neg]
    intro hhead
    rcases x with _ | ⟨_, _⟩
    . contradiction
    cases hhead
    exact (hx _ _ rfl).2 rfl
  . rw [cons_append, if_pos (by rfl), drop_one, tail_cons]
    dsimp only
    rw [startsWithDigit_append hds hne, dropWhile_digits hds (fun b t ht => (hx b t ht).1)]
    rfl

theorem fractionPart_sound (h : fractionPart data = .ok r) : ∃ s, Fraction s ∧ data = s ++ r := by
  unfold fractionPart at h
  split at h
  . next hdot =>
    rcases data with _ | ⟨_, _⟩
    . contradiction
    cases hdot
    dsimp only at h
    split at h
    . contradiction
    next hdigit =>
    cases h
    rw [drop_one, tail_cons] at hdigit ⊢
    obtain ⟨s, hs, hne, heq⟩ := exists_digits (by simpa using hdigit)
    refine ⟨0x2E :: s, .inr ⟨s, rfl, hs, hne⟩, ?_⟩
    rw [cons_append, ← heq]
  . cases h
    exact ⟨[], .inl rfl, rfl⟩

theorem exponentPart_append (hs : Exponent s) (hx : Stop x) : exponentPart (s ++ x) = .ok x := by
  unfold exponentPart
  rcases hs with rfl | ⟨e, sign, ds, rfl, he, hsign, hds, hne⟩
  . rw [nil_append, if_neg]
    intro hhead
    rcases x with _ | ⟨b, x⟩
    . simp at hhead
    have hstop := hx b x rfl
    rcases hhead with hhead | hhead
    . cases hhead
      exact hstop.2.2.1 rfl
    . cases hhead
      exact hstop.2.2.2 rfl
  have hhead : (e :: (sign ++ ds) ++ x).head? = some 0x65 ∨ (e :: (sign ++ ds) ++ x).head? = some 0x45 := by
    rcases he with rfl | rfl
    . exact .inl rfl
    . exact .inr rfl
  have hdrop : (let data := sign ++ ds ++ x
      if data.head? = some 0x2B ∨ data.head? = some 0x2D then data.drop 1 else data) = ds ++ x := by
    rcases hsign with rfl | rfl | rfl
    . cases ds with
      | nil => contradiction
      | cons d =>
        apply if_neg
        have hd := hds d mem_cons_self
        rintro (hd' | hd') <;>
        . cases hd'
          contradiction
    . rfl
    . rfl
  rw [if_pos hhead, cons_append, drop_one, tail_cons]
  dsimp only at hdrop ⊢
  rw [hdrop, startsWithDigit_append hds hne, dropWhile_digits hds (fun b t ht => (hx b t ht).1)]
  rfl

theorem exponentPart_sound (h : exponentPart data = .ok r) : ∃ s, Exponent s ∧ data = s ++ r := by
  unfold exponentPart at h
  split at h
  . next hhead =>
    rcases data with _ | ⟨e, data⟩
    . simp at hhead
    have he : e = 0x65 ∨ e = 0x45 := by simpa using hhead
    rw [drop_one, tail_cons] at h
    dsimp only at h
    have hsign : ∃ sign, (sign = [] ∨ sign = [0x2B] ∨ sign = [0x2D]) ∧
        data = sign ++ if data.head? = some 0x2B ∨ data.head? = some 0x2D then data.drop 1 else data := by
      split
      . next hsign =>
        rcases data with _ | ⟨c, _⟩
        . simp at hsign
        refine ⟨[c], ?_, rfl⟩
        simpa using hsign
      . exact ⟨[], .inl rfl, rfl⟩
    obtain ⟨sign, hsign, hdata⟩ := hsign
    generalize (if data.head? = some 0x2B ∨ data.head? = some 0x2D then data.drop 1 else data) = rest at h hdata
    split at h
    . contradiction
    next hdigit =>
    cases h
    obtain ⟨ds, hds, hne, heq⟩ := exists_digits (by simpa using hdigit)
    refine ⟨e :: (sign ++ ds), .inr ⟨e, sign, ds, rfl, he, hsign, hds, hne⟩, ?_⟩
    rw [cons_append, append_assoc, ← heq, ← hdata]
  . cases h
    exact ⟨[], .inl rfl, rfl⟩

def Accepted (lit : List UInt8) : Prop :=
  (parseFloat lit).2 = none

instance : DecidablePred Accepted := fun _ => inferInstanceAs (Decidable (_ = _))

theorem parseNumber_append (h : Number s) (hx : Stop x) (hok : Accepted s)
    : parseNumber (s ++ x) = .ok (.number (parseFloat s).1, x) := by
  obtain ⟨sign, whole, frac, exp, rfl, hsign, hwhole, hfrac, hexp⟩ := h
  have hminus : (let data := sign ++ whole ++ frac ++ exp ++ x
      if data.head? = some 0x2D then data.drop 1 else data) = whole ++ (frac ++ (exp ++ x)) := by
    simp only [append_assoc]
    rcases hsign with rfl | rfl
    . apply if_neg
      rcases whole with _ | ⟨d, _⟩
      . exact absurd rfl hwhole.ne_nil
      have hd := hwhole.digits d mem_cons_self
      intro hd'
      cases hd'
      contradiction
    . rfl
  unfold parseNumber
  dsimp only at hminus ⊢
  rw [hminus, wholePart_append hwhole (fun b t ht => fraction_head hfrac hexp hx ht)]
  dsimp only [bind, Except.bind]
  rw [fractionPart_append hfrac (fun b t ht => exponent_head hexp hx ht)]
  dsimp only
  rw [exponentPart_append hexp hx]
  dsimp only
  have htake (s : List UInt8) : (s ++ x).take ((s ++ x).length - x.length) = s := by
    rw [length_append, Nat.add_sub_cancel, take_left]
  rw [htake]
  unfold Accepted at hok
  generalize parseFloat (sign ++ whole ++ frac ++ exp) = res at hok ⊢
  obtain ⟨n, err⟩ := res
  cases hok
  rfl

theorem parseNumber_sound (h : parseNumber data = .ok (v, r)) : ∃ s, Number s ∧ Accepted s ∧ data = s ++ r := by
  unfold parseNumber at h
  have hsign : ∃ sign, Sign sign ∧ data = sign ++ if data.head? = some 0x2D then data.drop 1 else data := by
    split
    . next hminus =>
      rcases data with _ | ⟨_, _⟩
      . contradiction
      cases hminus
      exact ⟨[0x2D], .inr rfl, rfl⟩
    . exact ⟨[], .inl rfl, rfl⟩
  obtain ⟨sign, hsign, hdata⟩ := hsign
  dsimp only at h
  generalize (if data.head? = some 0x2D then data.drop 1 else data) = rest at h hdata
  obtain ⟨_, hrest1, h1⟩ := bind_eq_ok h
  obtain ⟨_, hrest2, h2⟩ := bind_eq_ok h1
  obtain ⟨rest3, hrest3, h3⟩ := bind_eq_ok h2
  obtain ⟨whole, hwhole, rfl⟩ := wholePart_sound hrest1
  obtain ⟨frac, hfrac, rfl⟩ := fractionPart_sound hrest2
  obtain ⟨exp, hexp, rfl⟩ := exponentPart_sound hrest3
  have hlit : data = sign ++ whole ++ frac ++ exp ++ rest3 := by
    rw [hdata]
    simp only [append_assoc]
  have htake : data.take (data.length - rest3.length) = sign ++ whole ++ frac ++ exp := by
    rw [hlit, length_append, Nat.add_sub_cancel, take_left]
  rw [htake] at h3
  split at h3
  . next n hparse =>
    cases h3
    refine ⟨_, ⟨sign, whole, frac, exp, rfl, hsign, hwhole, hfrac, hexp⟩, ?_, hlit⟩
    unfold Accepted
    rw [hparse]
  . contradiction

end Numbers

section Strings

inductive Takes : List UInt8 → List UInt8 → List UInt8 → Prop where
  | byte (hquote : b ≠ 0x22) (hback : b ≠ 0x5C) : Takes (b :: r) [b] r
  | escape (h : unescape c = some b) : Takes (0x5C :: c :: r) [b] r
  | «unicode» (h : parseHex4 data = some (cp, r))
    : Takes (0x5C :: 0x75 :: data) (unicodeEscape cp r).1 (unicodeEscape cp r).2

variable {data s r out : List UInt8}

theorem hexVal_isSome_iff (c : UInt8) : (hexVal c).isSome = true ↔ IsHex c := by
  unfold hexVal IsHex IsDigit
  split
  . simp [*]
  split
  . simp [*]
  . split
    all_goals simp [*]

theorem unescape_isSome_iff (c : UInt8) : (unescape c).isSome = true ↔ c ∈ escapes := by
  unfold unescape escapes
  split_ifs <;> simp [*]

theorem parseHex4_sound (h : parseHex4 data = some (n, r))
    : ∃ a b c d, data = a :: b :: c :: d :: r ∧ IsHex a ∧ IsHex b ∧ IsHex c ∧ IsHex d := by
  unfold parseHex4 at h
  split at h
  . next a b c d data =>
    simp only [← hexVal_isSome_iff, Option.isSome_iff_exists]
    simp only [Option.bind_eq_bind, Option.bind_eq_some_iff] at h
    obtain ⟨a', ha, b', hb, c', hc, d', hd, heq⟩ := h
    cases heq
    exact ⟨a, b, c, d, rfl, ⟨a', ha⟩, ⟨b', hb⟩, ⟨c', hc⟩, ⟨d', hd⟩⟩
  . contradiction

theorem parseHex4_append (ha : IsHex a) (hb : IsHex b) (hc : IsHex c) (hd : IsHex d) (r : List UInt8)
    : ∃ n, parseHex4 (a :: b :: c :: d :: r) = some (n, r) := by
  simp only [← hexVal_isSome_iff, Option.isSome_iff_exists] at ha hb hc hd
  obtain ⟨a', ha⟩ := ha
  obtain ⟨b', hb⟩ := hb
  obtain ⟨c', hc⟩ := hc
  obtain ⟨d', hd⟩ := hd
  refine ⟨((a' * 16 + b') * 16 + c') * 16 + d', ?_⟩
  simp [parseHex4, ha, hb, hc, hd]

theorem parseLow_sound (h : parseLow data = some (lo, r))
    : ∃ a b c d, data = 0x5C :: 0x75 :: a :: b :: c :: d :: r ∧ IsHex a ∧ IsHex b ∧ IsHex c ∧ IsHex d := by
  unfold parseLow at h
  by_cases htake : data.take 2 = [0x5C, 0x75]
  . simp only [htake, ne_eq, not_true_eq_false, if_false, Option.bind_eq_bind, Option.bind_eq_some_iff] at h
    obtain ⟨_, hhex, h⟩ := h
    obtain ⟨a, b, c, d, heq, hex⟩ := parseHex4_sound hhex
    split at h
    . cases h
      refine ⟨a, b, c, d, ?_, hex⟩
      rw [← take_append_drop 2 data, htake, heq]
      rfl
    . contradiction
  . simp [htake] at h

theorem unicodeEscape_cases (cp : Nat) (data : List UInt8)
    : (unicodeEscape cp data).2 = data ∨ ∃ a b c d, data = 0x5C :: 0x75 :: a :: b :: c :: d :: (unicodeEscape cp data).2 ∧
        IsHex a ∧ IsHex b ∧ IsHex c ∧ IsHex d := by
  unfold unicodeEscape
  split
  . split
    . next hlow => exact .inr (parseLow_sound hlow)
    . exact .inl rfl
  . split
    all_goals exact .inl rfl

theorem stringBytes_takes (h : Takes data bytes r) (fuel : Nat) (out : List UInt8)
    : stringBytes (fuel + 1) out data = stringBytes fuel (out ++ bytes) r := by
  rw [stringBytes.eq_def]
  cases h with
  | byte hquote hback =>
    dsimp only
    rw [if_neg hquote, if_neg hback]
  | escape h =>
    dsimp only
    rw [if_neg (by decide), if_pos rfl, h]
  | «unicode» h =>
    dsimp only
    rw [if_neg (by decide), if_pos rfl, show unescape 0x75 = none from by decide]
    rw [if_pos rfl, h]

theorem stringBytes_cases (h : stringBytes (fuel + 1) out data = .ok res) : (∃ r, data = 0x22 :: r ∧ res = (out, r)) ∨
      ∃ bytes r, Takes data bytes r ∧ stringBytes fuel (out ++ bytes) r = .ok res := by
  rcases data with _ | ⟨c, data⟩
  . contradiction
  rw [stringBytes.eq_def] at h
  dsimp only at h
  split at h
  . next hquote =>
    cases h
    exact .inl ⟨data, by rw [hquote], rfl⟩
  next hquote =>
  split at h
  . next hback =>
    subst hback
    split at h
    . contradiction
    next esc data =>
    split at h
    . next b hesc => exact .inr ⟨_, _, .escape hesc, h⟩
    split at h
    . next hu =>
      subst hu
      split at h
      . contradiction
      . next cp data' hhex => exact .inr ⟨_, _, .unicode hhex, h⟩
    . contradiction
  . next hback => exact .inr ⟨_, _, .byte hquote hback, h⟩

theorem Takes.chars (h : Takes data bytes r) : ∃ u, data = u ++ r ∧ ∀ s, Chars Any s → Chars Any (u ++ s) := by
  cases h with
  | byte hquote hback => exact ⟨[_], rfl, fun s hs => .byte hquote hback trivial hs⟩
  | escape h =>
    rename_i c b
    have hc : c ∈ escapes := by
      rw [← unescape_isSome_iff, h]
      rfl
    exact ⟨[_, c], rfl, fun s hs => .escape hc hs⟩
  | «unicode» h =>
    rename_i data cp r
    obtain ⟨a, b, c, d, rfl, ha, hb, hc, hd⟩ := parseHex4_sound h
    rcases unicodeEscape_cases cp r with heq | ⟨a', b', c', d', heq, ha', hb', hc', hd'⟩
    . exact ⟨[_, _, a, b, c, d], by rw [heq]; rfl, fun s hs => .unicode ha hb hc hd hs⟩
    . refine ⟨[_, _, a, b, c, d, _, _, a', b', c', d'], ?_, fun s hs => .unicode ha hb hc hd (.unicode ha' hb' hc' hd' hs)⟩
      generalize (unicodeEscape cp r).2 = rest at heq
      rw [heq]
      rfl

theorem stringBytes_sound (h : stringBytes fuel out data = .ok (out', r))
    : ∃ s, Chars Any s ∧ data = s ++ 0x22 :: r := by
  induction fuel generalizing out data with
  | zero => contradiction
  | succ _ ih =>
    rcases stringBytes_cases h with ⟨_, rfl, heq⟩ | ⟨_, _, htakes, hrest⟩
    . cases heq
      exact ⟨[], .nil, rfl⟩
    . obtain ⟨s, hs, rfl⟩ := ih hrest
      obtain ⟨u, rfl, hchars⟩ := htakes.chars
      exact ⟨u ++ s, hchars s hs, by rw [append_assoc]⟩

theorem Chars.takes (h : Chars Any s) (hne : s ≠ []) (r : List UInt8)
    : ∃ bytes s', Takes (s ++ 0x22 :: r) bytes (s' ++ 0x22 :: r) ∧ Chars Any s' ∧ s'.length < s.length := by
  cases h with
  | nil => contradiction
  | byte hquote hback _ h => exact ⟨_, _, .byte hquote hback, h, Nat.lt_succ_self _⟩
  | escape hc h =>
    rw [← unescape_isSome_iff, Option.isSome_iff_exists] at hc
    obtain ⟨_, hb⟩ := hc
    exact ⟨_, _, .escape hb, h, Nat.lt_succ_of_lt (Nat.lt_succ_self _)⟩
  | «unicode» ha hb hc hd h =>
    rename_i a b c d s
    obtain ⟨cp, hhex⟩ := parseHex4_append ha hb hc hd (s ++ 0x22 :: r)
    have htakes := Takes.unicode hhex
    rcases unicodeEscape_cases cp (s ++ 0x22 :: r) with heq | ⟨_, _, _, _, heq, _⟩
    . rw [heq] at htakes
      refine ⟨_, s, htakes, h, ?_⟩
      simp only [length_cons]
      omega
    -- The escape behind it is a character, too.
    cases h with
    | nil => cases heq
    | byte _ hback => exact absurd (List.cons.inj heq).1 hback
    | escape hc =>
      obtain ⟨rfl, _⟩ := List.cons.inj (List.cons.inj heq).2
      contradiction
    | «unicode» _ _ _ _ h =>
      simp only [cons_append, List.cons.injEq, true_and] at heq
      obtain ⟨_, _, _, _, hrest⟩ := heq
      rw [cons_append, cons_append, cons_append, cons_append, cons_append, cons_append,
        ← hrest] at htakes
      refine ⟨_, _, htakes, h, ?_⟩
      simp only [length_cons]
      omega

theorem stringBytes_append (h : Chars Any s) (hfuel : s.length < fuel) (out r : List UInt8)
    : ∃ out', stringBytes fuel out (s ++ 0x22 :: r) = .ok (out', r) := by
  induction fuel generalizing s out with
  | zero => omega
  | succ _ ih =>
    by_cases hne : s = []
    . subst hne
      exact ⟨out, rfl⟩
    . obtain ⟨bytes, _, htakes, hs', _⟩ := Chars.takes h hne r
      obtain ⟨out', hrest⟩ := ih hs' (by omega) (out ++ bytes)
      exact ⟨out', by rw [stringBytes_takes htakes, hrest]⟩

theorem parseStringBytes_sound (h : parseStringBytes data = .ok (out, r))
    : ∃ s, Chars Any s ∧ data = 0x22 :: (s ++ 0x22 :: r) := by
  unfold parseStringBytes at h
  split at h
  . next hquote =>
    rcases data with _ | ⟨_, _⟩
    . contradiction
    cases hquote
    obtain ⟨s, hs, heq⟩ := stringBytes_sound h
    rw [drop_one, tail_cons] at heq
    exact ⟨s, hs, by rw [heq]⟩
  . contradiction

theorem parseStringBytes_append (h : Chars Any s) (r : List UInt8)
    : ∃ out, parseStringBytes (0x22 :: (s ++ 0x22 :: r)) = .ok (out, r) := by
  unfold parseStringBytes
  rw [if_pos (by rfl), drop_one, tail_cons]
  apply stringBytes_append h
  simp only [length_cons, length_append]
  omega

end Strings

end Json
