import Goish.Encoding.Json.Impl.Encoder
import Goish.Encoding.Json.Lemmas.Scalars
import Goish.Unicode.Utf8.Lemmas.Utf8

open List Utf8 JsonText

namespace Json

def ScriptSafe (p : List UInt8) : Prop :=
  ∃ rs : List Nat, (∀ r ∈ rs, Scalar r ∧ r ∉ [0x3C, 0x3E, 0x26, 0x2028, 0x2029]) ∧ p = rs.flatMap encode

inductive Escapes : List UInt8 → List UInt8 → Prop where
  | nil : Escapes [] []
  | safe (hlt : b.toNat < 0x80) (hsafe : htmlSafe b = true) (h : Escapes s t) : Escapes (b :: s) (b :: t)
  | special (hlt : b.toNat < 0x80) (hsafe : htmlSafe b = false) (h : Escapes s t) : Escapes (b :: s) (escape b ++ t)
  | bad (hbad : ∀ r, Scalar r → ¬encode r <+: b :: s) (h : Escapes s t) : Escapes (b :: s) (replacement ++ t)
  | separator (hr : r = 0x2028 ∨ r = 0x2029) (h : Escapes s t) : Escapes (encode r ++ s) (lineSeparator r ++ t)
  | rune (hr : Scalar r) (hle : 0x80 ≤ r) (hline : r ≠ 0x2028) (hpar : r ≠ 0x2029) (h : Escapes s t)
    : Escapes (encode r ++ s) (encode r ++ t)

variable {s t : List UInt8}

theorem encodeString.go_escapes (hfuel : s.length < fuel) (out start : List UInt8)
    : ∃ t, Escapes s t ∧ encodeString.go fuel out start s = out ++ start ++ t := by
  induction fuel generalizing s out start with
  | zero => contradiction
  | succ fuel ih =>
    cases s with
    | nil => exact ⟨[], .nil, (append_nil _).symm⟩
    | cons b s =>
      rw [length_cons] at hfuel
      unfold encodeString.go
      split
      . next hlt =>
        split
        . next hsafe =>
          obtain ⟨_, ht, heq⟩ := ih (by omega : s.length < fuel) out (start ++ [b])
          refine ⟨_, .safe hlt hsafe ht, ?_⟩
          rw [heq, append_assoc, append_assoc, append_assoc, singleton_append]
        . next hsafe =>
          obtain ⟨_, ht, heq⟩ := ih (by omega : s.length < fuel) (out ++ start ++ escape b) []
          refine ⟨_, .special hlt (Bool.eq_false_iff.mpr hsafe) ht, ?_⟩
          rw [heq, append_nil, append_assoc]
      next hlt =>
      rcases decodeRune_cases (cons_ne_nil b s) with ⟨r, hr, ⟨tail, hsplit⟩, hdecode⟩ | ⟨hdecode, _, hbad⟩
      . have hlen := length_encode_pos r
        have hle : 0x80 ≤ r := by
          apply le_of_not_gt
          intro hascii
          rw [encode_of_lt hascii, singleton_append] at hsplit
          rw [← (List.cons.inj hsplit).1, toNat_ofNat (by omega)] at hlt
          exact hlt hascii
        have hlong := one_lt_length_encode hle
        rw [hdecode]
        dsimp only
        rw [← hsplit, drop_left, take_left]
        have hfuel' : tail.length < fuel := by
          have := congrArg List.length hsplit
          rw [length_append, length_cons] at this
          omega
        rw [if_neg (by omega)]
        split
        . next hsep =>
          obtain ⟨_, ht, heq⟩ := ih hfuel' (out ++ start ++ lineSeparator r) []
          refine ⟨_, .separator (by omega) ht, ?_⟩
          rw [heq, append_nil, append_assoc]
        . next hsep =>
          obtain ⟨_, ht, heq⟩ := ih hfuel' out (start ++ encode r)
          refine ⟨_, .rune hr hle (by omega) (by omega) ht, ?_⟩
          rw [heq, append_assoc, append_assoc, append_assoc]
      . rw [hdecode]
        dsimp only
        rw [if_pos ⟨rfl, rfl⟩, drop_one, tail_cons]
        obtain ⟨_, ht, heq⟩ := ih (by omega : s.length < fuel) (out ++ start ++ replacement) []
        refine ⟨_, .bad hbad ht, ?_⟩
        rw [heq, append_nil, append_assoc]

theorem exists_encodeString (s : List UInt8) : ∃ t, Escapes s t ∧ encodeString s = 0x22 :: (t ++ [0x22]) := by
  obtain ⟨t, ht, heq⟩ := encodeString.go_escapes (Nat.lt_succ_self s.length) [] []
  refine ⟨t, ht, ?_⟩
  unfold encodeString
  rw [heq]
  rfl

theorem escape_cases (hlt : b.toNat < 0x80) (hsafe : htmlSafe b = false)
    : (∃ c ∈ escapes, escape b = [0x5C, c] ∧ unescape c = some b) ∨
      ∃ c d, escape b = [0x5C, 0x75, 0x30, 0x30, c, d] ∧ hexVal c = some (b.toNat / 16) ∧ hexVal d = some (b.toNat % 16) := by
  have hall : ∀ n < 0x80, htmlSafe (.ofNat n) = false →
      (escape (.ofNat n) = [0x5C, (escape (.ofNat n)).getD 1 0] ∧
        unescape ((escape (.ofNat n)).getD 1 0) = some (.ofNat n)) ∨
      escape (.ofNat n) = [0x5C, 0x75, 0x30, 0x30, hexDigit (UInt8.ofNat n >>> 4), hexDigit (UInt8.ofNat n &&& 0xF)] ∧
        hexVal (hexDigit (UInt8.ofNat n >>> 4)) = some (n / 16) ∧
        hexVal (hexDigit (UInt8.ofNat n &&& 0xF)) = some (n % 16) := by
    decide +kernel
  have h := hall b.toNat hlt
  rw [UInt8.ofNat_toNat] at h
  rcases h hsafe with ⟨heq, hc⟩ | ⟨heq, hc, hd⟩
  . refine .inl ⟨_, ?_, heq, hc⟩
    rw [← unescape_isSome_iff, hc]
    rfl
  . exact .inr ⟨_, _, heq, hc, hd⟩

theorem htmlSafe_iff (b : UInt8)
    : htmlSafe b = true ↔ Graphic b ∧ b ≠ 0x22 ∧ b ≠ 0x5C ∧ b ≠ 0x3C ∧ b ≠ 0x3E ∧ b ≠ 0x26 := by
  unfold htmlSafe Graphic
  simp [UInt8.le_iff_toNat_le, and_assoc]

theorem isHex_of_hexVal (h : hexVal c = some n) : IsHex c := by
  rw [← hexVal_isSome_iff, h]
  rfl

theorem chars_append (hu : ∀ b ∈ u, 0x80 ≤ b.toNat) (h : Chars Graphic t) : Chars Graphic (u ++ t) := by
  induction u with
  | nil => exact h
  | cons b u ih =>
    have hb := hu b mem_cons_self
    refine .byte ?_ ?_ (le_trans (by decide) hb) (ih fun x hx => hu x (mem_cons_of_mem b hx))
    all_goals
      rintro rfl
      contradiction

theorem Escapes.chars (h : Escapes s t) : Chars Graphic t := by
  induction h with
  | nil => exact .nil
  | safe _ hsafe _ ih =>
    obtain ⟨hgraphic, hquote, hback, _⟩ := (htmlSafe_iff _).mp hsafe
    exact .byte hquote hback hgraphic ih
  | special hlt hsafe _ ih =>
    rcases escape_cases hlt hsafe with ⟨c, hc, heq, _⟩ | ⟨c, d, heq, hc, hd⟩
    . rw [heq]
      exact .escape hc ih
    . rw [heq]
      exact .unicode (by decide) (by decide) (isHex_of_hexVal hc) (isHex_of_hexVal hd) ih
  | bad _ _ ih => exact .unicode (by decide) (by decide) (by decide) (by decide) ih
  | separator hr _ ih =>
    rcases hr with rfl | rfl
    all_goals exact .unicode (by decide) (by decide) (by decide) (by decide) ih
  | rune hr hle _ _ _ ih => exact chars_append (fun b hb => le_of_mem_encode hr hle hb) ih

theorem ScriptSafe.nil : ScriptSafe [] :=
  ⟨[], by simp, rfl⟩

theorem ScriptSafe.append (h : ScriptSafe s) (h' : ScriptSafe t) : ScriptSafe (s ++ t) := by
  obtain ⟨rs, hrs, rfl⟩ := h
  obtain ⟨rs', hrs', rfl⟩ := h'
  refine ⟨rs ++ rs', ?_, flatMap_append.symm⟩
  intro r hr
  exact (mem_append.mp hr).elim (hrs r) (hrs' r)

def scriptByte (b : UInt8) : Bool :=
  b.toNat < 0x80 && b ≠ 0x3C && b ≠ 0x3E && b ≠ 0x26

theorem scriptByte_iff (b : UInt8) : scriptByte b = true ↔ b.toNat < 0x80 ∧ b ≠ 0x3C ∧ b ≠ 0x3E ∧ b ≠ 0x26 := by
  unfold scriptByte
  simp [and_assoc]

theorem scriptSafe_ascii (h : s.all scriptByte = true) : ScriptSafe s := by
  simp only [all_eq_true, scriptByte_iff] at h
  refine ⟨s.map UInt8.toNat, ?_, ?_⟩
  . intro r hr
    obtain ⟨b, hb, rfl⟩ := mem_map.mp hr
    obtain ⟨_, h1, h2, h3⟩ := h b hb
    rw [ne_eq, ← UInt8.toNat_inj] at h1 h2 h3
    refine ⟨.inl (by omega), ?_⟩
    simp only [mem_cons, not_mem_nil, or_false, not_or]
    exact ⟨h1, h2, h3, by omega, by omega⟩
  . induction s with
    | nil => rfl
    | cons b s ih =>
      rw [map_cons, flatMap_cons, encode_of_lt (h b mem_cons_self).1, UInt8.ofNat_toNat,
        ← ih fun x hx => h x (mem_cons_of_mem b hx)]
      rfl

theorem scriptSafe_escape (hlt : b.toNat < 0x80) : ScriptSafe (escape b) := by
  have hall : ∀ n < 0x80, (escape (.ofNat n)).all scriptByte = true := by decide +kernel
  apply scriptSafe_ascii
  have h := hall b.toNat hlt
  rwa [UInt8.ofNat_toNat] at h

theorem scriptSafe_encode (hr : Scalar r) (hle : 0x80 ≤ r) (hline : r ≠ 0x2028) (hpar : r ≠ 0x2029)
    : ScriptSafe (encode r) := by
  refine ⟨[r], ?_, (append_nil _).symm⟩
  intro _ hr'
  rw [mem_singleton.mp hr']
  refine ⟨hr, ?_⟩
  simp only [mem_cons, not_mem_nil, or_false, not_or]
  exact ⟨by omega, by omega, by omega, hline, hpar⟩

theorem Escapes.scriptSafe (h : Escapes s t) : ScriptSafe t := by
  induction h with
  | nil => exact .nil
  | @safe b s t hlt hsafe _ ih =>
    obtain ⟨_, _, _, h1, h2, h3⟩ := (htmlSafe_iff _).mp hsafe
    have hb : [b].all scriptByte = true := by
      rw [all_cons, (scriptByte_iff b).mpr ⟨hlt, h1, h2, h3⟩]
      rfl
    exact (scriptSafe_ascii hb).append ih
  | special hlt _ _ ih => exact (scriptSafe_escape hlt).append ih
  | bad _ _ ih => exact (scriptSafe_ascii (by decide)).append ih
  | separator hr _ ih =>
    refine ScriptSafe.append (scriptSafe_ascii ?_) ih
    rcases hr with rfl | rfl
    all_goals decide
  | rune hr hle hline hpar _ ih => exact (scriptSafe_encode hr hle hline hpar).append ih

theorem text_of_append (hr : Scalar r) (h : Text (encode r ++ s)) : Text s := by
  obtain ⟨rs, hrs, heq⟩ := h
  cases rs with
  | nil =>
    have := append_eq_nil_iff.mp heq
    exact absurd this.1 (encode_ne_nil r)
  | cons r' rs =>
    have hr' := hrs r' mem_cons_self
    have hdecode := decodeRune_encode hr s
    rw [heq, flatMap_cons, decodeRune_encode hr'] at hdecode
    have hsame : r' = r := by simpa using (Prod.mk.inj hdecode).1
    subst hsame
    exact ⟨rs, fun x hx => hrs x (mem_cons_of_mem r' hx), append_cancel_left heq⟩

theorem text_of_cons (hlt : b.toNat < 0x80) (h : Text (b :: s)) : Text s := by
  apply text_of_append (r := b.toNat) (.inl (by omega))
  rwa [encode_of_lt hlt, UInt8.ofNat_toNat]

theorem stringBytes_bytes (hu : ∀ b ∈ u, 0x80 ≤ b.toNat) (fuel : Nat) (out data : List UInt8)
    : stringBytes (fuel + u.length) out (u ++ data) = stringBytes fuel (out ++ u) data := by
  induction u generalizing out with
  | nil => rw [append_nil, nil_append, length_nil, add_zero]
  | cons b u ih =>
    have hb := hu b mem_cons_self
    have htakes : Takes (b :: (u ++ data)) [b] (u ++ data) := by
      apply Takes.byte
      all_goals
        rintro rfl
        contradiction
    rw [length_cons, ← add_assoc, cons_append, stringBytes_takes htakes,
      ih fun x hx => hu x (mem_cons_of_mem b hx), append_assoc, singleton_append]

theorem takes_unicode (hcp : Scalar cp) (hlt : cp < 0x10000) (h : parseHex4 data = some (cp, r))
    : Takes (0x5C :: 0x75 :: data) (encode cp) r := by
  have hhigh : isHigh cp = false := by
    unfold Scalar at hcp
    simp [isHigh]
    omega
  have hlow : isLow cp = false := by
    unfold Scalar at hcp
    simp [isLow]
    omega
  have hescape : unicodeEscape cp r = (encode cp, r) := by
    unfold unicodeEscape
    rw [hhigh, hlow, encodeRune_eq hcp]
    rfl
  have := Takes.unicode h
  rwa [hescape] at this

theorem takes_escape (hlt : b.toNat < 0x80) (hsafe : htmlSafe b = false) (data : List UInt8)
    : Takes (escape b ++ data) [b] data := by
  rcases escape_cases hlt hsafe with ⟨c, _, heq, hc⟩ | ⟨c, d, heq, hc, hd⟩
  . rw [heq]
    exact .escape hc
  have hhex : parseHex4 (0x30 :: 0x30 :: c :: d :: data) = some (b.toNat, data) := by
    simp only [parseHex4, hc, hd, show hexVal 0x30 = some 0 from rfl, Option.bind_eq_bind, Option.bind_some, Option.pure_def,
      Option.some.injEq, Prod.mk.injEq, and_true]
    omega
  have := takes_unicode (.inl (by omega)) (by omega) hhex
  rw [encode_of_lt hlt, UInt8.ofNat_toNat] at this
  rw [heq]
  exact this

theorem takes_lineSeparator {r : Nat} (hr : r = 0x2028 ∨ r = 0x2029) (data : List UInt8)
    : Takes (lineSeparator r ++ data) (encode r) data := by
  rcases hr with rfl | rfl
  all_goals exact takes_unicode (.inl (by decide)) (by decide) rfl

theorem stringBytes_round (htakes : Takes (u ++ (t ++ 0x22 :: r)) bytes (t ++ 0x22 :: r)) (hu : 0 < u.length)
    (hfuel : (u ++ t).length < fuel) (out : List UInt8)
    : ∃ fuel', t.length < fuel' ∧
        stringBytes fuel out (u ++ t ++ 0x22 :: r) = stringBytes fuel' (out ++ bytes) (t ++ 0x22 :: r) := by
  rw [length_append] at hfuel
  obtain ⟨fuel, rfl⟩ := Nat.exists_eq_succ_of_ne_zero (show fuel ≠ 0 by omega)
  refine ⟨fuel, by omega, ?_⟩
  rw [append_assoc, stringBytes_takes htakes]

theorem escape_length_pos (b : UInt8) : 0 < (escape b).length := by
  unfold escape
  split_ifs <;> simp

theorem Escapes.read (h : Escapes s t) (htext : Text s) (hfuel : t.length < fuel) (out r : List UInt8)
    : stringBytes fuel out (t ++ 0x22 :: r) = .ok (out ++ s, r) := by
  induction h generalizing fuel out with
  | nil =>
    obtain ⟨_, rfl⟩ := Nat.exists_eq_succ_of_ne_zero (Nat.ne_of_gt hfuel)
    rw [append_nil]
    rfl
  | @safe b s t hlt hsafe _ ih =>
    obtain ⟨_, hquote, hback, _⟩ := (htmlSafe_iff _).mp hsafe
    have htakes : Takes ([b] ++ (t ++ 0x22 :: r)) [b] (t ++ 0x22 :: r) := .byte hquote hback
    obtain ⟨_, hfuel', heq⟩ := stringBytes_round htakes Nat.one_pos hfuel out
    rw [singleton_append] at heq
    rw [heq, ih (text_of_cons hlt htext) hfuel', append_assoc, singleton_append]
  | special hlt hsafe _ ih =>
    obtain ⟨_, hfuel', heq⟩ := stringBytes_round (takes_escape hlt hsafe _) (escape_length_pos _) hfuel out
    rw [heq, ih (text_of_cons hlt htext) hfuel', append_assoc, singleton_append]
  | bad hbad =>
    obtain ⟨rs, hrs, heq⟩ := htext
    cases rs with
    | nil => contradiction
    | cons r => exact absurd ⟨_, heq.symm⟩ (hbad r (hrs r mem_cons_self))
  | separator hr _ ih =>
    have htext := text_of_append (.inl (by omega)) htext
    obtain ⟨_, hfuel', heq⟩ := stringBytes_round (takes_lineSeparator hr _) Nat.succ_pos' hfuel out
    rw [heq, ih htext hfuel', append_assoc]
  | @rune r0 s t hr hle _ _ _ ih =>
    rw [length_append] at hfuel
    obtain ⟨fuel', rfl⟩ : ∃ fuel', fuel = fuel' + (encode r0).length := ⟨fuel - (encode r0).length, by omega⟩
    rw [append_assoc, stringBytes_bytes fun b hb => le_of_mem_encode hr hle hb,
      ih (text_of_append hr htext) (by omega), append_assoc]

theorem parseStringBytes_encodeString (htext : Text s) (r : List UInt8)
    : parseStringBytes (encodeString s ++ r) = .ok (s, r) := by
  obtain ⟨_, ht, heq⟩ := exists_encodeString s
  rw [heq, cons_append, append_assoc, singleton_append]
  unfold parseStringBytes
  rw [if_pos (by rfl), drop_one, tail_cons, ht.read htext _ [] r, nil_append]
  simp only [length_cons, length_append]
  omega

end Json
