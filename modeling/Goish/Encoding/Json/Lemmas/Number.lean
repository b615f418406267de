import Goish.Data.JsonText
import Goish.Encoding.Json.Impl.Number
import Goish.Strconv.Lemmas.Decimal

open List Strconv Decimal JsonText

namespace Json

variable {d : Decimal} {m : Nat}

theorem roundShortest.go_normal {upper lower : Decimal} (h : Normal d m)
    : Normal (roundShortest.go inclusive upper lower fuel upperdelta ui d) (m + 1) := by
  induction fuel generalizing upperdelta ui with
  | zero => exact h.mono (Nat.le_succ m)
  | succ _ ih =>
    unfold roundShortest.go
    dsimp only
    split
    . exact h.mono (Nat.le_succ m)
    split
    . exact round_normal h _
    split
    . exact (roundDown_normal h _).mono (Nat.le_succ m)
    . split
      . exact roundUp_normal h _
      . exact ih

theorem roundShortest_normal (h : Normal d m) (hzero : mant = 0 → d.d = []) (exp : ℤ)
    : Normal (roundShortest d mant exp) (m + 1) := by
  unfold roundShortest
  split
  . next hmant =>
    have hd := hzero hmant
    have : { d with d := [] } = d := by rw [← hd]
    rw [this]
    exact h.mono (Nat.le_succ m)
  . dsimp only
    split
    . exact h.mono (Nat.le_succ m)
    . exact roundShortest.go_normal h

theorem toNat_digitByte (hc : c < 10) : (digitByte c).toNat = 0x30 + c := by
  unfold digitByte
  rw [UInt8.toNat_ofNat']
  omega

theorem isDigit_digitByte (hc : c < 10) : IsDigit (digitByte c) := by
  unfold IsDigit
  rw [toNat_digitByte hc]
  omega

theorem digitByte_ne (hc : c < 10) (hzero : c ≠ 0) : digitByte c ≠ 0x30 := by
  intro h
  have := congrArg UInt8.toNat h
  rw [toNat_digitByte hc] at this
  simp at this
  omega

theorem digits_map {l : List Nat} (h : ∀ c ∈ l, c < 10) : Digits (l.map digitByte) := by
  intro b hb
  obtain ⟨c, hc, rfl⟩ := mem_map.mp hb
  exact isDigit_digitByte (h c hc)

theorem digits_zeros (n : Nat) : Digits (List.replicate n 0x30) := by
  intro b hb
  rw [eq_of_mem_replicate hb]
  decide

theorem Digits.append (h : Digits s) (h' : Digits s') : Digits (s ++ s') := by
  intro b hb
  exact (mem_append.mp hb).elim (h b) (h' b)

theorem sign_ite (neg : Bool) : Sign (if neg then [0x2D] else []) := by
  cases neg
  . exact .inl rfl
  . exact .inr rfl

theorem whole_fmtF (h : Normal d m) (hdp : d.dp > 0) : Whole ((d.d.take (min d.d.length d.dp.toNat)).map digitByte ++
        List.replicate (d.dp.toNat - min d.d.length d.dp.toNat) 0x30) := by
  have hdigits := h.digits
  have hhead := h.head
  have hzero := h.zero
  cases hd : d.d with
  | nil =>
    have := hzero hd
    omega
  | cons c l =>
    rw [hd] at hdigits hhead
    have hc : c ≠ 0 := by simpa using hhead
    obtain ⟨j, hj⟩ : ∃ j, min (c :: l).length d.dp.toNat = j + 1 :=
      Nat.exists_eq_succ_of_ne_zero (by rw [length_cons]; omega)
    rw [hj, take_succ_cons, map_cons, cons_append]
    refine .inr ⟨?_, by simp, ?_⟩
    . rw [← cons_append, ← map_cons]
      apply Digits.append _ (digits_zeros _)
      apply digits_map
      intro x hx
      cases hx with
      | head => exact hdigits c mem_cons_self
      | tail _ hx => exact hdigits x (mem_cons_of_mem c (mem_of_mem_take hx))
    . rw [List.head?_cons, ne_eq, Option.some.injEq]
      exact digitByte_ne (hdigits c mem_cons_self) hc

theorem number_fmtF (h : Normal d m) (neg : Bool) (prec : Nat) : Number (fmtF neg d prec) := by
  refine ⟨_, _, _, [], (append_nil _).symm, sign_ite neg, ?_, ?_, .inl rfl⟩
  . split
    . next hdp => exact whole_fmtF h hdp
    . exact .inl rfl
  split
  . next hprec =>
    refine .inr ⟨_, rfl, ?_, ?_⟩
    . intro b hb
      obtain ⟨i, _, rfl⟩ := mem_map.mp hb
      dsimp only
      split
      . next hj =>
        apply isDigit_digitByte
        rw [getD_eq_getElem?_getD]
        cases hget : d.d[(d.dp + i).toNat]? with
        | none => decide
        | some c => exact h.digits c (mem_of_getElem? hget)
      . decide
    . rw [ne_eq, map_eq_nil_iff, range_eq_nil]
      omega
  . exact .inl rfl

theorem digits_exponentDigits (he : e < 1000) : Digits (exponentDigits e) := by
  unfold exponentDigits
  split
  . exact Digits.append (s := [0x30]) (digits_zeros 1) (digits_map (l := [e]) (by simpa))
  . split
    . exact digits_map (l := [e / 10, e % 10]) (by simp; omega)
    . exact digits_map (l := [e / 100, e / 10 % 10, e % 10]) (by simp; omega)

theorem exponentDigits_ne_nil (e : Nat) : exponentDigits e ≠ [] := by
  unfold exponentDigits
  split
  . simp
  . split <;> simp

structure Scientific (s w f es ds : List UInt8) : Prop where
  sign : Sign s
  whole : Whole w
  frac : Fraction f
  esign : es = [0x2D] ∨ es = [0x2B]
  digits : Digits ds
  ne : ds ≠ []

theorem Scientific.number (h : Scientific s w f es ds) : Number (s ++ w ++ f ++ 0x65 :: (es ++ ds)) :=
  ⟨s, w, f, _, rfl, h.sign, h.whole, h.frac, .inr ⟨0x65, es, ds, rfl, .inl rfl, .inr h.esign.symm, h.digits, h.ne⟩⟩

theorem fmtE_eq (h : Normal d m) (hm : m < 999) (neg : Bool) (prec : Nat)
    : ∃ sign whole frac esign e, e < 1000 ∧ fmtE neg d prec = sign ++ whole ++ frac ++ 0x65 :: (esign ++ exponentDigits e) ∧
        Scientific sign whole frac esign (exponentDigits e) := by
  have hfirst : d.d.headD 0 < 10 := by
    cases hd : d.d with
    | nil => decide
    | cons c => exact h.digits c (by rw [hd]; exact mem_cons_self)
  have hnear := h.near
  have hexp : (if d.d = [] then 0 else d.dp - 1 : ℤ).natAbs < 1000 := by
    split
    . decide
    . omega
  refine ⟨_, _, _, _, _, hexp, rfl, sign_ite neg, ?_, ?_, ?_, digits_exponentDigits hexp, exponentDigits_ne_nil _⟩
  . generalize d.d.headD 0 = first at hfirst
    by_cases hzero : first = 0
    . subst hzero
      exact .inl rfl
    . refine .inr ⟨digits_map (l := [first]) (by simpa), by simp, ?_⟩
      rw [List.head?_cons, ne_eq, Option.some.injEq]
      exact digitByte_ne hfirst hzero
  . split
    . next hprec =>
      refine .inr ⟨_, rfl, ?_, ?_⟩
      . apply Digits.append _ (digits_zeros _)
        apply digits_map
        intro c hc
        exact h.digits c (mem_of_mem_take (mem_of_mem_drop hc))
      . intro hnil
        have := congrArg List.length hnil
        simp only [length_append, length_map, length_replicate, length_nil] at this
        omega
    . exact .inl rfl
  . generalize (if d.d = [] then 0 else d.dp - 1 : ℤ) = exp
    split
    . exact .inl rfl
    . exact .inr rfl

theorem bigFtoa_normal (hmant : mant < 2 ^ 53) (hexp : -1022 ≤ exp) (hexp' : exp ≤ 1023)
    : Normal (roundShortest ((new.assign mant).shift (exp - mantbits)) mant exp) 407 := by
  have hlt : mant < 10 ^ 64 := lt_of_lt_of_le hmant (by decide)
  have hshift : (exp - mantbits).natAbs ≤ 60 * (17 + 1) := by
    unfold mantbits
    omega
  apply roundShortest_normal (shift_normal (assign_normal hlt) hshift)
  intro hzero
  subst hzero
  rfl

theorem Scientific.drop_zero (h : Scientific s w f es [0x30, b]) : Scientific s w f es [b] :=
  { h with digits := fun c hc => h.digits c (mem_cons_of_mem _ hc), ne := by simp }

theorem exponentDigits_cases (e : Nat)
    : (∃ x y, exponentDigits e = [x, y]) ∨ ∃ x y z, exponentDigits e = [x, y, z] := by
  unfold exponentDigits
  split
  . exact .inl ⟨_, _, rfl⟩
  . split
    . exact .inl ⟨_, _, rfl⟩
    . exact .inr ⟨_, _, _, rfl⟩

theorem number_clean (h : Scientific s w f es (exponentDigits e))
    (hb : b = s ++ w ++ f ++ 0x65 :: (es ++ exponentDigits e)) (hzero : (b.drop (b.length - 4)).take 3 = [0x65, 0x2D, 0x30])
    : Number (b.take (b.length - 2) ++ b.drop (b.length - 1)) := by
  have hes : ∃ c, es = [c] ∧ c ≠ 0x65 := by
    rcases h.esign with rfl | rfl
    all_goals exact ⟨_, rfl, by decide⟩
  obtain ⟨c, rfl, hc⟩ := hes
  generalize hpre : s ++ w ++ f = pre at hb
  rcases exponentDigits_cases e with ⟨x, y, hdigits⟩ | ⟨x, y, z, hdigits⟩
  . rw [hdigits] at h hb
    have hlen : b.length = pre.length + 4 := by
      rw [hb, length_append]
      rfl
    have hdrop : b.drop (b.length - 4) = [0x65, c, x, y] := by
      rw [hlen, hb]
      exact drop_left
    have htake : b.take (b.length - 2) = pre ++ [0x65, c] := by
      rw [hlen, hb, show pre ++ 0x65 :: ([c] ++ [x, y]) = (pre ++ [0x65, c]) ++ [x, y] by simp]
      exact take_left' (by simp)
    have hlast : b.drop (b.length - 1) = [y] := by
      rw [hlen, hb, show pre ++ 0x65 :: ([c] ++ [x, y]) = (pre ++ [0x65, c, x]) ++ [y] by simp]
      exact drop_left' (by simp)
    rw [hdrop] at hzero
    obtain ⟨rfl, rfl⟩ := hzero
    rw [htake, hlast, append_assoc, ← hpre]
    exact h.drop_zero.number
  . rw [hdigits] at hb
    have hlen : b.length = pre.length + 5 := by
      rw [hb, length_append]
      rfl
    have hdrop : b.drop (b.length - 4) = [c, x, y, z] := by
      rw [hlen, hb, show pre ++ 0x65 :: ([c] ++ [x, y, z]) = (pre ++ [0x65]) ++ [c, x, y, z] by simp]
      exact drop_left' (by simp)
    rw [hdrop] at hzero
    exact absurd (List.cons.inj hzero).1 hc

theorem formatFloat_eq (h : Binary64.isFinite src = true) (fmt : Format)
    : ∃ neg d, Normal d 407 ∧ formatFloat src fmt = formatDigits fmt neg d := by
  have hexp : Binary64.exponentBits src ≠ 2 ^ 11 - 1 := by
    exact of_decide_eq_true h
  have hexplt : Binary64.exponentBits src < 2 ^ 11 := Nat.mod_lt _ (by decide)
  have hmant : Binary64.mantissaBits src < 2 ^ 52 := Nat.mod_lt _ (by decide)
  unfold formatFloat bigFtoa expbits
  rw [if_neg hexp]
  split
  . refine ⟨_, _, ?_, rfl⟩
    exact bigFtoa_normal (by omega) (by decide) (by decide)
  refine ⟨_, _, ?_, rfl⟩
  apply bigFtoa_normal
  . unfold mantbits
    omega
  . unfold bias
    omega
  . unfold bias
    omega

theorem number_appendFloat (h : Binary64.isFinite src = true) : Number (appendFloat src) := by
  unfold appendFloat
  dsimp only
  generalize floatFormat src = fmt
  obtain ⟨neg, d, hd, hformat⟩ := formatFloat_eq h fmt
  cases fmt with
  | f =>
    rw [if_neg (by simp), hformat]
    exact number_fmtF hd _ _
  | e =>
    obtain ⟨_, _, _, _, _, _, heq, hscientific⟩ := fmtE_eq hd (by decide) neg (max (d.nd - 1) 0).toNat
    split
    . next hclean => exact number_clean hscientific (hformat.trans heq) hclean.2.2
    . rw [hformat, formatDigits, heq]
      exact hscientific.number

end Json
