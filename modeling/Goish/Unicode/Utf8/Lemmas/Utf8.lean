import Goish.Data.Utf8
import Goish.Unicode.Utf8.Impl.Utf8

open List

namespace Utf8

section Bits

variable (b : UInt8)

theorem and_eq_iff {m v : UInt8} {P : Nat → Prop} (h : ∀ n < 256, (n &&& m.toNat = v.toNat ↔ P n))
    : b &&& m = v ↔ P b.toNat := by
  rw [← UInt8.toNat_inj, UInt8.toNat_and]
  exact h _ b.toNat_lt

theorem lead2_iff : b &&& 0xE0 = 0xC0 ↔ 0xC0 ≤ b.toNat ∧ b.toNat < 0xE0 :=
  and_eq_iff b (P := fun n => 0xC0 ≤ n ∧ n < 0xE0) (by decide +kernel)

theorem lead3_iff : b &&& 0xF0 = 0xE0 ↔ 0xE0 ≤ b.toNat ∧ b.toNat < 0xF0 :=
  and_eq_iff b (P := fun n => 0xE0 ≤ n ∧ n < 0xF0) (by decide +kernel)

theorem lead4_iff : b &&& 0xF8 = 0xF0 ↔ 0xF0 ≤ b.toNat ∧ b.toNat < 0xF8 :=
  and_eq_iff b (P := fun n => 0xF0 ≤ n ∧ n < 0xF8) (by decide +kernel)

theorem continues_iff : b &&& 0xC0 = 0x80 ↔ Continues b :=
  and_eq_iff b (P := fun n => 0x80 ≤ n ∧ n < 0xC0) (by decide +kernel)

theorem toNat_and_mask (k : Nat) (hk : k ≤ 8) : (b &&& .ofNat (2 ^ k - 1)).toNat = b.toNat % 2 ^ k := by
  have hpow : 2 ^ k ≤ 2 ^ 8 := Nat.pow_le_pow_right (by omega) hk
  rw [UInt8.toNat_and, toNat_ofNat (by omega), Nat.and_two_pow_sub_one_eq_mod]

end Bits

section Decode

variable {p : List UInt8}

theorem shift_or (r : Nat) (b : UInt8) : r <<< 6 ||| (b &&& 0x3F).toNat = r * 64 + b.toNat % 64 := by
  have hmask := toNat_and_mask b 6 (by omega)
  rw [show UInt8.ofNat (2 ^ 6 - 1) = 0x3F from rfl] at hmask
  rw [hmask, ← Nat.shiftLeft_add_eq_or_of_lt (by omega), Nat.shiftLeft_eq]
  rfl

theorem accumulate_eq_some_iff (r : Nat) (p : List UInt8) (v : Nat)
    : accumulate r p = some v ↔ (∀ b ∈ p, Continues b) ∧ v = p.foldl (fun r b => r * 64 + b.toNat % 64) r := by
  induction p generalizing r with
  | nil =>
    simp [accumulate]
    exact eq_comm
  | cons b p ih =>
    rw [accumulate, forall_mem_cons, foldl_cons, ← continues_iff]
    split
    . next hne =>
      simp [hne]
    . next heq =>
      rw [Decidable.not_not] at heq
      rw [ih, shift_or]
      simp [heq]

theorem leadBits_eq (b : UInt8)
    : leadBits 2 b = b.toNat % 32 ∧ leadBits 3 b = b.toNat % 16 ∧ leadBits 4 b = b.toNat % 8 :=
  ⟨toNat_and_mask b 5 (by omega), toNat_and_mask b 4 (by omega), toNat_and_mask b 3 (by omega)⟩

theorem seqLen_eq_some_iff (b : UInt8)
    : seqLen b = some n ↔ n = 2 ∧ 0xC0 ≤ b.toNat ∧ b.toNat < 0xE0 ∨ n = 3 ∧ 0xE0 ≤ b.toNat ∧ b.toNat < 0xF0 ∨
        n = 4 ∧ 0xF0 ≤ b.toNat ∧ b.toNat < 0xF8 := by
  unfold seqLen
  simp only [lead2_iff, lead3_iff, lead4_iff]
  split
  . simp
    omega
  split
  . simp
    omega
  split
  all_goals
    simp
    omega

structure Accepts (b0 : UInt8) (p : List UInt8) (n v : Nat) : Prop where
  len : seqLen b0 = some n
  full : n ≤ p.length + 1
  value : accumulate (leadBits n b0) (p.take (n - 1)) = some v
  least : minRune n ≤ v
  scalar : Scalar v

theorem decodeRune_of_lt (h : b.toNat < runeSelf) : decodeRune (b :: p) = ((b.toNat : ℤ), 1) := by
  unfold decodeRune
  dsimp only
  rw [if_pos h]

theorem decodeRune_of_accepts (hb : 0x80 ≤ b0.toNat) (h : Accepts b0 p n v) : decodeRune (b0 :: p) = ((v : ℤ), n) := by
  have hscalar := h.scalar
  have hleast := h.least
  have hfull := h.full
  unfold Scalar at hscalar
  unfold decodeRune runeSelf maxRune surrogateMin surrogateMax
  simp only [h.len, h.value]
  rw [if_neg (by omega), if_neg (by omega), if_neg (by omega)]

theorem decodeRune_of_not_accepts (hb : 0x80 ≤ b0.toNat) (h : ∀ n v, ¬Accepts b0 p n v)
    : decodeRune (b0 :: p) = (runeError, 1) := by
  unfold decodeRune runeSelf
  dsimp only
  rw [if_neg (by omega)]
  split
  . rfl
  next n hlen =>
  split
  . rfl
  next hfull =>
  split
  . rfl
  next v hvalue =>
  split
  . rfl
  next hbad =>
  unfold maxRune surrogateMin surrogateMax at hbad
  exact absurd ⟨hlen, by omega, hvalue, by omega, by unfold Scalar; omega⟩ (h n v)

theorem Accepts.begins (h : Accepts b0 p n v) : 0x80 ≤ v ∧ (encode v).length = n ∧ encode v <+: b0 :: p := by
  obtain ⟨hlen, hfull, hvalue, hleast, hscalar⟩ := h
  obtain ⟨hlead2, hlead3, hlead4⟩ := leadBits_eq b0
  rw [accumulate_eq_some_iff] at hvalue
  unfold Scalar at hscalar
  unfold minRune at hleast
  rw [seqLen_eq_some_iff] at hlen
  rcases hlen with ⟨rfl, _⟩ | ⟨rfl, _⟩ | ⟨rfl, _⟩
  . rcases p with _ | ⟨b1, p⟩
    . simp at hfull
    simp [Continues, hlead2] at hvalue hleast
    obtain ⟨hb1, hv⟩ := hvalue
    have hencode : encode v = [b0, b1] := by
      unfold encode
      rw [if_neg (by omega), if_pos (by omega)]
      simp only [List.cons.injEq, ← UInt8.toNat_inj, toNat_ofNat (n := 0xC0 + v / 64) (by omega), toNat_cont]
      exact ⟨by omega, by omega, trivial⟩
    rw [hencode]
    exact ⟨by omega, rfl, by simp⟩
  . rcases p with _ | ⟨b1, _ | ⟨b2, p⟩⟩
    . simp at hfull
    . simp at hfull
    simp [Continues, hlead3] at hvalue hleast
    obtain ⟨⟨hb1, hb2⟩, hv⟩ := hvalue
    have hencode : encode v = [b0, b1, b2] := by
      unfold encode
      rw [if_neg (by omega), if_neg (by omega), if_pos (by omega)]
      simp only [List.cons.injEq, ← UInt8.toNat_inj, toNat_ofNat (n := 0xE0 + v / 4096) (by omega), toNat_cont]
      exact ⟨by omega, by omega, by omega, trivial⟩
    rw [hencode]
    exact ⟨by omega, rfl, by simp⟩
  . rcases p with _ | ⟨b1, _ | ⟨b2, _ | ⟨b3, p⟩⟩⟩
    . simp at hfull
    . simp at hfull
    . simp at hfull
    simp [Continues, hlead4] at hvalue hleast
    have hencode : encode v = [b0, b1, b2, b3] := by
      unfold encode
      rw [if_neg (by omega), if_neg (by omega), if_neg (by omega)]
      simp only [List.cons.injEq, ← UInt8.toNat_inj, toNat_ofNat (n := 0xF0 + v / 262144) (by omega), toNat_cont]
      exact ⟨by omega, by omega, by omega, by omega, trivial⟩
    rw [hencode]
    exact ⟨by omega, rfl, by simp⟩

attribute [local simp] accumulate_eq_some_iff continues_cont leadBits_eq minRune

theorem accepts_encode (h : Scalar r) (hr : 0x80 ≤ r) (p : List UInt8)
    : ∃ b0 t, encode r = b0 :: t ∧ 0x80 ≤ b0.toNat ∧ Accepts b0 (t ++ p) (t.length + 1) r := by
  have hs := h
  have hcont (n : Nat) : (cont n).toNat % 64 = n % 64 := by
    rw [toNat_cont]
    omega
  unfold Scalar at hs
  unfold encode
  rw [if_neg (by omega)]
  split_ifs
  on_goal 1 => have hlead := toNat_ofNat (n := 0xC0 + r / 64) (by omega)
  on_goal 2 => have hlead := toNat_ofNat (n := 0xE0 + r / 4096) (by omega)
  on_goal 3 => have hlead := toNat_ofNat (n := 0xF0 + r / 262144) (by omega)
  all_goals
    refine ⟨_, _, rfl, by omega, ?_, by simp, ?_, ?_, h⟩
    . rw [seqLen_eq_some_iff]
      simp
      omega
    . simp [hcont]
      omega
    . simp
      omega

theorem seqLen_of_begins (hr : Scalar r) (hb : 0x80 ≤ b.toNat) (hpre : encode r <+: b :: t)
    : seqLen b = some (encode r).length ∧ 0x80 ≤ r := by
  rcases lt_or_ge r 0x80 with hlt | hge
  . rw [encode_of_lt hlt, cons_prefix_cons] at hpre
    rw [← hpre.1, toNat_ofNat (by omega)] at hb
    omega
  . obtain ⟨_, _, hencode, _, haccepts⟩ := accepts_encode hr hge []
    rw [hencode, cons_prefix_cons] at hpre
    rw [hencode, length_cons, ← hpre.1]
    exact ⟨haccepts.len, hge⟩

theorem decodeRune_encode (h : Scalar r) (p : List UInt8) : decodeRune (encode r ++ p) = ((r : ℤ), (encode r).length) := by
  rcases lt_or_ge r 0x80 with hlt | hge
  . rw [encode_of_lt hlt, singleton_append]
    rw [decodeRune_of_lt (by rwa [toNat_ofNat (by omega)]), toNat_ofNat (by omega)]
    rfl
  . obtain ⟨_, _, hencode, hb0, haccepts⟩ := accepts_encode h hge p
    rw [hencode, cons_append, decodeRune_of_accepts hb0 haccepts]
    rfl

theorem decodeRune_cases (hp : p ≠ [])
    : (∃ r, Scalar r ∧ encode r <+: p ∧ decodeRune p = ((r : ℤ), (encode r).length)) ∨
      decodeRune p = (runeError, 1) ∧ (∃ b0 t, p = b0 :: t ∧ 0x80 ≤ b0.toNat) ∧ ∀ r, Scalar r → ¬encode r <+: p := by
  rcases p with _ | ⟨b0, p⟩
  . contradiction
  rcases lt_or_ge b0.toNat 0x80 with hlt | hge
  . have hencode : encode b0.toNat = [b0] := by
      rw [encode_of_lt hlt, UInt8.ofNat_toNat]
    refine .inl ⟨b0.toNat, .inl (by omega), by simp [hencode], ?_⟩
    rw [decodeRune_of_lt hlt, hencode]
    rfl
  by_cases haccepts : ∃ n v, Accepts b0 p n v
  . obtain ⟨_, v, h⟩ := haccepts
    obtain ⟨_, hlen, hpre⟩ := h.begins
    exact .inl ⟨v, h.scalar, hpre, by rw [decodeRune_of_accepts hge h, hlen]⟩
  have hnot : ∀ n v, ¬Accepts b0 p n v := fun n v h => haccepts ⟨n, v, h⟩
  refine .inr ⟨decodeRune_of_not_accepts hge hnot, ⟨b0, p, rfl, hge⟩, ?_⟩
  rintro r hr ⟨q, hq⟩
  have hdecode := decodeRune_encode hr q
  rw [hq, decodeRune_of_not_accepts hge hnot] at hdecode
  have hval : r = 0xFFFD := by
    have := congrArg Prod.fst hdecode
    simp only [runeError] at this
    omega
  rw [hval] at hdecode
  exact absurd (congrArg Prod.snd hdecode) (by decide)

theorem decodeRune_length_pos (hp : p ≠ []) : 0 < (decodeRune p).2 ∧ (decodeRune p).2 ≤ p.length := by
  rcases decodeRune_cases hp with ⟨r, _, hpre, hdecode⟩ | ⟨hdecode, _⟩
  . rw [hdecode]
    exact ⟨length_encode_pos r, hpre.length_le⟩
  . rw [hdecode]
    exact ⟨Nat.zero_lt_one, length_pos_iff.mpr hp⟩

end Decode

theorem validRune_iff (r : ℤ) : validRune r = true ↔ 0 ≤ r ∧ Scalar r.toNat := by
  unfold validRune maxRune surrogateMin surrogateMax Scalar
  simp
  omega

theorem tobyte_shift (r k : Nat) : tobyte ((r : ℤ).shiftRight k) = .ofNat (r / 2 ^ k) := by
  unfold tobyte UInt8.ofInt
  rw [show (r : ℤ).shiftRight k = (r >>> k : Nat) from rfl, Nat.shiftRight_eq_div_pow, ← UInt8.toNat_inj,
    UInt8.toNat_ofNat', UInt8.toNat_ofNat']
  omega

theorem tx_or (n : Nat) : tx ||| (.ofNat n &&& maskx) = cont n := by
  have hor : ∀ k < 64, 0x80 ||| k = 0x80 + k := by decide
  rw [← UInt8.toNat_inj, UInt8.toNat_or, toNat_cont, show maskx = .ofNat (2 ^ 6 - 1) from rfl, toNat_and_mask _ 6 (by omega),
    UInt8.toNat_ofNat']
  have hmod : n % 2 ^ 8 % 2 ^ 6 = n % 64 := by omega
  rw [hmod]
  exact hor _ (by omega)

theorem mark_or (n : Nat)
    : (n < 32 → t2 ||| .ofNat n = .ofNat (0xC0 + n)) ∧ (n < 16 → t3 ||| .ofNat n = .ofNat (0xE0 + n)) ∧
        (n < 8 → t4 ||| .ofNat n = .ofNat (0xF0 + n)) := by
  have h2 : ∀ n < 32, 0xC0 ||| n = 0xC0 + n := by decide
  have h3 : ∀ n < 16, 0xE0 ||| n = 0xE0 + n := by decide
  have h4 : ∀ n < 8, 0xF0 ||| n = 0xF0 + n := by decide
  refine ⟨?_, ?_, ?_⟩
  all_goals
    intro hn
    rw [← UInt8.toNat_inj, UInt8.toNat_or, toNat_ofNat (by omega), toNat_ofNat (by omega)]
  . exact h2 n hn
  . exact h3 n hn
  . exact h4 n hn

theorem encodeRune_eq (h : Scalar r) : encodeRune (r : ℤ) = encode r := by
  unfold Scalar at h
  have htouint : touint32 r = r := by
    unfold touint32
    omega
  have hbyte := tobyte_shift r 0
  rw [show (r : ℤ).shiftRight 0 = r from rfl, pow_zero, Nat.div_one] at hbyte
  unfold encodeRune encode
  simp only [htouint, show touint32 rune1Max = 0x7F from rfl, show touint32 rune2Max = 0x7FF from rfl,
    show touint32 rune3Max = 0xFFFF from rfl, show touint32 surrogateMin = 0xD800 from rfl,
    show touint32 surrogateMax = 0xDFFF from rfl, show touint32 maxRune = 0x10FFFF from rfl, hbyte, tobyte_shift, tx_or,
    Nat.reducePow]
  rcases lt_or_ge r 0x80 with h1 | h1
  . rw [if_pos (show r ≤ 0x7F by omega), if_pos h1]
  rw [if_neg (show ¬r ≤ 0x7F by omega), if_neg (show ¬r < 0x80 by omega)]
  rcases lt_or_ge r 0x800 with h2 | h2
  . rw [if_pos (show r ≤ 0x7FF by omega), if_pos h2, (mark_or (r / 64)).1 (by omega)]
  rw [if_neg (show ¬r ≤ 0x7FF by omega), if_neg (show ¬r < 0x800 by omega)]
  rcases lt_or_ge r 0x10000 with h3 | h3
  . rw [if_pos (show r < 0xD800 ∨ 0xDFFF < r ∧ r ≤ 0xFFFF by omega), if_pos h3, (mark_or (r / 4096)).2.1 (by omega)]
  . rw [if_neg (show ¬(r < 0xD800 ∨ 0xDFFF < r ∧ r ≤ 0xFFFF) by omega),
      if_pos (show r > 0xFFFF ∧ r ≤ 0x10FFFF by omega), if_neg (show ¬r < 0x10000 by omega),
      (mark_or (r / 262144)).2.2 (by omega)]

theorem runeLen_eq (h : Scalar r) : runeLen (r : ℤ) = (encode r).length := by
  have hvalid : validRune (r : ℤ) = true := (validRune_iff _).mpr ⟨Int.natCast_nonneg r, h⟩
  unfold runeLen encode
  rw [hvalid, if_neg (by simp)]
  split_ifs
  all_goals first | rfl | omega

end Utf8
