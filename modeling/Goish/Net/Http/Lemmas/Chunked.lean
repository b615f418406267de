import Goish.Bufio.Lemmas.Reader
import Goish.Net.Http.ChunkGrammar
import Mathlib.Tactic.Ring

open List Io

namespace Http

theorem hexDigit_lt (h : hexDigit b = some d) : d.toNat < 16 := by
  unfold hexDigit at h
  simp only [ge_iff_le, UInt8.le_iff_toNat_le] at h
  have h0 : '0'.toUInt8.toNat = 48 := rfl
  have h9 : '9'.toUInt8.toNat = 57 := rfl
  have ha : 'a'.toUInt8.toNat = 97 := rfl
  have hf : 'f'.toUInt8.toNat = 102 := rfl
  have hA : 'A'.toUInt8.toNat = 65 := rfl
  have hF : 'F'.toUInt8.toNat = 70 := rfl
  split at h
  . cases h
    rw [UInt8.toNat_sub]
    omega
  split at h
  . cases h
    rw [UInt8.toNat_add, UInt8.toNat_sub, show (10 : UInt8).toNat = 10 from rfl]
    omega
  split at h
  . cases h
    rw [UInt8.toNat_add, UInt8.toNat_sub, show (10 : UInt8).toNat = 10 from rfl]
    omega
  . contradiction

theorem parseHexUint.go_eq_ok_iff (hn : n < 16 ^ i) (hi : i ≤ 16) : go v i n = .ok m ↔
        i + v.length ≤ 16 ∧ v.foldlM (fun n b => (hexDigit b).map (fun d => 16 * n + d.toNat)) n = some m := by
  induction v generalizing i n with
  | nil => simp [go, hi]
  | cons b v ih =>
    rw [go, foldlM_cons, length_cons]
    split
    . next hfull =>
      constructor
      . intro h
        contradiction
      . omega
    next hmore =>
    cases hd : hexDigit b with
    | none => simp
    | some d =>
      have hdlt := hexDigit_lt hd
      have hpow : 16 ^ i ≤ 16 ^ 15 := Nat.pow_le_pow_right (by omega) (by omega)
      have hstep : (n <<< 4) % 2 ^ 64 ||| d.toNat = 16 * n + d.toNat := by
        rw [Nat.mod_eq_of_lt (by rw [Nat.shiftLeft_eq]; omega), ← Nat.shiftLeft_add_eq_or_of_lt (by omega),
          Nat.shiftLeft_eq]
        omega
      dsimp only
      rw [hstep, ih (by rw [pow_succ]; omega) (by omega)]
      simp
      omega

theorem parseHexUint_eq_ok_iff : parseHexUint v = .ok m ↔ v ≠ [] ∧ v.length ≤ 16 ∧ hexNumber v = some m := by
  unfold parseHexUint
  split
  . next hzero =>
    have hnil := length_eq_zero_iff.mp hzero
    simp [hnil]
  . next hne =>
    rw [parseHexUint.go_eq_ok_iff (by simp) (by omega), zero_add]
    have hnil : v ≠ [] := ne_nil_of_length_pos (by omega)
    simp [hnil, hexNumber]

theorem foldlM_hex_lt {v : List UInt8}
    (h : v.foldlM (fun n b => (hexDigit b).map (fun d => 16 * n + d.toNat)) a = some m)
    : m < (a + 1) * 16 ^ v.length := by
  induction v generalizing a with
  | nil =>
    cases h
    simp
  | cons b v ih =>
    cases hd : hexDigit b with
    | none => simp [hd] at h
    | some d =>
      have hdlt := hexDigit_lt hd
      have hlt := ih (a := 16 * a + d.toNat) (by simpa [hd] using h)
      calc m
        _ < (16 * a + d.toNat + 1) * 16 ^ v.length := hlt
        _ ≤ (a + 1) * 16 * 16 ^ v.length := Nat.mul_le_mul_right _ (by omega)
        _ = (a + 1) * 16 ^ (v.length + 1) := by ring

theorem parseHexUint_lt (h : parseHexUint v = .ok n) : n < 2 ^ 64 := by
  obtain ⟨_, hlen, hnumber⟩ := parseHexUint_eq_ok_iff.mp h
  have hlt := foldlM_hex_lt hnumber
  have hpow : 16 ^ v.length ≤ 16 ^ 16 := Nat.pow_le_pow_right (by omega) hlen
  omega

theorem parseHexUint.go_ne_eof (v : List UInt8) (i n : Nat) : go v i n ≠ .error .eof := by
  induction v generalizing i n with
  | nil => simp [go]
  | cons b v ih =>
    rw [go]
    split
    . simp [errChunkTooLarge]
    . split
      . simp [errBadHex]
      . exact ih _ _

theorem parseHexUint_ne_eof (v : List UInt8) : parseHexUint v ≠ .error .eof := by
  unfold parseHexUint
  split
  . simp [errEmptyHex]
  . exact parseHexUint.go_ne_eof v 0 0

section Line

variable {b b' : Bufio.Reader} {line : List UInt8}

theorem header_size (h : parseHexUint (removeChunkExtension (trimTrailingWhitespace line)) = .ok n)
    : ∃ digits ext, line = digits ++ ext ∧ digits ≠ [] ∧ digits.length ≤ 16 ∧ hexNumber digits = some n ∧
        Extension ext := by
  obtain ⟨hne, hlen, hnumber⟩ := parseHexUint_eq_ok_iff.mp h
  unfold removeChunkExtension trimTrailingWhitespace at *
  have hcut := takeWhile_append_dropWhile (p := (· != ';'.toUInt8)) (l := line.rdropWhile isOWS)
  have htrim := rdropWhile_append_rtakeWhile (p := isOWS) (l := line)
  generalize line.rdropWhile isOWS = trimmed at *
  refine ⟨_, trimmed.dropWhile (· != ';'.toUInt8) ++ line.rtakeWhile isOWS, ?_, hne, hlen, hnumber, ?_⟩
  . rw [← append_assoc, hcut, htrim]
  cases hdrop : trimmed.dropWhile (· != ';'.toUInt8) with
  | nil =>
    left
    intro x hx
    exact mem_rtakeWhile_imp hx
  | cons =>
    right
    have hhead := head_dropWhile_not (· != ';'.toUInt8) (l := trimmed) (by simp [hdrop])
    simp only [hdrop, head_cons] at hhead
    simpa using hhead

theorem readChunkLine_spec (b : Bufio.Reader) (hroom : b.buf.length ≤ b.size)
    : ∃ b' res p, readChunkLine b = some (b', res) ∧ b.Takes p b' ∧ res ≠ .error .eof ∧
        (∀ line, res = .ok line → p = line ++ crlf ∧ line.length < maxLineLength ∧ cr ∉ line ∧ lf ∉ line) := by
  obtain ⟨b', p, e, hslice, htakes, hline, _⟩ := b.readSlice_spec hroom lf
  unfold readChunkLine
  rw [hslice, Option.map_some]
  cases e with
  | some =>
    dsimp only
    split
    . exact ⟨b', _, p, rfl, htakes, by simp, by simp⟩
    . next heof =>
      split
      . exact ⟨b', _, p, rfl, htakes, by simp [errLineTooLong], by simp⟩
      . exact ⟨b', _, p, rfl, htakes, by simp [heof], by simp⟩
  | none =>
    dsimp only
    obtain ⟨q, hp, hlf⟩ := hline rfl
    split
    . exact ⟨b', _, p, rfl, htakes, by simp [errBareLF], by simp⟩
    next idx hidx =>
    split
    . exact ⟨b', _, p, rfl, htakes, by simp [errInvalidCR], by simp⟩
    next hend =>
    split
    . exact ⟨b', _, p, rfl, htakes, by simp [errLineTooLong], by simp⟩
    next hshort =>
    refine ⟨b', _, p, rfl, htakes, by simp, ?_⟩
    intro _ hline
    cases hline
    obtain ⟨htake, hcr⟩ := Bufio.Reader.split_idxOf hidx
    have hlen : p.length = q.length + 1 := by simp [hp]
    have hq : q = p.take idx ++ [cr] := by
      rw [← htake, hp, show idx + 1 = q.length by omega, take_left]
    rw [show p.length - 2 = idx by omega]
    refine ⟨?_, by rw [show p.length - 2 = idx by omega] at hshort; omega, hcr, ?_⟩
    . conv_lhs => rw [hp, hq]
      rw [append_assoc]
      rfl
    . intro hmem
      apply hlf
      rw [hq]
      exact mem_append_left _ hmem

end Line

def Fits (excess : ℤ) (n : Nat) : Prop :=
  n ≤ 2 ^ 62 - 9 ∨ (2 ^ 64 - 2 ^ 62 ≤ n ∧ excess + 2 * (2 ^ 64 - n) ≤ 2 ^ 63 + 15)

theorem wrapI64_eq_iff (x : ℤ) : wrapI64 x = x ↔ -2 ^ 63 ≤ x ∧ x < 2 ^ 63 := by
  unfold wrapI64 Int.bmod
  dsimp only
  split
  all_goals omega

theorem wrapI64_natCast {n : Nat} (hn : n < 2 ^ 64) : wrapI64 n = if n < 2 ^ 63 then (n : ℤ) else n - 2 ^ 64 := by
  unfold wrapI64 Int.bmod
  dsimp only
  split
  all_goals
    split
    all_goals omega

theorem charge_overflow_iff {n : Nat} (hn : n < 2 ^ 64) (hle : 0 ≤ excess) (hlt : excess < 2 ^ 62)
    : (charge excess n).2 = true ↔ ¬ Fits excess n := by
  unfold charge
  rw [wrapI64_natCast hn]
  generalize hdata : (if n < 2 ^ 63 then (n : ℤ) else n - 2 ^ 64) = data
  simp only [Bool.or_eq_true, bne_iff_ne, ne_eq, wrapI64_eq_iff]
  -- Past the first operation that overflows nothing more is to say.
  by_cases htwice : -2 ^ 63 ≤ 2 * data ∧ 2 * data < 2 ^ 63
  . rw [(wrapI64_eq_iff _).mpr htwice]
    by_cases hcost : -2 ^ 63 ≤ 16 + 2 * data ∧ 16 + 2 * data < 2 ^ 63
    . rw [(wrapI64_eq_iff _).mpr hcost]
      unfold Fits
      split at hdata
      all_goals omega
    . unfold Fits
      split at hdata
      all_goals omega
  . unfold Fits
    split at hdata
    all_goals omega

theorem charge_eq (hn : n ≤ 2 ^ 62 - 9) (hle : 0 ≤ excess) (hlt : excess < 2 ^ 62)
    : (charge excess n).1 = excess - (16 + 2 * n) := by
  unfold charge
  dsimp only
  rw [(wrapI64_eq_iff n).mpr (by omega), (wrapI64_eq_iff (2 * n)).mpr (by omega),
    (wrapI64_eq_iff (16 + 2 * n)).mpr (by omega), (wrapI64_eq_iff _).mpr (by omega)]

end Http
