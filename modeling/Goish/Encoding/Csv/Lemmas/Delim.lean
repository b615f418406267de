import Goish.Bytes.Lemmas.Index
import Goish.Encoding.Csv.Impl.Reader
import Mathlib.Data.List.Infix

open List Utf8

namespace Csv

def sepOf (comma : ℤ) : List UInt8 :=
  encode comma.toNat

variable {comma : ℤ} {s : List UInt8}

theorem scalar_of_validDelim (h : validDelim comma = true) : 0 ≤ comma ∧ Scalar comma.toNat := by
  unfold validDelim at h
  simp only [Bool.and_eq_true] at h
  exact (validRune_iff comma).mp h.1.2

theorem sepOf_ne_nil (comma : ℤ) : sepOf comma ≠ [] :=
  encode_ne_nil _

theorem sepOf_cons (h : validDelim comma = true) : ∃ a t, sepOf comma = a :: t ∧ a ∉ t := by
  obtain ⟨a, t, heq, hnot, hall⟩ := encode_eq_cons (scalar_of_validDelim h).2
  exact ⟨a, t, heq, fun hmem => hnot (hall a hmem)⟩

theorem encodeRune_comma (h : validDelim comma = true) : encodeRune comma = sepOf comma := by
  obtain ⟨hpos, hscalar⟩ := scalar_of_validDelim h
  have heq := encodeRune_eq hscalar
  rwa [Int.toNat_of_nonneg hpos] at heq

theorem sepOf_ascii (h0 : 0 ≤ comma) (h : comma < 0x80) : sepOf comma = [tobyte comma] := by
  have hbyte := Bytes.toNat_tobyte h0 (show comma < 0x100 by omega)
  have heq : UInt8.ofNat comma.toNat = tobyte comma := by
    rw [← UInt8.toNat_inj, toNat_ofNat (by omega)]
    omega
  unfold sepOf
  rw [encode_of_lt (by omega), heq]

section Delim

variable (h : validDelim comma = true)
include h

theorem comma_ne (hb : b ∈ [quote, lf, cr]) : comma ≠ b.toNat := by
  unfold validDelim at h
  simp only [mem_cons, not_mem_nil, or_false] at hb
  simp at h
  rcases hb with rfl | rfl | rfl
  all_goals omega

theorem not_mem_sepOf (hb : b ∈ [quote, lf, cr]) : b ∉ sepOf comma := by
  have hscalar := scalar_of_validDelim h
  have hne := comma_ne h hb
  have hlt : b.toNat < 0x80 := by
    simp only [mem_cons, not_mem_nil, or_false] at hb
    rcases hb with rfl | rfl | rfl <;> decide
  intro hmem
  unfold sepOf at hmem
  rcases lt_or_ge comma.toNat 0x80 with hlt | hge
  . rw [encode_of_lt hlt, mem_singleton] at hmem
    rw [hmem, toNat_ofNat (by omega)] at hne
    omega
  . have := le_of_mem_encode hscalar.2 hge hmem
    omega

theorem indexRune_wide (hge : 0x80 ≤ comma) : Bytes.indexRune s comma = Bytes.indexBytes (sepOf comma) s := by
  unfold Bytes.indexRune runeSelf
  rw [encodeRune_comma h, if_neg (by omega)]
  unfold validDelim at h
  simp only [Bool.and_eq_true, decide_eq_true_eq] at h
  rw [if_neg h.2, if_neg (by simp [h.1.2])]

theorem indexRune_narrow (hlt : comma < 0x80) : Bytes.indexRune s comma = Bytes.indexByte s (tobyte comma) := by
  have hpos := (scalar_of_validDelim h).1
  exact if_pos ⟨hpos, hlt⟩

theorem indexRune_eq_none_iff : Bytes.indexRune s comma = none ↔ ¬sepOf comma <:+: s := by
  rcases lt_or_ge comma 0x80 with hlt | hge
  . rw [indexRune_narrow h hlt, sepOf_ascii (scalar_of_validDelim h).1 hlt, singleton_infix_iff]
    exact List.idxOf?_eq_none_iff
  . rw [indexRune_wide h hge]
    exact Bytes.indexBytes_eq_none_iff (sepOf_ne_nil comma)

theorem indexRune_append (hnot : ¬sepOf comma <:+: s) (u : List UInt8)
    : Bytes.indexRune (s ++ sepOf comma ++ u) comma = some s.length := by
  rcases lt_or_ge comma 0x80 with hlt | hge
  . have hsep := sepOf_ascii (scalar_of_validDelim h).1 hlt
    rw [hsep, singleton_infix_iff] at hnot
    rw [indexRune_narrow h hlt, hsep]
    rw [append_assoc]
    exact Bytes.indexByte_append hnot u
  . obtain ⟨_, _, heq, hat⟩ := sepOf_cons h
    rw [indexRune_wide h hge]
    exact Bytes.indexBytes_append heq hat hnot u

theorem nextRune_sepOf (u : List UInt8) : nextRune (sepOf comma ++ u) = comma := by
  obtain ⟨hpos, hscalar⟩ := scalar_of_validDelim h
  unfold nextRune sepOf
  rw [decodeRune_encode hscalar]
  exact Int.toNat_of_nonneg hpos

theorem runeLen_comma : (runeLen comma).toNat = (sepOf comma).length := by
  obtain ⟨hpos, hscalar⟩ := scalar_of_validDelim h
  have heq := runeLen_eq hscalar
  rw [Int.toNat_of_nonneg hpos] at heq
  rw [heq]
  rfl

end Delim

theorem nextRune_ascii (hb : b.toNat < 0x80) (u : List UInt8) : nextRune (b :: u) = b.toNat := by
  unfold nextRune decodeRune runeSelf
  dsimp only
  rw [if_pos hb]

end Csv
