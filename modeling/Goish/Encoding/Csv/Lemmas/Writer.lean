import Goish.Bufio.Lemmas.Writer
import Goish.Encoding.Csv.Lemmas.Delim
import Goish.Encoding.Csv.Text

open List Utf8

namespace Csv

open Bufio.Writer

namespace Writer

variable {self : Writer} {crlf : Bool}

theorem indexAny_special (f : List UInt8)
    : Bytes.indexAny f [quote, cr, lf] = f.findIdx? fun b => decide (b ∈ [quote, cr, lf]) := by
  apply Bytes.indexAny_ascii
  intro c hc
  simp only [mem_cons, not_mem_nil, or_false] at hc
  rcases hc with rfl | rfl | rfl <;> decide

theorem plain_of_not_quoted (h : validDelim self.comma = true) (hf : self.fieldNeedsQuotes f = false)
    : Plain (sepOf self.comma) f := by
  have hpos := (scalar_of_validDelim h).1
  unfold fieldNeedsQuotes at hf
  split at hf
  . next hnil =>
    subst hnil
    exact ⟨not_mem_nil, not_mem_nil, fun hin => sepOf_ne_nil _ (infix_nil.mp hin)⟩
  split at hf
  . contradiction
  rw [Bool.or_eq_false_iff] at hf
  replace hf := hf.1
  split at hf
  . next hlt =>
    have hlt : self.comma < 0x80 := by
      have hscalar := (scalar_of_validDelim h).2
      unfold touint32 runeSelf at hlt
      unfold Scalar at hscalar
      omega
    rw [any_eq_false] at hf
    refine ⟨?_, ?_, ?_⟩
    case' refine_3 => rw [sepOf_ascii hpos hlt, singleton_infix_iff]
    all_goals
      intro hmem
      simpa using hf _ hmem
  . rw [Bool.or_eq_false_iff] at hf
    unfold Bytes.containsRune Bytes.containsAny at hf
    rw [Option.isSome_eq_false_iff, Option.isNone_iff_eq_none, indexRune_eq_none_iff h, Option.isSome_eq_false_iff,
      Option.isNone_iff_eq_none, indexAny_special, List.findIdx?_eq_none_iff] at hf
    refine ⟨?_, ?_, hf.1⟩
    all_goals
      intro hmem
      simpa using hf.2 _ hmem

theorem split_findIdx (h : f.findIdx? g = some i)
    : ∃ p c q, f = p ++ c :: q ∧ i = p.length ∧ (∀ b ∈ p, g b = false) ∧ g c = true := by
  obtain ⟨hi, hc, hbefore⟩ := List.findIdx?_eq_some_iff_getElem.mp h
  refine ⟨f.take i, f[i], f.drop (i + 1), ?_, by rw [length_take]; omega, ?_, hc⟩
  . rw [← drop_eq_getElem_cons hi, take_append_drop]
  intro b hb
  obtain ⟨j, hj, rfl⟩ := getElem_of_mem hb
  rw [length_take] at hj
  rw [getElem_take]
  simpa using hbefore j (by omega)

theorem written_writeQuoted (fuel : Nat) (w : Bufio.Writer) (f : List UInt8) (hfuel : f.length ≤ fuel) (hcr : cr ∉ f)
    : (writeQuoted crlf fuel w f).written = w.written ++ ends crlf (doubled f) := by
  induction fuel generalizing w f with
  | zero =>
    have hnil : f = [] := length_eq_zero_iff.mp (by omega)
    subst hnil
    simp [writeQuoted, doubled]
  | succ fuel ih =>
    rw [writeQuoted]
    split
    . next hnil =>
      subst hnil
      simp [doubled]
    rw [indexAny_special]
    cases hidx : f.findIdx? fun b => decide (b ∈ [quote, cr, lf]) with
    | none =>
      have hplain := List.findIdx?_eq_none_iff.mp hidx
      have hquote : quote ∉ f := fun hmem => by simpa using hplain _ hmem
      have hlf : lf ∉ f := fun hmem => by simpa using hplain _ hmem
      simp only [Option.getD_none, take_length, drop_length]
      rw [written_writeString, doubled_of_not_mem hquote, ends_of_not_mem hlf]
    | some =>
      obtain ⟨p, _, q, rfl, rfl, hp, hc⟩ := split_findIdx hidx
      have hquote : quote ∉ p := fun hmem => by simpa using hp _ hmem
      have hlf : lf ∉ p := fun hmem => by simpa using hp _ hmem
      have hnot : cr ∉ q := fun hmem => hcr (mem_append_right _ (mem_cons_of_mem _ hmem))
      have hq : q.length ≤ fuel := by
        rw [length_append, length_cons] at hfuel
        omega
      simp only [Option.getD_some, take_left', drop_left']
      rw [ih _ _ hq hnot, doubled_append, doubled_of_not_mem hquote, ends_append, ends_of_not_mem hlf]
      simp only [mem_cons, not_mem_nil, or_false, decide_eq_true_eq] at hc
      rcases hc with rfl | rfl | rfl
      . rw [if_pos rfl, written_writeString, written_writeString, doubled_quote]
        simp [ends, quote, lf]
      . simp at hcr
      . rw [if_neg (by decide), if_neg (by decide), if_pos rfl]
        cases crlf with
        | false => simp [written_writeByte, written_writeString, doubled, ends, quote, lf]
        | true => simp [written_writeString, doubled, ends, quote, lf]

section

variable (h : validDelim self.comma = true)
include h

theorem written_writeField (w : Bufio.Writer) (hcr : cr ∉ f)
    : (self.writeField w f).written = w.written ++ ends self.useCRLF (fieldText self.fieldNeedsQuotes f) := by
  unfold writeField fieldText
  cases hf : self.fieldNeedsQuotes f with
  | false =>
    have hplain := plain_of_not_quoted h hf
    simp only [Bool.not_false, if_true, Bool.false_eq_true, if_false]
    rw [written_writeString, ends_of_not_mem hplain.lf]
  | true =>
    rw [if_neg (by simp), if_pos rfl, written_writeByte, written_writeQuoted _ _ _ le_rfl hcr,
      written_writeByte]
    simp [ends, quote, lf]

theorem written_writeFields (w : Bufio.Writer) (record : List (List UInt8))
    (hne : record ≠ []) (hcr : ∀ f ∈ record, cr ∉ f) : (self.writeFields w record).written ++ ends self.useCRLF [lf] =
        w.written ++ ends self.useCRLF (recordText self.fieldNeedsQuotes (sepOf self.comma) record) := by
  induction record generalizing w with
  | nil => contradiction
  | cons f record ih =>
    rw [forall_mem_cons] at hcr
    have hfield := written_writeField h w hcr.1
    cases record with
    | nil => rw [writeFields, recordText, ends_append, hfield, append_assoc]
    | cons =>
      obtain ⟨hpos, hscalar⟩ := scalar_of_validDelim h
      have hsep := written_writeRune (self.writeField w f) hscalar
      rw [Int.toNat_of_nonneg hpos, hfield] at hsep
      have hlf : lf ∉ sepOf self.comma := not_mem_sepOf h (by simp)
      rw [writeFields, ih _ (by simp) hcr.2, hsep, recordText_cons_cons, ends_append, ends_append, ends_of_not_mem hlf]
      . simp only [append_assoc]
        rfl
      . simp

theorem written_write (hne : record ≠ []) (hcr : ∀ f ∈ record, cr ∉ f)
    : ∃ w, self.write record = .ok { self with w := w } ∧
        w.written = self.w.written ++ ends self.useCRLF (recordText self.fieldNeedsQuotes (sepOf self.comma) record) := by
  unfold write
  rw [h]
  refine ⟨_, rfl, ?_⟩
  rw [← written_writeFields h self.w record hne hcr]
  cases self.useCRLF with
  | false => exact written_writeByte _ _
  | true => exact written_writeString _ _

end

theorem written_foldlM (self : Writer) (h : validDelim self.comma = true) (records : List (List (List UInt8)))
    (hne : ∀ record ∈ records, record ≠ [] ∧ ∀ f ∈ record, cr ∉ f)
    : ∃ w, records.foldlM write self = .ok { self with w := w } ∧
        w.written = self.w.written ++
          ends self.useCRLF (records.flatMap (recordText self.fieldNeedsQuotes (sepOf self.comma))) := by
  induction records generalizing self with
  | nil => exact ⟨self.w, rfl, by simp⟩
  | cons _ _ ih =>
    rw [forall_mem_cons] at hne
    obtain ⟨w, hwrite, hw⟩ := written_write h hne.1.1 hne.1.2
    obtain ⟨w', hfold, hw'⟩ := ih { self with w := w } h hne.2
    refine ⟨w', ?_, ?_⟩
    . rwa [foldlM_cons, hwrite]
    . rw [hw', hw, flatMap_cons, ends_append, append_assoc]
      -- Whether a field is quoted depends on the delimiter only.
      rfl

theorem writeAll_spec (self : Writer) (h : validDelim self.comma = true) (records : List (List (List UInt8)))
    (hne : ∀ record ∈ records, record ≠ [] ∧ ∀ f ∈ record, cr ∉ f)
    : ∃ w, self.writeAll records = .ok { self with w := w } ∧
        w.out = self.w.written ++
          ends self.useCRLF (records.flatMap (recordText self.fieldNeedsQuotes (sepOf self.comma))) := by
  obtain ⟨w, hfold, hw⟩ := written_foldlM self h records hne
  refine ⟨(w.write []).flush, ?_, ?_⟩
  . unfold writeAll
    rw [hfold]
    rfl
  . rw [Bufio.Writer.written_flush, Bufio.Writer.written_write, append_nil, hw]

end Writer

end Csv
