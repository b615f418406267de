import Goish.Encoding.Csv.Lemmas.Parse
import Goish.Encoding.Csv.Lemmas.Writer

open List

namespace Csv

variable {quoted : List UInt8 → Bool} {sep : List UInt8}

theorem fieldText_head (hplain : ∀ f, quoted f = false → Plain sep f) (f : List UInt8)
    : f = [] ∧ fieldText quoted f = [] ∨ ∃ b s, fieldText quoted f = b :: s ∧ b ≠ lf := by
  unfold fieldText
  cases hq : quoted f with
  | true => exact .inr ⟨quote, _, rfl, by decide⟩
  | false =>
    cases f with
    | nil => exact .inl ⟨rfl, rfl⟩
    | cons b s =>
      refine .inr ⟨b, s, rfl, ?_⟩
      intro heq
      exact (hplain _ hq).lf (by simp [heq])

theorem recordText_head (hplain : ∀ f, quoted f = false → Plain sep f) (hsep : ∃ b s, sep = b :: s ∧ b ≠ lf)
    (hne : record ≠ []) (hempty : record ≠ [[]]) : ∃ b s, recordText quoted sep record = b :: s ∧ b ≠ lf := by
  rcases record with _ | ⟨f, record⟩
  . contradiction
  rcases fieldText_head hplain f with ⟨rfl, hnil⟩ | ⟨b, s, heq, hb⟩
  . cases record with
    | nil => contradiction
    | cons =>
      obtain ⟨b, _, rfl, hb⟩ := hsep
      rw [recordText_cons_cons, hnil]
      exact ⟨b, _, rfl, hb⟩
  cases record with
  | nil =>
    rw [recordText, heq]
    exact ⟨b, _, rfl, hb⟩
  | cons =>
    rw [recordText_cons_cons, heq]
    exact ⟨b, _, rfl, hb⟩

theorem cr_not_mem_recordText (quoted : List UInt8 → Bool) (hsep : cr ∉ sep)
    (hcr : ∀ f ∈ record, cr ∉ f) : cr ∉ recordText quoted sep record := by
  have hfield (f : List UInt8) (hf : cr ∉ f) : cr ∉ fieldText quoted f := by
    unfold fieldText
    split
    . rw [cons_append, mem_cons, mem_append, mem_singleton]
      rintro (h | h | h)
      . contradiction
      . exact hf (mem_doubled h)
      . contradiction
    . exact hf
  induction record with
  | nil =>
    rw [recordText]
    decide
  | cons f record ih =>
    rw [forall_mem_cons] at hcr
    cases record with
    | nil =>
      rw [recordText, mem_append, mem_singleton]
      rintro (h | h)
      . exact hfield f hcr.1 h
      . contradiction
    | cons =>
      rw [recordText_cons_cons, mem_append, mem_append]
      rintro ((h | h) | h)
      . exact hfield f hcr.1 h
      . exact hsep h
      . exact ih hcr.2 h

namespace Reader

variable {self : Reader} {useCRLF : Bool} {comma : ℤ} {t : List UInt8}

theorem skipLines_line (h : self.At useCRLF comma (b :: l ++ lf :: t)) (hl : lf ∉ b :: l) (fuel : Nat)
    : ∃ self', skipLines (fuel + 1) self = some (self', b :: l ++ [lf], none) ∧ self'.At useCRLF comma t := by
  obtain ⟨self', hread, hself'⟩ := readLine_line h hl
  refine ⟨self', ?_, hself'⟩
  have hlen : (b :: l ++ [lf]).length ≠ lengthNL (b :: l ++ [lf]) := by
    unfold lengthNL
    rw [length_append, length_cons, length_singleton]
    split <;> omega
  generalize b :: l ++ [lf] = line at hread hlen
  rw [skipLines, hread]
  simp [hself'.comment, hlen]

theorem skipLines_end (h : self.At useCRLF comma []) (fuel : Nat)
    : ∃ self', skipLines (fuel + 1) self = some (self', [], some .eof) := by
  obtain ⟨self', hread, hself'⟩ := readLine_end h
  refine ⟨self', ?_⟩
  rw [skipLines, hread]
  simp [hself'.comment]

section

variable (hv : validDelim comma = true)
include hv

theorem readRecord_delim (h : self.At useCRLF comma t)
    : ¬(self.comma = self.comment ∨ !validDelim self.comma ∨ (self.comment ≠ 0 ∧ !validDelim self.comment)) := by
  rw [h.comma, h.comment, hv]
  unfold validDelim at hv
  simp at hv ⊢
  omega

theorem readRecord_record (hplain : ∀ f, quoted f = false → Plain (sepOf comma) f) (hne : record ≠ [])
    (hempty : record ≠ [[]]) (h : self.At useCRLF comma (recordText quoted (sepOf comma) record ++ t))
    : ∃ self', self.readRecord = some (self', record, none) ∧ self'.At useCRLF comma t := by
  have hsep : ∃ b s, sepOf comma = b :: s ∧ b ≠ lf := by
    obtain ⟨b, s, heq, _⟩ := sepOf_cons hv
    refine ⟨b, s, heq, ?_⟩
    rintro rfl
    exact not_mem_sepOf hv (b := lf) (by simp) (by simp [heq])
  obtain ⟨_, _, heq, hb⟩ := recordText_head hplain hsep hne hempty
  obtain ⟨l, u, hsplit, hl⟩ := eq_append_cons_of_mem
    (mem_append_left t (lf_mem_recordText quoted (sepOf comma) record))
  cases l with
  | nil =>
    rw [heq] at hsplit
    simp [hb] at hsplit
  | cons c l =>
    rw [hsplit] at h
    obtain ⟨self', hskip, hself'⟩ := skipLines_line h hl (self.left + 1)
    have hst : Parse.At useCRLF comma
        { self := self', line := c :: l ++ [lf], errRead := none, recordBuffer := [], fieldIndexes := [],
          fieldPositions := [], pos := { line := self'.numLine, col := 1 } }
        (recordText quoted (sepOf comma) record ++ t) [] [] :=
      ⟨⟨_, u, rfl, hl, hsplit, hself'⟩, rfl, rfl, rfl⟩
    have hfuel : (recordText quoted (sepOf comma) record ++ t).length < (c :: l ++ [lf]).length + self'.left + 3 := by
      have hleft := hself'.length_le
      rw [hsplit, length_append, length_append, length_cons (a := lf), length_singleton]
      omega
    obtain ⟨st, hparse, hdone⟩ := parse_record self'.numLine _ hv hplain record hne hst hfuel
    have hfields := hdone.self.fieldsPerRecord
    generalize c :: l ++ [lf] = line at hskip hparse
    refine ⟨{ st.self with fieldPositions := st.fieldPositions }, ?_, ?_⟩
    . unfold readRecord
      rw [if_neg (readRecord_delim hv h), hskip]
      simp [hparse, hdone.errRead, hdone.record, hfields]
    . exact ⟨hdone.self.steady, hdone.self.rest, hdone.self.cr, hdone.self.comma, hdone.self.comment,
        hdone.self.lazyQuotes, hdone.self.trimLeadingSpace, hfields⟩

theorem readRecord_end (h : self.At useCRLF comma [])
    : ∃ self', self.readRecord = some (self', [], some (.io .eof)) := by
  obtain ⟨self', hskip⟩ := skipLines_end h (self.left + 1)
  refine ⟨self', ?_⟩
  unfold readRecord
  rw [if_neg (readRecord_delim hv h), hskip]
  rfl

theorem readAll.go_spec (hplain : ∀ f, quoted f = false → Plain (sepOf comma) f)
    (records : List (List (List UInt8))) (hne : ∀ record ∈ records, record ≠ [] ∧ record ≠ [[]])
    (h : self.At useCRLF comma (records.flatMap (recordText quoted (sepOf comma)))) (hfuel : records.length < fuel)
    (done : List (List (List UInt8))) : ∃ self', go fuel self done = some (self', done ++ records, none) := by
  induction records generalizing self fuel done with
  | nil =>
    rcases fuel with _ | _
    . contradiction
    obtain ⟨self', hread⟩ := readRecord_end hv h
    refine ⟨self', ?_⟩
    rw [go, hread]
    simp
  | cons record _ ih =>
    rcases fuel with _ | _
    . contradiction
    rw [forall_mem_cons] at hne
    obtain ⟨_, hread, hself'⟩ := readRecord_record hv hplain hne.1.1 hne.1.2 h
    obtain ⟨self'', hgo⟩ := ih hne.2 hself' (Nat.lt_of_succ_lt_succ hfuel) (done ++ [record])
    refine ⟨self'', ?_⟩
    rw [go, hread]
    simpa using hgo

end

end Reader

theorem length_le_flatMap_recordText (quoted : List UInt8 → Bool) (sep : List UInt8) (records : List (List (List UInt8)))
    : records.length ≤ (records.flatMap (recordText quoted sep)).length := by
  induction records with
  | nil => exact le_rfl
  | cons record =>
    have hpos : 0 < (recordText quoted sep record).length :=
      length_pos_of_mem (Reader.lf_mem_recordText quoted sep record)
    rw [flatMap_cons, length_append, length_cons]
    omega

theorem csv_roundtrip (comma : ℤ) (useCRLF : Bool) (hv : validDelim comma = true) (records : List (List (List UInt8)))
    (hne : ∀ record ∈ records, record ≠ [] ∧ record ≠ [[]] ∧ ∀ f ∈ record, cr ∉ f)
    : ∃ self : Writer, Writer.writeAll { newWriter with comma := comma, useCRLF := useCRLF } records = .ok self ∧
        ∀ src : Io.Source, src.Live → src.err = .eof → src.bytes = self.w.out →
          ∃ self', Reader.readAll { newReader src with comma := comma, fieldsPerRecord := -1 } =
            some (self', records, none) := by
  obtain ⟨_, hwrite, hout⟩ := Writer.writeAll_spec
    { newWriter with comma := comma, useCRLF := useCRLF } hv records fun record hmem =>
      ⟨(hne record hmem).1, (hne record hmem).2.2⟩
  refine ⟨_, hwrite, ?_⟩
  intro src hlive herr hbytes
  have hself : Reader.At useCRLF comma { newReader src with comma := comma, fieldsPerRecord := -1 }
      (records.flatMap (recordText (Writer.fieldNeedsQuotes { newWriter with comma := comma, useCRLF := useCRLF })
        (sepOf comma))) := by
    refine ⟨⟨⟨hlive, fun hne => absurd rfl hne⟩, ⟨herr, fun y hy => by contradiction⟩, Nat.zero_le _, Nat.zero_lt_succ _⟩,
      ?_, ?_, rfl, rfl, rfl, rfl, rfl⟩
    . exact hbytes.trans hout
    . rw [mem_flatMap]
      rintro ⟨record, hmem, hcr⟩
      exact cr_not_mem_recordText _ (not_mem_sepOf hv (by simp)) (hne record hmem).2.2 hcr
  apply Reader.readAll.go_spec hv (fun f => Writer.plain_of_not_quoted hv) records _ hself
  . have hleft := hself.length_le
    have hlength := length_le_flatMap_recordText
      (Writer.fieldNeedsQuotes { newWriter with comma := comma, useCRLF := useCRLF }) (sepOf comma) records
    omega
  . intro record hmem
    exact ⟨(hne record hmem).1, (hne record hmem).2.1⟩

theorem csv_roundtrip_euro : ∃ self : Writer, Writer.writeAll { newWriter with comma := 0x20AC, useCRLF := true }
          [[[quote, lf, 0xE2, 0x82, 0xAC], []], [[0xFF]]] = .ok self ∧
        ∀ src : Io.Source, src.Live → src.err = .eof → src.bytes = self.w.out →
          ∃ self', Reader.readAll { newReader src with comma := 0x20AC, fieldsPerRecord := -1 } =
            some (self', [[[quote, lf, 0xE2, 0x82, 0xAC], []], [[0xFF]]], none) :=
  csv_roundtrip 0x20AC true (by decide) _ (by decide)

end Csv
