import Goish.Encoding.Csv.Lemmas.Delim
import Goish.Encoding.Csv.Lemmas.Lines

open List Utf8 Option

namespace Csv

attribute [local simp] Reader.parse

def indexesOf (k : Nat) : List (List UInt8) → List Nat
  | [] => []
  | f :: fs => (k + f.length) :: indexesOf (k + f.length) fs

theorem indexesOf_append (k : Nat) (fs : List (List UInt8)) (f : List UInt8)
    : indexesOf k (fs ++ [f]) = indexesOf k fs ++ [k + (fs.flatten ++ f).length] := by
  induction fs generalizing k with
  | nil => rfl
  | cons _ _ ih =>
    rw [cons_append, indexesOf, indexesOf, ih, cons_append, flatten_cons]
    simp only [length_append, add_assoc]

theorem splitAt_indexesOf (p : List UInt8) (fs : List (List UInt8))
    : splitAt (p ++ fs.flatten) p.length (indexesOf p.length fs) = fs := by
  induction fs generalizing p with
  | nil => rfl
  | cons f fs ih =>
    have hrest := ih (p ++ f)
    rw [length_append, append_assoc] at hrest
    have htake : (p ++ (f ++ fs.flatten)).take (p.length + f.length) = p ++ f := by
      rw [← append_assoc, ← length_append, take_left]
    rw [indexesOf, splitAt, flatten_cons, hrest, htake, drop_left]

namespace Reader

variable {useCRLF : Bool} {comma : ℤ} {st : Parse} {t u f part : List UInt8}
  {done : List (List UInt8)} (recLine : ℤ) (fuel : Nat) (p : Position)

namespace Parse

structure At (useCRLF : Bool) (comma : ℤ) (st : Parse) (t : List UInt8) (done : List (List UInt8)) (part : List UInt8)
    : Prop where
  text : ∃ a t', st.line = a ++ [lf] ∧ lf ∉ a ∧ t = a ++ lf :: t' ∧ st.self.At useCRLF comma t'
  errRead : st.errRead = none
  buffer : st.recordBuffer = done.flatten ++ part
  indexes : st.fieldIndexes = indexesOf 0 done

structure Done (useCRLF : Bool) (comma : ℤ) (st : Parse) (t : List UInt8) (done : List (List UInt8)) : Prop where
  self : st.self.At useCRLF comma t
  errRead : st.errRead = none
  record : splitAt st.recordBuffer 0 st.fieldIndexes = done

theorem At.push (h : st.At useCRLF comma t done part) (q : List UInt8)
    : (st.push q).At useCRLF comma t done (part ++ q) where
  text := h.text
  errRead := h.errRead
  buffer := by
    unfold Parse.push
    rw [h.buffer, append_assoc]
  indexes := h.indexes

theorem At.endField (h : st.At useCRLF comma t done part) (p : Position)
    : (st.endField p).At useCRLF comma t (done ++ [part]) [] where
  text := h.text
  errRead := h.errRead
  buffer := by
    unfold Parse.endField
    simp [h.buffer]
  indexes := by
    unfold Parse.endField
    rw [h.indexes, h.buffer, indexesOf_append, zero_add]

section

variable (h : st.At useCRLF comma (q ++ t) done part) (hq : lf ∉ q)
include h hq

theorem At.line : ∃ a t', st.line = q ++ (a ++ [lf]) ∧ lf ∉ a ∧ t = a ++ lf :: t' ∧ st.self.At useCRLF comma t' := by
  obtain ⟨a, t', hline, ha, heq, hself⟩ := h.text
  obtain ⟨a, rfl, rfl⟩ := append_before heq hq
  rw [mem_append, not_or] at ha
  exact ⟨a, t', by rw [hline, append_assoc], ha.2, rfl, hself⟩

theorem At.advance : (st.advance q.length).At useCRLF comma t done part where
  text := by
    obtain ⟨a, t', hline, ha, heq, hself⟩ := h.line hq
    refine ⟨a, t', ?_, ha, heq, hself⟩
    unfold Parse.advance
    rw [hline, drop_left]
  errRead := h.errRead
  buffer := h.buffer
  indexes := h.indexes

end

theorem At.finish (h : st.At useCRLF comma (q ++ lf :: t) done []) (hq : lf ∉ q) : st.Done useCRLF comma t done where
  self := by
    obtain ⟨_, _, _, ha, heq, hself⟩ := h.text
    obtain ⟨_, rfl⟩ := append_cons_inj heq hq ha
    exact hself
  errRead := h.errRead
  record := by
    rw [h.buffer, h.indexes, append_nil]
    exact splitAt_indexesOf [] done

theorem push_push (st : Parse) (q q' : List UInt8) : (st.push q).push q' = st.push (q ++ q') := by
  unfold push
  rw [append_assoc]

theorem advance_advance (st : Parse) (m n : Nat) : (st.advance m).advance n = st.advance (m + n) := by
  unfold advance
  rw [drop_drop, Nat.cast_add, Int.add_assoc]

theorem push_advance (st : Parse) (q : List UInt8) (n : Nat) : (st.advance n).push q = (st.push q).advance n :=
  rfl

@[simp]
theorem push_nil (st : Parse) : st.push [] = st := by
  unfold push
  rw [append_nil]

end Parse

theorem not_infix_append (hnot : ¬s <:+: f) (hs : s ≠ []) (hb : b ∉ s) : ¬s <:+: f ++ [b] := by
  rw [infix_concat_iff]
  rintro (hsuf | hin)
  . obtain ⟨q, hq⟩ := hsuf
    have hlast : (q ++ s).getLast? = some b := by
      rw [hq]
      simp
    rw [List.getLast?_append_of_ne_nil _ hs] at hlast
    exact hb (mem_of_getLast? hlast)
  . exact hnot hin

theorem head_ne_quote (hp : Plain (sepOf comma) f) (hv : validDelim comma = true) (hb : b = lf ∨ b ∈ sepOf comma)
    (l : List UInt8) : (f ++ b :: l).head? ≠ some quote := by
  cases f with
  | nil =>
    rw [nil_append, List.head?_cons, Ne, some.injEq]
    rintro rfl
    rcases hb with _ | hmem
    . contradiction
    . exact not_mem_sepOf hv (by simp) hmem
  | cons =>
    rw [cons_append, List.head?_cons, Ne, some.injEq]
    rintro rfl
    exact hp.quote mem_cons_self

theorem parse_plain_sep (hv : validDelim comma = true) (h : st.At useCRLF comma (f ++ sepOf comma ++ t) done [])
    (hp : Plain (sepOf comma) f) : ∃ st', parse recLine (fuel + 1) none st = parse recLine fuel none st' ∧
        st'.At useCRLF comma t (done ++ [f]) [] := by
  have hsep : lf ∉ sepOf comma := not_mem_sepOf hv (by simp)
  have hfsep : lf ∉ f ++ sepOf comma := by
    rw [mem_append, not_or]
    exact ⟨hp.lf, hsep⟩
  obtain ⟨_, _, hline, _, _, hself⟩ := h.line hfsep
  have hidx : Bytes.indexRune st.line comma = some f.length := by
    rw [hline]
    exact indexRune_append hv hp.sep _
  have hhead : st.line.head? ≠ some quote := by
    obtain ⟨_, _, hbs, _⟩ := sepOf_cons hv
    rw [hline, hbs, append_assoc, cons_append]
    exact head_ne_quote hp hv (.inr (by simp [hbs])) _
  have htake : st.line.take f.length = f := by
    rw [hline, append_assoc, take_left]
  have hquote : Bytes.indexByte f quote = none := List.idxOf?_eq_none_iff.mpr hp.quote
  have hadvance := ((h.push f).endField st.pos).advance hfsep
  rw [length_append, ← runeLen_comma hv] at hadvance
  refine ⟨_, ?_, hadvance⟩
  rw [parse, hself.trimLeadingSpace]
  dsimp only
  rw [if_neg Bool.false_ne_true, if_pos hhead, hself.comma, hidx, getD_some, htake, hself.lazyQuotes,
    if_neg Bool.false_ne_true, hquote]

theorem parse_plain_end (hv : validDelim comma = true) (h : st.At useCRLF comma (f ++ lf :: t) done [])
    (hp : Plain (sepOf comma) f)
    : ∃ st', parse recLine (fuel + 1) none st = some (st', none) ∧ st'.Done useCRLF comma t (done ++ [f]) := by
  obtain ⟨a, t', hline, ha, heq, hself⟩ := h.line hp.lf
  obtain ⟨rfl, rfl⟩ := append_cons_inj (show [] ++ lf :: t = a ++ lf :: t' from heq) not_mem_nil ha
  have hidx : Bytes.indexRune st.line comma = none := by
    rw [indexRune_eq_none_iff hv, hline]
    exact not_infix_append hp.sep (sepOf_ne_nil comma) (not_mem_sepOf hv (by simp))
  have hhead : st.line.head? ≠ some quote := by
    rw [hline]
    exact head_ne_quote hp hv (.inl rfl) _
  have htake : st.line.take (st.line.length - lengthNL st.line) = f := by
    rw [hline]
    simp [lengthNL]
  have hquote : Bytes.indexByte f quote = none := List.idxOf?_eq_none_iff.mpr hp.quote
  refine ⟨_, ?_, ((h.push f).endField st.pos).finish hp.lf⟩
  rw [parse, hself.trimLeadingSpace]
  dsimp only
  rw [if_neg Bool.false_ne_true, if_pos hhead, hself.comma, hidx, getD_none, htake, hself.lazyQuotes,
    if_neg Bool.false_ne_true, hquote]

theorem parse_open (h : st.At useCRLF comma (quote :: t) done [])
    : parse recLine (fuel + 1) none st = parse recLine fuel (some st.pos) (st.advance 1) ∧
        (st.advance 1).At useCRLF comma t done [] := by
  obtain ⟨_, _, hline, _, _, hself⟩ := h.line (q := [quote]) (by decide)
  refine ⟨?_, h.advance (q := [quote]) (by decide)⟩
  rw [parse, hself.trimLeadingSpace]
  rw [if_neg Bool.false_ne_true, if_neg (by simp [hline])]

theorem indexByte_quote (h : st.At useCRLF comma (quote :: t) done part) : Bytes.indexByte st.line quote = some 0 := by
  obtain ⟨_, _, hline, _⟩ := h.line (q := [quote]) (by decide)
  rw [hline]
  rfl

theorem parse_byte (h : st.At useCRLF comma (b :: t) done part) (hq : b ≠ quote) (hlf : b ≠ lf)
    : parse recLine fuel (some p) st = parse recLine fuel (some p) ((st.push [b]).advance 1) ∧
        ((st.push [b]).advance 1).At useCRLF comma t done (part ++ [b]) := by
  have hnot : lf ∉ [b] := by
    rw [mem_singleton]
    exact Ne.symm hlf
  refine ⟨?_, (h.push [b]).advance (q := [b]) hnot⟩
  obtain ⟨a, _, hline, _⟩ := h.line (q := [b]) hnot
  generalize hl : a ++ [lf] = l at hline
  cases fuel with
  | zero => rw [parse, parse]
  | succ =>
    have hline' : ((st.push [b]).advance 1).line = l := by
      unfold Parse.advance Parse.push
      rw [hline]
      rfl
    have hidx : Bytes.indexByte st.line quote = (Bytes.indexByte l quote).map (· + 1) := by
      rw [hline]
      unfold Bytes.indexByte
      rw [singleton_append, List.idxOf?_cons, if_neg (by simpa using hq)]
    rw [parse, parse, hline', hidx]
    cases Bytes.indexByte l quote with
    | some i =>
      have hst : (st.push (st.line.take (i + 1))).advance (i + 1 + 1) =
          ((((st.push [b]).advance 1).push (l.take i)).advance (i + 1)) := by
        rw [Parse.push_advance, Parse.push_push, Parse.advance_advance, hline, singleton_append, take_succ_cons,
          add_comm 1]
        rfl
      dsimp only [map_some]
      rw [hst]
    | none =>
      have hne : st.line ≠ [] := by simp [hline]
      have hne' : l ≠ [] := by simp [← hl]
      have herr : ¬st.errRead ≠ none := by simp [h.errRead]
      have hbuffer : (((st.push [b]).advance 1).push l).recordBuffer = (st.push st.line).recordBuffer := by
        rw [Parse.push_advance, Parse.push_push, hline]
        rfl
      have hcol : (((st.push [b]).advance 1).push l).pos.col + ((((st.push [b]).advance 1).push l).line.length : ℤ) =
          (st.push st.line).pos.col + ((st.push st.line).line.length : ℤ) := by
        change st.pos.col + ((1 : Nat) : ℤ) + (((st.push [b]).advance 1).line.length : ℤ) = st.pos.col + (st.line.length : ℤ)
        rw [hline', hline, length_append, length_singleton, Nat.cast_add, Int.add_assoc]
      rw [if_pos hne, if_pos hne', if_neg (show ¬(st.push st.line).errRead ≠ none from herr),
        if_neg (show ¬(((st.push [b]).advance 1).push l).errRead ≠ none from herr), hbuffer, hcol]
      rfl

theorem parse_doubled (h : st.At useCRLF comma (quote :: quote :: t) done part)
    : ∃ st', parse recLine (fuel + 1) (some p) st = parse recLine fuel (some p) st' ∧
        st'.At useCRLF comma t done (part ++ [quote]) := by
  have h1 := h.advance (q := [quote]) (by decide)
  obtain ⟨_, _, hline, _⟩ := h1.line (q := [quote]) (by decide)
  refine ⟨_, ?_, (h1.push [quote]).advance (q := [quote]) (by decide)⟩
  rw [parse, indexByte_quote h]
  simp only [take_zero, Parse.push_nil, zero_add]
  apply if_pos
  rw [show st.advance 1 = st.advance [quote].length from rfl, hline]
  exact nextRune_ascii (by decide) _

theorem parse_lf (h : st.At useCRLF comma (lf :: t) done part) (ht : lf ∈ t)
    : ∃ st', parse recLine (fuel + 1) (some p) st = parse recLine fuel (some p) st' ∧
        st'.At useCRLF comma t done (part ++ [lf]) := by
  obtain ⟨a, t', hline, ha, heq, hself⟩ := h.text
  obtain ⟨rfl, rfl⟩ := append_cons_inj (show [] ++ lf :: t = a ++ lf :: t' from heq) not_mem_nil ha
  obtain ⟨l, u, rfl, hl⟩ := eq_append_cons_of_mem ht
  obtain ⟨_, hread, hself'⟩ := readLine_line hself hl
  have hidx : Bytes.indexByte st.line quote = none := by
    rw [hline]
    decide
  have hne : st.line ≠ [] := by simp [hline]
  have hpush := h.push st.line
  rw [parse, hidx]
  rw [if_pos hne, if_neg (by simp [hpush.errRead]), show (st.push st.line).self.readLine = _ from hread]
  refine ⟨_, rfl, ⟨l, u, rfl, hl, rfl, hself'⟩, rfl, ?_, h.indexes⟩
  refine hpush.buffer.trans ?_
  rw [hline]
  rfl

theorem parse_close_sep (hv : validDelim comma = true) (h : st.At useCRLF comma (quote :: (sepOf comma ++ t)) done part)
    : ∃ st', parse recLine (fuel + 1) (some p) st = parse recLine fuel none st' ∧
        st'.At useCRLF comma t (done ++ [part]) [] := by
  have hsep : lf ∉ sepOf comma := not_mem_sepOf hv (by simp)
  have h1 := h.advance (q := [quote]) (by decide)
  obtain ⟨_, _, hline, _, _, hself⟩ := h1.line hsep
  have hnext : nextRune (st.advance [quote].length).line = comma := by
    rw [hline]
    exact nextRune_sepOf hv _
  have h2 := (h1.advance hsep).endField p
  rw [← runeLen_comma hv] at h2
  refine ⟨_, ?_, h2⟩
  rw [parse, indexByte_quote h]
  simp only [take_zero, Parse.push_nil, zero_add]
  rw [show st.advance 1 = st.advance [quote].length from rfl, hnext, hself.comma, if_neg (comma_ne hv (by simp)),
    if_pos rfl]

theorem parse_close_end (hv : validDelim comma = true) (h : st.At useCRLF comma (quote :: lf :: t) done part)
    : ∃ st', parse recLine (fuel + 1) (some p) st = some (st', none) ∧ st'.Done useCRLF comma t (done ++ [part]) := by
  have h1 := h.advance (q := [quote]) (by decide)
  obtain ⟨a, t', hline, ha, heq, hself⟩ := h1.text
  obtain ⟨rfl, rfl⟩ := append_cons_inj (show [] ++ lf :: t = a ++ lf :: t' from heq) not_mem_nil ha
  have hnext : nextRune (st.advance [quote].length).line = lf.toNat := by
    rw [hline]
    exact nextRune_ascii (by decide) _
  have hend : lengthNL (st.advance [quote].length).line = (st.advance [quote].length).line.length := by
    rw [hline]
    rfl
  refine ⟨_, ?_, (h1.endField p).finish (q := []) not_mem_nil⟩
  rw [parse, indexByte_quote h]
  simp only [take_zero, Parse.push_nil, zero_add]
  rw [show st.advance 1 = st.advance [quote].length from rfl, hnext, hself.comma, if_neg (by decide),
    if_neg (comma_ne hv (by simp)).symm, if_pos hend]

theorem parse_quoted (g : List UInt8) (h : st.At useCRLF comma (doubled g ++ quote :: t) done part) (ht : lf ∈ t)
    (hfuel : (doubled g ++ quote :: t).length < fuel)
    : ∃ fuel' st', parse recLine fuel (some p) st = parse recLine fuel' (some p) st' ∧
        st'.At useCRLF comma (quote :: t) done (part ++ g) ∧ t.length + 1 < fuel' := by
  induction g generalizing st part fuel with
  | nil => exact ⟨fuel, st, rfl, by simpa using h, by simpa using hfuel⟩
  | cons b g ih =>
    by_cases hq : b = quote
    . subst hq
      rw [doubled_quote] at h hfuel
      rcases fuel with _ | fuel
      . omega
      obtain ⟨_, hparse, h'⟩ := parse_doubled recLine fuel p h
      obtain ⟨fuel'', st'', hparse', h'', hfuel'⟩ := ih fuel h' (by simp at hfuel ⊢; omega)
      exact ⟨fuel'', st'', hparse.trans hparse', by simpa using h'', hfuel'⟩
    have hdoubled : doubled (b :: g) = b :: doubled g := by simp [doubled, hq]
    rw [hdoubled] at h hfuel
    by_cases hlf : b = lf
    . subst hlf
      rcases fuel with _ | fuel
      . omega
      obtain ⟨_, hparse, h'⟩ := parse_lf recLine fuel p h (by simp [ht])
      obtain ⟨fuel'', st'', hparse', h'', hfuel'⟩ := ih fuel h' (by simp at hfuel ⊢; omega)
      exact ⟨fuel'', st'', hparse.trans hparse', by simpa using h'', hfuel'⟩
    . obtain ⟨hparse, h'⟩ := parse_byte recLine fuel p h hq hlf
      obtain ⟨fuel'', st'', hparse', h'', hfuel'⟩ := ih fuel h' (by simp at hfuel ⊢; omega)
      exact ⟨fuel'', st'', hparse.trans hparse', by simpa using h'', hfuel'⟩

theorem parse_quotes (g : List UInt8) (h : st.At useCRLF comma (quote :: doubled g ++ [quote] ++ t) done [])
    (ht : lf ∈ t) (hfuel : (quote :: doubled g ++ [quote] ++ t).length < fuel)
    : ∃ fuel' p' st', parse recLine fuel none st = parse recLine (fuel' + 1) (some p') st' ∧
        st'.At useCRLF comma (quote :: t) done g ∧ t.length < fuel' := by
  rw [cons_append, cons_append, append_assoc, singleton_append] at h hfuel
  rcases fuel with _ | fuel
  . omega
  rw [length_cons] at hfuel
  obtain ⟨hopen, h'⟩ := parse_open recLine fuel h
  obtain ⟨fuel', st', hparse, h'', _⟩ := parse_quoted recLine fuel st.pos g h' ht (by omega)
  cases fuel' with
  | zero => omega
  | succ fuel' => exact ⟨fuel', st.pos, st', hopen.trans hparse, h'', by omega⟩

section Record

variable {quoted : List UInt8 → Bool}

theorem lf_mem_recordText (quoted : List UInt8 → Bool) (sep : List UInt8) (record : List (List UInt8))
    : lf ∈ recordText quoted sep record := by
  induction record with
  | nil => simp [recordText]
  | cons f record ih =>
    cases record with
    | nil => simp [recordText]
    | cons =>
      rw [recordText_cons_cons]
      exact mem_append_right _ ih

theorem parse_record (hv : validDelim comma = true) (hplain : ∀ f, quoted f = false → Plain (sepOf comma) f)
    (record : List (List UInt8)) (hne : record ≠ [])
    (h : st.At useCRLF comma (recordText quoted (sepOf comma) record ++ t) done [])
    (hfuel : (recordText quoted (sepOf comma) record ++ t).length < fuel)
    : ∃ st', parse recLine fuel none st = some (st', none) ∧ st'.Done useCRLF comma t (done ++ record) := by
  induction record generalizing st done fuel with
  | nil => contradiction
  | cons f record ih =>
    rcases fuel with _ | fuel
    . omega
    cases record with
    | nil =>
      rw [recordText, append_assoc, singleton_append] at h hfuel
      cases hq : quoted f with
      | false =>
        rw [fieldText, hq] at h
        exact parse_plain_end recLine fuel hv h (hplain f hq)
      | true =>
        rw [fieldText, hq] at h hfuel
        obtain ⟨fuel', p, _, hparse, h', _⟩ := parse_quotes recLine _ f h mem_cons_self hfuel
        obtain ⟨st'', hclose, hdone⟩ := parse_close_end recLine fuel' p hv h'
        exact ⟨st'', hparse.trans hclose, hdone⟩
    | cons g record =>
      rw [recordText_cons_cons, append_assoc, append_assoc] at h hfuel
      have hlf : lf ∈ sepOf comma ++ (recordText quoted (sepOf comma) (g :: record) ++ t) :=
        mem_append_right _ (mem_append_left _ (lf_mem_recordText quoted (sepOf comma) (g :: record)))
      have hsep := length_pos_of_ne_nil (sepOf_ne_nil comma)
      cases hq : quoted f with
      | false =>
        rw [fieldText, hq] at h hfuel
        rw [length_append, length_append] at hfuel
        rw [← append_assoc] at h
        obtain ⟨_, hparse, h'⟩ := parse_plain_sep recLine fuel hv h (hplain f hq)
        obtain ⟨st'', hparse', hdone⟩ := ih fuel (by simp) h' (by omega)
        exact ⟨st'', hparse.trans hparse', by simpa using hdone⟩
      | true =>
        rw [fieldText, hq] at h hfuel
        obtain ⟨fuel', p, _, hparse, h', hfuel'⟩ := parse_quotes recLine _ f h hlf hfuel
        obtain ⟨_, hclose, h1⟩ := parse_close_sep recLine fuel' p hv h'
        rw [length_append] at hfuel'
        obtain ⟨st2, hparse', hdone⟩ := ih fuel' (by simp) h1 (by omega)
        exact ⟨st2, hparse.trans (hclose.trans hparse'), by simpa using hdone⟩

end Record

end Reader

end Csv
