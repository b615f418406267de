import Goish.Bufio.Lemmas.Reader
import Goish.Encoding.Csv.Impl.Reader
import Goish.Encoding.Csv.Text

open List

namespace Csv

theorem append_cons_inj (h : a ++ x :: u = b ++ x :: v) (ha : x ∉ a) (hb : x ∉ b) : a = b ∧ u = v := by
  induction a generalizing b with
  | nil =>
    cases b with
    | nil =>
      rw [nil_append, nil_append, List.cons.injEq] at h
      exact ⟨rfl, h.2⟩
    | cons =>
      rw [nil_append, cons_append, List.cons.injEq] at h
      exact absurd (mem_cons.mpr (.inl h.1)) hb
  | cons y a ih =>
    cases b with
    | nil =>
      rw [nil_append, cons_append, List.cons.injEq] at h
      exact absurd (mem_cons.mpr (.inl h.1.symm)) ha
    | cons =>
      rw [cons_append, cons_append, List.cons.injEq] at h
      rw [mem_cons, not_or] at ha hb
      obtain ⟨rfl, rfl⟩ := ih h.2 ha.2 hb.2
      exact ⟨by rw [h.1], rfl⟩

theorem append_before (h : a ++ b = l ++ x :: u) (ha : x ∉ a) : ∃ q, l = a ++ q ∧ b = q ++ x :: u := by
  rw [append_eq_append_iff] at h
  rcases h with hq | ⟨q, rfl, hq⟩
  . exact hq
  cases q with
  | nil => exact ⟨[], by simp, by simpa using hq.symm⟩
  | cons =>
    rw [cons_append, List.cons.injEq] at hq
    rw [hq.1] at ha
    simp at ha

structure Steady (r : Bufio.Reader) : Prop where
  live : r.Live
  ends : r.Ends .eof
  room : r.buf.length ≤ r.size
  size : 0 < r.size

namespace Steady

variable {r : Bufio.Reader}

theorem readSlice (h : Steady r) (delim : UInt8)
    : ∃ r' p e, r.readSlice delim = some (r', p, e) ∧ Steady r' ∧ r.rest = p ++ r'.rest ∧
        (e = none ∧ (∃ q, p = q ++ [delim] ∧ delim ∉ q) ∨
          e = some .bufferFull ∧ delim ∉ p ∧ p ≠ [] ∨ e = some .eof ∧ delim ∉ p ∧ r'.rest = []) := by
  obtain ⟨r', p, e, hread, htakes, hline, hlive⟩ := Bufio.Reader.readSlice_spec r h.room delim
  obtain ⟨hends, herror⟩ := Bufio.Reader.readSlice_error hread h.room h.live h.ends
  have hsize := h.size
  refine ⟨r', p, e, hread, ⟨(hlive h.live).1, hends, htakes.room h.room, by rw [htakes.size]; exact hsize⟩, htakes.rest, ?_⟩
  cases e with
  | none => exact .inl ⟨rfl, hline rfl⟩
  | some y =>
    obtain ⟨hnot, hcause⟩ := herror y rfl
    rcases hcause with ⟨rfl, _⟩ | ⟨rfl, hend⟩
    . exact .inr (.inl ⟨rfl, hnot, ne_nil_of_length_pos (by omega)⟩)
    . exact .inr (.inr ⟨rfl, hnot, hend⟩)

end Steady

namespace Reader

variable {r : Bufio.Reader} {l u : List UInt8}

theorem readMore_line (acc : List UInt8) (h : Steady r) (hrest : r.rest = l ++ lf :: u) (hl : lf ∉ l)
    (hfuel : r.rest.length < fuel)
    : ∃ r', readMore fuel r acc = some (r', acc ++ l ++ [lf], none) ∧ Steady r' ∧ r'.rest = u := by
  induction fuel generalizing r acc l with
  | zero => omega
  | succ _ ih =>
    obtain ⟨r', p, _, hread, hsteady, htakes, hcases⟩ := h.readSlice lf
    rw [readMore, hread]
    rcases hcases with ⟨rfl, q, rfl, hq⟩ | ⟨rfl, hp, hne⟩ | ⟨rfl, hp, hend⟩
    . rw [htakes, append_assoc, singleton_append] at hrest
      obtain ⟨rfl, rfl⟩ := append_cons_inj hrest hq hl
      exact ⟨r', by simp, hsteady, rfl⟩
    . have hlen := congrArg List.length htakes
      rw [length_append] at hlen
      have hpos := length_pos_of_ne_nil hne
      rw [htakes] at hrest
      obtain ⟨_, rfl, hq⟩ := append_before hrest hp
      rw [mem_append, not_or] at hl
      obtain ⟨r'', hmore, hsteady', hu⟩ := ih (acc ++ p) hsteady hq hl.2 (by omega)
      refine ⟨r'', ?_, hsteady', hu⟩
      simpa using hmore
    . rw [hend, append_nil] at htakes
      rw [← htakes, hrest] at hp
      simp at hp

theorem readMore_end (acc : List UInt8) (h : Steady r) (hrest : r.rest = []) (fuel : Nat)
    : ∃ r', readMore (fuel + 1) r acc = some (r', acc, some .eof) ∧ Steady r' ∧ r'.rest = [] := by
  obtain ⟨r', _, _, hread, hsteady, htakes, hcases⟩ := h.readSlice lf
  rw [hrest, eq_comm, append_eq_nil_iff] at htakes
  obtain ⟨rfl, hend⟩ := htakes
  rw [readMore, hread]
  rcases hcases with ⟨rfl, _, hq, _⟩ | ⟨rfl, _⟩ | ⟨rfl, _⟩
  . simp at hq
  . contradiction
  . exact ⟨r', by simp, hsteady, hend⟩

structure At (useCRLF : Bool) (comma : ℤ) (rd : Reader) (t : List UInt8) : Prop where
  steady : Steady rd.r
  rest : rd.r.rest = ends useCRLF t
  cr : cr ∉ t
  comma : rd.comma = comma
  comment : rd.comment = 0
  lazyQuotes : rd.lazyQuotes = false
  trimLeadingSpace : rd.trimLeadingSpace = false
  fieldsPerRecord : rd.fieldsPerRecord = -1

variable {self : Reader} {useCRLF : Bool} {comma : ℤ} {t : List UInt8}

theorem At.length_le (h : self.At useCRLF comma t) : t.length ≤ self.left := by
  have hrest := congrArg List.length h.rest
  unfold Bufio.Reader.rest at hrest
  rw [length_append] at hrest
  unfold Reader.left
  rw [hrest]
  exact length_le_ends t

theorem fuel_lt (self : Reader) : self.r.rest.length < self.left + 1 := by
  unfold left Bufio.Reader.rest
  rw [length_append]
  omega

theorem chomp_line (hcr : cr ∉ l) (useCRLF : Bool) : (let line := (l ++ if useCRLF then [cr] else []) ++ [lf]
       if line.drop (line.length - 2) = [cr, lf] then line.take (line.length - 2) ++ [lf] else line) = l ++ [lf] := by
  cases useCRLF with
  | true => simp
  | false =>
    simp only [Bool.false_eq_true, if_false, append_nil]
    apply if_neg
    intro heq
    have hmem : cr ∈ l ++ [lf] := by
      apply mem_of_mem_drop
      rw [heq]
      exact mem_cons_self
    rw [mem_append, mem_singleton] at hmem
    exact hmem.elim hcr (by decide)

theorem readLine_line (h : self.At useCRLF comma (l ++ lf :: t)) (hl : lf ∉ l)
    : ∃ self', self.readLine = some (self', l ++ [lf], none) ∧ self'.At useCRLF comma t := by
  have hcr := h.cr
  rw [mem_append, mem_cons, not_or, not_or] at hcr
  have hrest := h.rest
  rw [ends_append, ends_of_not_mem hl, ends_cons_lf, ← append_assoc] at hrest
  have hnot : lf ∉ l ++ if useCRLF then [Csv.cr] else [] := by
    rw [mem_append, not_or]
    refine ⟨hl, ?_⟩
    split <;> decide
  obtain ⟨_, hmore, hsteady, hr'⟩ := readMore_line [] h.steady hrest hnot (fuel_lt self)
  have hchomp := chomp_line hcr.1 useCRLF
  rw [nil_append] at hmore
  generalize (l ++ if useCRLF then [Csv.cr] else []) ++ [lf] = raw at hmore hchomp
  unfold readLine
  simp only [hmore, Option.bind_eq_bind, Option.bind_some, reduceCtorEq, and_false, if_false, hchomp]
  refine ⟨_, rfl, ?_⟩
  exact ⟨hsteady, hr', hcr.2.2, h.comma, h.comment, h.lazyQuotes, h.trimLeadingSpace, h.fieldsPerRecord⟩

theorem readLine_end (h : self.At useCRLF comma [])
    : ∃ self', self.readLine = some (self', [], some .eof) ∧ self'.At useCRLF comma [] := by
  obtain ⟨_, hmore, hsteady, hrest⟩ := readMore_end [] h.steady h.rest self.left
  unfold readLine
  rw [hmore]
  refine ⟨_, rfl, ?_⟩
  exact ⟨hsteady, hrest, h.cr, h.comma, h.comment, h.lazyQuotes, h.trimLeadingSpace, h.fieldsPerRecord⟩

end Reader

end Csv
