import Goish.Net.Http.Lemmas.Chunked

open List Io

namespace Http

inductive At : List UInt8 → List UInt8 → Nat → Bool → Prop where
  | boundary (h : Chunks wire data) : At wire data 0 false
  | inside (h : Chunks wire data) (hline : SizeLine line (part.length + n)) (hpos : 0 < n)
    : At (wire ++ (line ++ crlf ++ part)) (data ++ part) n false
  | ended (h : Chunks wire data) (hline : SizeLine line part.length) (hpos : part ≠ [])
    : At (wire ++ (line ++ crlf ++ part)) (data ++ part) 0 true

variable {stream data wire line part out : List UInt8} {c c' : ChunkedReader}

theorem At.chunks (h : At wire data 0 false) : Chunks wire data := by
  cases h with
  | boundary h => exact h
  | inside => contradiction

theorem At.take (h : At wire data n false) (hn : n ≠ 0) (hp : p.length ≤ n)
    : At (wire ++ p) (data ++ p) (n - p.length) (n - p.length == 0) := by
  cases h with
  | boundary => contradiction
  | @inside wire data line _ part h hline =>
    have hlen : (part ++ p).length = part.length + p.length := length_append
    have hwire : wire ++ (line ++ crlf ++ part) ++ p = wire ++ (line ++ crlf ++ (part ++ p)) := by
      simp only [append_assoc]
    rw [hwire, append_assoc data]
    rcases Nat.eq_zero_or_pos (n - p.length) with hzero | hmore
    . rw [hzero]
      apply At.ended h
      . rwa [hlen, show p.length = n by omega]
      . apply ne_nil_of_length_pos
        omega
    . rw [beq_false_of_ne (by omega)]
      apply At.inside h _ hmore
      rwa [hlen, show part.length + p.length + (n - p.length) = part.length + n by omega]

theorem At.finish (h : At wire data n true) : At (wire ++ crlf) data n false := by
  cases h with
  | ended h hline hpos =>
    have hchunks := Chunks.chunk h hline hpos
    rw [← append_assoc] at hchunks
    exact .boundary hchunks

namespace ChunkedReader

structure Inv (stream data : List UInt8) (c : ChunkedReader) : Prop where
  room : c.r.buf.length ≤ c.r.size
  wire : ∃ wire, stream = wire ++ c.r.rest ∧ (c.err = none → At wire data c.n c.checkEnd) ∧
    (c.err = some .eof → Body wire data)
  budget : c.err = none → 0 ≤ c.excess ∧ c.excess ≤ 16 * 1024
  overflow : c.overflowed = true ↔ ∃ h ∈ c.charged, ¬ Fits h.1 h.2

def work (c : ChunkedReader) : Nat :=
  c.r.rest.length + c.r.rd.pieces.length + if c.err = none then 1 else 0

theorem work_le_of_takes (h : c.r.Takes p c'.r) (herr : c'.err ≠ none ∨ c.err = none) : c'.work ≤ c.work := by
  have hrest := congrArg List.length h.rest
  have hpieces := h.pieces
  rw [length_append] at hrest
  unfold work
  split
  . split
    . omega
    . next hold hnew => simp_all
  . omega

theorem work_lt_of_takes (h : c.r.Takes p c'.r) (herr : c.err = none)
    (hprogress : c'.err ≠ none ∨ p ≠ [] ∨ c'.r.rd.pieces.length < c.r.rd.pieces.length) : c'.work < c.work := by
  have hrest := congrArg List.length h.rest
  have hpieces := h.pieces
  rw [length_append] at hrest
  unfold work
  rw [if_pos herr]
  split
  . next hnone =>
    rcases hprogress with _ | hne | _
    . contradiction
    . have := length_pos_of_ne_nil hne
      omega
    . omega
  . omega

section Finish

variable {r r' : Bufio.Reader} {fuel len : Nat}

theorem readFull.go_spec (hfuel : len ≤ buf.length + fuel) (hle : buf.length ≤ len)
    (h : go len fuel r buf = (r', buf', e)) : ∃ p, buf' = buf ++ p ∧ r.Takes p r' ∧ (e = none → buf'.length = len) := by
  induction fuel generalizing r buf with
  | zero =>
    cases h
    exact ⟨[], by simp, .refl _, fun _ => by omega⟩
  | succ _ ih =>
    rw [go] at h
    split at h
    . next hlt =>
      split at h
      . next r1 p x hread =>
        cases h
        exact ⟨p, rfl, Bufio.Reader.read_takes hread, by simp⟩
      next r1 p hread =>
      have htakes := Bufio.Reader.read_takes hread
      have hlen := Bufio.Reader.read_length hread
      split at h
      . cases h
        exact ⟨p, rfl, htakes, by simp⟩
      . next hpos =>
        obtain ⟨q, hbuf, htakes', hfull⟩ := ih (by simp; omega) (by simp; omega) h
        exact ⟨p ++ q, by rw [hbuf, append_assoc], htakes.trans htakes', hfull⟩
    . cases h
      exact ⟨[], by simp, .refl _, fun _ => by omega⟩

theorem readFull_spec (h : readFull r len = (r', buf, e)) : r.Takes buf r' ∧ (e = none → buf.length = len) := by
  obtain ⟨_, hbuf, htakes, hfull⟩ := readFull.go_spec (by simp) (by simp) h
  rw [hbuf] at hfull ⊢
  exact ⟨htakes, hfull⟩

theorem finishChunk_inv (hinv : c.Inv stream data) (herr : c.err = none) (h : c.finishChunk out = (c', stop))
    : c'.Inv stream data ∧ c'.work ≤ c.work ∧ (stop = false → c'.err = none ∧ c'.checkEnd = false) := by
  obtain ⟨wire, hstream, hat, _⟩ := hinv.wire
  unfold finishChunk at h
  split at h
  . next hend =>
    split at h
    . cases h
      exact ⟨hinv, le_rfl, by simp⟩
    split at h
    . next r buf x hread =>
      cases h
      obtain ⟨htakes, _⟩ := readFull_spec hread
      refine ⟨⟨htakes.room hinv.room, ?_, by simp, hinv.overflow⟩, work_le_of_takes htakes (.inl (by simp)), by simp⟩
      refine ⟨wire ++ buf, by rw [hstream, htakes.rest, append_assoc], by simp, ?_⟩
      simp [atEOF]
      split
      . simp
      . simp [*]
    next r buf hread =>
    obtain ⟨htakes, _⟩ := readFull_spec hread
    split at h
    . next hbuf =>
      cases h
      refine ⟨⟨htakes.room hinv.room, ?_, hinv.budget, hinv.overflow⟩, work_le_of_takes htakes (.inr herr),
        fun _ => ⟨herr, rfl⟩⟩
      refine ⟨wire ++ buf, by rw [hstream, htakes.rest, append_assoc], ?_, by simp [herr]⟩
      intro _
      have hat := hat herr
      rw [hend] at hat
      rw [hbuf]
      exact hat.finish
    . cases h
      refine ⟨⟨htakes.room hinv.room, ?_, by simp, hinv.overflow⟩, work_le_of_takes htakes (.inl (by simp)), by simp⟩
      exact ⟨wire ++ buf, by rw [hstream, htakes.rest, append_assoc], by simp, by simp [errMalformed]⟩
  . next hend =>
    cases h
    exact ⟨hinv, le_rfl, fun _ => ⟨herr, by simpa using hend⟩⟩

end Finish

theorem beginChunk_inv (hinv : c.Inv stream data) (herr : c.err = none) (hcheck : c.checkEnd = false) (hn : c.n = 0)
    : ∃ c', c.beginChunk = some c' ∧ c'.Inv stream data ∧ c'.work < c.work := by
  obtain ⟨wire, hstream, hat, _⟩ := hinv.wire
  have hchunks : Chunks wire data := by
    have := hat herr
    rw [hn, hcheck] at this
    exact this.chunks
  obtain ⟨hlow, hhigh⟩ := hinv.budget herr
  obtain ⟨r, res, p, hread, htakes, _, hok⟩ := readChunkLine_spec c.r hinv.room
  have hstream : stream = (wire ++ p) ++ r.rest := by rw [hstream, htakes.rest, append_assoc]
  have hroom := htakes.room hinv.room
  unfold beginChunk
  rw [hread, Option.map_some]
  refine ⟨_, rfl, ?_⟩
  cases res with
  | error =>
    refine ⟨⟨hroom, ⟨_, hstream, by simp, ?_⟩, by simp, hinv.overflow⟩, work_lt_of_takes htakes herr (.inl (by simp))⟩
    intro heof
    cases heof
    contradiction
  | ok line =>
    obtain ⟨hp, hshort, hcr, hlf⟩ := hok line rfl
    have hexcess : min (c.excess + (line.length + 2)) (2 ^ 63 - 1) = c.excess + (line.length + 2) := by
      unfold maxLineLength at hshort
      omega
    have hpne : p ≠ [] := by simp [hp, crlf]
    dsimp only
    rw [hexcess]
    cases hparse : parseHexUint (removeChunkExtension (trimTrailingWhitespace line)) with
    | error =>
      refine ⟨⟨hroom, ⟨_, hstream, by simp, ?_⟩, by simp, hinv.overflow⟩, work_lt_of_takes htakes herr (.inl (by simp))⟩
      intro heof
      cases heof
      exact absurd hparse (parseHexUint_ne_eof _)
    | ok n =>
      have hline : SizeLine line n := ⟨hshort, hcr, hlf, header_size hparse⟩
      have hover : (c.overflowed || (charge (c.excess + (line.length + 2)) n).2) = true ↔
          ∃ h ∈ (c.excess + (line.length + 2), n) :: c.charged, ¬ Fits h.1 h.2 := by
        unfold maxLineLength at hshort
        rw [Bool.or_eq_true, hinv.overflow, charge_overflow_iff (parseHexUint_lt hparse) (by omega) (by omega),
          exists_mem_cons_iff, or_comm]
      dsimp only
      split
      . refine ⟨⟨hroom, ⟨_, hstream, by simp, by simp [errTooMuchOverhead]⟩, by simp, hover⟩, ?_⟩
        exact work_lt_of_takes htakes herr (.inl (by simp))
      next hbudget =>
      split
      . next hzero =>
        refine ⟨⟨hroom, ⟨_, hstream, by simp, ?_⟩, by simp, hover⟩, work_lt_of_takes htakes herr (.inl (by simp))⟩
        intro _
        rw [hzero] at hline
        exact ⟨wire, line, hchunks, hline, by rw [hp]⟩
      next hpos =>
      refine ⟨⟨hroom, ⟨_, hstream, ?_, by simp [herr]⟩, ?_, hover⟩, work_lt_of_takes htakes herr (.inr (.inl hpne))⟩
      . intro _
        have hinside := At.inside hchunks (show SizeLine line (([] : List UInt8).length + n) by simpa using hline) (by omega)
        rw [append_nil, append_nil] at hinside
        rwa [hp, hcheck]
      . intro _
        dsimp only at hbudget ⊢
        omega

theorem readLoop_inv {fuel : Nat} (hfuel : c.work < fuel) (hinv : c.Inv stream (data ++ out))
    : ∃ c' out', readLoop len fuel c out = some (c', out') ∧ c'.Inv stream (data ++ out') := by
  induction fuel generalizing c out with
  | zero => omega
  | succ _ ih =>
    unfold readLoop
    split
    . exact ⟨c, out, rfl, hinv⟩
    next herr =>
    have herr : c.err = none := by simpa using herr
    split
    . next c1 hfinish =>
      exact ⟨c1, out, rfl, (finishChunk_inv hinv herr hfinish).1⟩
    next c1 hfinish =>
    obtain ⟨hinv1, _, hnext⟩ := finishChunk_inv hinv herr hfinish
    obtain ⟨herr1, hcheck⟩ := hnext rfl
    split
    . next hzero =>
      split
      . exact ⟨c1, out, rfl, hinv1⟩
      . obtain ⟨_, hbegin, hinv2, _⟩ := beginChunk_inv hinv1 herr1 hcheck hzero
        rw [hbegin]
        exact ih (by omega) hinv2
    next hpos =>
    split
    . exact ⟨c1, out, rfl, hinv1⟩
    next hspace =>
    obtain ⟨wire, hstream, hat, _⟩ := hinv1.wire
    split
    . next r p x hread =>
      have htakes := Bufio.Reader.read_takes hread
      refine ⟨_, _, rfl, ⟨htakes.room hinv1.room, ?_, by simp, hinv1.overflow⟩⟩
      refine ⟨wire ++ p, by rw [hstream, htakes.rest, append_assoc], by simp, ?_⟩
      simp [atEOF]
      split
      . simp
      . simp [*]
    next r p hread =>
    have htakes := Bufio.Reader.read_takes hread
    have hlen := Bufio.Reader.read_length hread
    have hprogress := Bufio.Reader.read_progress hread (by omega)
    have htake := (hcheck ▸ hat herr1).take (p := p) hpos (by omega)
    apply ih
    . apply lt_of_lt_of_le (work_lt_of_takes (c := c1) htakes herr1 (.inr hprogress))
      omega
    refine ⟨htakes.room hinv1.room, ?_, hinv1.budget, hinv1.overflow⟩
    refine ⟨wire ++ p, by rw [hstream, htakes.rest, append_assoc], ?_, by simp [herr1]⟩
    intro _
    rwa [hcheck, Bool.false_or, ← append_assoc]

theorem read_inv (hinv : c.Inv stream data) (len : Nat)
    : ∃ c' out, c.read len = some (c', out) ∧ c'.Inv stream (data ++ out) := by
  apply readLoop_inv
  . unfold work fuel Bufio.Reader.rest
    rw [length_append]
    split
    all_goals omega
  . rwa [append_nil]

end ChunkedReader

end Http
