import Goish.Net.Http.Lemmas.ChunkedWriter

/-! The chunked reader delivers the data of a body of the grammar, and it reads back what the writer has written. -/

open List Io

namespace Http

namespace ChunkedReader

def deliver (c : ChunkedReader) : List Nat → Option (ChunkedReader × List UInt8)
  | [] => some (c, [])
  | len :: lens =>
    match c.read len with
    | none => none
    | some (c, out) =>
      match c.deliver lens with
      | none => none
      | some (c, outs) => some (c, out ++ outs)

variable {stream data tail : List UInt8} {c c' : ChunkedReader}

theorem deliver_inv (hinv : c.Inv stream data) (lens : List Nat)
    : ∃ c' out, c.deliver lens = some (c', out) ∧ c'.Inv stream (data ++ out) := by
  induction lens generalizing c data with
  | nil => exact ⟨c, [], rfl, by rw [append_nil]; exact hinv⟩
  | cons len _ ih =>
    obtain ⟨_, out, hread, hinv1⟩ := read_inv hinv len
    obtain ⟨c', outs, hdeliver, hinv'⟩ := ih hinv1
    refine ⟨c', out ++ outs, ?_, ?_⟩
    . unfold deliver
      rw [hread]
      dsimp only
      rw [hdeliver]
    . rw [← append_assoc]
      exact hinv'

theorem deliver_cons (h : c.deliver (len :: lens) = some (c', out'))
    : ∃ c1 out outs, c.read len = some (c1, out) ∧ c1.deliver lens = some (c', outs) ∧ out' = out ++ outs := by
  unfold deliver at h
  split at h
  . contradiction
  next c1 out hread =>
  split at h
  . contradiction
  next c2 outs hdeliver =>
  cases h
  exact ⟨c1, out, outs, hread, hdeliver, rfl⟩

theorem deliver_overflowed (h : c.deliver lens = some (c', out')) (hover : c.overflowed = true)
    : c'.overflowed = true := by
  induction lens generalizing c out' with
  | nil =>
    cases h
    exact hover
  | cons _ _ ih =>
    obtain ⟨_, _, _, hread, hdeliver, _⟩ := deliver_cons h
    exact ih hdeliver (readLoop_overflowed hread hover)

theorem deliver_err (herr : c.err = some e) (lens : List Nat) : c.deliver lens = some (c, []) := by
  induction lens with
  | nil => rfl
  | cons len _ ih =>
    have hread : c.read len = some (c, []) := by
      unfold read fuel readLoop
      rw [if_pos (by simp [herr])]
    unfold deliver
    rw [hread]
    dsimp only
    rw [ih]
    rfl

theorem deliver_track (htrack : Track small tail data c) (h : c.deliver lens = some (c', out'))
    : Spoilt small c' ∨ ∃ data', data = out' ++ data' ∧ Track small tail data' c' ∧
        (c'.err = some .eof ∨ lens.countP (0 < ·) ≤ out'.length) := by
  induction lens generalizing c data out' with
  | nil =>
    cases h
    exact .inr ⟨data, rfl, htrack, .inr (by simp)⟩
  | cons len _ ih =>
    obtain ⟨_, _, _, hread, hdeliver, hout'⟩ := deliver_cons h
    rcases readLoop_track htrack hread with hspoilt | hrun
    . exact .inl ⟨deliver_overflowed hdeliver hspoilt.1, hspoilt.2⟩
    obtain ⟨_, _, hout, hdata, htrack1, hlast⟩ := hrun
    rw [nil_append] at hout
    rcases ih htrack1 hdeliver with hspoilt | hrest
    . exact .inl hspoilt
    obtain ⟨data', hdata1, htrack', hcount⟩ := hrest
    refine .inr ⟨data', by rw [hdata, hdata1, hout', hout, append_assoc], htrack', ?_⟩
    rw [hout', length_append, countP_cons]
    rcases hcount with heof | _
    . exact .inl heof
    by_cases hlen : 0 < len
    . rcases hlast hlen with hne | heof
      . have := length_pos_of_ne_nil hne
        simp only [hlen, decide_true, if_true]
        exact .inr (by omega)
      . rw [deliver_err heof] at hdeliver
        cases hdeliver
        exact .inl heof
    . simp only [hlen, decide_false, Bool.false_eq_true, if_false]
      exact .inr (by omega)

attribute [local simp] newChunkedReader Bufio.newReader

theorem newChunkedReader_inv (src : Source) : (newChunkedReader src).Inv src.bytes [] := by
  refine ⟨by simp, ?_, ?_, by simp⟩
  . exact ⟨[], rfl, fun _ => .boundary .nil, by simp⟩
  . simp

theorem newChunkedReader_track (hlive : src.Live)
    (hbytes : src.bytes = encode writes ++ tail) (hsize : ∀ w ∈ writes, w.length < 2 ^ 63)
    : Track (∀ w ∈ writes, Small w) tail writes.flatten (newChunkedReader src) := by
  refine ⟨⟨hlive, by simp⟩, by simp, rfl, ?_, rfl⟩
  refine .inl ⟨rfl, ?_, by simp, by simp⟩
  have hrest : (newChunkedReader src).r.rest = encode writes ++ tail := hbytes
  rw [hrest]
  exact .boundary hsize Iff.rfl

end ChunkedReader

namespace ChunkedWriter

def produce (c : ChunkedWriter) : List (List UInt8) → ChunkedWriter × Option Error
  | [] => c.close
  | data :: writes =>
    match c.write data with
    | (c, _, some e) => (c, some e)
    | (c, _, none) => c.produce writes

theorem produce_out {c c' : ChunkedWriter} (h : c.produce writes = (c', none))
    : c'.wire.out = c.wire.out ++ encode writes := by
  induction writes generalizing c with
  | nil => exact close_out h
  | cons _ _ ih =>
    unfold produce at h
    split at h
    . cases h
    next c1 k hwrite =>
    rw [ih h, write_out hwrite]
    simp [encode]

theorem produce_ok {c : ChunkedWriter} (hroom : (encode writes).length ≤ c.wire.room)
    : ∃ room, c.produce writes = ({ wire := { out := c.wire.out ++ encode writes, room := room } }, none) := by
  induction writes generalizing c with
  | nil =>
    unfold produce close Wire.write
    rw [if_pos (show ['0'.toUInt8, cr, lf].length ≤ c.wire.room from hroom)]
    exact ⟨_, rfl⟩
  | cons data writes ih =>
    have hsplit : encode (data :: writes) = encodeChunk data ++ encode writes := by simp [encode]
    rw [hsplit, length_append] at hroom
    unfold produce
    rw [write_ok (by omega), hsplit]
    rw [← append_assoc]
    exact ih (by dsimp only; omega)

end ChunkedWriter

theorem chunked_exact (src : Source) (lens : List Nat)
    : (∃ c data, (newChunkedReader src).deliver lens = some (c, data) ∧
          (c.err = some .eof → ∃ wire, src.bytes = wire ++ c.r.rest ∧ Body wire data) ∧
          (c.overflowed = true ↔ ∃ h ∈ c.charged, ¬ Fits h.1 h.2)) ∧
      (∀ (writes : List (List UInt8)) (room : Nat) (w : ChunkedWriter) (tail : List UInt8),
        (∀ p ∈ writes, p.length < 2 ^ 63) →
        ChunkedWriter.produce { wire := { out := [], room := room } } writes = (w, none) →
        src.Live → src.bytes = w.wire.out ++ tail → writes.flatten.length < lens.countP (0 < ·) →
        ∃ c data, (newChunkedReader src).deliver lens = some (c, data) ∧
          (c.overflowed = false ↔ ∀ p ∈ writes, Small p) ∧
          (c.overflowed = false → c.err = some .eof ∧ data = writes.flatten ∧ c.r.rest = tail)) := by
  constructor
  . obtain ⟨c, data, hdeliver, hinv⟩ := ChunkedReader.deliver_inv (ChunkedReader.newChunkedReader_inv src) lens
    refine ⟨c, data, hdeliver, ?_, hinv.overflow⟩
    obtain ⟨wire, hstream, _, heof⟩ := hinv.wire
    exact fun hend => ⟨wire, hstream, heof hend⟩
  intro _ _ _ _ hsize hproduce hlive hbytes _
  have hout := ChunkedWriter.produce_out hproduce
  rw [hout] at hbytes
  obtain ⟨c, data, hdeliver, _⟩ := ChunkedReader.deliver_inv (ChunkedReader.newChunkedReader_inv src) lens
  refine ⟨c, data, hdeliver, ?_⟩
  rcases ChunkedReader.deliver_track (ChunkedReader.newChunkedReader_track hlive hbytes hsize) hdeliver with hspoilt | hrun
  . have hover : ¬ c.overflowed = false := by simp [hspoilt.1]
    exact ⟨iff_of_false hover hspoilt.2, fun hexact => absurd hexact hover⟩
  obtain ⟨_, hdata, htrack, hcount⟩ := hrun
  have heof : c.err = some .eof := by
    rcases hcount with heof | _
    . exact heof
    . have := congrArg List.length hdata
      rw [length_append] at this
      omega
  rcases htrack.pending with ⟨hnone, _⟩ | ⟨_, hrest, hnil, hsmall⟩
  . simp [hnone] at heof
  . rw [hnil, append_nil] at hdata
    exact ⟨iff_of_true htrack.exact hsmall, fun _ => ⟨heof, hdata.symm, hrest⟩⟩

theorem chunked_exact_split
    : ∃ c data, (newChunkedReader ⟨["2\r\nh".toUTF8.data.toList, "i\r\n1\r\n!\r".toUTF8.data.toList],
          "\n0\r\n".toUTF8.data.toList, .eof⟩).deliver [1, 4, 1, 8] = some (c, data) ∧
        c.err = some .eof ∧ data = "hi!".toUTF8.data.toList ∧ c.r.rest = [] := by
  have hencode : encode ["hi".toUTF8.data.toList, "!".toUTF8.data.toList] =
      "2\r\nhi\r\n1\r\n!\r\n0\r\n".toUTF8.data.toList := by
    unfold encode
    rw [flatMap_cons, flatMap_cons]
    unfold encodeChunk
    rw [formatHex_of_lt (by decide), formatHex_of_lt (by decide)]
    decide
  have hroom : (encode ["hi".toUTF8.data.toList, "!".toUTF8.data.toList]).length ≤ 16 := by
    rw [hencode]
    decide
  obtain ⟨_, hproduce⟩ := ChunkedWriter.produce_ok (c := ⟨⟨[], 16⟩⟩) hroom
  rw [hencode] at hproduce
  obtain ⟨c, data, hdeliver, hexact, hend⟩ := (chunked_exact
    ⟨["2\r\nh".toUTF8.data.toList, "i\r\n1\r\n!\r".toUTF8.data.toList], "\n0\r\n".toUTF8.data.toList, .eof⟩
    [1, 4, 1, 8]).2 _ _ _ [] (by decide) hproduce (by unfold Source.Live; decide) rfl (by decide)
  exact ⟨c, data, hdeliver, hend (hexact.mpr (by unfold Small; decide))⟩

theorem chunked_overflow : ((newChunkedReader ⟨[], "4000000000000000\r\n".toUTF8.data.toList, .eof⟩).deliver [1]).map
        (fun (c, _) => c.overflowed) = some true := by
  decide +kernel

end Http
