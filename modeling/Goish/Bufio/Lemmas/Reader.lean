import Goish.Bufio.Impl.Reader

open List Io

namespace Io

namespace Source

inductive Reads (s : Source) (k : Nat) : Source → List UInt8 → Option Error → Prop where
  | piece (hs : s.pieces = p :: ps) (hle : p.length ≤ k) : Reads s k { s with pieces := ps } p none
  | part (hs : s.pieces = (p ++ q) :: ps) (hq : q ≠ []) (heq : p.length = k)
    : Reads s k { s with pieces := q :: ps } p none
  | last (hs : s.pieces = []) (hle : s.last.length ≤ k) : Reads s k { s with last := [] } s.last (some s.err)
  | lastPart (hs : s.pieces = []) (hl : s.last = p ++ q) (heq : p.length = k) : Reads s k { s with last := q } p none

variable {s s' : Source} {p : List UInt8} {e : Option Error}

theorem reads_of_read (h : s.read k = (s', p, e)) : s.Reads k s' p e := by
  unfold read at h
  split at h
  . next q pieces hpieces =>
    split at h
    . next hle =>
      cases h
      exact .piece hpieces hle
    next hgt =>
    cases h
    apply Reads.part
    . rw [hpieces, take_append_drop]
    . rwa [Ne, drop_eq_nil_iff]
    . simp
      omega
  . next hpieces =>
    split at h
    . next hle =>
      cases h
      exact .last hpieces hle
    . next hgt =>
      cases h
      exact .lastPart hpieces (take_append_drop ..).symm (by simp; omega)

def Live (s : Source) : Prop :=
  ∀ p ∈ s.pieces, p ≠ []

theorem read_bytes (h : s.read k = (s', p, e)) : s.bytes = p ++ s'.bytes := by
  cases reads_of_read h with
  | piece hs | part hs | last hs => simp [bytes, hs]
  | lastPart hs hl => simp [bytes, hs, hl]

theorem read_length (h : s.read k = (s', p, e)) : p.length ≤ k := by
  cases reads_of_read h with
  | piece _ hle | last _ hle => exact hle
  | part _ _ heq | lastPart _ _ heq => exact Nat.le_of_eq heq

theorem read_pieces (h : s.read k = (s', p, e)) : s'.pieces.length ≤ s.pieces.length := by
  cases reads_of_read h with
  | piece hs | part hs => simp [hs]
  | last | lastPart => exact Nat.le_refl _

theorem read_progress (h : s.read k = (s', p, none)) (hk : 0 < k) : p ≠ [] ∨ s'.pieces.length < s.pieces.length := by
  cases reads_of_read h with
  | piece hs => exact .inr (by simp [hs])
  | part _ _ heq | lastPart _ _ heq => exact .inl (ne_nil_of_length_pos (by omega))

theorem read_error (h : s.read k = (s', p, some x)) : s'.bytes = [] := by
  cases reads_of_read h with
  | last hs => simp [bytes, hs]

theorem read_live (h : s.read k = (s', p, e)) (hlive : s.Live) : s'.Live := by
  cases reads_of_read h with
  | piece hs =>
    intro q hq
    exact hlive q (by simp [hs, hq])
  | part hs hne =>
    intro q hq
    rw [mem_cons] at hq
    rcases hq with heq | hmem
    . rwa [heq]
    . exact hlive q (by simp [hs, hmem])
  | last | lastPart => exact hlive

theorem read_ne_nil (h : s.read k = (s', p, none)) (hk : 0 < k) (hlive : s.Live) : p ≠ [] := by
  cases reads_of_read h with
  | piece hs => exact hlive p (by simp [hs])
  | part _ _ heq | lastPart _ _ heq => exact ne_nil_of_length_pos (by omega)

theorem read_err (h : s.read k = (s', p, e)) : s'.err = s.err ∧ ∀ x, e = some x → x = s.err := by
  cases reads_of_read h
  all_goals simp

end Source

end Io

namespace Bufio

namespace Reader

inductive Reads (b : Reader) (want : Nat) : Reader → List UInt8 → Option Error → Prop where
  | nothing (hzero : want = 0) : Reads b want b [] none
  | failed (hor : want = 0 ∨ b.err ≠ none) (hbuf : b.buf = []) (herr : b.err = e)
    : Reads b want { b with err := none } [] e
  | direct (hpos : 0 < want) (hbuf : b.buf = []) (herr : b.err = none) (hread : b.rd.read k = (src, p, e))
      (hk : k = want ∨ p = [] ∧ k = b.size ∧ want < b.size) : Reads b want { b with rd := src } p e
  | filled (hpos : 0 < want) (hbuf : b.buf = []) (hread : b.rd.read b.size = (src, q, x)) (hq : q ≠ [])
    : Reads b want { b with buf := q.drop want, rd := src, err := x } (q.take want) none
  | buffered (hpos : 0 < want) (hbuf : b.buf ≠ []) : Reads b want { b with buf := b.buf.drop want } (b.buf.take want) none

variable {b b' b'' : Reader} {p q : List UInt8} {e : Option Error}

def rest (b : Reader) : List UInt8 :=
  b.buf ++ b.rd.bytes

structure Live (b : Reader) : Prop where
  rd : b.rd.Live
  err : b.err ≠ none → b.rd.bytes = []

structure Takes (b : Reader) (p : List UInt8) (b' : Reader) : Prop where
  rest : b.rest = p ++ b'.rest
  size : b'.size = b.size
  room : b.buf.length ≤ b.size → b'.buf.length ≤ b'.size
  pieces : b'.rd.pieces.length ≤ b.rd.pieces.length

theorem Takes.refl (b : Reader) : Takes b [] b :=
  ⟨rfl, rfl, id, Nat.le_refl _⟩

theorem Takes.trans (h : Takes b p b') (h' : Takes b' q b'') : Takes b (p ++ q) b'' where
  rest := by rw [h.rest, h'.rest, append_assoc]
  size := h'.size.trans h.size
  room hroom := h'.room (h.room hroom)
  pieces := Nat.le_trans h'.pieces h.pieces

attribute [local simp] rest

theorem takes_append {rd : Source} (h : b.rd.read (b.size - b.buf.length) = (rd, p, e)) (hroom : b.buf.length ≤ b.size)
    (x : Option Error) : Takes b [] { b with buf := b.buf ++ p, rd := rd, err := x } where
  rest := by simp [Source.read_bytes h]
  size := rfl
  room _ := by
    have hlen := Source.read_length h
    simp only [length_append]
    omega
  pieces := Source.read_pieces h

theorem fill.go_spec (tries : Nat) (b : Reader) (hroom : b.buf.length ≤ b.size)
    : Takes b [] (go tries b) ∧ b.buf <+: (go tries b).buf ∧
        (b.buf.length < (go tries b).buf.length ∨ (go tries b).err ≠ none) := by
  induction tries generalizing b with
  | zero => exact ⟨⟨rfl, rfl, id, Nat.le_refl _⟩, prefix_refl _, .inr (by simp [go])⟩
  | succ _ ih =>
    unfold go
    cases hread : b.rd.read (b.size - b.buf.length) with
    | mk rd res =>
      obtain ⟨p, err⟩ := res
      cases err with
      | some => exact ⟨takes_append hread hroom _, prefix_append _ _, .inr (by simp)⟩
      | none =>
        have htakes := takes_append hread hroom b.err
        dsimp only
        split
        . next hpos =>
          refine ⟨htakes, prefix_append _ _, .inl ?_⟩
          simp only [length_append]
          omega
        next hzero =>
        have hnil : p = [] := length_eq_zero_iff.mp (by omega)
        rw [hnil, append_nil] at htakes ⊢
        obtain ⟨hrest, hgrows, hprogress⟩ := ih { b with rd := rd } (htakes.room hroom)
        exact ⟨htakes.trans hrest, hgrows, hprogress⟩

section

variable (hroom : b.buf.length ≤ b.size)
include hroom

theorem fill_takes : Takes b [] b.fill :=
  (fill.go_spec _ b hroom).1

theorem fill_grows : b.buf <+: b.fill.buf :=
  (fill.go_spec _ b hroom).2.1

theorem fill_progress : b.buf.length < b.fill.buf.length ∨ b.fill.err ≠ none :=
  (fill.go_spec _ b hroom).2.2

end

theorem fill_live (hlive : b.Live) (herr : b.err = none) (hroom : b.buf.length < b.size) : b.fill.Live := by
  unfold fill maxConsecutiveEmptyReads fill.go
  cases hread : b.rd.read (b.size - b.buf.length) with
  | mk _ res =>
    obtain ⟨_, err⟩ := res
    dsimp only
    have hrd := Source.read_live hread hlive.rd
    cases err with
    | some => exact ⟨hrd, fun _ => Source.read_error hread⟩
    | none =>
      have hne := Source.read_ne_nil hread (by omega) hlive.rd
      rw [if_pos (length_pos_of_ne_nil hne)]
      refine ⟨hrd, ?_⟩
      intro hsome
      contradiction

theorem takes_take (b : Reader) (k : Nat) : Takes b (b.buf.take k) { b with buf := b.buf.drop k } where
  rest := by simp [← append_assoc]
  size := rfl
  room hroom := by
    simp only [length_drop]
    omega
  pieces := Nat.le_refl _

section

variable (h : b.read want = (b', p, e))
include h

theorem reads_of_read : b.Reads want b' p e := by
  unfold read at h
  split at h
  . next hzero =>
    split at h
    . cases h
      exact .nothing hzero
    . next hempty =>
      cases h
      have hbuf : b.buf = [] := length_eq_zero_iff.mp (by unfold buffered at hempty; omega)
      exact .failed (.inl hzero) hbuf rfl
  next hpos =>
  have hpos : 0 < want := by omega
  split at h
  . next hbuf =>
    split at h
    . next x herr =>
      cases h
      exact .failed (.inr (by simp [herr])) hbuf herr
    next herr =>
    split at h
    . cases hread : b.rd.read want with
      | mk rd res =>
        rw [hread] at h
        cases h
        exact .direct hpos hbuf herr hread (.inl rfl)
    next hsmall =>
    cases hread : b.rd.read b.size with
    | mk rd res =>
      obtain ⟨q, x⟩ := res
      rw [hread] at h
      dsimp only at h
      split at h
      . next hq =>
        cases h
        rw [hq] at hread
        exact .direct hpos hbuf herr hread (.inr ⟨rfl, rfl, by omega⟩)
      . next hq =>
        cases h
        exact .filled hpos hbuf hread hq
  . next hbuf =>
    cases h
    exact .buffered hpos hbuf

theorem read_takes : Takes b p b' := by
  cases reads_of_read h with
  | nothing => exact Takes.refl _
  | failed => exact ⟨rfl, rfl, id, Nat.le_refl _⟩
  | direct _ hbuf _ hread => exact ⟨by simp [hbuf, Source.read_bytes hread], rfl, id, Source.read_pieces hread⟩
  | filled _ hbuf hread =>
    have hlen := Source.read_length hread
    refine ⟨?_, rfl, ?_, Source.read_pieces hread⟩
    . simp [hbuf, Source.read_bytes hread, ← append_assoc]
    . intro _
      simp only [length_drop]
      omega
  | buffered => exact takes_take b want

theorem read_length : p.length ≤ want := by
  cases reads_of_read h with
  | nothing | failed => simp
  | direct _ _ _ hread hk =>
    have hlen := Source.read_length hread
    rcases hk with rfl | ⟨rfl, _⟩
    . exact hlen
    . simp
  | filled | buffered => exact length_take_le _ _

end

theorem take_ne_nil {l : List UInt8} (hwant : 0 < want) (hl : l ≠ []) : l.take want ≠ [] := by
  rw [Ne, take_eq_nil_iff, not_or]
  exact ⟨by omega, hl⟩

theorem read_progress (h : b.read want = (b', p, none)) (hwant : 0 < want)
    : p ≠ [] ∨ b'.rd.pieces.length < b.rd.pieces.length := by
  cases reads_of_read h with
  | nothing => omega
  | failed hor _ herr => exact absurd herr (hor.resolve_left (by omega))
  | direct _ _ _ hread => exact Source.read_progress hread (by omega)
  | filled _ _ _ hq => exact .inl (take_ne_nil hwant hq)
  | buffered _ hbuf => exact .inl (take_ne_nil hwant hbuf)

theorem read_live (h : b.read want = (b', p, e)) (hlive : b.Live) : b'.Live := by
  cases reads_of_read h with
  | nothing => exact hlive
  | failed => exact ⟨hlive.rd, fun hne => absurd rfl hne⟩
  | direct _ _ herr hread => exact ⟨Source.read_live hread hlive.rd, fun hne => absurd herr hne⟩
  | @filled _ _ x _ _ hread =>
    refine ⟨Source.read_live hread hlive.rd, ?_⟩
    intro _
    cases x with
    | none => contradiction
    | some => exact Source.read_error hread
  | buffered => exact ⟨hlive.rd, hlive.err⟩

theorem read_gets (h : b.read want = (b', p, e)) (hwant : 0 < want) (hlive : b.Live) (hrest : b.rest ≠ [])
    : p ≠ [] ∧ (b'.rest ≠ [] → e = none) := by
  cases reads_of_read h with
  | nothing => omega
  | failed hor hbuf =>
    have herr : b.err ≠ none := hor.resolve_left (by omega)
    exact absurd (by simp [hbuf, hlive.err herr]) hrest
  | @direct k _ _ _ _ hbuf _ hread =>
    have hk : 0 < k := by omega
    cases e with
    | none => exact ⟨Source.read_ne_nil hread hk hlive.rd, fun _ => rfl⟩
    | some =>
      have hend := Source.read_error hread
      have hbytes := Source.read_bytes hread
      refine ⟨?_, ?_⟩
      . intro hnil
        rw [hend, hnil] at hbytes
        exact hrest (by simp [hbuf, hbytes])
      . intro hmore
        exact absurd (by simp [hbuf, hend]) hmore
  | filled _ _ _ hq => exact ⟨take_ne_nil hwant hq, fun _ => rfl⟩
  | buffered _ hbuf => exact ⟨take_ne_nil hwant hbuf, fun _ => rfl⟩

section ReadSlice

variable {delim : UInt8}

theorem split_idxOf {l : List UInt8} (h : l.idxOf? delim = some i)
    : l.take (i + 1) = l.take i ++ [delim] ∧ delim ∉ l.take i := by
  obtain ⟨_, heq, hbefore⟩ := List.idxOf?_eq_some_iff.mp h
  constructor
  . rw [← heq, take_append_getElem]
  intro hmem
  obtain ⟨j, hj, hget⟩ := getElem_of_mem hmem
  rw [length_take] at hj
  rw [getElem_take] at hget
  exact hbefore j (by omega) hget

theorem takes_buf (b : Reader) (x : Option Error) : Takes b b.buf { b with buf := [], err := x } :=
  ⟨rfl, rfl, fun _ => Nat.zero_le _, Nat.le_refl _⟩

theorem not_mem_of_idxOf {l : List UInt8} (hnot : delim ∉ l.take s) (hidx : (l.drop s).idxOf? delim = none)
    : delim ∉ l := by
  rw [← take_append_drop s l, mem_append]
  exact fun h => h.elim hnot (List.idxOf?_eq_none_iff.mp hidx)

theorem readSlice.go_spec (hfuel : b.size - b.buf.length + (if b.err = none then 1 else 0) < fuel)
    (hroom : b.buf.length ≤ b.size) (hs : s ≤ b.buf.length) (hnot : delim ∉ b.buf.take s)
    : ∃ b' p e, go delim fuel b s = some (b', p, e) ∧ Takes b p b' ∧
        (e = none → ∃ q, p = q ++ [delim] ∧ delim ∉ q) ∧
        (b.Live → b'.Live ∧ (delim ∈ b.rest.take b.size → e = none)) := by
  induction fuel generalizing b s with
  | zero => omega
  | succ _ ih =>
    unfold go
    split
    . next i hidx =>
      obtain ⟨hline, hbefore⟩ := split_idxOf hidx
      refine ⟨_, _, _, rfl, takes_take b _, ?_, ?_⟩
      . intro _
        refine ⟨b.buf.take (i + s), ?_, ?_⟩
        . rw [Nat.add_comm i s, Nat.add_assoc, take_add, hline, take_add, append_assoc]
        . rw [Nat.add_comm i s, take_add, mem_append]
          exact fun h => h.elim hnot hbefore
      . intro hlive
        exact ⟨⟨hlive.rd, hlive.err⟩, fun _ => rfl⟩
    next hidx =>
    have hnone := not_mem_of_idxOf hnot hidx
    split
    . next x herr =>
      refine ⟨_, _, _, rfl, takes_buf b _, by simp, ?_⟩
      intro hlive
      refine ⟨⟨hlive.rd, fun hne => absurd rfl hne⟩, ?_⟩
      intro hmem
      have hend := hlive.err (by simp [herr])
      have hmem := mem_of_mem_take hmem
      rw [rest, hend, append_nil] at hmem
      contradiction
    next herr =>
    split
    . next hfull =>
      refine ⟨_, _, _, rfl, takes_buf b b.err, by simp, ?_⟩
      intro hlive
      refine ⟨⟨hlive.rd, hlive.err⟩, ?_⟩
      intro hmem
      rw [rest, take_append_of_le_length hfull] at hmem
      exact absurd (mem_of_mem_take hmem) hnone
    next hspace =>
    have htakes := fill_takes hroom
    have hgrows := fill_grows hroom
    have hprogress := fill_progress hroom
    have hsize := htakes.size
    have hroom' := htakes.room hroom
    have hlen := hgrows.length_le
    obtain ⟨b', p, e, hgo, htakes', hline, hlive'⟩ := ih (b := b.fill) (s := b.buf.length)
      (by
        rw [if_pos herr] at hfuel
        split
        . next hnone =>
          have := hprogress.resolve_right (fun h => h hnone)
          omega
        . omega)
      hroom' hlen (by
        rw [prefix_iff_eq_take.mp hgrows] at hnone
        exact hnone)
    refine ⟨b', p, e, hgo, htakes.trans htakes', hline, ?_⟩
    intro hlive
    have hrest : b.rest = b.fill.rest := htakes.rest
    rw [hrest, ← hsize]
    exact hlive' (fill_live hlive herr (by omega))

theorem readSlice_spec (b : Reader) (hroom : b.buf.length ≤ b.size) (delim : UInt8)
    : ∃ b' p e, b.readSlice delim = some (b', p, e) ∧ Takes b p b' ∧
        (e = none → ∃ q, p = q ++ [delim] ∧ delim ∉ q) ∧
        (b.Live → b'.Live ∧ (delim ∈ b.rest.take b.size → e = none)) := by
  apply readSlice.go_spec
  . split
    all_goals omega
  . exact hroom
  . omega
  . simp

structure Ends (b : Reader) (x : Error) : Prop where
  rd : b.rd.err = x
  err : ∀ y, b.err = some y → y = x

theorem fill_ends (hends : b.Ends x) (hlive : b.Live) (hroom : b.buf.length < b.size) : b.fill.Ends x := by
  unfold fill maxConsecutiveEmptyReads fill.go
  cases hread : b.rd.read (b.size - b.buf.length) with
  | mk _ res =>
    obtain ⟨_, err⟩ := res
    have herr := Source.read_err hread
    dsimp only
    cases err with
    | some y =>
      refine ⟨herr.1.trans hends.rd, ?_⟩
      intro z hz
      cases hz
      rw [herr.2 y rfl]
      exact hends.rd
    | none =>
      have hne := Source.read_ne_nil hread (by omega) hlive.rd
      rw [if_pos (length_pos_of_ne_nil hne)]
      exact ⟨herr.1.trans hends.rd, hends.err⟩

theorem readSlice.go_error (h : go delim fuel b s = some (b', p, e)) (hroom : b.buf.length ≤ b.size)
    (hnot : delim ∉ b.buf.take s) (hlive : b.Live) (hends : b.Ends x)
    : b'.Ends x ∧ (∀ y, e = some y → delim ∉ p ∧ (y = .bufferFull ∧ b.size ≤ p.length ∨ y = x ∧ b'.rest = [])) := by
  induction fuel generalizing b s with
  | zero => contradiction
  | succ _ ih =>
    unfold go at h
    split at h
    . cases h
      exact ⟨⟨hends.rd, hends.err⟩, fun y hy => by contradiction⟩
    next hidx =>
    have hnone := not_mem_of_idxOf hnot hidx
    split at h
    . next y herr =>
      cases h
      refine ⟨⟨hends.rd, fun z hz => by contradiction⟩, ?_⟩
      intro z hz
      cases hz
      have hbytes := hlive.err (by simp [herr])
      exact ⟨hnone, .inr ⟨hends.err y herr, by simp [hbytes]⟩⟩
    next herr =>
    split at h
    . next hfull =>
      cases h
      refine ⟨⟨hends.rd, hends.err⟩, ?_⟩
      intro z hz
      cases hz
      exact ⟨hnone, .inl ⟨rfl, hfull⟩⟩
    . next hspace =>
      have hgrows := fill_grows hroom
      rw [← (fill_takes hroom).size]
      apply ih h ((fill_takes hroom).room hroom)
      . rwa [← prefix_iff_eq_take.mp hgrows]
      . exact fill_live hlive herr (by omega)
      . exact fill_ends hends hlive (by omega)

theorem readSlice_error (h : b.readSlice delim = some (b', p, e)) (hroom : b.buf.length ≤ b.size) (hlive : b.Live)
    (hends : b.Ends x)
    : b'.Ends x ∧ (∀ y, e = some y → delim ∉ p ∧ (y = .bufferFull ∧ b.size ≤ p.length ∨ y = x ∧ b'.rest = [])) :=
  readSlice.go_error h hroom (by simp) hlive hends

end ReadSlice

end Reader

end Bufio
