import Goish.Net.Http.Lemmas.ChunkedLoop

open List Io

namespace Http

theorem hexDigit_hexByte (hd : d < 16) : hexDigit (hexByte d) = some (UInt8.ofNat d) := by
  have hall : ∀ k : Fin 16, hexDigit (hexByte k) = some (UInt8.ofNat k) := by decide
  exact hall ⟨d, hd⟩

theorem hexByte_ne (hd : d < 16)
    : hexByte d ≠ cr ∧ hexByte d ≠ lf ∧ hexByte d ≠ ';'.toUInt8 ∧ isOWS (hexByte d) = false := by
  have hall : ∀ k : Fin 16,
      hexByte k ≠ cr ∧ hexByte k ≠ lf ∧ hexByte k ≠ ';'.toUInt8 ∧ isOWS (hexByte k) = false := by decide
  exact hall ⟨d, hd⟩

theorem formatHex_mem (hb : b ∈ formatHex n) : ∃ d, d < 16 ∧ b = hexByte d := by
  fun_induction formatHex n with
  | case1 n hlt =>
    rw [mem_singleton] at hb
    exact ⟨n, hlt, hb⟩
  | case2 n _ ih =>
    rw [mem_append, mem_singleton] at hb
    rcases hb with hmem | heq
    . exact ih hmem
    . exact ⟨n % 16, Nat.mod_lt _ (by omega), heq⟩

theorem formatHex_of_lt (hn : n < 16) : formatHex n = [hexByte n] := by
  unfold formatHex
  rw [if_pos hn]

theorem formatHex_ne_nil (n : Nat) : formatHex n ≠ [] := by
  unfold formatHex
  split
  all_goals simp

theorem formatHex_length (hn : n < 16 ^ (k + 1)) : (formatHex n).length ≤ k + 1 := by
  induction k generalizing n with
  | zero =>
    rw [formatHex_of_lt (by omega)]
    simp
  | succ k ih =>
    unfold formatHex
    split
    . simp
    . have := ih (n := n / 16) (by rw [pow_succ] at hn; omega)
      simp
      omega

theorem hexNumber_formatHex (n : Nat) : hexNumber (formatHex n) = some n := by
  unfold hexNumber
  fun_induction formatHex n with
  | case1 n hlt =>
    simp [hexDigit_hexByte hlt, UInt8.toNat_ofNat']
    omega
  | case2 n _ ih =>
    have hlt := Nat.mod_lt n (show 0 < 16 by omega)
    rw [foldlM_append, ih]
    simp [hexDigit_hexByte hlt, UInt8.toNat_ofNat']
    omega

theorem header_formatHex (hn : n < 2 ^ 64)
    : parseHexUint (removeChunkExtension (trimTrailingWhitespace (formatHex n))) = .ok n := by
  have htrim : trimTrailingWhitespace (formatHex n) = formatHex n := by
    apply rdropWhile_eq_self_iff.mpr
    intro hne
    obtain ⟨_, hd, heq⟩ := formatHex_mem (getLast_mem hne)
    rw [heq, (hexByte_ne hd).2.2.2]
    simp
  have hcut : removeChunkExtension (formatHex n) = formatHex n := by
    apply takeWhile_eq_self_iff.mpr
    intro b hb
    obtain ⟨_, hd, heq⟩ := formatHex_mem hb
    rw [heq]
    simpa using (hexByte_ne hd).2.2.1
  rw [htrim, hcut]
  apply parseHexUint_eq_ok_iff.mpr
  exact ⟨formatHex_ne_nil n, formatHex_length (k := 15) (by omega), hexNumber_formatHex n⟩

attribute [local simp] crlf

def encodeChunk (data : List UInt8) : List UInt8 :=
  if data = [] then [] else formatHex data.length ++ crlf ++ data ++ crlf

def encode (writes : List (List UInt8)) : List UInt8 :=
  writes.flatMap encodeChunk ++ '0'.toUInt8 :: crlf

theorem Wire.write_eq_none {w w' : Wire} (h : w.write p = (w', k, none)) : w'.out = w.out ++ p ∧ k = p.length := by
  unfold Wire.write at h
  split at h
  . cases h
    exact ⟨rfl, rfl⟩
  . cases h

theorem ChunkedWriter.write_out {c c' : ChunkedWriter} (h : c.write data = (c', k, none))
    : c'.wire.out = c.wire.out ++ encodeChunk data := by
  unfold write at h
  unfold encodeChunk
  split at h
  . next hzero =>
    cases h
    rw [if_pos (length_eq_zero_iff.mp hzero), append_nil]
  next hpos =>
  rw [if_neg (fun hnil => hpos (by simp [hnil]))]
  split at h
  . cases h
  next w1 k1 hheader =>
  split at h
  . cases h
  next w2 k2 hdata =>
  split at h
  . cases h
  split at h
  next w3 k3 err hend =>
  cases h
  rw [(Wire.write_eq_none hend).1, (Wire.write_eq_none hdata).1, (Wire.write_eq_none hheader).1]
  simp

theorem ChunkedWriter.write_ok {c : ChunkedWriter} (hroom : (encodeChunk data).length ≤ c.wire.room)
    : c.write data = ({ wire := { out := c.wire.out ++ encodeChunk data, room := c.wire.room - (encodeChunk data).length } },
        data.length, none) := by
  unfold write
  unfold encodeChunk at *
  split
  . next hzero =>
    simp [length_eq_zero_iff.mp hzero]
  next hpos =>
  have hne : data ≠ [] := fun hnil => hpos (by simp [hnil])
  rw [if_neg hne] at *
  simp only [length_append, crlf, length_cons, length_nil] at hroom
  unfold Wire.write
  rw [if_pos (by simp; omega)]
  dsimp only
  rw [if_pos (by simp; omega)]
  dsimp only
  rw [if_neg (by simp), if_pos (by simp; omega)]
  simp
  omega

theorem ChunkedWriter.close_out {c c' : ChunkedWriter} (h : c.close = (c', none))
    : c'.wire.out = c.wire.out ++ '0'.toUInt8 :: crlf := by
  unfold close at h
  split at h
  next w k err hend =>
  cases h
  exact (Wire.write_eq_none hend).1

theorem encode_ne_nil (writes : List (List UInt8)) : encode writes ≠ [] := by
  simp [encode]

theorem encode_filter (writes : List (List UInt8))
    : encode (writes.filter (· ≠ [])) = encode writes ∧ (writes.filter (· ≠ [])).flatten = writes.flatten := by
  induction writes with
  | nil => exact ⟨rfl, rfl⟩
  | cons w _ ih =>
    unfold encode at *
    by_cases hw : w = []
    . rw [filter_cons_of_neg (by simpa using hw), hw]
      simpa [encodeChunk] using ih
    . rw [filter_cons_of_pos (by simpa using hw)]
      simpa using ih

section Track

def Small (w : List UInt8) : Prop :=
  w.length ≤ 2 ^ 62 - 9

inductive Pending (small : Prop) (tail : List UInt8) : List UInt8 → List UInt8 → Nat → Bool → Prop where
  | boundary {writes : List (List UInt8)} (hsize : ∀ w ∈ writes, w.length < 2 ^ 63)
      (hsmall : (∀ w ∈ writes, Small w) ↔ small) : Pending small tail (encode writes ++ tail) writes.flatten 0 false
  | inside {writes : List (List UInt8)} {payload : List UInt8} (hsize : ∀ w ∈ writes, w.length < 2 ^ 63)
      (hsmall : (∀ w ∈ writes, Small w) ↔ small) (hpos : payload ≠ [])
    : Pending small tail (payload ++ (crlf ++ (encode writes ++ tail))) (payload ++ writes.flatten) payload.length false
  | ended {writes : List (List UInt8)} (hsize : ∀ w ∈ writes, w.length < 2 ^ 63)
      (hsmall : (∀ w ∈ writes, Small w) ↔ small)
    : Pending small tail (crlf ++ (encode writes ++ tail)) writes.flatten 0 true

structure Track (small : Prop) (tail data : List UInt8) (c : ChunkedReader) : Prop where
  live : c.r.Live
  room : c.r.buf.length ≤ c.r.size
  size : c.r.size = Bufio.defaultBufSize
  pending : (c.err = none ∧ Pending small tail c.r.rest data c.n c.checkEnd ∧ 0 ≤ c.excess ∧ c.excess ≤ 16 * 1024) ∨
    (c.err = some .eof ∧ c.r.rest = tail ∧ data = [] ∧ small)
  exact : c.overflowed = false

def Spoilt (small : Prop) (c : ChunkedReader) : Prop :=
  c.overflowed = true ∧ ¬ small

variable {small : Prop} {tail data out : List UInt8} {c c' : ChunkedReader} {r r' : Bufio.Reader}

theorem split_append {p q x t : List UInt8} (h : p ++ x = q ++ t) (hlen : p.length ≤ q.length)
    : ∃ q', q = p ++ q' ∧ x = q' ++ t := by
  obtain ⟨q', hq⟩ := prefix_of_prefix_length_le (prefix_append p x) (h ▸ prefix_append q t) hlen
  refine ⟨q', hq.symm, ?_⟩
  rw [← hq, append_assoc] at h
  exact append_cancel_left h

theorem readFull.go_live (hlive : r.Live) (hrest : r.rest = q ++ t) (ht : t ≠ []) (hlen : buf.length + q.length = len)
    (hfuel : q.length ≤ fuel)
    : ∃ r', ChunkedReader.readFull.go len fuel r buf = (r', buf ++ q, none) ∧ r.Takes q r' ∧ r'.Live := by
  induction fuel generalizing r buf q with
  | zero =>
    have hq : q = [] := length_eq_zero_iff.mp (by omega)
    rw [hq, append_nil]
    exact ⟨r, rfl, .refl r, hlive⟩
  | succ _ ih =>
    rw [ChunkedReader.readFull.go]
    split
    . next hlt =>
      cases hread : r.read (len - buf.length) with
      | mk _ res =>
        obtain ⟨p, e⟩ := res
        have htakes := Bufio.Reader.read_takes hread
        have hplen := Bufio.Reader.read_length hread
        obtain ⟨hp, hgets⟩ := Bufio.Reader.read_gets hread (by omega) hlive (by simp [hrest, ht])
        obtain ⟨q', hq, hrest'⟩ := split_append (htakes.rest ▸ hrest) (by omega)
        have he : e = none := hgets (by simp [hrest', ht])
        have hppos := length_pos_of_ne_nil hp
        have hqlen := congrArg List.length hq
        rw [length_append] at hqlen
        rw [he]
        dsimp only
        rw [if_neg (by omega)]
        have hmore : (buf ++ p).length + q'.length = len := by
          rw [length_append]
          omega
        obtain ⟨r', hgo, htakes', hlive'⟩ := ih (Bufio.Reader.read_live hread hlive) hrest' hmore (by omega)
        refine ⟨r', ?_, ?_, hlive'⟩
        . rw [hgo, hq, append_assoc]
        . rw [hq]
          exact htakes.trans htakes'
    . next hge =>
      have hq : q = [] := length_eq_zero_iff.mp (by omega)
      rw [hq, append_nil]
      exact ⟨r, rfl, .refl r, hlive⟩

theorem finishChunk_track (htrack : Track small tail data c) (herr : c.err = none) (h : c.finishChunk out = (c', stop))
    : Track small tail data c' ∧ (stop = true → out ≠ []) ∧ (stop = false → c'.err = none ∧ c'.checkEnd = false) := by
  unfold ChunkedReader.finishChunk at h
  split at h
  . next hend =>
    split at h
    . next hearly =>
      cases h
      exact ⟨htrack, fun _ => ne_nil_of_length_pos hearly.1, by simp⟩
    rcases htrack.pending with ⟨_, hpending, hbudget⟩ | ⟨heof, _⟩
    . rw [hend] at hpending
      generalize hrest : c.r.rest = rest at hpending
      generalize hn : c.n = n at hpending
      cases hpending with
      | @ended writes hsize hsmall =>
        obtain ⟨r, hread, htakes, hlive⟩ := readFull.go_live htrack.live hrest (by simp [encode_ne_nil])
          (show ([] : List UInt8).length + crlf.length = 2 from rfl) (Nat.le_refl 2)
        have hread : ChunkedReader.readFull c.r 2 = (r, crlf, none) := hread
        rw [hread] at h
        cases h
        refine ⟨⟨hlive, htakes.room htrack.room, htakes.size.trans htrack.size, .inl ⟨herr, ?_, hbudget⟩, htrack.exact⟩,
          by simp, fun _ => ⟨herr, rfl⟩⟩
        have hrest' : r.rest = encode writes ++ tail :=
          append_cancel_left (htakes.rest.symm.trans hrest)
        rw [hrest', hn]
        exact .boundary hsize hsmall
    . simp [herr] at heof
  . next hend =>
    cases h
    exact ⟨htrack, by simp, fun _ => ⟨herr, by simpa using hend⟩⟩

theorem eq_of_first {q q' x x' : List UInt8} (h : q ++ a :: x = q' ++ a :: x') (hq : a ∉ q)
    (hq' : a ∉ q') : q = q' := by
  have htake (l t : List UInt8) (hl : a ∉ l) : (l ++ a :: t).takeWhile (· != a) = l := by
    rw [takeWhile_append_of_pos, takeWhile_cons_of_neg (by simp), append_nil]
    intro b hb
    simpa using fun heq : b = a => hl (heq ▸ hb)
  rw [← htake q x hq, h, htake q' x' hq']

theorem readChunkLine_live (hlive : r.Live) (hroom : r.buf.length ≤ r.size) (hsize : r.size = Bufio.defaultBufSize)
    (hrest : r.rest = line ++ crlf ++ t) (hcr : cr ∉ line) (hlf : lf ∉ line) (hlen : line.length ≤ 16)
    : ∃ r', readChunkLine r = some (r', .ok line) ∧ r.Takes (line ++ crlf) r' ∧ r'.Live := by
  obtain ⟨r', p, e, hslice, htakes, hline, hgets⟩ := r.readSlice_spec hroom lf
  obtain ⟨hlive', hfound⟩ := hgets hlive
  have he : e = none := by
    apply hfound
    rw [hrest, hsize, take_append, take_of_length_le (by simp [Bufio.defaultBufSize]; omega)]
    simp
  obtain ⟨q, hp, hq⟩ := hline he
  have hqline : q = line ++ [cr] := by
    have hsame : q ++ lf :: r'.rest = (line ++ [cr]) ++ lf :: t := by
      have := htakes.rest.symm.trans hrest
      rw [hp] at this
      simpa using this
    apply eq_of_first hsame
    . exact hq
    . rw [mem_append, mem_singleton]
      exact fun h => h.elim hlf (by decide)
  have hpline : p = line ++ crlf := by
    rw [hp, hqline, append_assoc]
    rfl
  have hidx : p.idxOf? cr = some line.length := by
    rw [hpline, List.idxOf?_eq_some_iff]
    refine ⟨by simp, by simp, ?_⟩
    intro j hj
    rw [getElem_append_left hj]
    exact fun heq => hcr (heq ▸ getElem_mem hj)
  have hplen : p.length = line.length + 2 := by simp [hpline]
  refine ⟨r', ?_, hpline ▸ htakes, hlive'⟩
  unfold readChunkLine
  rw [hslice, Option.map_some, he]
  dsimp only
  rw [hidx]
  dsimp only
  rw [if_neg (by omega), hplen, Nat.add_sub_cancel, hpline, take_left,
    if_neg (by unfold maxLineLength; omega)]

theorem beginChunk_header (htrack : Track small tail data c) (hlow : 0 ≤ c.excess)
    (hhigh : c.excess ≤ 16 * 1024) (hrest : c.r.rest = formatHex n ++ crlf ++ t) (hn : n < 2 ^ 63)
    : ∃ c', c.beginChunk = some c' ∧ (c'.overflowed = true ↔ ¬ n ≤ 2 ^ 62 - 9) ∧
        (n ≤ 2 ^ 62 - 9 → c'.r.Live ∧ c'.r.buf.length ≤ c'.r.size ∧ c'.r.size = Bufio.defaultBufSize ∧ c'.r.rest = t ∧
          c'.n = n ∧ c'.checkEnd = c.checkEnd ∧ c'.err = (if n = 0 then some .eof else c.err) ∧
          0 ≤ c'.excess ∧ c'.excess ≤ 16 * 1024) := by
  have hlen : (formatHex n).length ≤ 16 := formatHex_length (k := 15) (by omega)
  have hmem (a : UInt8) (ha : ∀ d, d < 16 → hexByte d ≠ a) : a ∉ formatHex n := by
    intro hmem
    obtain ⟨d, hd, heq⟩ := formatHex_mem hmem
    exact ha d hd heq.symm
  obtain ⟨r, hread, htakes, hlive⟩ := readChunkLine_live htrack.live htrack.room htrack.size hrest
    (hmem cr fun d hd => (hexByte_ne hd).1) (hmem lf fun d hd => (hexByte_ne hd).2.1) hlen
  have hrest' : r.rest = t := append_cancel_left (htakes.rest.symm.trans hrest)
  have hroom := htakes.room htrack.room
  have hsize := htakes.size.trans htrack.size
  have hexcess : min (c.excess + ((formatHex n).length + 2)) (2 ^ 63 - 1) = c.excess + ((formatHex n).length + 2) := by
    omega
  have hover : (c.overflowed || (charge (c.excess + ((formatHex n).length + 2)) n).2) = true ↔ ¬ n ≤ 2 ^ 62 - 9 := by
    rw [htrack.exact, Bool.false_or, charge_overflow_iff (by omega) (by omega) (by omega)]
    unfold Fits
    omega
  have hbudget (hsmall : n ≤ 2 ^ 62 - 9)
      : max (charge (c.excess + ((formatHex n).length + 2)) n).1 0 ≤ 16 * 1024 := by
    rw [charge_eq hsmall (by omega) (by omega)]
    rcases Nat.eq_zero_or_pos n with _ | _
    . have : (formatHex n).length ≤ 1 := formatHex_length (k := 0) (by omega)
      omega
    . omega
  unfold ChunkedReader.beginChunk
  rw [hread, Option.map_some]
  dsimp only
  rw [hexcess, header_formatHex (by omega)]
  refine ⟨_, rfl, ?_⟩
  dsimp only
  split
  . refine ⟨hover, fun hsmall => ?_⟩
    omega
  . split
    all_goals exact ⟨hover, fun hsmall => ⟨hlive, hroom, hsize, hrest', rfl, rfl, rfl, by simp, hbudget hsmall⟩⟩

theorem encode_nil : encode [] = formatHex 0 ++ crlf := by
  rw [formatHex_of_lt (by omega)]
  rfl

theorem encode_cons (hw : w ≠ [])
    : encode (w :: writes) = formatHex w.length ++ crlf ++ (w ++ (crlf ++ encode writes)) := by
  simp [encode, encodeChunk, hw]

theorem small_filter (writes : List (List UInt8))
    : (∀ w ∈ writes.filter (· ≠ []), Small w) ↔ ∀ w ∈ writes, Small w := by
  constructor
  . intro h w hw
    by_cases hnil : w = []
    . simp [hnil, Small]
    . exact h w (mem_filter.mpr ⟨hw, by simpa using hnil⟩)
  . intro h w hw
    exact h w (mem_filter.mp hw).1

theorem finishChunk_overflowed (h : c.finishChunk out = (c', stop)) : c'.overflowed = c.overflowed := by
  unfold ChunkedReader.finishChunk at h
  repeat' split at h
  all_goals
    cases h
    rfl

theorem beginChunk_overflowed (h : c.beginChunk = some c') (hover : c.overflowed = true) : c'.overflowed = true := by
  unfold ChunkedReader.beginChunk at h
  rw [Option.map_eq_some_iff] at h
  obtain ⟨_, _, heq⟩ := h
  dsimp only at heq
  repeat' split at heq
  all_goals simp [← heq, hover]

theorem readLoop_overflowed (h : ChunkedReader.readLoop len fuel c out = some (c', out'))
    (hover : c.overflowed = true) : c'.overflowed = true := by
  induction fuel generalizing c out with
  | zero => contradiction
  | succ _ ih =>
    unfold ChunkedReader.readLoop at h
    split at h
    . cases h
      exact hover
    split at h
    . next c1 hfinish =>
      cases h
      rw [finishChunk_overflowed hfinish, hover]
    next c1 hfinish =>
    have hover1 : c1.overflowed = true := by rw [finishChunk_overflowed hfinish, hover]
    split at h
    . split at h
      . cases h
        exact hover1
      . split at h
        . contradiction
        . next c2 hbegin => exact ih h (beginChunk_overflowed hbegin hover1)
    split at h
    . cases h
      exact hover1
    . split at h
      . cases h
        exact hover1
      . exact ih h hover1

section

variable (htrack : Track small tail data c) (herr : c.err = none) (hcheck : c.checkEnd = false)
include htrack herr hcheck

theorem beginChunk_track (hn : c.n = 0) (h : c.beginChunk = some c') : Track small tail data c' ∨ Spoilt small c' := by
  rcases htrack.pending with ⟨_, hpending, hlow, hhigh⟩ | ⟨heof, _⟩
  . generalize hrest : c.r.rest = rest at hpending
    generalize hn' : c.n = n at hpending
    generalize hcheck' : c.checkEnd = checkEnd at hpending
    cases hpending with
    | inside _ _ hpos =>
      have := length_pos_of_ne_nil hpos
      omega
    | ended => simp [hcheck] at hcheck'
    | @boundary writes hsize hsmall =>
      obtain ⟨hencode, hflatten⟩ := encode_filter writes
      have hsize : ∀ w ∈ writes.filter (· ≠ []), w.length < 2 ^ 63 := fun w hw => hsize w (mem_filter.mp hw).1
      have hsmall : (∀ w ∈ writes.filter (· ≠ []), Small w) ↔ small := (small_filter writes).trans hsmall
      have hne : ∀ w ∈ writes.filter (· ≠ []), w ≠ [] := fun w hw => by simpa using (mem_filter.mp hw).2
      rw [← hflatten] at htrack ⊢
      rw [← hencode] at hrest
      generalize writes.filter (· ≠ []) = kept at *
      cases kept with
      | nil =>
        rw [encode_nil] at hrest
        obtain ⟨_, hbegin, hover, hnext⟩ := beginChunk_header htrack hlow hhigh hrest (by omega)
        cases h.symm.trans hbegin
        obtain ⟨hlive, hroom, hsize, hrest, _, _, herr1, _⟩ := hnext (by omega)
        refine .inl ⟨hlive, hroom, hsize, .inr ⟨herr1, hrest, rfl, hsmall.mp (by simp)⟩, ?_⟩
        simpa using hover
      | cons w =>
        have hwne : w ≠ [] := hne w mem_cons_self
        have hwpos := length_pos_of_ne_nil hwne
        rw [encode_cons hwne, append_assoc _ _ tail] at hrest
        obtain ⟨_, hbegin, hover, hnext⟩ := beginChunk_header htrack hlow hhigh hrest (hsize w mem_cons_self)
        cases h.symm.trans hbegin
        by_cases hw : Small w
        . obtain ⟨hlive, hroom, hbuf, hrest, hn1, hcheck1, herr1, hbudget⟩ := hnext hw
          rw [if_neg (by omega), herr] at herr1
          refine .inl ⟨hlive, hroom, hbuf, .inl ⟨herr1, ?_, hbudget⟩, ?_⟩
          . rw [hrest, hn1, hcheck1, hcheck, append_assoc, append_assoc]
            apply Pending.inside _ _ hwne
            . exact fun w hw => hsize w (mem_cons_of_mem _ hw)
            . rw [← hsmall, forall_mem_cons]
              exact (and_iff_right hw).symm
          . rw [← Bool.not_eq_true, hover]
            exact not_not_intro hw
        . refine .inr ⟨hover.mpr hw, ?_⟩
          rw [← hsmall]
          exact fun hall => hw (hall w mem_cons_self)
  . simp [herr] at heof

theorem readPayload_track (hn : c.n ≠ 0) (hlen : 0 < len) (h : c.r.read (min len c.n) = (r, p, e))
    : e = none ∧ p ≠ [] ∧ ∃ data', data = p ++ data' ∧
        Track small tail data' { c with r := r, n := c.n - p.length, checkEnd := c.checkEnd || c.n - p.length == 0 } := by
  rcases htrack.pending with ⟨_, hpending, hbudget⟩ | ⟨heof, _⟩
  . generalize hrest : c.r.rest = rest at hpending
    generalize hn' : c.n = n at *
    generalize hcheck' : c.checkEnd = checkEnd at *
    cases hpending with
    | boundary | ended => contradiction
    | @inside writes payload hsize hsmall hpos =>
      have htakes := Bufio.Reader.read_takes h
      have hplen := Bufio.Reader.read_length h
      obtain ⟨hp, hgets⟩ := Bufio.Reader.read_gets h (by omega) htrack.live (by simp [hrest, hpos])
      obtain ⟨payload', hpayload, hrest'⟩ := split_append (htakes.rest ▸ hrest) (by omega)
      have hlen' := congrArg List.length hpayload
      rw [length_append] at hlen'
      refine ⟨hgets (by simp [hrest']), hp, payload' ++ writes.flatten, by rw [hpayload, append_assoc], ?_⟩
      refine ⟨Bufio.Reader.read_live h htrack.live, htakes.room htrack.room, htakes.size.trans htrack.size,
        .inl ⟨herr, ?_, hbudget⟩, htrack.exact⟩
      rw [hrest', show payload.length - p.length = payload'.length by omega]
      cases payload' with
      | nil => exact .ended hsize hsmall
      | cons => exact .inside hsize hsmall (by simp)
  . simp [herr] at heof

end

theorem readLoop_track (htrack : Track small tail data c) (h : ChunkedReader.readLoop len fuel c out = some (c', out'))
    : Spoilt small c' ∨ ∃ p data', out' = out ++ p ∧ data = p ++ data' ∧ Track small tail data' c' ∧
        (0 < len → out' ≠ [] ∨ c'.err = some .eof) := by
  induction fuel generalizing c out data with
  | zero => contradiction
  | succ _ ih =>
    have hstay (c' : ChunkedReader) (htrack : Track small tail data c') (hlast : 0 < len → out ≠ [] ∨ c'.err = some .eof)
        : Spoilt small c' ∨ ∃ p data', out = out ++ p ∧ data = p ++ data' ∧ Track small tail data' c' ∧
            (0 < len → out ≠ [] ∨ c'.err = some .eof) :=
      .inr ⟨[], data, (append_nil out).symm, rfl, htrack, hlast⟩
    unfold ChunkedReader.readLoop at h
    split at h
    . next herr =>
      cases h
      apply hstay _ htrack
      rcases htrack.pending with ⟨hnone, _⟩ | ⟨heof, _⟩
      . simp [hnone] at herr
      . exact fun _ => .inr heof
    next herr =>
    have herr : c.err = none := by simpa using herr
    split at h
    . next c1 hfinish =>
      cases h
      obtain ⟨htrack1, hout, _⟩ := finishChunk_track htrack herr hfinish
      exact hstay _ htrack1 fun _ => .inl (hout rfl)
    next c1 hfinish =>
    obtain ⟨htrack1, _, hnext⟩ := finishChunk_track htrack herr hfinish
    obtain ⟨herr1, hcheck⟩ := hnext rfl
    split at h
    . next hzero =>
      split at h
      . next hearly =>
        cases h
        exact hstay _ htrack1 fun _ => .inl (ne_nil_of_length_pos hearly.1)
      split at h
      . contradiction
      next c2 hbegin =>
      rcases beginChunk_track htrack1 herr1 hcheck hzero hbegin with htrack2 | hspoilt
      . exact ih htrack2 h
      . exact .inl ⟨readLoop_overflowed h hspoilt.1, hspoilt.2⟩
    next hpos =>
    split at h
    . next hfull =>
      cases h
      exact hstay _ htrack1 fun hlen => .inl (ne_nil_of_length_pos (by omega))
    next hspace =>
    split at h
    . next r p e hread =>
      have := (readPayload_track htrack1 herr1 hcheck hpos (by omega) hread).1
      contradiction
    next r p hread =>
    obtain ⟨_, _, _, hdata, htrack2⟩ := readPayload_track htrack1 herr1 hcheck hpos (by omega) hread
    rcases ih htrack2 h with hspoilt | hrun
    . exact .inl hspoilt
    obtain ⟨q, data'', hout, hdata', htrack', hlast⟩ := hrun
    refine .inr ⟨p ++ q, data'', ?_, ?_, htrack', hlast⟩
    . rw [hout, append_assoc]
    . rw [hdata, hdata', append_assoc]

end Track

end Http
