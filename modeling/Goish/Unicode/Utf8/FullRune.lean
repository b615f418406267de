import Goish.Unicode.Utf8.Lemmas.Utf8

/-! More input behind a full rune does not change it, but for the short sequences that no input can complete. -/

open List

namespace Utf8

def Settled (p : List UInt8) : Prop :=
  ∀ q, decodeRune (p ++ q) = decodeRune p

def Doomed (p : List UInt8) : Prop :=
  (∃ b0 t n, p = b0 :: t ∧ seqLen b0 = some n ∧ p.length < n) ∧ ∀ r, Scalar r → ¬p <+: encode r

theorem settled_of_fullRune (h : fullRune p = true) : Settled p := by
  intro q
  rcases p with _ | ⟨_, t⟩
  . contradiction
  unfold fullRune at h
  rw [cons_append]
  unfold decodeRune
  dsimp only at h ⊢
  split
  . rfl
  rw [if_neg ‹_›] at h
  split
  . rfl
  next n hlen =>
  rw [hlen] at h
  have hn : n ≤ t.length + 1 := by simpa using h
  have htake : (t ++ q).take (n - 1) = t.take (n - 1) := take_append_of_le_length (by omega)
  rw [htake, length_append, if_neg (by omega), if_neg (by omega)]

theorem settled_iff (hlen : seqLen b0 = some n) (hshort : (b0 :: t).length < n)
    : Settled (b0 :: t) ↔ ∀ r, Scalar r → ¬b0 :: t <+: encode r := by
  have hlead := (seqLen_eq_some_iff b0).mp hlen
  have hbegins {q r} (hr : Scalar r) (hpre : encode r <+: b0 :: t ++ q) : (encode r).length = n ∧ 0x80 ≤ r := by
    obtain ⟨hseq, hge⟩ := seqLen_of_begins hr (by omega) hpre
    exact ⟨Option.some.inj (hseq.symm.trans hlen), hge⟩
  have hself : decodeRune (b0 :: t) = (runeError, 1) := by
    rcases decodeRune_cases (cons_ne_nil b0 t) with ⟨r, hr, hpre, _⟩ | ⟨hdecode, _⟩
    . have hle := hpre.length_le
      rw [(hbegins (q := []) hr (by simpa using hpre)).1] at hle
      omega
    . exact hdecode
  constructor
  . rintro h r hr ⟨q, hq⟩
    have hdecode := decodeRune_encode hr []
    rw [append_nil, ← hq, h q, hself] at hdecode
    have hlong := one_lt_length_encode (hbegins hr ⟨[], (append_nil _).trans hq.symm⟩).2
    rw [← hq] at hlong
    exact absurd (congrArg Prod.snd hdecode) hlong.ne
  . intro h q
    rw [hself]
    rcases decodeRune_cases (cons_ne_nil b0 (t ++ q)) with ⟨r, hr, hpre, _⟩ | ⟨hdecode, _⟩
    . have hle := (hbegins hr hpre).1
      exact absurd (prefix_of_prefix_length_le (prefix_append (b0 :: t) q) hpre (by omega)) (h r hr)
    . exact hdecode

theorem fullRune_eq_false_iff (b0 : UInt8) (t : List UInt8)
    : fullRune (b0 :: t) = false ↔ ∃ n, seqLen b0 = some n ∧ (b0 :: t).length < n := by
  unfold fullRune runeSelf
  dsimp only
  split
  . next hlt =>
    simp only [seqLen_eq_some_iff]
    simp
    omega
  . split
    . next hnone => simp [hnone]
    . next n hsome => simp [hsome]

theorem fullRune_settled (p : List UInt8) (hp : p ≠ []) : (fullRune p = true ↔ Settled p) ↔ ¬Doomed p := by
  obtain ⟨b0, t, rfl⟩ := exists_cons_of_ne_nil hp
  cases hfull : fullRune (b0 :: t) with
  | false =>
    obtain ⟨n, hlen, hn⟩ := (fullRune_eq_false_iff b0 t).mp hfull
    have hsettled := settled_iff hlen hn
    have hdoomed : Doomed (b0 :: t) ↔ Settled (b0 :: t) := by
      rw [hsettled]
      exact and_iff_right ⟨b0, t, n, rfl, hlen, hn⟩
    simp [hdoomed]
  | true =>
    refine iff_of_true (iff_of_true rfl (settled_of_fullRune hfull)) ?_
    rintro ⟨⟨b, s, n, heq, hlen, hn⟩, _⟩
    cases heq
    exact absurd ((fullRune_eq_false_iff b0 t).mpr ⟨n, hlen, hn⟩) (by simp [hfull])

theorem fullRune_settled_two : fullRune [0xE2, 0x82] = true ↔ Settled [0xE2, 0x82] := by
  refine (fullRune_settled [0xE2, 0x82] (by decide)).mpr ?_
  rintro ⟨-, hnone⟩
  exact hnone 0x20AC (by decide) (by decide)

theorem fullRune_overlong : ¬(fullRune [0xC0] = true ↔ Settled [0xC0]) := by
  have hlead {n : Nat} (hn : n < 256) (h : 0xC0 = UInt8.ofNat n) : n = 0xC0 := by
    rw [← UInt8.toNat_inj, toNat_ofNat hn] at h
    exact h.symm
  have hsettled : Settled [0xC0] := by
    rw [settled_iff (n := 2) (by decide) (by decide)]
    intro r hr hpre
    unfold Scalar at hr
    unfold encode at hpre
    split_ifs at hpre
    all_goals
      have := hlead (by omega) (cons_prefix_cons.mp hpre).1
      omega
  exact fun h => absurd (h.mpr hsettled) (by decide)

end Utf8
