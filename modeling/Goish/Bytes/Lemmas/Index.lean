import Goish.Bytes.Impl.Index
import Goish.Unicode.Utf8.Lemmas.Utf8

open List Utf8

namespace Bytes

section IndexBytes

variable {sub s : List UInt8}

theorem indexBytes_eq_none_iff (hsub : sub ≠ []) : indexBytes sub s = none ↔ ¬sub <:+: s := by
  induction s with
  | nil => simp [indexBytes, hsub]
  | cons b s ih =>
    rw [indexBytes, infix_cons_iff]
    split
    . next h => simp [h]
    . next h => simp [h, ih]

theorem indexBytes_append (hsub : sub = a :: t) (ha : a ∉ t) (hnot : ¬sub <:+: s) (u : List UInt8)
    : indexBytes sub (s ++ sub ++ u) = some s.length := by
  induction s with
  | nil =>
    rw [nil_append, hsub, cons_append, indexBytes, if_pos]
    . rfl
    rw [← cons_append]
    exact prefix_append _ _
  | cons b s ih =>
    rw [infix_cons_iff, not_or] at hnot
    rw [cons_append, cons_append, indexBytes, if_neg, ih hnot.2]
    . rfl
    intro hpre
    have hlong : b :: s <+: b :: (s ++ sub ++ u) := by
      rw [append_assoc, ← cons_append]
      exact prefix_append _ _
    rcases prefix_or_prefix_of_prefix hpre hlong with h | h
    . exact hnot.1 h
    obtain ⟨x, hx⟩ := h
    cases x with
    | nil =>
      rw [append_nil] at hx
      exact hnot.1 (hx ▸ prefix_refl _)
    | cons c x =>
      -- Behind `b :: s`, where `sub` goes on, it would begin again.
      have hagain : c :: x <+: sub ++ u := by
        rw [← hx, append_assoc, ← cons_append, prefix_append_right_inj] at hpre
        rwa [hx] at hpre
      have hca : c = a := by
        rw [hsub, cons_append, cons_prefix_cons] at hagain
        exact hagain.1
      rw [hsub, cons_append, List.cons.injEq] at hx
      apply ha
      rw [← hx.2, hca]
      simp

end IndexBytes

section IndexFunc

variable {f : ℤ → Bool}

theorem findIdx?_append_of_not (hp : ∀ b ∈ p, g b = false) (q : List UInt8)
    : (p ++ q).findIdx? g = (q.findIdx? g).map (· + p.length) := by
  rw [List.findIdx?_append, List.findIdx?_eq_none_iff.mpr hp, Option.none_or]

theorem indexByte_append (hnot : c ∉ s) (u : List UInt8) : indexByte (s ++ c :: u) c = some s.length := by
  unfold indexByte List.idxOf?
  rw [findIdx?_append_of_not, List.findIdx?_cons]
  . simp
  . intro b hb
    rw [beq_eq_false_iff_ne]
    intro heq
    exact hnot (heq ▸ hb)

theorem indexFunc_eq (hf : ∀ r, f r = true → 0 ≤ r ∧ r < 0x80) (s : List UInt8)
    : indexFunc f s = s.findIdx? fun b => f b.toNat := by
  have hbyte : ∀ b : UInt8, 0x80 ≤ b.toNat → f b.toNat = false := by
    intro _ _
    rw [← Bool.not_eq_true]
    intro htrue
    have := hf _ htrue
    omega
  have hgo : ∀ (n : Nat) (s : List UInt8), s.length ≤ n → indexFunc.go f n s = s.findIdx? fun b => f b.toNat := by
    intro n
    induction n with
    | zero =>
      intro s _
      have hnil : s = [] := eq_nil_of_length_eq_zero (by omega)
      rw [hnil]
      rfl
    | succ n ih =>
      intro s hs
      cases s with
      | nil => rfl
      | cons b s =>
        rw [indexFunc.go]
        rcases decodeRune_cases (show b :: s ≠ [] by simp) with ⟨r, hr, ⟨q, hq⟩, hdecode⟩ | ⟨hdecode, ⟨_, _, heq, hb⟩, _⟩
        . rw [hdecode]
          have hlen := congrArg List.length hq
          have hpos := length_encode_pos r
          rw [length_append] at hlen
          rcases lt_or_ge r 0x80 with hlt | hge
          . rw [encode_of_lt hlt, singleton_append, List.cons.injEq] at hq
            have hb : b.toNat = r := by
              rw [← hq.1, toNat_ofNat (by omega)]
            rw [encode_of_lt hlt, List.findIdx?_cons, hb]
            dsimp only
            split
            . rfl
            . rw [length_singleton, drop_one, tail_cons, ih s (by simpa using hs)]
          . have hfalse : f r = false := by
              rw [← Bool.not_eq_true]
              intro htrue
              have := hf _ htrue
              omega
            dsimp only
            rw [if_neg (by simp [hfalse]), ← hq, drop_left, ih q (by omega),
              findIdx?_append_of_not (fun x hx => hbyte x (le_of_mem_encode hr hge hx))]
        . rw [List.cons.injEq] at heq
          have hfalse : f runeError = false := by
            rw [← Bool.not_eq_true]
            intro htrue
            exact absurd (hf _ htrue).2 (by decide)
          rw [hdecode, List.findIdx?_cons, hbyte b (by rw [heq.1]; exact hb)]
          dsimp only
          rw [if_neg (by simp [hfalse]), drop_one, tail_cons, ih s (by simpa using hs)]
          rfl
  exact hgo s.length s le_rfl

theorem indexFunc_ascii (hs : ∀ c ∈ s, c.toNat < 0x80) : indexFunc f s = s.findIdx? fun b => f b.toNat := by
  unfold indexFunc
  induction s with
  | nil => rfl
  | cons b s ih =>
    rw [forall_mem_cons] at hs
    have hdecode : decodeRune (b :: s) = ((b.toNat : ℤ), 1) := by
      exact if_pos hs.1
    rw [length_cons, indexFunc.go, hdecode, List.findIdx?_cons]
    dsimp only
    rw [drop_one, tail_cons, ih hs.2]

end IndexFunc

section Chars

variable {chars : List UInt8}

theorem toNat_tobyte (h0 : 0 ≤ r) (h : r < 0x100) : ((tobyte r).toNat : ℤ) = r := by
  unfold tobyte UInt8.ofInt
  rw [UInt8.toNat_ofNat']
  omega

theorem containsRune_ascii (hchars : ∀ c ∈ chars, c.toNat < 0x80) (r : ℤ)
    : containsRune chars r = true ↔ ∃ c ∈ chars, r = c.toNat := by
  unfold containsRune indexRune runeSelf
  split
  . next hr =>
    have hbyte := toNat_tobyte hr.1 (by omega)
    unfold indexByte
    rw [isSome_idxOf?]
    constructor
    . intro hmem
      exact ⟨_, hmem, hbyte.symm⟩
    rintro ⟨c, hc, heq⟩
    have hsame : tobyte r = c := by
      rw [← UInt8.toNat_inj]
      omega
    rwa [hsame]
  next hr =>
  have hnone : ¬∃ c ∈ chars, r = c.toNat := by
    rintro ⟨c, hc, _⟩
    have := hchars c hc
    omega
  simp only [hnone, iff_false, Bool.not_eq_true, Option.isSome_eq_false_iff, Option.isNone_iff_eq_none]
  split
  . rw [indexFunc_ascii hchars, List.findIdx?_eq_none_iff]
    intro c hc
    have := hchars c hc
    rw [decide_eq_false_iff_not]
    omega
  split
  . rfl
  next hvalid =>
  rw [Bool.not_not_eq] at hvalid
  rw [validRune_iff] at hvalid
  have hencode := encodeRune_eq hvalid.2
  rw [Int.toNat_of_nonneg hvalid.1] at hencode
  rw [hencode, indexBytes_eq_none_iff (encode_ne_nil _)]
  intro hin
  obtain ⟨b, _, heq, _⟩ := encode_eq_cons hvalid.2
  have hmem : b ∈ encode r.toNat := by simp [heq]
  have hlow := hchars b (hin.subset hmem)
  have hhigh := le_of_mem_encode hvalid.2 (by omega) hmem
  omega

theorem indexAny_ascii (hchars : ∀ c ∈ a :: b :: chars, c.toNat < 0x80) (s : List UInt8)
    : indexAny s (a :: b :: chars) = s.findIdx? fun x => decide (x ∈ a :: b :: chars) := by
  have hf : ∀ r, containsRune (a :: b :: chars) r = true → 0 ≤ r ∧ r < 0x80 := by
    intro r hr
    obtain ⟨c, hc, _⟩ := (containsRune_ascii hchars r).mp hr
    have := hchars c hc
    omega
  have hsame : (fun x : UInt8 => containsRune (a :: b :: chars) x.toNat) = fun x => decide (x ∈ a :: b :: chars) := by
    funext x
    rw [Bool.eq_iff_iff, containsRune_ascii hchars, decide_eq_true_eq]
    constructor
    . rintro ⟨c, hc, heq⟩
      have hx : x = c := UInt8.toNat_inj.mp (by omega)
      rwa [hx]
    . intro hx
      exact ⟨x, hx, rfl⟩
  unfold indexAny
  rw [indexFunc_eq hf, hsame]

end Chars

end Bytes
