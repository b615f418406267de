import Goish.Unicode.Utf8.Impl.Runes
import Goish.Unicode.Utf8.Lemmas.Utf8

open List

namespace Utf8

def decodeAll (p : List UInt8) : List ℤ :=
  go p.length p
where
  go : Nat → List UInt8 → List ℤ
    | 0, _ | _ + 1, [] => []
    | fuel + 1, b :: p =>
      let (r, sz) := decodeRune (b :: p)
      r :: go fuel ((b :: p).drop sz)

variable {p : List UInt8} {r fuel : Nat}

theorem ne_error (r : Nat) : ((r : ℤ), (encode r).length) ≠ (runeError, 1) := by
  intro heq
  rw [Prod.mk.injEq] at heq
  obtain rfl : r = 0xFFFD := Int.ofNat_inj.mp heq.1
  cases heq.2

theorem valid_go_step (hp : p ≠ [])
    : valid.go (fuel + 1) p = if decodeRune p = (runeError, 1) then false else valid.go fuel (p.drop (decodeRune p).2) := by
  obtain ⟨b, _, rfl⟩ := exists_cons_of_ne_nil hp
  simp only [valid.go]
  split
  . next hlt =>
    have hne : ((b.toNat : ℤ), 1) ≠ (runeError, 1) := by
      unfold runeSelf at hlt
      unfold runeError
      simp
      omega
    rw [decodeRune_of_lt hlt, if_neg hne]
    rfl
  . simp only [Prod.ext_iff]

theorem runeCount_go_step (hp : p ≠ [])
    : runeCount.go (fuel + 1) p = runeCount.go fuel (p.drop (decodeRune p).2) + 1 := by
  obtain ⟨_, _, rfl⟩ := exists_cons_of_ne_nil hp
  simp only [runeCount.go]
  split
  . next hlt => rw [decodeRune_of_lt hlt]
  . rfl

theorem decodeAll_go_step (hp : p ≠ [])
    : decodeAll.go (fuel + 1) p = (decodeRune p).1 :: decodeAll.go fuel (p.drop (decodeRune p).2) := by
  obtain ⟨_, _, rfl⟩ := exists_cons_of_ne_nil hp
  rfl

theorem utf8EncodeChar_eq (h : Scalar r) : ∃ c : Char, c.toNat = r ∧ String.utf8EncodeChar c = encode r := by
  unfold Scalar at h
  have hvalid : r.isValidChar := by
    omega
  refine ⟨Char.ofNatAux r hvalid, rfl, ?_⟩
  have hval : (Char.ofNatAux r hvalid).val.toNat = r := rfl
  unfold String.utf8EncodeChar encode cont
  rw [hval]
  dsimp only
  split_ifs
  . rfl
  all_goals first | omega | simp only [List.cons.injEq, ← UInt8.toNat_inj, UInt8.toNat_ofNat', and_true]; omega

theorem loops_encode (rs : List Nat) (h : ∀ r ∈ rs, Scalar r) (hfuel : (rs.flatMap encode).length ≤ fuel)
    : valid.go fuel (rs.flatMap encode) = true ∧ runeCount.go fuel (rs.flatMap encode) = rs.length ∧
        decodeAll.go fuel (rs.flatMap encode) = rs.map Nat.cast ∧
        ∃ cs, fromUtf8.go fuel (rs.flatMap encode) = (cs, []) ∧ cs.map Char.toNat = rs := by
  induction rs generalizing fuel with
  | nil =>
    cases fuel with
    | zero | succ => exact ⟨rfl, rfl, rfl, [], rfl, rfl⟩
  | cons r rs ih =>
    rw [forall_mem_cons] at h
    rw [flatMap_cons] at hfuel ⊢
    have hlen := length_encode_pos r
    rw [length_append] at hfuel
    rcases fuel with _ | fuel
    . omega
    have hrest : (rs.flatMap encode).length ≤ fuel := by omega
    obtain ⟨hvalid, hcount, hall, cs, hchars, hcs⟩ := ih h.2 hrest
    have hne : encode r ++ rs.flatMap encode ≠ [] := by simp [encode_ne_nil]
    have hdecode := decodeRune_encode h.1 (rs.flatMap encode)
    obtain ⟨c, hc, hencode⟩ := utf8EncodeChar_eq h.1
    rw [valid_go_step hne, runeCount_go_step hne, decodeAll_go_step hne, hdecode, drop_left, hvalid, hcount, hall]
    refine ⟨if_neg ?_, rfl, rfl, c :: cs, ?_, by rw [map_cons, hc, hcs]⟩
    . exact ne_error r
    . unfold fromUtf8.go
      rw [← hencode, toByteArray_append, ByteArray.utf8DecodeChar?_utf8EncodeChar_append]
      dsimp only
      rw [← String.length_utf8EncodeChar, drop_left, hchars]

theorem text_of_valid_go (hfuel : p.length ≤ fuel) (h : valid.go fuel p = true) : Text p := by
  induction fuel generalizing p with
  | zero => exact ⟨[], by simp, length_eq_zero_iff.mp (by omega)⟩
  | succ _ ih =>
    by_cases hp : p = []
    . exact ⟨[], by simp, hp⟩
    rw [valid_go_step hp] at h
    rcases decodeRune_cases hp with ⟨r, hr, ⟨q, rfl⟩, hdecode⟩ | ⟨hdecode, _⟩
    . rw [hdecode, if_neg (ne_error r), drop_left] at h
      have hlen := length_encode_pos r
      rw [length_append] at hfuel
      obtain ⟨rs, hrs, rfl⟩ := ih (by omega) h
      exact ⟨r :: rs, forall_mem_cons.mpr ⟨hr, hrs⟩, rfl⟩
    . rw [hdecode, if_pos rfl] at h
      contradiction

theorem valid_iff : valid p = true ↔ Text p := by
  refine ⟨text_of_valid_go le_rfl, ?_⟩
  rintro ⟨ns, hns, rfl⟩
  exact (loops_encode ns hns le_rfl).1

theorem flatMap_encodeRune (rs : List Nat) (h : ∀ r ∈ rs, Scalar r)
    : (rs.map Nat.cast).flatMap encodeRune = rs.flatMap encode := by
  rw [flatMap_map]
  exact flatMap_congr fun r hr => encodeRune_eq (h r hr)

theorem exists_scalars (rs : List ℤ) (h : ∀ r ∈ rs, validRune r = true)
    : ∃ ns : List Nat, (∀ n ∈ ns, Scalar n) ∧ rs = ns.map Nat.cast := by
  refine ⟨rs.map Int.toNat, ?_, ?_⟩
  . intro n hn
    obtain ⟨r, hr, rfl⟩ := mem_map.mp hn
    exact ((validRune_iff r).mp (h r hr)).2
  . rw [map_map]
    have hid : ∀ r ∈ rs, (Nat.cast ∘ Int.toNat) r = id r := fun r hr =>
      Int.toNat_of_nonneg ((validRune_iff r).mp (h r hr)).1
    rw [map_congr_left hid, map_id]

theorem runes_encode (ns : List Nat) (h : ∀ n ∈ ns, Scalar n) : runes (ns.flatMap encode) = ns.map Nat.cast := by
  obtain ⟨_, _, _, _, hchars, hcs⟩ := loops_encode ns h le_rfl
  unfold runes runes.go fromUtf8
  rw [hchars, ← hcs, map_map]
  rfl

theorem valid_encodings (p : List UInt8)
    : (valid p = true ↔ ∃ rs : List ℤ, (∀ r ∈ rs, validRune r = true) ∧ p = rs.flatMap encodeRune) ∧
        ∀ rs : List ℤ, (∀ r ∈ rs, validRune r = true) → p = rs.flatMap encodeRune →
          decodeAll p = rs ∧ runeCount p = rs.length ∧ runes p = rs ∧ ofRunes rs = p := by
  refine ⟨⟨?_, ?_⟩, ?_⟩
  . intro h
    obtain ⟨ns, hns, rfl⟩ := valid_iff.mp h
    refine ⟨ns.map Nat.cast, ?_, (flatMap_encodeRune ns hns).symm⟩
    intro r hr
    obtain ⟨n, hn, rfl⟩ := mem_map.mp hr
    exact (validRune_iff _).mpr ⟨Int.natCast_nonneg n, hns n hn⟩
  . rintro ⟨rs, hrs, rfl⟩
    obtain ⟨ns, hns, rfl⟩ := exists_scalars rs hrs
    exact valid_iff.mpr ⟨ns, hns, flatMap_encodeRune ns hns⟩
  . intro rs hrs hp
    obtain ⟨ns, hns, rfl⟩ := exists_scalars rs hrs
    have hof : ofRunes (ns.map Nat.cast) = p := hp ▸ flatMap_eq_foldl.symm
    rw [flatMap_encodeRune ns hns] at hp
    obtain ⟨_, hcount, hall, _⟩ := loops_encode ns hns le_rfl
    subst hp
    exact ⟨hall, by rw [length_map]; exact hcount, runes_encode ns hns, hof⟩

end Utf8
