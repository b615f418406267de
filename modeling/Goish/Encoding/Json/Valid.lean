import Goish.Encoding.Json.Lemmas.Run

/-! `valid` takes the texts whose strings may hold any byte and whose numbers `strconv::ParseFloat` accepts. -/

open List JsonText Option

namespace Json

variable {data rest : List UInt8} {round : Round}

theorem Key.length_lt (h : Key s d r) : r.length < d.length := by
  obtain ⟨_, _, _, _, _, _, _, rfl⟩ := h
  simp only [length_append, length_cons]
  omega

theorem Begins.length_lt (h : Begins depth data round rest) : rest.length < data.length := by
  cases h with
  | scalar h | empty _ h => exact (h 0).length_lt
  | arr _ _ h =>
    rw [h, length_cons, length_append]
    omega
  | obj _ h hkey =>
    have := hkey.length_lt
    rw [h, length_cons]
    omega

theorem Attaches.length_lt (h : Attaches data frame round rest) : rest.length < data.length := by
  cases h with
  | comma _ h =>
    rw [h, length_cons, length_append]
    omega
  | bracket h | brace h =>
    rw [h, length_cons]
    omega
  | member h hkey =>
    have := hkey.length_lt
    rw [h, length_cons]
    omega

theorem length_skipWs_le (data : List UInt8) : (skipWs data).length ≤ data.length := by
  obtain ⟨_, _, hdata⟩ := exists_skipWs data
  have := congrArg List.length hdata
  rw [length_append] at this
  omega

theorem run_ne_none (hfuel : data.length < fuel) : run fuel stack mode data ≠ none := by
  induction fuel generalizing stack mode data with
  | zero => contradiction
  | succ _ ih =>
    have hle := length_skipWs_le data
    cases mode with
    | none =>
      rw [run]
      split
      . simp
      all_goals
        next hbegin =>
          have := (beginValue_sound hbegin).length_lt
          apply ih
          omega
    | some =>
      cases stack with
      | nil => simp [run]
      | cons =>
        rw [run]
        split
        . simp
        all_goals
          next hattach =>
            have := (attach_sound hattach).length_lt
            apply ih
            omega

theorem exists_parseToValue (data : List UInt8) : ∃ res, parseToValue data = some res := by
  unfold parseToValue parseValue
  obtain ⟨res, hres⟩ := Option.ne_none_iff_exists'.mp
    (run_ne_none (Nat.lt_add_of_pos_right (Nat.two_pos)) : run _ [] none (skipWs data) ≠ none)
  rw [hres]
  dsimp only [bind, Option.bind]
  cases res with
  | error => exact ⟨_, rfl⟩
  | ok =>
    dsimp only
    split
    all_goals exact ⟨_, rfl⟩

theorem parseToValue_eq_ok (h : parseToValue data = some (.ok v))
    : ∃ r, run ((skipWs data).length + 2) [] none (skipWs data) = some (.ok (v, r)) ∧ skipWs r = [] := by
  obtain ⟨_, hres, h1⟩ := bind_eq_some_iff.mp h
  split at h1
  . cases h1
  next v' r =>
  split at h1
  . next hr =>
    cases h1
    exact ⟨r, hres, hr⟩
  . cases h1

theorem skipWs_eq_nil_iff (r : List UInt8) : skipWs r = [] ↔ Space r := by
  constructor
  . intro h
    obtain ⟨_, _, hr⟩ := exists_skipWs r
    rw [h, append_nil] at hr
    rwa [hr]
  . intro h
    have := skipWs_append h []
    rwa [append_nil] at this

theorem parseToValue_sound (h : parseToValue data = some (.ok v))
    : ∃ ts, Text Any maxNestingDepth data ts ∧ AllAccepted ts := by
  obtain ⟨r, hrun, hr⟩ := parseToValue_eq_ok h
  obtain ⟨w, d, ts, r', hw, hd, hread⟩ := (run_sound _).1 hrun (Nat.zero_add _)
  obtain ⟨fuel', _, _, hgoes⟩ := hread.goes
  obtain ⟨w0, hw0, hdata⟩ := exists_skipWs data
  have hr' : r' = r := by
    rcases fuel' with _ | _
    . contradiction
    cases hgoes
    rfl
  rw [hr'] at hread
  refine ⟨ts, ⟨w0 ++ w, d, r, hw0.append hw, (skipWs_eq_nil_iff r).mp hr, ?_, hread.reads⟩, hread.accepted⟩
  rw [append_assoc, ← hd, ← hdata]

theorem Yields.parseToValue (h : Yields maxNestingDepth d v r) (hd : Reads raw n .value d ts r) (hw : Space w)
    (hr : Space r) : parseToValue (w ++ d) = some (.ok v) := by
  obtain ⟨k, _, hrun⟩ := h [] (Nat.zero_add _).le
  have hfuel : d.length + 2 = d.length + 1 - k + 1 + k := by omega
  have hvalue : parseValue d = some (.ok (v, r)) := by
    unfold parseValue
    rw [hfuel, hrun, run]
  unfold Json.parseToValue
  rw [skipWs_append hw, skipWs_value hd, hvalue]
  dsimp only [bind, Option.bind]
  rw [(skipWs_eq_nil_iff r).mpr hr]

theorem parseToValue_complete (h : Text Any maxNestingDepth data ts) (hok : AllAccepted ts)
    : ∃ v, parseToValue data = some (.ok v) := by
  obtain ⟨_, _, _, hw, hw', rfl, hd⟩ := h
  obtain ⟨v, hv⟩ := run_complete hd hok (.space hw')
  exact ⟨v, hv.parseToValue hd hw hw'⟩

theorem valid_eq_true_iff (data : List UInt8)
    : valid data = some true ↔ ∃ ts, Text Any maxNestingDepth data ts ∧ AllAccepted ts := by
  unfold valid
  constructor
  . intro h
    obtain ⟨res, hres, h1⟩ := bind_eq_some_iff.mp h
    cases res with
    | error => cases h1
    | ok => exact parseToValue_sound hres
  . rintro ⟨_, h, hok⟩
    obtain ⟨_, hv⟩ := parseToValue_complete h hok
    rw [hv]
    rfl

theorem exists_valid (data : List UInt8) : ∃ b, valid data = some b := by
  obtain ⟨res, hres⟩ := exists_parseToValue data
  unfold valid
  rw [hres]
  cases res with
  | error | ok => exact ⟨_, rfl⟩

theorem valid_exact (data : List UInt8)
    : ∃ b, valid data = some b ∧ ((b = true ↔ ∃ ts, Text Graphic maxNestingDepth data ts) ↔
        ∀ ts, Text Any maxNestingDepth data ts →
          ((∃ s, .string s ∈ ts ∧ ∃ c ∈ s, ¬Graphic c) ↔ ∃ lit, .number lit ∈ ts ∧ ¬Accepted lit)) := by
  obtain ⟨b, hb⟩ := exists_valid data
  have htrue := valid_eq_true_iff data
  rw [hb, some.injEq] at htrue
  refine ⟨b, hb, ?_⟩
  rw [htrue]
  by_cases hread : ∃ ts, Text Any maxNestingDepth data ts
  . obtain ⟨ts, hts⟩ := hread
    -- The input has one list of tokens, so that both sides are about that list.
    have hone (p : List Token → Prop) : (∃ ts, Text Any maxNestingDepth data ts ∧ p ts) ↔ p ts := by
      constructor
      . rintro ⟨_, hts', _⟩
        rwa [hts.unique hts']
      . exact fun hp => ⟨ts, hts, hp⟩
    have hall (p : List Token → Prop) : (∀ ts, Text Any maxNestingDepth data ts → p ts) ↔ p ts := by
      constructor
      . exact fun hp => hp ts hts
      . intro _ _ hts'
        rwa [← hts.unique hts']
    rw [exists_congr fun _ => text_graphic_iff, hone, hone, hall]
    constructor
    . intro h
      rw [← not_iff_not]
      push Not
      exact h.symm
    . intro h
      rw [← not_iff_not] at h
      push Not at h
      exact h.symm
  . have hnone : ¬∃ ts, Text Graphic maxNestingDepth data ts := fun ⟨ts, h⟩ => hread ⟨ts, (text_graphic_iff.mp h).1⟩
    have hnone' : ¬∃ ts, Text Any maxNestingDepth data ts ∧ AllAccepted ts := fun ⟨ts, h⟩ => hread ⟨ts, h.1⟩
    simp only [hnone, hnone', true_iff]
    exact fun ts hts => absurd ⟨ts, hts⟩ hread

theorem valid_control
    : (valid [0x22, 0x01, 0x22] = some true ∧ ¬∃ ts, Text Graphic maxNestingDepth [0x22, 0x01, 0x22] ts) ∧
      valid [0x31, 0x65, 0x34, 0x30, 0x30] = some false ∧
        ∃ ts, Text Graphic maxNestingDepth [0x31, 0x65, 0x34, 0x30, 0x30] ts := by
  refine ⟨⟨by decide +kernel, ?_⟩, by decide +kernel, ?_⟩
  . rintro ⟨_, h⟩
    have hstring : Text Any maxNestingDepth [0x22, 0x01, 0x22] [.string [0x01]] :=
      ⟨[], _, [], by decide, by decide, rfl, .string (.byte (by decide) (by decide) trivial .nil)⟩
    obtain ⟨hany, hgraphic⟩ := text_graphic_iff.mp h
    have hone := hgraphic [0x01]
    rw [hany.unique hstring] at hone
    exact absurd (hone mem_cons_self 0x01 mem_cons_self) (by decide)
  have hnumber : Number [0x31, 0x65, 0x34, 0x30, 0x30] := by
    refine ⟨[], [0x31], [], [0x65, 0x34, 0x30, 0x30], rfl, .inl rfl, .inr ⟨?_, by decide, by decide⟩, .inl rfl, .inr ?_⟩
    . unfold Digits
      decide +kernel
    . refine ⟨0x65, [], [0x34, 0x30, 0x30], rfl, .inl rfl, .inl rfl, ?_, by decide⟩
      unfold Digits
      decide +kernel
  exact ⟨_, [], _, [], by decide, by decide, rfl, .number hnumber⟩

end Json
