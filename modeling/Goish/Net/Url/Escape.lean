import Mathlib.Data.List.Basic
import Goish.Net.Url.Impl.Escape
import Mathlib.Data.Bool.Basic

namespace Url

open List

theorem forall_byte {p : UInt8 → Prop} (h : ∀ n < 256, p (.ofNat n)) (c : UInt8) : p c := by
  have := h c.toNat c.toNat_lt
  rwa [UInt8.ofNat_toNat] at this

theorem hex_roundtrip (c : UInt8)
    : isHex (upperHex (c >>> 4)) = true ∧ isHex (upperHex (c &&& 0xf)) = true ∧
        unHex (upperHex (c >>> 4)) <<< 4 ||| unHex (upperHex (c &&& 0xf)) = c := by
  revert c
  apply forall_byte
  decide +kernel

theorem not_mem_escapeByte (c : UInt8) : amp ∉ escapeByte .queryComponent c ∧ semicolon ∉ escapeByte .queryComponent c ∧
        equals ∉ escapeByte .queryComponent c := by
  revert c
  apply forall_byte
  decide +kernel

theorem shouldEscape_special (mode : Encoding)
    : shouldEscape percent mode = true ∧ shouldEscape space mode = true ∧ shouldEscape plus .queryComponent = true := by
  cases mode <;> decide +kernel

section Escape

theorem escape_eq (s : Bytes) (mode : Encoding) : escape s mode = s.flatMap (escapeByte mode) := by
  have hmap : ∀ f, (∀ c ∈ s, escapeByte mode c = [f c]) → s.map f = s.flatMap (escapeByte mode) := by
    intro f hf
    rw [map_eq_flatMap, flatMap_congr hf]
  unfold escape
  dsimp only
  split
  . next h =>
    rw [countP_eq_zero, countP_eq_zero] at h
    rw [← hmap id, map_id]
    intro c hc
    have hspace := h.1 c hc
    have hhex := h.2 c hc
    unfold escapeByte
    grind [shouldEscape_special mode]
  split
  . next h =>
    rw [countP_eq_zero] at h
    apply hmap
    intro c hc
    have hhex := h c hc
    unfold escapeByte
    grind
  . rfl

variable {mode : Encoding}

theorem build_cons (hc : c ≠ percent) : unescape.build mode (c :: s) =
        (if c = plus ∧ mode = .queryComponent then space else c) :: unescape.build mode s := by
  by_cases hplus : c = plus
  . subst hplus
    simp [unescape.build]
  . rw [unescape.build]
    . simp [hplus]
    . exact fun _ _ _ h _ => hc h
    . exact hplus

theorem build_eq_self (hpercent : percent ∉ s) (hplus : ¬(plus ∈ s ∧ mode = .queryComponent))
    : unescape.build mode s = s := by
  induction s with
  | nil => rfl
  | cons c s ih =>
    rw [mem_cons, not_or] at hpercent
    rw [build_cons (Ne.symm hpercent.1), ih hpercent.2 fun h => hplus ⟨mem_cons_of_mem c h.1, h.2⟩, if_neg]
    rintro ⟨rfl, h⟩
    exact hplus ⟨mem_cons_self, h⟩

variable (hhost : mode ≠ .host) (hzone : mode ≠ .zone)
include hhost hzone

theorem unescape_escapeByte (c : UInt8) (t : Bytes)
    : unescape.check mode (escapeByte mode c ++ t) = unescape.check mode t ∧
        unescape.build mode (escapeByte mode c ++ t) = c :: unescape.build mode t := by
  obtain ⟨hpercent, _, hquery⟩ := shouldEscape_special mode
  unfold escapeByte
  split
  . next h => simp [unescape.check, unescape.build, h]
  split
  . obtain ⟨h1, h2, h3⟩ := hex_roundtrip c
    simp [unescape.check, unescape.build, h1, h2, h3, hhost, hzone]
  next h =>
  have hc : c ≠ percent := by
    rintro rfl
    exact h hpercent
  rw [singleton_append, build_cons hc, if_neg]
  . refine ⟨?_, rfl⟩
    by_cases hplus : c = plus
    . subst hplus
      simp [unescape.check]
    rw [unescape.check]
    . simp [hhost, hzone]
    . exact fun _ _ _ h _ => hc h
    . exact hc
    . exact hplus
  . rintro ⟨rfl, rfl⟩
    exact h hquery

theorem unescape_escape (s : Bytes) : unescape (escape s mode) mode = .ok s := by
  have hread : unescape.check mode (escape s mode) = none ∧ unescape.build mode (escape s mode) = s := by
    rw [escape_eq]
    induction s with
    | nil => exact ⟨rfl, rfl⟩
    | cons c s ih =>
      obtain ⟨hcheck, hbuild⟩ := unescape_escapeByte hhost hzone c (s.flatMap (escapeByte mode))
      rw [flatMap_cons, hcheck, hbuild, ih.2]
      exact ⟨ih.1, rfl⟩
  unfold unescape
  split
  . next h => rw [← build_eq_self h.1 h.2, hread.2]
  . rw [hread.1, hread.2]

end Escape

def setting (p : Bytes × Bytes) : Bytes :=
  queryEscape p.1 ++ equals :: queryEscape p.2

def pairs (v : Values) (keys : List Bytes) : List (Bytes × Bytes) :=
  keys.flatMap fun key => ((v key).getD []).map (Prod.mk key)

theorem cut_eq (h : sep ∉ s) : cut s sep = (s, [], false) ∧ ∀ t, cut (s ++ sep :: t) sep = (s, t, true) := by
  have hnone : s.findIdx? (· == sep) = none := by
    rw [findIdx?_eq_none_iff]
    grind
  unfold cut
  simp [findIdx?_append, hnone, findIdx?_cons]

theorem not_mem_queryEscape (s : Bytes) : amp ∉ queryEscape s ∧ semicolon ∉ queryEscape s ∧ equals ∉ queryEscape s := by
  unfold queryEscape
  rw [escape_eq]
  simp [mem_flatMap, not_mem_escapeByte]

theorem parseSetting_setting (m : Values) (err : Option Error) (p : Bytes × Bytes)
    : amp ∉ setting p ∧ parseSetting m err (setting p) = (valuesAdd m p.1 p.2, err) := by
  obtain ⟨hamp, hsemi, heq⟩ := not_mem_queryEscape p.1
  obtain ⟨hamp', hsemi', _⟩ := not_mem_queryEscape p.2
  have hback (s) : queryUnescape (queryEscape s) = .ok s := unescape_escape (by decide) (by decide) s
  unfold parseSetting setting
  constructor
  . simp [hamp, hamp', show amp ≠ equals by decide]
  rw [if_neg, if_neg (by simp), (cut_eq heq).2]
  . simp only [hback]
  . simp [hsemi, hsemi', show semicolon ≠ equals by decide]

theorem parse_settings (p : Bytes × Bytes) (ps : List (Bytes × Bytes)) (m : Values) (err : Option Error)
    : parseQuery.go (setting p ++ ps.flatMap fun p => amp :: setting p) (m, err) =
        ((p :: ps).foldl (fun m p => valuesAdd m p.1 p.2) m, err) := by
  induction ps generalizing p m with
  | nil =>
    obtain ⟨hamp, hparse⟩ := parseSetting_setting m err p
    rw [flatMap_nil, append_nil, parseQuery.go, dif_neg (by simp [setting]), (cut_eq hamp).1, hparse, parseQuery.go]
    rfl
  | cons q ps ih =>
    obtain ⟨hamp, hparse⟩ := parseSetting_setting m err p
    rw [flatMap_cons, cons_append, parseQuery.go, dif_neg (by simp), (cut_eq hamp).2, hparse, ih]
    rfl

theorem foldl_write (ps : List (Bytes × Bytes)) (buf : Bytes)
    : (ps.foldl (fun st p => valuesEncode.write p.1 st p.2) (buf, false)).1 = buf ++ ps.flatMap fun p => amp :: setting p := by
  induction ps generalizing buf with
  | nil => simp
  | cons p ps ih =>
    rw [foldl_cons, valuesEncode.write, ih]
    simp [setting]

theorem parseQuery_valuesEncode (v : Values) (keys : List Bytes) : parseQuery (valuesEncode v keys) =
        ((pairs v keys.mergeSort).foldl (fun m p => valuesAdd m p.1 p.2) fun _ => none, none) := by
  have htext : valuesEncode v keys =
      ((pairs v keys.mergeSort).foldl (fun st p => valuesEncode.write p.1 st p.2) ([], true)).1 := by
    simp only [valuesEncode, pairs, foldl_flatMap, foldl_map]
  rw [htext, parseQuery]
  cases pairs v keys.mergeSort with
  | nil => simp [parseQuery.go]
  | cons p ps =>
    rw [foldl_cons, valuesEncode.write, foldl_write, ← parse_settings]
    simp [setting]

theorem foldl_valuesAdd (m : Values) (key : Bytes) (hvs : vs ≠ [])
    : vs.foldl (fun m value => valuesAdd m key value) m = Function.update m key (some ((m key).getD [] ++ vs)) := by
  induction vs generalizing m with
  | nil => contradiction
  | cons x vs ih =>
    cases vs with
    | nil => rfl
    | cons =>
      rw [foldl_cons, ih _ (by simp)]
      simp [valuesAdd]

theorem foldl_pairs (v m : Values) {keys : List Bytes} (hnodup : keys.Nodup)
    (hkeys : ∀ k ∈ keys, m k = none ∧ ∃ x vs, v k = some (x :: vs))
    : (pairs v keys).foldl (fun m p => valuesAdd m p.1 p.2) m = fun k => if k ∈ keys then v k else m k := by
  induction keys generalizing m with
  | nil => simp [pairs]
  | cons key keys ih =>
    rw [nodup_cons] at hnodup
    rw [forall_mem_cons] at hkeys
    obtain ⟨⟨hnone, _, _, hv⟩, hkeys⟩ := hkeys
    have hone : ((v key).getD []).foldl (fun m value => valuesAdd m key value) m = Function.update m key (v key) := by
      rw [hv, Option.getD_some, foldl_valuesAdd m key (by simp), hnone]
      rfl
    unfold pairs at ih ⊢
    rw [flatMap_cons, foldl_append, foldl_map, hone, ih _ hnodup.2]
    . funext k
      by_cases heq : k = key
      . simp [heq, hnodup.1]
      . simp [heq]
    intro k hk
    rw [Function.update_of_ne]
    . exact hkeys k hk
    . rintro rfl
      exact hnodup.1 hk

theorem escape_lossless
    : (∀ s, queryUnescape (queryEscape s) = .ok s) ∧ (∀ s, pathUnescape (pathEscape s) = .ok s) ∧
        ∀ (v : Values) (keys : List Bytes), keys.Nodup → (∀ k, k ∈ keys ↔ (v k).isSome) → (∀ k, v k ≠ some []) →
          parseQuery (valuesEncode v keys) = (v, none) := by
  refine ⟨unescape_escape (by decide) (by decide), unescape_escape (by decide) (by decide), ?_⟩
  intro v keys hnodup hkeys hne
  rw [parseQuery_valuesEncode, foldl_pairs]
  . congr
    funext k
    simp only [mem_mergeSort, hkeys]
    cases v k <;> rfl
  . exact (mergeSort_perm ..).nodup_iff.mpr hnodup
  intro k hk
  rw [mem_mergeSort, hkeys] at hk
  refine ⟨rfl, ?_⟩
  have := hne k
  rcases hv : v k with _ | _ | ⟨x, vs⟩
  all_goals simp_all

theorem escape_lossless_separators
    : parseQuery (valuesEncode (fun k => if k = [amp] then some [[semicolon], [equals]] else none) [[amp]]) =
        (fun k => if k = [amp] then some [[semicolon], [equals]] else none, none) := by
  apply escape_lossless.2.2
  . simp
  . intro k
    split <;> simp [*]
  . intro k
    split <;> simp

end Url
