import Goish.Encoding.Json.Lemmas.Render
import Goish.Encoding.Json.Valid

open List Utf8 JsonText Strconv

namespace Json

variable {cfg : Option IndentCfg} {r : List UInt8}

structure Restored (v : Value) : Prop where
  ordered : v.Ordered
  strings : ∀ s ∈ v.strings, Utf8.Text s
  numbers : ∀ x ∈ v.numbers, Binary64.isFinite x = true ∧ parseFloat (appendFloat x) = (x, none)

theorem Restored.item (h : Restored (.array items)) (hv : v ∈ items) : Restored v :=
  ⟨Value.ordered_array h.ordered hv, fun s hs => h.strings s (Value.strings_array hv hs),
    fun x hx => h.numbers x (Value.numbers_array hv hx)⟩

theorem Restored.entry (h : Restored (.object m)) (he : e ∈ m) : Restored e.2 :=
  ⟨Value.ordered_object h.ordered he, fun s hs => h.strings s (Value.strings_object he hs),
    fun x hx => h.numbers x (Value.numbers_object he hx)⟩

theorem setEntry_append {m : List (List UInt8 × α)} (h : ∀ e ∈ m, e.1 < k) (v : α) : setEntry k v m = m ++ [(k, v)] := by
  induction m with
  | nil => rfl
  | cons e m ih =>
    have hlt := h e mem_cons_self
    have hne : k ≠ e.1 := by
      rintro rfl
      exact List.lt_irrefl _ hlt
    unfold setEntry
    rw [if_neg hne, if_neg (List.lt_asymm hlt), ih fun e' he' => h e' (List.mem_cons_of_mem e he')]
    rfl

theorem sortEntries_of_pairwise {m : List (List UInt8 × α)} (h : m.Pairwise fun a b => a.1 < b.1) : sortEntries m = m := by
  apply List.Pairwise.insertionSort_eq
  exact h.imp fun hlt => List.lt_asymm hlt

theorem foldl_setEntry {done m : List (List UInt8 × α)} (h : (done ++ m).Pairwise fun a b => a.1 < b.1)
    : m.foldl (fun m e => setEntry e.1 e.2 m) done = done ++ m := by
  induction m generalizing done with
  | nil => exact (append_nil _).symm
  | cons e m ih =>
    have hlast := (pairwise_append.mp h).2.2
    rw [foldl_cons, setEntry_append fun e' he' => hlast e' he' e mem_cons_self]
    rw [ih, append_assoc, singleton_append]
    rwa [append_assoc, singleton_append]

def Parses (n : Nat) (x : Nat → List UInt8) (v : Value) : Prop :=
  ∀ d r, Stop r → Yields n (x d ++ r) v r

theorem yields_elements (hcfg : BlankLayout cfg) (hv : Parses n (render cfg v) v)
    (h : ∀ v' ∈ items, Parses n (render cfg v') v') (d : Nat) (r : List UInt8)
    : YieldsItems n (elementsText cfg d false ((v :: items).map (render cfg)) ++ r) (v :: items) r := by
  induction items generalizing v with
  | nil =>
    have hvalue := hv (d + 1) (layout cfg d ++ 0x5D :: r) (.append (space_layout hcfg d) (by decide))
    simpa [elementsText] using hvalue.lastItem (space_layout hcfg (d + 1)) (space_layout hcfg d)
  | cons v' items ih =>
    have hrest := ih (h v' mem_cons_self) fun z hz => h z (mem_cons_of_mem v' hz)
    have hvalue := hv (d + 1) (0x2C :: (elementsText cfg d false ((v' :: items).map (render cfg)) ++ r))
      (.append (w := []) (by decide) (by decide))
    rw [map_cons, map_cons, elementsText, elementsText_true]
    simpa using hvalue.item (space_layout hcfg (d + 1)) (by decide : Space []) hrest

theorem readObjectKey_encodeString (hcfg : BlankLayout cfg) (hk : Utf8.Text k) (d : Nat) (r : List UInt8)
    : readObjectKey (layout cfg d ++ (encodeString k ++ (colon cfg ++ r))) = .ok (k, skipWs r) := by
  obtain ⟨_, hw, hcolon⟩ := colon_eq cfg
  obtain ⟨_, _, hquote⟩ := exists_encodeString k
  have hparse := parseStringBytes_encodeString hk (colon cfg ++ r)
  rw [hquote, hcolon, cons_append] at hparse ⊢
  exact readObjectKey_append (space_layout hcfg d) (by decide : Space []) hw hparse

theorem yields_members (hcfg : BlankLayout cfg) (he : Parses n (render cfg e.2) e.2)
    (h : ∀ e' ∈ m, Parses n (render cfg e'.2) e'.2) (hkeys : ∀ e' ∈ e :: m, Utf8.Text e'.1) (d : Nat) (r : List UInt8)
    : YieldsEntries n (membersText cfg d false ((e :: m).map (renderEntry cfg)) ++ r) (e :: m) r := by
  have hlen (x r : List UInt8) : r.length ≤ (layout cfg (d + 1) ++ (x ++ (colon cfg ++ r))).length := by
    simp only [length_append]
    omega
  induction m generalizing e with
  | nil =>
    have hvalue := he (d + 1) (layout cfg d ++ 0x7D :: r) (.append (space_layout hcfg d) (by decide))
    have hread := readObjectKey_encodeString hcfg (hkeys e mem_cons_self) (d + 1)
    simpa [membersText, renderEntry] using hvalue.lastEntry (hread _) (hlen ..) (space_layout hcfg d)
  | cons e' m ih =>
    have hrest := ih (h e' mem_cons_self) (fun z hz => h z (mem_cons_of_mem e' hz)) fun z hz => hkeys z (mem_cons_of_mem e hz)
    have hvalue := he (d + 1) (0x2C :: (membersText cfg d false ((e' :: m).map (renderEntry cfg)) ++ r))
      (.append (w := []) (by decide) (by decide))
    have hread := readObjectKey_encodeString hcfg (hkeys e mem_cons_self) (d + 1)
    rw [map_cons, map_cons, membersText, membersText_true]
    simpa [renderEntry] using hvalue.entry (hread _) (hlen ..) (by decide : Space []) hrest

theorem encodeNumber_of_isFinite (h : Binary64.isFinite x = true) : encodeNumber x = appendFloat x := by
  unfold encodeNumber
  unfold Binary64.isFinite at h
  rw [if_neg]
  unfold Binary64.isNaN Binary64.isInfinite
  grind

theorem parses_render (hcfg : BlankLayout cfg) (v : Value) (h : Restored v) (hn : v.nesting ≤ n)
    : Parses n (render cfg v) v := by
  induction v using Value.induct generalizing n with
  | null => exact fun _ r _ => .of_begin fun depth _ => beginValue_null depth r
  | bool b =>
    cases b
    . exact fun _ r _ => .of_begin fun depth _ => beginValue_false depth r
    . exact fun _ r _ => .of_begin fun depth _ => beginValue_true depth r
  | number x =>
    obtain ⟨hfinite, hparse⟩ := h.numbers x mem_cons_self
    intro _ r hr
    apply Yields.of_begin
    intro depth _
    have hnumber := beginValue_number depth (number_appendFloat hfinite) hr (by unfold Accepted; rw [hparse])
    rw [hparse] at hnumber
    change beginValue depth (encodeNumber x ++ r) = _
    rwa [encodeNumber_of_isFinite hfinite]
  | string s =>
    have htext := h.strings s mem_cons_self
    intro _ r _
    exact .of_begin fun depth _ => beginValue_string depth (parseStringBytes_encodeString htext r)
  | array items ih =>
    have hpos := Value.nesting_array_pos items
    obtain ⟨n, rfl⟩ := Nat.exists_eq_succ_of_ne_zero (show n ≠ 0 by omega)
    intro d r _
    rw [render_array]
    cases items with
    | nil => exact .emptyArray (w := []) (by decide)
    | cons v items =>
      have hall (v') (hv' : v' ∈ v :: items) : Parses n (render cfg v') v' ∧ Renders n (render cfg v') := by
        have := Value.nesting_array hv'
        exact ⟨ih v' hv' (h.item hv') (by omega), renders_render hcfg v' (by omega)⟩
      obtain ⟨_, hts⟩ := reads_elements hcfg (hall v mem_cons_self).2
        (forall_mem_map.mpr fun v' hv' => (hall v' (mem_cons_of_mem v hv')).2) d r
      exact .array hts <| yields_elements hcfg (hall v mem_cons_self).1
        (fun v' hv' => (hall v' (mem_cons_of_mem v hv')).1) d r
  | object m ih =>
    have hpos := Value.nesting_object_pos m
    obtain ⟨n, rfl⟩ := Nat.exists_eq_succ_of_ne_zero (show n ≠ 0 by omega)
    intro d r _
    rw [render_object]
    cases m with
    | nil => exact .emptyObject (w := []) (by decide)
    | cons e m =>
      have hkeys := Value.ordered_keys h.ordered
      have hsort : sortEntries ((e :: m).map (renderEntry cfg)) = (e :: m).map (renderEntry cfg) := by
        rw [sortEntries_map (renderEntry cfg) (fun _ => rfl), sortEntries_of_pairwise hkeys]
      have hall (e') (he' : e' ∈ e :: m) : Parses n (render cfg e'.2) e'.2 ∧ Renders n (renderEntry cfg e').2 := by
        have := Value.nesting_object he'
        exact ⟨ih e' he' (h.entry he') (by omega), renders_render hcfg e'.2 (by omega)⟩
      obtain ⟨_, hts⟩ := reads_members hcfg (hall e mem_cons_self).2
        (forall_mem_map.mpr fun e' he' => (hall e' (mem_cons_of_mem e he')).2) d r
      have hobject := Yields.object hts <| yields_members hcfg (hall e mem_cons_self).1
        (fun e' he' => (hall e' (mem_cons_of_mem e he')).1) (fun e' he' => h.strings e'.1 (Value.strings_key he')) d r
      rwa [foldl_setEntry hkeys, nil_append, ← map_cons, ← hsort] at hobject

theorem parseToValue_render (hcfg : BlankLayout cfg) (v : Value) (h : Restored v) (hn : v.nesting ≤ maxNestingDepth) (d : Nat)
    : parseToValue (render cfg v d) = some (.ok v) := by
  have hv := parses_render hcfg v h hn d [] (.space (by decide))
  obtain ⟨_, hts⟩ := renders_render hcfg v le_rfl d []
  rw [append_nil] at hv hts
  exact hv.parseToValue hts (by decide : Space []) (by decide)

theorem value_roundtrip (cfg : Option IndentCfg) (hcfg : BlankLayout cfg) (v : Value) (depth : Nat)
    : ∃ text, encodeValue cfg v depth = some text ∧
        (v.Ordered → v.nesting ≤ maxNestingDepth → (∀ s ∈ v.strings, Utf8.Text s) →
          (∀ x ∈ v.numbers, Binary64.isFinite x = true ∧ parseFloat (appendFloat x) = (x, none)) →
          parseToValue text = some (.ok v)) ∧
        (∃ ts, JsonText.Text Graphic v.nesting text ts) ∧ ScriptSafe text ∧ ∀ b ∈ text, ¬Graphic b → LayoutByte cfg b := by
  have hplain := (plain_parts hcfg).text v depth 0
  refine ⟨render cfg v depth, encodeValue_eq cfg v depth, ?_, text_render hcfg v depth, hplain.safe, hplain.control⟩
  intro hordered hn hstrings hnumbers
  exact parseToValue_render hcfg v ⟨hordered, hstrings, hnumbers⟩ hn depth

def sample : Value :=
  .object [([0x61], .array [.number 0x3FF8000000000000, .string [0x3C]])]

theorem value_roundtrip_sample
    : ∃ text, encodeValue (some ⟨[0x20], [0x20, 0x20]⟩) sample 0 = some text ∧ parseToValue text = some (.ok sample) := by
  have hblank : BlankLayout (some ⟨[0x20], [0x20, 0x20]⟩) := by
    rintro c ⟨⟩
    exact ⟨by decide, by decide⟩
  obtain ⟨text, htext, hparse, _⟩ := value_roundtrip (some ⟨[0x20], [0x20, 0x20]⟩) hblank sample 0
  refine ⟨text, htext, hparse ?_ (by decide) ?_ ?_⟩
  . simp [sample, Value.Ordered, Value.fold, Value.foldItems, Value.foldEntries]
  . intro s hs
    have hs : s ∈ [[0x61], [0x3C]] := hs
    simp only [mem_cons, not_mem_nil, or_false] at hs
    rcases hs with rfl | rfl
    . exact ⟨[0x61], by decide, rfl⟩
    . exact ⟨[0x3C], by decide, rfl⟩
  . intro x hx
    rw [mem_singleton.mp hx]
    exact ⟨by decide, by decide +kernel⟩

theorem value_lost
    : encodeValue none (.number 0x7FF8000000000001) 0 = some nullText ∧ parseToValue nullText = some (.ok .null) ∧
        Value.null ≠ .number 0x7FF8000000000001 := by
  refine ⟨rfl, rfl, ?_⟩
  intro h
  cases h

end Json
