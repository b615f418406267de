import Goish.Encoding.Json.Lemmas.Encoder
import Goish.Encoding.Json.Lemmas.Number
import Goish.Encoding.Json.Lemmas.Strings
import Goish.Encoding.Json.Parts

open List Utf8 JsonText

namespace Json

def BlankLayout (cfg : Option IndentCfg) : Prop :=
  ∀ c, cfg = some c → Space c.linePrefix ∧ Space c.indent

def LayoutByte (cfg : Option IndentCfg) (b : UInt8) : Prop :=
  ∃ c, cfg = some c ∧ (b = 0x0A ∨ b ∈ c.linePrefix ∨ b ∈ c.indent)

variable {cfg : Option IndentCfg} {n : Nat}

theorem mem_writeNewlineIndent (h : b ∈ writeNewlineIndent c d) : b = 0x0A ∨ b ∈ c.linePrefix ∨ b ∈ c.indent := by
  cases h with
  | head => exact .inl rfl
  | tail _ h =>
    rcases mem_append.mp h with h | h
    . exact .inr (.inl h)
    . obtain ⟨_, hl, hb⟩ := mem_flatten.mp h
      rw [eq_of_mem_replicate hl] at hb
      exact .inr (.inr hb)

theorem layoutByte_of_mem (h : b ∈ layout cfg d) : LayoutByte cfg b := by
  cases cfg with
  | none => contradiction
  | some c => exact ⟨c, rfl, mem_writeNewlineIndent h⟩

theorem LayoutByte.isSpace (hcfg : BlankLayout cfg) (h : LayoutByte cfg b) : IsSpace b := by
  obtain ⟨c, rfl, hb⟩ := h
  obtain ⟨hpre, hindent⟩ := hcfg c rfl
  rcases hb with rfl | hb | hb
  . decide
  . exact hpre b hb
  . exact hindent b hb

theorem space_layout (hcfg : BlankLayout cfg) (d : Nat) : Space (layout cfg d) :=
  fun _ hb => (layoutByte_of_mem hb).isSpace hcfg

theorem colon_eq (cfg : Option IndentCfg) : ∃ w, Space w ∧ colon cfg = 0x3A :: w := by
  unfold colon
  split
  . exact ⟨[0x20], by decide, rfl⟩
  . exact ⟨[], by decide, rfl⟩

theorem isFinite_of_not (h : ¬(Binary64.isNaN x || Binary64.isInfinite x) = true) : Binary64.isFinite x = true := by
  unfold Binary64.isNaN Binary64.isInfinite at h
  unfold Binary64.isFinite
  grind

theorem reads_number (x : Nat) (r : List UInt8) : ∃ ts, Reads Graphic n .value (encodeNumber x ++ r) ts r := by
  unfold encodeNumber
  split
  . exact ⟨_, .null⟩
  . next h => exact ⟨_, .number (number_appendFloat (isFinite_of_not h))⟩

theorem reads_string (s r : List UInt8) : ∃ ts, Reads Graphic n .value (encodeString s ++ r) ts r := by
  obtain ⟨_, ht, heq⟩ := exists_encodeString s
  rw [heq, cons_append, append_assoc, singleton_append]
  exact ⟨_, .string ht.chars⟩

theorem elementsText_true (cfg : Option IndentCfg) (d : Nat) (x : Nat → List UInt8) (items : List (Nat → List UInt8))
    : elementsText cfg d true (x :: items) = 0x2C :: elementsText cfg d false (x :: items) :=
  rfl

theorem membersText_true (cfg : Option IndentCfg) (d : Nat) (e : List UInt8 × (Nat → List UInt8))
    (m : List (List UInt8 × (Nat → List UInt8)))
    : membersText cfg d true (e :: m) = 0x2C :: membersText cfg d false (e :: m) :=
  rfl

def Renders (n : Nat) (x : Nat → List UInt8) : Prop :=
  ∀ d r, ∃ ts, Reads Graphic n .value (x d ++ r) ts r

theorem reads_elements (hcfg : BlankLayout cfg) (hx : Renders n x) (h : ∀ y ∈ items, Renders n y) (d : Nat) (r : List UInt8)
    : ∃ ts, Reads Graphic n .elements (elementsText cfg d false (x :: items) ++ r) ts r := by
  induction items generalizing x with
  | nil =>
    obtain ⟨ts, hts⟩ := hx (d + 1) (layout cfg d ++ 0x5D :: r)
    have := Reads.lastElement (space_layout hcfg (d + 1)) (space_layout hcfg d) hts
    exact ⟨ts ++ [.endArray], by simpa [elementsText] using this⟩
  | cons y items ih =>
    obtain ⟨ts', hts'⟩ := ih (h y mem_cons_self) fun z hz => h z (mem_cons_of_mem y hz)
    obtain ⟨ts, hts⟩ := hx (d + 1) (0x2C :: (elementsText cfg d false (y :: items) ++ r))
    have := Reads.element (space_layout hcfg (d + 1)) (by decide : Space []) hts hts'
    rw [elementsText, elementsText_true]
    exact ⟨ts ++ ts', by simpa using this⟩

theorem reads_members (hcfg : BlankLayout cfg) (he : Renders n e.2) (h : ∀ e' ∈ m, Renders n e'.2) (d : Nat)
    (r : List UInt8) : ∃ ts, Reads Graphic n .members (membersText cfg d false (e :: m) ++ r) ts r := by
  obtain ⟨_, hw, hcolon⟩ := colon_eq cfg
  induction m generalizing e with
  | nil =>
    obtain ⟨t, ht, hkey⟩ := exists_encodeString e.1
    obtain ⟨ts, hts⟩ := he (d + 1) (layout cfg d ++ 0x7D :: r)
    have := Reads.lastMember (space_layout hcfg (d + 1)) ht.chars (by decide : Space []) hw (space_layout hcfg d) hts
    exact ⟨.string t :: (ts ++ [.endObject]), by simpa [membersText, hkey, hcolon] using this⟩
  | cons e' m ih =>
    obtain ⟨t, ht, hkey⟩ := exists_encodeString e.1
    obtain ⟨ts', hts'⟩ := ih (h e' mem_cons_self) fun z hz => h z (mem_cons_of_mem e' hz)
    obtain ⟨ts, hts⟩ := he (d + 1) (0x2C :: (membersText cfg d false (e' :: m) ++ r))
    have := Reads.member (space_layout hcfg (d + 1)) ht.chars (by decide : Space []) hw (by decide : Space []) hts hts'
    rw [membersText, membersText_true, hkey, hcolon]
    exact ⟨.string t :: (ts ++ ts'), by simpa using this⟩

theorem sortEntries_map_cons (f : List UInt8 × α → List UInt8 × β) (hf : ∀ e, (f e).1 = e.1)
    (hm : m ≠ []) : ∃ (e : List UInt8 × α) (l : List (List UInt8 × α)), e ∈ m ∧ (∀ e' ∈ l, e' ∈ m) ∧
        sortEntries (m.map f) = f e :: l.map f := by
  have hperm := sortEntries_perm m
  obtain ⟨e, l, hsort⟩ := exists_cons_of_ne_nil (sortEntries_ne_nil hm)
  rw [hsort] at hperm
  refine ⟨e, l, hperm.mem_iff.mp mem_cons_self, fun e' he' => hperm.mem_iff.mp (mem_cons_of_mem e he'), ?_⟩
  rw [sortEntries_map f hf, hsort, map_cons]

theorem renders_render (hcfg : BlankLayout cfg) (v : Value) (hn : v.nesting ≤ n) : Renders n (render cfg v) := by
  induction v using Value.induct generalizing n with
  | null => exact fun _ _ => ⟨_, .null⟩
  | bool b =>
    cases b
    . exact fun _ _ => ⟨_, .false⟩
    . exact fun _ _ => ⟨_, .true⟩
  | number x => exact fun _ r => reads_number x r
  | string s => exact fun _ r => reads_string s r
  | array items ih =>
    have hpos := Value.nesting_array_pos items
    obtain ⟨n, rfl⟩ := Nat.exists_eq_succ_of_ne_zero (show n ≠ 0 by omega)
    intro d r
    rw [render_array]
    cases items with
    | nil => exact ⟨_, .emptyArray (w := []) (by decide)⟩
    | cons v items =>
      have hall (v') (hv' : v' ∈ v :: items) : Renders n (render cfg v') := by
        apply ih v' hv'
        have := Value.nesting_array hv'
        omega
      have hrest : ∀ y ∈ items.map (render cfg), Renders n y := by
        intro y hy
        obtain ⟨v', hv', rfl⟩ := mem_map.mp hy
        exact hall v' (mem_cons_of_mem v hv')
      obtain ⟨_, hts⟩ := reads_elements hcfg (hall v mem_cons_self) hrest d r
      exact ⟨_, .array hts⟩
  | object m ih =>
    have hpos := Value.nesting_object_pos m
    obtain ⟨n, rfl⟩ := Nat.exists_eq_succ_of_ne_zero (show n ≠ 0 by omega)
    intro d r
    rw [render_object]
    cases m with
    | nil => exact ⟨_, .emptyObject (w := []) (by decide)⟩
    | cons e m =>
      have hall (e') (he' : e' ∈ e :: m) : Renders n (renderEntry cfg e').2 := by
        apply ih e' he'
        have := Value.nesting_object he'
        omega
      obtain ⟨e', l, he', hl, hsort⟩ := sortEntries_map_cons (renderEntry cfg) (fun _ => rfl) (cons_ne_nil e m)
      have hrest : ∀ y ∈ l.map (renderEntry cfg), Renders n y.2 := by
        intro y hy
        obtain ⟨e'', he'', rfl⟩ := mem_map.mp hy
        exact hall e'' (hl e'' he'')
      obtain ⟨_, hts⟩ := reads_members hcfg (hall e' he') hrest d r
      rw [← hsort] at hts
      exact ⟨_, .object hts⟩

theorem text_render (hcfg : BlankLayout cfg) (v : Value) (d : Nat)
    : ∃ ts, JsonText.Text Graphic v.nesting (render cfg v d) ts := by
  obtain ⟨ts, hts⟩ := renders_render hcfg v le_rfl d []
  rw [append_nil] at hts
  exact ⟨ts, [], _, [], by decide, by decide, rfl, hts⟩

section Parts

def plainByte (b : UInt8) : Bool :=
  0x20 < b.toNat && b ≠ 0x22 && scriptByte b

theorem plain_digits (h : Digits ds) : ds.all plainByte = true := by
  rw [all_eq_true]
  intro b hb
  have hdigit := h b hb
  unfold IsDigit at hdigit
  simp only [plainByte, Bool.and_eq_true, decide_eq_true_iff, scriptByte_iff]
  refine ⟨⟨by omega, ?_⟩, by omega, ?_, ?_, ?_⟩
  all_goals
    rintro rfl
    contradiction

theorem plain_number (h : Number lit) : lit.all plainByte = true := by
  obtain ⟨_, _, _, _, rfl, hsign, hwhole, hfrac, hexp⟩ := h
  simp only [all_append, Bool.and_eq_true]
  refine ⟨⟨⟨?_, ?_⟩, ?_⟩, ?_⟩
  . rcases hsign with rfl | rfl
    all_goals rfl
  . rcases hwhole with rfl | hwhole
    . rfl
    . exact plain_digits hwhole.1
  . rcases hfrac with rfl | ⟨_, rfl, hds, _⟩
    . rfl
    . exact (plain_digits hds :)
  . rcases hexp with rfl | ⟨_, _, _, rfl, rfl | rfl, rfl | rfl | rfl, hds, _⟩
    . rfl
    all_goals exact (plain_digits hds :)

theorem plain_encodeNumber (x : Nat) : (encodeNumber x).all plainByte = true := by
  unfold encodeNumber
  split
  . rfl
  . next h => exact plain_number (number_appendFloat (isFinite_of_not h))

/-- A relation between the parts of a text with layout and those of the same text without. -/
structure Parts (cfg : Option IndentCfg) (R : List UInt8 → List UInt8 → Prop) : Prop where
  append : ∀ {p q p' q'}, R p q → R p' q' → R (p ++ p') (q ++ q')
  plain : ∀ p, p.all plainByte = true → R p p
  layout : ∀ d, R (layout cfg d) []
  colon : R (colon cfg) [0x3A]
  string : ∀ s, R (encodeString s) (encodeString s)

variable {R : List UInt8 → List UInt8 → Prop} (hR : Parts cfg R) {items : List Value} {m : List (List UInt8 × Value)}
include hR

theorem Parts.comma (more : Bool) : R (if more then [0x2C] else []) (if more then [0x2C] else []) := by
  cases more
  all_goals exact hR.plain _ rfl

theorem Parts.elements (h : ∀ v ∈ items, ∀ d d', R (render cfg v d) (render none v d')) (d d' : Nat) (more : Bool)
    : R (elementsText cfg d more (items.map (render cfg))) (elementsText none d' more (items.map (render none))) := by
  induction items generalizing more with
  | nil => exact hR.append (hR.layout d) (hR.plain [0x5D] rfl)
  | cons v _ ih =>
    have hrest := ih (fun y hy => h y (mem_cons_of_mem v hy)) true
    have hfirst := hR.append (hR.layout (d + 1)) (hR.append (h v mem_cons_self (d + 1) (d' + 1)) hrest)
    exact hR.append (hR.comma more) hfirst

theorem Parts.members (h : ∀ e ∈ m, ∀ d d', R (render cfg e.2 d) (render none e.2 d')) (d d' : Nat) (more : Bool)
    : R (membersText cfg d more (m.map (renderEntry cfg))) (membersText none d' more (m.map (renderEntry none))) := by
  induction m generalizing more with
  | nil => exact hR.append (hR.layout d) (hR.plain [0x7D] rfl)
  | cons e m ih =>
    have hrest := ih (fun y hy => h y (mem_cons_of_mem e hy)) true
    have hvalue := hR.append hR.colon (hR.append (h e mem_cons_self (d + 1) (d' + 1)) hrest)
    exact hR.append (hR.comma more) (hR.append (hR.layout (d + 1)) (hR.append (hR.string e.1) hvalue))

theorem Parts.text (v : Value) (d d' : Nat) : R (render cfg v d) (render none v d') := by
  induction v using Value.induct generalizing d d' with
  | null => exact hR.plain nullText rfl
  | bool b =>
    cases b
    . exact hR.plain falseText rfl
    . exact hR.plain trueText rfl
  | number x => exact hR.plain _ (plain_encodeNumber x)
  | string s => exact hR.string s
  | array items ih =>
    rw [render_array, render_array]
    cases items with
    | nil => exact hR.plain [0x5B, 0x5D] rfl
    | cons => exact hR.append (hR.plain [0x5B] rfl) (hR.elements ih d d' false)
  | object m ih =>
    rw [render_object, render_object]
    cases m with
    | nil => exact hR.plain [0x7B, 0x7D] rfl
    | cons e m =>
      have hmembers := hR.members (fun e' he' => ih e' ((sortEntries_perm (e :: m)).mem_iff.mp he')) d d' false
      rw [← sortEntries_map (renderEntry cfg) fun _ => rfl, ← sortEntries_map (renderEntry none) fun _ => rfl] at hmembers
      exact hR.append (hR.plain [0x7B] rfl) hmembers

end Parts

structure Plain (cfg : Option IndentCfg) (p : List UInt8) : Prop where
  safe : ScriptSafe p
  control : ∀ b ∈ p, ¬Graphic b → LayoutByte cfg b

theorem Plain.append (h : Plain cfg p) (h' : Plain cfg p') : Plain cfg (p ++ p') := by
  refine ⟨h.safe.append h'.safe, ?_⟩
  intro b hb
  exact (mem_append.mp hb).elim (h.control b) (h'.control b)

theorem plain_graphic (h : p.all (fun b => Graphic b && scriptByte b) = true) : Plain cfg p := by
  simp only [all_eq_true, Bool.and_eq_true, decide_eq_true_iff] at h
  refine ⟨scriptSafe_ascii (all_eq_true.mpr fun b hb => (h b hb).2), ?_⟩
  intro b hb hctl
  exact absurd (h b hb).1 hctl

theorem plain_parts (hcfg : BlankLayout cfg) : Parts cfg fun p _ => Plain cfg p := by
  constructor
  case append => exact .append
  case plain =>
    intro p hp
    apply plain_graphic
    simp only [plainByte, all_eq_true, Bool.and_eq_true, decide_eq_true_iff] at hp ⊢
    exact fun b hb => ⟨Nat.le_of_lt (hp b hb).1.1, (hp b hb).2⟩
  case layout =>
    intro d
    refine ⟨scriptSafe_ascii (all_eq_true.mpr ?_), fun b hb _ => layoutByte_of_mem hb⟩
    intro b hb
    have hspace := (layoutByte_of_mem hb).isSpace hcfg
    rcases hspace with rfl | rfl | rfl | rfl <;> decide
  case colon =>
    apply plain_graphic
    unfold colon
    split
    all_goals decide
  case string =>
    intro s
    obtain ⟨t, ht, heq⟩ := exists_encodeString s
    have hquote : Plain cfg [0x22] := plain_graphic (by decide)
    have hchars : Plain cfg t := ⟨ht.scriptSafe, fun b hb hctl => absurd (ht.chars.graphic b hb) hctl⟩
    rw [heq]
    exact hquote.append (hchars.append hquote)

end Json
