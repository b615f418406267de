import Mathlib.Data.List.Basic

/-! The grammar of JSON texts of RFC 8259 over bytes. -/

open List

namespace JsonText

def IsSpace (b : UInt8) : Prop :=
  b = 0x20 ∨ b = 0x09 ∨ b = 0x0A ∨ b = 0x0D

instance : DecidablePred IsSpace := fun _ => inferInstanceAs (Decidable (_ ∨ _))

def Space (w : List UInt8) : Prop :=
  ∀ b ∈ w, IsSpace b

def IsDigit (b : UInt8) : Prop :=
  0x30 ≤ b.toNat ∧ b.toNat ≤ 0x39

instance : DecidablePred IsDigit := fun _ => inferInstanceAs (Decidable (_ ∧ _))

def Digits (ds : List UInt8) : Prop :=
  ∀ b ∈ ds, IsDigit b

def IsHex (b : UInt8) : Prop :=
  IsDigit b ∨ (0x61 ≤ b.toNat ∧ b.toNat ≤ 0x66) ∨ (0x41 ≤ b.toNat ∧ b.toNat ≤ 0x46)

instance : DecidablePred IsHex := fun _ => inferInstanceAs (Decidable (_ ∨ _))

def escapes : List UInt8 :=
  [0x22, 0x5C, 0x2F, 0x62, 0x66, 0x6E, 0x72, 0x74]

def Any (_ : UInt8) : Prop :=
  True

inductive Chars (raw : UInt8 → Prop) : List UInt8 → Prop where
  | nil : Chars raw []
  | byte (hquote : b ≠ 0x22) (hback : b ≠ 0x5C) (hraw : raw b) (h : Chars raw s) : Chars raw (b :: s)
  | escape (hc : c ∈ escapes) (h : Chars raw s) : Chars raw (0x5C :: c :: s)
  | unicode (h1 : IsHex a) (h2 : IsHex b) (h3 : IsHex c) (h4 : IsHex d) (h : Chars raw s)
    : Chars raw (0x5C :: 0x75 :: a :: b :: c :: d :: s)

def Sign (s : List UInt8) : Prop :=
  s = [] ∨ s = [0x2D]

def Whole (s : List UInt8) : Prop :=
  s = [0x30] ∨ (Digits s ∧ s ≠ [] ∧ s.head? ≠ some 0x30)

def Fraction (s : List UInt8) : Prop :=
  s = [] ∨ ∃ ds, s = 0x2E :: ds ∧ Digits ds ∧ ds ≠ []

def Exponent (s : List UInt8) : Prop :=
  s = [] ∨ ∃ e sign ds, s = e :: (sign ++ ds) ∧ (e = 0x65 ∨ e = 0x45) ∧
    (sign = [] ∨ sign = [0x2B] ∨ sign = [0x2D]) ∧ Digits ds ∧ ds ≠ []

def Number (lit : List UInt8) : Prop :=
  ∃ sign whole frac exp, lit = sign ++ whole ++ frac ++ exp ∧ Sign sign ∧ Whole whole ∧ Fraction frac ∧ Exponent exp

inductive Token where
  | null
  | true
  | false
  | number (lit : List UInt8)
  | string (chars : List UInt8)
  | beginArray
  | endArray
  | beginObject
  | endObject
  deriving DecidableEq

def nullText : List UInt8 := [0x6E, 0x75, 0x6C, 0x6C]

def trueText : List UInt8 := [0x74, 0x72, 0x75, 0x65]

def falseText : List UInt8 := [0x66, 0x61, 0x6C, 0x73, 0x65]

inductive Part where
  | value
  | elements
  | members

-- `Reads raw n p d ts r`: the text `d` begins with a part of at most `n` nested arrays and objects, whose tokens are
-- `ts`, and goes on with `r`. Elements and members stand behind a bracket or a comma.
inductive Reads (raw : UInt8 → Prop) : Nat → Part → List UInt8 → List Token → List UInt8 → Prop where
  | null : Reads raw n .value (nullText ++ r) [.null] r
  | true : Reads raw n .value (trueText ++ r) [.true] r
  | false : Reads raw n .value (falseText ++ r) [.false] r
  | number (h : Number lit) : Reads raw n .value (lit ++ r) [.number lit] r
  | string (h : Chars raw s) : Reads raw n .value (0x22 :: (s ++ 0x22 :: r)) [.string s] r
  | emptyArray (hw : Space w) : Reads raw (n + 1) .value (0x5B :: (w ++ 0x5D :: r)) [.beginArray, .endArray] r
  | array (h : Reads raw n .elements d ts r) : Reads raw (n + 1) .value (0x5B :: d) (.beginArray :: ts) r
  | emptyObject (hw : Space w) : Reads raw (n + 1) .value (0x7B :: (w ++ 0x7D :: r)) [.beginObject, .endObject] r
  | object (h : Reads raw n .members d ts r) : Reads raw (n + 1) .value (0x7B :: d) (.beginObject :: ts) r
  | lastElement (hw : Space w) (hw' : Space w') (h : Reads raw n .value d ts (w' ++ 0x5D :: r))
    : Reads raw n .elements (w ++ d) (ts ++ [.endArray]) r
  | element (hw : Space w) (hw' : Space w') (h : Reads raw n .value d ts (w' ++ 0x2C :: d'))
      (h' : Reads raw n .elements d' ts' r) : Reads raw n .elements (w ++ d) (ts ++ ts') r
  | lastMember (hw : Space w) (hkey : Chars raw s) (hw₁ : Space w₁) (hw₂ : Space w₂) (hw' : Space w')
      (h : Reads raw n .value d ts (w' ++ 0x7D :: r))
    : Reads raw n .members (w ++ 0x22 :: (s ++ 0x22 :: (w₁ ++ 0x3A :: (w₂ ++ d)))) (.string s :: (ts ++ [.endObject])) r
  | member (hw : Space w) (hkey : Chars raw s) (hw₁ : Space w₁) (hw₂ : Space w₂) (hw' : Space w')
      (h : Reads raw n .value d ts (w' ++ 0x2C :: d')) (h' : Reads raw n .members d' ts' r)
    : Reads raw n .members (w ++ 0x22 :: (s ++ 0x22 :: (w₁ ++ 0x3A :: (w₂ ++ d)))) (.string s :: (ts ++ ts')) r

def Text (raw : UInt8 → Prop) (n : Nat) (data : List UInt8) (ts : List Token) : Prop :=
  ∃ w d w', Space w ∧ Space w' ∧ data = w ++ d ∧ Reads raw n .value d ts w'

variable {raw raw' : UInt8 → Prop} {r r' w w' s s' : List UInt8}

instance : DecidablePred Space := fun w => decidableBAll IsSpace w

theorem Space.append (h : Space w) (h' : Space w') : Space (w ++ w') := by
  intro b hb
  rw [mem_append] at hb
  rcases hb with hb | hb
  . exact h b hb
  . exact h' b hb

def Stop (r : List UInt8) : Prop :=
  ∀ b s, r = b :: s → ¬IsDigit b ∧ b ≠ 0x2E ∧ b ≠ 0x65 ∧ b ≠ 0x45

theorem Stop.space (hw : Space w) : Stop w := by
  rintro b s rfl
  have hb := hw b mem_cons_self
  rcases hb with rfl | rfl | rfl | rfl <;> decide

theorem Stop.append (hw : Space w) (hb : b ∈ [0x2C, 0x5D, 0x7D]) : Stop (w ++ b :: r) := by
  cases w with
  | nil =>
    rintro _ _ heq
    rw [nil_append, cons.injEq] at heq
    rw [← heq.1]
    simp only [mem_cons, not_mem_nil, or_false] at hb
    rcases hb with rfl | rfl | rfl <;> decide
  | cons c w =>
    rintro _ _ heq
    rw [cons_append, cons.injEq] at heq
    rw [← heq.1]
    exact Stop.space hw c w rfl

theorem dropWhile_run (hw : ∀ b ∈ w, p b = true) (hr : ∀ b s, r = b :: s → p b = false) : (w ++ r).dropWhile p = r := by
  rw [dropWhile_append_of_pos hw]
  cases r with
  | nil => rfl
  | cons b r => exact dropWhile_cons_of_neg (by simp [hr b r rfl])

theorem run_unique (P : UInt8 → Prop) [DecidablePred P] (hw : ∀ b ∈ w, P b) (hw' : ∀ b ∈ w', P b)
    (hr : ∀ b s, r = b :: s → ¬P b) (hr' : ∀ b s, r' = b :: s → ¬P b) (h : w ++ r = w' ++ r') : w = w' ∧ r = r' := by
  have hdrop : (w ++ r).dropWhile (decide <| P ·) = r :=
    dropWhile_run (fun b hb => decide_eq_true (hw b hb)) (fun b s hs => decide_eq_false (hr b s hs))
  rw [h, dropWhile_run (fun b hb => decide_eq_true (hw' b hb)) (fun b s hs => decide_eq_false (hr' b s hs))] at hdrop
  rw [hdrop] at h
  exact ⟨append_cancel_right h, hdrop.symm⟩

theorem space_unique (hw : Space w) (hw' : Space w') (hb : ¬IsSpace b) (hb' : ¬IsSpace b')
    (h : w ++ b :: r = w' ++ b' :: r') : w = w' ∧ b = b' ∧ r = r' := by
  obtain ⟨hspace, hrest⟩ := run_unique IsSpace hw hw' (fun c s hs => by cases hs; exact hb)
    (fun c s hs => by cases hs; exact hb') h
  rw [cons.injEq] at hrest
  exact ⟨hspace, hrest⟩

section Number

variable {x x' : List UInt8}

theorem digits_unique (hs : Digits s) (hs' : Digits s') (hx : ∀ b t, x = b :: t → ¬IsDigit b)
    (hx' : ∀ b t, x' = b :: t → ¬IsDigit b) (h : s ++ x = s' ++ x') : s = s' ∧ x = x' :=
  run_unique IsDigit hs hs' hx hx' h

theorem sign_unique (hs : Sign s) (hs' : Sign s') (hx : ∀ t, x ≠ 0x2D :: t) (hx' : ∀ t, x' ≠ 0x2D :: t)
    (h : s ++ x = s' ++ x') : s = s' ∧ x = x' := by
  rcases hs with rfl | rfl <;> rcases hs' with rfl | rfl
  . exact ⟨rfl, h⟩
  . exact absurd h (hx x')
  . exact absurd h.symm (hx' x)
  . exact ⟨rfl, append_cancel_left h⟩

theorem Whole.digits (hs : Whole s) : Digits s := by
  rcases hs with rfl | hs
  . intro b hb
    rw [mem_singleton] at hb
    subst hb
    decide
  . exact hs.1

theorem Whole.ne_nil (hs : Whole s) : s ≠ [] := by
  rcases hs with rfl | hs
  . exact cons_ne_nil _ _
  . exact hs.2.1

theorem digits_head (hs : Digits s) (hne : s ≠ []) (h : s ++ x = b :: t) : IsDigit b := by
  rcases s with _ | ⟨d, _⟩
  . contradiction
  rw [cons_append, cons.injEq] at h
  rw [← h.1]
  exact hs d mem_cons_self

theorem fraction_unique (hs : Fraction s) (hs' : Fraction s') (hx : ∀ b t, x = b :: t → ¬IsDigit b ∧ b ≠ 0x2E)
    (hx' : ∀ b t, x' = b :: t → ¬IsDigit b ∧ b ≠ 0x2E) (h : s ++ x = s' ++ x') : s = s' ∧ x = x' := by
  rcases hs with rfl | ⟨ds, rfl, hds, _⟩ <;> rcases hs' with rfl | ⟨_, rfl, hds', _⟩
  . exact ⟨rfl, h⟩
  . exact absurd rfl (hx _ _ h).2
  . exact absurd rfl (hx' _ _ h.symm).2
  . obtain ⟨rfl, rfl⟩ := digits_unique hds hds' (fun b t hb => (hx b t hb).1) (fun b t hb => (hx' b t hb).1)
      (cons.inj h).2
    exact ⟨rfl, rfl⟩

theorem exponentSign_unique (hs : s = [] ∨ s = [0x2B] ∨ s = [0x2D])
    (hs' : s' = [] ∨ s' = [0x2B] ∨ s' = [0x2D]) (hd : Digits d) (hne : d ≠ []) (hd' : Digits d') (hne' : d' ≠ [])
    (h : s ++ (d ++ x) = s' ++ (d' ++ x')) : s = s' ∧ d ++ x = d' ++ x' := by
  have hplus : ¬IsDigit 0x2B ∧ ¬IsDigit 0x2D := by decide
  rcases hs with rfl | rfl | rfl <;> rcases hs' with rfl | rfl | rfl
  . exact ⟨rfl, h⟩
  . exact absurd (digits_head hd hne h) hplus.1
  . exact absurd (digits_head hd hne h) hplus.2
  . exact absurd (digits_head hd' hne' h.symm) hplus.1
  . exact ⟨rfl, append_cancel_left h⟩
  . cases h
  . exact absurd (digits_head hd' hne' h.symm) hplus.2
  . cases h
  . exact ⟨rfl, append_cancel_left h⟩

theorem exponent_unique (hs : Exponent s) (hs' : Exponent s') (hx : Stop x) (hx' : Stop x') (h : s ++ x = s' ++ x')
    : s = s' ∧ x = x' := by
  rcases hs with rfl | ⟨_, _, _, rfl, he, hsign, hds, hne⟩ <;>
    rcases hs' with rfl | ⟨e', sign', ds', rfl, he', hsign', hds', hne'⟩
  . exact ⟨rfl, h⟩
  . exact absurd he' (not_or.mpr (hx _ _ h).2.2)
  . exact absurd he (not_or.mpr (hx' _ _ h.symm).2.2)
  . rw [cons_append, append_assoc, cons_append, append_assoc, cons.injEq] at h
    obtain ⟨rfl, hsigns⟩ := h
    obtain ⟨rfl, hdigits⟩ := exponentSign_unique hsign hsign' hds hne hds' hne' hsigns
    obtain ⟨rfl, rfl⟩ := digits_unique hds hds' (fun b t hb => (hx b t hb).1) (fun b t hb => (hx' b t hb).1) hdigits
    exact ⟨rfl, rfl⟩

theorem exponent_head (he : Exponent s) (hx : Stop x) (h : s ++ x = b :: t) : ¬IsDigit b ∧ b ≠ 0x2E := by
  rcases he with rfl | ⟨_, _, _, rfl, he, _⟩
  . exact ⟨(hx b t h).1, (hx b t h).2.1⟩
  . obtain ⟨rfl, _⟩ := cons.inj h
    rcases he with rfl | rfl <;> decide

theorem fraction_head (hf : Fraction s) (he : Exponent s') (hx : Stop x) (h : s ++ (s' ++ x) = b :: t) : ¬IsDigit b := by
  rcases hf with rfl | ⟨_, rfl, _⟩
  . exact (exponent_head he hx h).1
  . obtain ⟨rfl, _⟩ := cons.inj h
    decide

theorem Number.unique (hs : Number s) (hs' : Number s') (hx : Stop x) (hx' : Stop x') (h : s ++ x = s' ++ x')
    : s = s' ∧ x = x' := by
  obtain ⟨_, _, _, _, rfl, hsign, hwhole, hfrac, hexp⟩ := hs
  obtain ⟨_, _, _, _, rfl, hsign', hwhole', hfrac', hexp'⟩ := hs'
  simp only [append_assoc] at h
  have hminus : ¬IsDigit 0x2D := by decide
  obtain ⟨rfl, hrest⟩ := sign_unique hsign hsign'
    (fun t ht => hminus (digits_head hwhole.digits hwhole.ne_nil ht))
    (fun t ht => hminus (digits_head hwhole'.digits hwhole'.ne_nil ht)) h
  obtain ⟨rfl, hparts⟩ := digits_unique hwhole.digits hwhole'.digits (fun b t ht => fraction_head hfrac hexp hx ht)
    (fun b t ht => fraction_head hfrac' hexp' hx' ht) hrest
  obtain ⟨rfl, htail⟩ := fraction_unique hfrac hfrac' (fun b t ht => exponent_head hexp hx ht)
    (fun b t ht => exponent_head hexp' hx' ht) hparts
  obtain ⟨rfl, rfl⟩ := exponent_unique hexp hexp' hx hx' htail
  exact ⟨rfl, rfl⟩

theorem Number.head (h : Number s) : ∃ b t, s = b :: t ∧ (b = 0x2D ∨ IsDigit b) := by
  obtain ⟨_, whole, frac, exp, rfl, hsign, hwhole, _⟩ := h
  rcases whole with _ | ⟨d, ds⟩
  . exact absurd rfl hwhole.ne_nil
  rcases hsign with rfl | rfl
  . exact ⟨d, ds ++ frac ++ exp, by simp, .inr (hwhole.digits d mem_cons_self)⟩
  . exact ⟨0x2D, d :: ds ++ frac ++ exp, by simp, .inl rfl⟩

end Number

theorem Chars.unique (h : Chars raw s) (h' : Chars raw' s') (heq : s ++ 0x22 :: r = s' ++ 0x22 :: r')
    : s = s' ∧ r = r' := by
  induction h generalizing s' with
  | nil =>
    cases h' with
    | nil => exact ⟨rfl, (cons.inj heq).2⟩
    | byte hquote => exact absurd (cons.inj heq).1.symm hquote
    | escape | «unicode» => cases heq
  | byte hquote hback _ _ ih =>
    cases h' with
    | nil => exact absurd (cons.inj heq).1 hquote
    | byte _ _ _ h' =>
      obtain ⟨rfl, htail⟩ := cons.inj heq
      obtain ⟨rfl, rfl⟩ := ih h' htail
      exact ⟨rfl, rfl⟩
    | escape | «unicode» => exact absurd (cons.inj heq).1 hback
  | escape hc _ ih =>
    cases h' with
    | nil => cases heq
    | byte _ hback => exact absurd (cons.inj heq).1.symm hback
    | escape _ h' =>
      obtain ⟨rfl, htail⟩ := cons.inj (cons.inj heq).2
      obtain ⟨rfl, rfl⟩ := ih h' htail
      exact ⟨rfl, rfl⟩
    | «unicode» =>
      obtain ⟨rfl, _⟩ := cons.inj (cons.inj heq).2
      contradiction
  | «unicode» _ _ _ _ _ ih =>
    cases h' with
    | nil => cases heq
    | byte _ hback => exact absurd (cons.inj heq).1.symm hback
    | escape hc =>
      obtain ⟨rfl, _⟩ := cons.inj (cons.inj heq).2
      contradiction
    | «unicode» _ _ _ _ h' =>
      simp only [cons_append, cons.injEq, true_and] at heq
      obtain ⟨rfl, rfl, rfl, rfl, htail⟩ := heq
      obtain ⟨rfl, rfl⟩ := ih h' htail
      exact ⟨rfl, rfl⟩

theorem number_ne (h : Number s) (heq : b :: t = s ++ r) : b = 0x2D ∨ IsDigit b := by
  obtain ⟨_, _, rfl, hc⟩ := h.head
  rwa [(cons.inj heq).1]

theorem Reads.head (h : Reads raw n .value d ts r) : ∃ b t, d = b :: t ∧ ¬IsSpace b ∧ b ≠ 0x5D ∧ b ≠ 0x7D := by
  cases h with
  | number h =>
    obtain ⟨b, t, rfl, hb⟩ := h.head
    refine ⟨b, t ++ r, rfl, ?_⟩
    rcases hb with rfl | hb
    . decide
    refine ⟨?_, ?_, ?_⟩
    . rintro (rfl | rfl | rfl | rfl) <;> contradiction
    . rintro rfl
      contradiction
    . rintro rfl
      contradiction
  | _ => exact ⟨_, _, rfl, by decide⟩

section

variable (hw : Space w)
include hw

theorem space_value_unique (hw' : Space w') (h : Reads raw n .value d ts r)
    (h' : Reads raw' n' .value d' ts' r') (heq : w ++ d = w' ++ d') : d = d' := by
  obtain ⟨_, _, rfl, hb, _⟩ := h.head
  obtain ⟨_, _, rfl, hb', _⟩ := h'.head
  obtain ⟨_, rfl, rfl⟩ := space_unique hw hw' hb hb' heq
  rfl

theorem bracket_ne_value (hw' : Space w') (hb : b = 0x5D ∨ b = 0x7D) (h : Reads raw n .value d ts r)
    : w ++ b :: r' ≠ w' ++ d := by
  intro heq
  obtain ⟨_, _, rfl, hc, hne⟩ := h.head
  have hspace : ¬IsSpace b := by
    rcases hb with rfl | rfl <;> decide
  obtain ⟨_, rfl, _⟩ := space_unique hw hw' hspace hc heq
  exact hb.elim hne.1 hne.2

theorem bracket_ne_elements (h : Reads raw n .elements d ts r) : w ++ 0x5D :: r' ≠ d := by
  cases h with
  | lastElement hw' _ h | element hw' _ h => exact bracket_ne_value hw hw' (.inl rfl) h

theorem bracket_ne_members (h : Reads raw n .members d ts r) : w ++ 0x7D :: r' ≠ d := by
  intro heq
  cases h with
  | lastMember hw' | member hw' => cases (space_unique hw hw' (by decide) (by decide) heq).2.1

theorem key_unique (hw' : Space w') (hs : Chars raw s) (hs' : Chars raw' s')
    (hw1 : Space w1) (hw1' : Space w1') (hw2 : Space w2) (hw2' : Space w2') (h : Reads raw n .value d ts r)
    (h' : Reads raw' n' .value d' ts' r')
    (heq : w ++ 0x22 :: (s ++ 0x22 :: (w1 ++ 0x3A :: (w2 ++ d))) =
      w' ++ 0x22 :: (s' ++ 0x22 :: (w1' ++ 0x3A :: (w2' ++ d')))) : s = s' ∧ d = d' := by
  obtain ⟨_, _, hkey⟩ := space_unique hw hw' (by decide) (by decide) heq
  obtain ⟨rfl, hcolon⟩ := hs.unique hs' hkey
  obtain ⟨_, _, hvalue⟩ := space_unique hw1 hw1' (by decide) (by decide) hcolon
  exact ⟨rfl, space_value_unique hw2 hw2' h h' hvalue⟩

theorem next_unique (hw' : Space w') (hb : b ∈ [0x2C, 0x5D, 0x7D]) (hb' : b' ∈ [0x2C, 0x5D, 0x7D])
    (h : (Part.value = .value → Stop (w ++ b :: r) ∧ Stop (w' ++ b' :: r')) → ts = ts' ∧ w ++ b :: r = w' ++ b' :: r')
    : ts = ts' ∧ b = b' ∧ r = r' := by
  have hspace : ∀ c ∈ ([0x2C, 0x5D, 0x7D] : List UInt8), ¬IsSpace c := by decide +kernel
  obtain ⟨hts, hrest⟩ := h fun _ => ⟨.append hw hb, .append hw' hb'⟩
  exact ⟨hts, (space_unique hw hw' (hspace b hb) (hspace b' hb') hrest).2⟩

end

theorem Reads.unique (h : Reads raw n p d ts r) (h' : Reads raw' n' p d' ts' r') (heq : d = d')
    (hstop : p = .value → Stop r ∧ Stop r') : ts = ts' ∧ r = r' := by
  induction h generalizing n' d' ts' r' with
  | null | true | false =>
    cases h' with
    | number h => exact absurd (number_ne h heq) (by decide)
    | _ => cases heq <;> exact ⟨rfl, rfl⟩
  | number hlit =>
    cases h' with
    | number hlit' =>
      obtain ⟨rfl, rfl⟩ := hlit.unique hlit' (hstop rfl).1 (hstop rfl).2 heq
      exact ⟨rfl, rfl⟩
    | _ => exact absurd (number_ne hlit heq.symm) (by decide)
  | string hs =>
    cases h' with
    | string hs' =>
      obtain ⟨rfl, rfl⟩ := hs.unique hs' (cons.inj heq).2
      exact ⟨rfl, rfl⟩
    | number h => exact absurd (number_ne h heq) (by decide)
    | _ => cases heq
  | emptyArray hw =>
    cases h' with
    | emptyArray hw' =>
      obtain ⟨_, _, rfl⟩ := space_unique hw hw' (by decide) (by decide) (cons.inj heq).2
      exact ⟨rfl, rfl⟩
    | array h' => exact absurd (cons.inj heq).2 (bracket_ne_elements hw h')
    | number h => exact absurd (number_ne h heq) (by decide)
    | _ => cases heq
  | array h ih =>
    cases h' with
    | emptyArray hw' => exact absurd (cons.inj heq).2.symm (bracket_ne_elements hw' h)
    | array h' =>
      obtain ⟨rfl, rfl⟩ := ih h' (cons.inj heq).2 nofun
      exact ⟨rfl, rfl⟩
    | number h => exact absurd (number_ne h heq) (by decide)
    | _ => cases heq
  | emptyObject hw =>
    cases h' with
    | emptyObject hw' =>
      obtain ⟨_, _, rfl⟩ := space_unique hw hw' (by decide) (by decide) (cons.inj heq).2
      exact ⟨rfl, rfl⟩
    | object h' => exact absurd (cons.inj heq).2 (bracket_ne_members hw h')
    | number h => exact absurd (number_ne h heq) (by decide)
    | _ => cases heq
  | object h ih =>
    cases h' with
    | emptyObject hw' => exact absurd (cons.inj heq).2.symm (bracket_ne_members hw' h)
    | object h' =>
      obtain ⟨rfl, rfl⟩ := ih h' (cons.inj heq).2 nofun
      exact ⟨rfl, rfl⟩
    | number h => exact absurd (number_ne h heq) (by decide)
    | _ => cases heq
  | lastElement hw hw1 h ih =>
    cases h' with
    | lastElement hw' hw1' h' =>
      have hd := space_value_unique hw hw' h h' heq
      obtain ⟨rfl, _, rfl⟩ := next_unique hw1 hw1' (by decide) (by decide) (ih h' hd)
      exact ⟨rfl, rfl⟩
    | element hw' hw1' h' =>
      have hd := space_value_unique hw hw' h h' heq
      cases (next_unique hw1 hw1' (by decide) (by decide) (ih h' hd)).2.1
  | element hw hw1 h _ ih ih1 =>
    cases h' with
    | lastElement hw' hw1' h' =>
      have hd := space_value_unique hw hw' h h' heq
      cases (next_unique hw1 hw1' (by decide) (by decide) (ih h' hd)).2.1
    | element hw' hw1' h' h1' =>
      have hd := space_value_unique hw hw' h h' heq
      obtain ⟨rfl, _, htail⟩ := next_unique hw1 hw1' (by decide) (by decide) (ih h' hd)
      obtain ⟨rfl, rfl⟩ := ih1 h1' htail nofun
      exact ⟨rfl, rfl⟩
  | lastMember hw hs hw1 hw2 hw3 h ih =>
    cases h' with
    | lastMember hw' hs' hw1' hw2' hw3' h' =>
      obtain ⟨rfl, hd⟩ := key_unique hw hw' hs hs' hw1 hw1' hw2 hw2' h h' heq
      obtain ⟨rfl, _, rfl⟩ := next_unique hw3 hw3' (by decide) (by decide) (ih h' hd)
      exact ⟨rfl, rfl⟩
    | member hw' hs' hw1' hw2' hw3' h' =>
      obtain ⟨_, hd⟩ := key_unique hw hw' hs hs' hw1 hw1' hw2 hw2' h h' heq
      cases (next_unique hw3 hw3' (by decide) (by decide) (ih h' hd)).2.1
  | member hw hs hw1 hw2 hw3 h _ ih ih1 =>
    cases h' with
    | lastMember hw' hs' hw1' hw2' hw3' h' =>
      obtain ⟨_, hd⟩ := key_unique hw hw' hs hs' hw1 hw1' hw2 hw2' h h' heq
      cases (next_unique hw3 hw3' (by decide) (by decide) (ih h' hd)).2.1
    | member hw' hs' hw1' hw2' hw3' h' h1' =>
      obtain ⟨rfl, hd⟩ := key_unique hw hw' hs hs' hw1 hw1' hw2 hw2' h h' heq
      obtain ⟨rfl, _, htail⟩ := next_unique hw3 hw3' (by decide) (by decide) (ih h' hd)
      obtain ⟨rfl, rfl⟩ := ih1 h1' htail nofun
      exact ⟨rfl, rfl⟩

theorem Text.unique (h : Text raw n data ts) (h' : Text raw' n' data ts') : ts = ts' := by
  obtain ⟨_, _, _, hw, hr, rfl, hd⟩ := h
  obtain ⟨_, _, _, hw', hr', heq, hd'⟩ := h'
  have hsame := space_value_unique hw hw' hd hd' heq
  exact (hd.unique hd' hsame fun _ => ⟨.space hr, .space hr'⟩).1

theorem Reads.space_elements (h : Reads raw n .elements d ts r) (hw : Space w) : Reads raw n .elements (w ++ d) ts r := by
  cases h with
  | lastElement hw' hw'' h =>
    rw [← append_assoc]
    exact .lastElement (hw.append hw') hw'' h
  | element hw' hw'' h h' =>
    rw [← append_assoc]
    exact .element (hw.append hw') hw'' h h'

theorem Reads.length_lt (h : Reads raw n p d ts r) : r.length < d.length := by
  induction h with
  | number h =>
    obtain ⟨_, _, rfl, _⟩ := h.head
    simp only [cons_append, length_cons, length_append]
    omega
  | null | true | false =>
    simp only [nullText, trueText, falseText, cons_append, nil_append, length_cons]
    omega
  | _ =>
    simp only [length_cons, length_append] at *
    omega

theorem Chars.imp (h : Chars raw s) (hraw : ∀ b ∈ s, raw b → raw' b) : Chars raw' s := by
  induction h with
  | nil => exact .nil
  | byte hquote hback hb _ ih =>
    rw [forall_mem_cons] at hraw
    exact .byte hquote hback (hraw.1 hb) (ih hraw.2)
  | escape hc _ ih =>
    rw [forall_mem_cons, forall_mem_cons] at hraw
    exact .escape hc (ih hraw.2.2)
  | «unicode» h1 h2 h3 h4 _ ih =>
    simp only [forall_mem_cons] at hraw
    exact .unicode h1 h2 h3 h4 (ih hraw.2.2.2.2.2.2)

def Graphic (b : UInt8) : Prop :=
  0x20 ≤ b.toNat

instance : DecidablePred Graphic := fun _ => inferInstanceAs (Decidable (_ ≤ _))

theorem Chars.graphic (h : Chars Graphic s) : ∀ b ∈ s, Graphic b := by
  have hhex (b : UInt8) (hb : IsHex b) : Graphic b := by
    unfold IsHex IsDigit at hb
    unfold Graphic
    omega
  induction h with
  | nil => exact fun b hb => absurd hb not_mem_nil
  | byte _ _ hb _ ih => exact forall_mem_cons.mpr ⟨hb, ih⟩
  | escape hc _ ih =>
    have hgraphic : ∀ c ∈ escapes, Graphic c := by decide +kernel
    simp only [forall_mem_cons]
    exact ⟨by decide, hgraphic _ hc, ih⟩
  | «unicode» h1 h2 h3 h4 _ ih =>
    simp only [forall_mem_cons]
    exact ⟨by decide, by decide, hhex _ h1, hhex _ h2, hhex _ h3, hhex _ h4, ih⟩

theorem Reads.imp (h : Reads raw n p d ts r) (hs : ∀ s, .string s ∈ ts → Chars raw s → Chars raw' s)
    : Reads raw' n p d ts r := by
  induction h with
  | null => exact .null
  | true => exact .true
  | false => exact .false
  | number h => exact .number h
  | string h => exact .string (hs _ mem_cons_self h)
  | emptyArray hw => exact .emptyArray hw
  | array _ ih => exact .array (ih fun s hmem => hs s (mem_cons_of_mem _ hmem))
  | emptyObject hw => exact .emptyObject hw
  | object _ ih => exact .object (ih fun s hmem => hs s (mem_cons_of_mem _ hmem))
  | lastElement hw hw' _ ih => exact .lastElement hw hw' (ih fun s hmem => hs s (mem_append_left _ hmem))
  | element hw hw' _ _ ih ih' =>
    exact .element hw hw' (ih fun s hmem => hs s (mem_append_left _ hmem))
      (ih' fun s hmem => hs s (mem_append_right _ hmem))
  | lastMember hw hkey hw1 hw2 hw' _ ih =>
    exact .lastMember hw (hs _ mem_cons_self hkey) hw1 hw2 hw'
      (ih fun s hmem => hs s (mem_cons_of_mem _ (mem_append_left _ hmem)))
  | member hw hkey hw1 hw2 hw' _ _ ih ih' =>
    exact .member hw (hs _ mem_cons_self hkey) hw1 hw2 hw'
      (ih fun s hmem => hs s (mem_cons_of_mem _ (mem_append_left _ hmem)))
      (ih' fun s hmem => hs s (mem_cons_of_mem _ (mem_append_right _ hmem)))

theorem Reads.chars (h : Reads raw n p d ts r) (hmem : .string s ∈ ts) : Chars raw s := by
  induction h with
  | string h =>
    cases mem_singleton.mp hmem
    exact h
  | array _ ih | object _ ih => exact ih ((mem_cons.mp hmem).resolve_left (by simp))
  | lastElement _ _ _ ih => exact ih ((mem_append.mp hmem).resolve_right (by simp))
  | element _ _ _ _ ih ih' => exact (mem_append.mp hmem).elim ih ih'
  | lastMember _ hkey _ _ _ _ ih =>
    rcases mem_cons.mp hmem with heq | hmem
    . cases heq
      exact hkey
    . exact ih ((mem_append.mp hmem).resolve_right (by simp))
  | member _ hkey _ _ _ _ _ ih ih' =>
    rcases mem_cons.mp hmem with heq | hmem
    . cases heq
      exact hkey
    . exact (mem_append.mp hmem).elim ih ih'
  | _ => simp at hmem

theorem text_graphic_iff : Text Graphic n data ts ↔ Text Any n data ts ∧ ∀ s, .string s ∈ ts → ∀ b ∈ s, Graphic b := by
  constructor
  . rintro ⟨w, d, w', hw, hw', heq, h⟩
    refine ⟨⟨w, d, w', hw, hw', heq, h.imp fun s _ hs => hs.imp fun _ _ _ => trivial⟩, ?_⟩
    intro s hmem
    exact (h.chars hmem).graphic
  . rintro ⟨⟨w, d, w', hw, hw', heq, h⟩, hs⟩
    exact ⟨w, d, w', hw, hw', heq, h.imp fun s hmem hchars => hchars.imp fun b hb _ => hs s hmem b hb⟩

end JsonText
