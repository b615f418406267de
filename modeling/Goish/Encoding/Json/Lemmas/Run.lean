import Goish.Encoding.Json.Lemmas.Scalars

open List JsonText Strconv

namespace Json

def AllAccepted (ts : List Token) : Prop :=
  ∀ lit, .number lit ∈ ts → Accepted lit

def Key (s d r : List UInt8) : Prop :=
  ∃ w w₁ w₂, Space w ∧ Space w₁ ∧ Space w₂ ∧ Chars Any s ∧ d = w ++ 0x22 :: (s ++ 0x22 :: (w₁ ++ 0x3A :: (w₂ ++ r)))

inductive Begins (depth : Nat) (data : List UInt8) : Round → List UInt8 → Prop where
  | scalar (h : ∀ n, Reads Any n .value data ts rest) (hok : AllAccepted ts) : Begins depth data (.done v) rest
  | empty (hdepth : depth < maxNestingDepth) (h : ∀ n, Reads Any (n + 1) .value data ts rest) (hok : AllAccepted ts)
    : Begins depth data (.done v) rest
  | arr (hdepth : depth < maxNestingDepth) (hw : Space w) (h : data = 0x5B :: (w ++ rest))
    : Begins depth data (.next (.arr [])) rest
  | obj (hdepth : depth < maxNestingDepth) (h : data = 0x7B :: d) (hkey : Key s d rest)
    : Begins depth data (.next (.obj [] k)) rest

inductive Attaches (data : List UInt8) : Frame → Round → List UInt8 → Prop where
  | comma (hw : Space w) (h : data = 0x2C :: (w ++ rest)) : Attaches data (.arr items) (.next (.arr items')) rest
  | bracket (h : data = 0x5D :: rest) : Attaches data (.arr items) (.done v) rest
  | member (h : data = 0x2C :: d) (hkey : Key s d rest) : Attaches data (.obj m k) (.next (.obj m' k')) rest
  | brace (h : data = 0x7D :: rest) : Attaches data (.obj m k) (.done v) rest

variable {data d r rest : List UInt8} {ts : List Token} {stack : List Frame} {round : Round}

theorem AllAccepted.append (h : AllAccepted ts) (h' : AllAccepted ts') : AllAccepted (ts ++ ts') := by
  intro lit hmem
  exact (mem_append.mp hmem).elim (h lit) (h' lit)

theorem AllAccepted.cons (h : AllAccepted ts) (ht : ∀ lit, t ≠ .number lit) : AllAccepted (t :: ts) := by
  intro lit hmem
  exact (mem_cons.mp hmem).elim (fun heq => absurd heq.symm (ht lit)) (h lit)

theorem Key.space (h : Key s d (w ++ r)) (hw : Space w) : Key s d r := by
  obtain ⟨w0, w1, w2, hw0, hw1, hw2, hs, rfl⟩ := h
  exact ⟨w0, w1, w2 ++ w, hw0, hw1, hw2.append hw, hs, by rw [append_assoc]⟩

theorem expectCtx_sound (h : expectCtx c context data = .ok r) : data = c :: r := by
  unfold expectCtx at h
  split at h
  . next hhead =>
    rcases data with _ | ⟨_, _⟩
    . contradiction
    cases h
    cases hhead
    rfl
  . contradiction

theorem expectCtx_cons (c : UInt8) (context : String) (r : List UInt8) : expectCtx c context (c :: r) = .ok r := by
  unfold expectCtx
  rw [if_pos (by rfl)]
  rfl

theorem readObjectKey_sound (h : readObjectKey data = .ok (k, r)) : ∃ s, Key s data r := by
  obtain ⟨⟨_, rest⟩, hkey, h1⟩ := bind_eq_ok h
  obtain ⟨rest', hcolon, h2⟩ := bind_eq_ok h1
  cases h2
  obtain ⟨s, hs, hdata⟩ := parseStringBytes_sound hkey
  obtain ⟨w, hw, hw'⟩ := exists_skipWs data
  obtain ⟨w1, hw1, hw1'⟩ := exists_skipWs rest
  obtain ⟨w2, hw2, hw2'⟩ := exists_skipWs rest'
  rw [expectCtx_sound hcolon] at hw1'
  refine ⟨s, w, w1, w2, hw, hw1, hw2, hs, ?_⟩
  rw [← hw2', ← hw1', ← hdata, ← hw']

theorem readObjectKey_append (hw : Space w) (hw1 : Space w1) (hw2 : Space w2)
    (hk : parseStringBytes (0x22 :: d) = .ok (k, w1 ++ 0x3A :: (w2 ++ r)))
    : readObjectKey (w ++ 0x22 :: d) = .ok (k, skipWs r) := by
  unfold readObjectKey
  rw [skipWs_append hw, skipWs_cons (by decide), hk]
  dsimp only [bind, Except.bind]
  rw [skipWs_append hw1, skipWs_cons (by decide)]
  rw [expectCtx_cons]
  dsimp only
  rw [skipWs_append hw2]

theorem head_eq_some (h : data.head? = some b) : data = b :: data.drop 1 := by
  rcases data with _ | ⟨_, _⟩
  . contradiction
  cases h
  rfl

theorem allAccepted_singleton (ht : ∀ lit, t ≠ .number lit) : AllAccepted [t] := by
  intro lit hmem
  exact absurd (mem_singleton.mp hmem).symm (ht lit)

theorem beginValue_sound (h : beginValue depth data = .ok (round, rest)) : Begins depth data round rest := by
  unfold beginValue at h
  split at h
  . contradiction
  next b tail =>
  split at h
  . next hopen =>
    split at h
    . contradiction
    next hdepth =>
    have hdepth : depth < maxNestingDepth := by omega
    obtain ⟨w, hw, htail⟩ := exists_skipWs tail
    dsimp only at h
    generalize skipWs tail = inner at h htail
    subst htail
    split at h
    . next hb =>
      subst hb
      split at h
      . next hclose =>
        obtain ⟨r, rfl⟩ : ∃ r, inner = 0x5D :: r := ⟨_, head_eq_some hclose⟩
        cases h
        have hok : AllAccepted [.beginArray, .endArray] := .cons (allAccepted_singleton (by simp)) (by simp)
        exact .empty hdepth (fun n => .emptyArray hw) hok
      . cases h
        exact .arr hdepth hw rfl
    next hb =>
    have hb : b = 0x7B := hopen.resolve_left hb
    subst hb
    split at h
    . next hclose =>
      obtain ⟨r, rfl⟩ : ∃ r, inner = 0x7D :: r := ⟨_, head_eq_some hclose⟩
      cases h
      have hok : AllAccepted [.beginObject, .endObject] := .cons (allAccepted_singleton (by simp)) (by simp)
      exact .empty hdepth (fun n => .emptyObject hw) hok
    . obtain ⟨_, hkey, h1⟩ := bind_eq_ok h
      cases h1
      obtain ⟨s, w', w1, w2, hw', hw1, hw2, hs, heq⟩ := readObjectKey_sound hkey
      refine .obj hdepth rfl (s := s) ⟨w ++ w', w1, w2, hw.append hw', hw1, hw2, hs, ?_⟩
      rw [heq, append_assoc]
  . split at h
    . obtain ⟨_, hv, h1⟩ := bind_eq_ok h
      cases h1
      obtain ⟨_, hs, h2⟩ := bind_eq_ok hv
      cases h2
      obtain ⟨_, hs', heq⟩ := parseStringBytes_sound hs
      rw [heq]
      exact .scalar (fun n => .string hs') (allAccepted_singleton (by simp))
    split at h
    . obtain ⟨_, hv, h1⟩ := bind_eq_ok h
      cases h1
      rcases parseBool_sound hv with heq | heq
      . rw [heq]
        exact .scalar (fun n => .true) (allAccepted_singleton (by simp))
      . rw [heq]
        exact .scalar (fun n => .false) (allAccepted_singleton (by simp))
    split at h
    . obtain ⟨_, hv, h1⟩ := bind_eq_ok h
      cases h1
      rw [parseNull_sound hv]
      exact .scalar (fun n => .null) (allAccepted_singleton (by simp))
    split at h
    . obtain ⟨_, hv, h1⟩ := bind_eq_ok h
      cases h1
      obtain ⟨_, hlit, hok, heq⟩ := parseNumber_sound hv
      rw [heq]
      refine .scalar (fun n => .number hlit) ?_
      intro _ hmem
      cases mem_singleton.mp hmem
      exact hok
    . contradiction

theorem attach_sound (h : attach frame v data = .ok (round, rest)) : Attaches data frame round rest := by
  cases data with
  | nil =>
    cases frame with
    | arr | obj => contradiction
  | cons b tail =>
    cases frame with
    | arr =>
      dsimp only [attach] at h
      split at h
      . next hb =>
        obtain ⟨_, hw, htail⟩ := exists_skipWs tail
        subst hb
        cases h
        exact .comma hw (by rw [← htail])
      split at h
      . next hb =>
        subst hb
        cases h
        exact .bracket rfl
      . contradiction
    | obj =>
      dsimp only [attach] at h
      split at h
      . next hb =>
        subst hb
        obtain ⟨_, hkey, h1⟩ := bind_eq_ok h
        cases h1
        obtain ⟨_, hkey⟩ := readObjectKey_sound hkey
        exact .member rfl hkey
      . split at h
        . next hb =>
          subst hb
          cases h
          exact .brace rfl
        . contradiction

structure Read (n : Nat) (fuel : Nat) (stack : List Frame) (p : Part) (data : List UInt8) (res : Value × List UInt8)
    (ts : List Token) (r : List UInt8) : Prop where
  reads : Reads Any n p data ts r
  accepted : AllAccepted ts
  goes : ∃ fuel' < fuel, ∃ v, run fuel' stack (some v) r = some (.ok res)

def ValueSound (fuel : Nat) : Prop :=
  ∀ ⦃stack data res n⦄, run fuel stack none data = some (.ok res) → stack.length + n = maxNestingDepth →
    ∃ w d ts r, Space w ∧ data = w ++ d ∧ Read n fuel stack .value d res ts r

def ElementsSound (fuel : Nat) : Prop :=
  ∀ ⦃stack data res n items⦄, run fuel (.arr items :: stack) none data = some (.ok res) →
    stack.length + 1 + n = maxNestingDepth → ∃ ts r, Read n fuel stack .elements data res ts r

def MembersSound (fuel : Nat) : Prop :=
  ∀ ⦃stack data res n m k s d⦄, run fuel (.obj m k :: stack) none data = some (.ok res) →
    stack.length + 1 + n = maxNestingDepth → Key s d data → ∃ ts r, Read n fuel stack .members d res ts r

def Goes (fuel : Nat) (stack : List Frame) (res : Value × List UInt8) (rest : List UInt8) : Round → Prop
  | .done v => run fuel stack (some v) rest = some (.ok res)
  | .next frame => run fuel (frame :: stack) none rest = some (.ok res)

theorem run_attach (h : run fuel (frame :: stack) (some v) data = some (.ok res))
    : ∃ fuel' < fuel, ∃ w d, Space w ∧ data = w ++ d ∧ ∃ round rest, Attaches d frame round rest ∧
        Goes fuel' stack res rest round := by
  rcases fuel with _ | fuel
  . contradiction
  obtain ⟨w, hw, hdata⟩ := exists_skipWs data
  refine ⟨fuel, Nat.lt_succ_self _, w, skipWs data, hw, hdata, ?_⟩
  rw [run] at h
  split at h
  . simp at h
  all_goals next hattach => exact ⟨_, _, attach_sound hattach, h⟩

theorem elements_sound (fuel : Nat) (hvalue : ValueSound fuel) (ih : ∀ fuel' < fuel, ElementsSound fuel')
    : ElementsSound fuel := by
  intro _ _ _ _ _ h hn
  obtain ⟨_, _, _, _, hw, rfl, hread⟩ := hvalue h (by simpa using hn)
  obtain ⟨_, _, _, hrun⟩ := hread.goes
  obtain ⟨fuel2, _, _, _, hw', rfl, _, _, hattach, hgoes⟩ := run_attach hrun
  cases hattach with
  | comma hw'' heq =>
    subst heq
    obtain ⟨_, _, hread'⟩ := ih fuel2 (by omega) hgoes hn
    obtain ⟨fuel3, _, v', hrun''⟩ := hread'.goes
    exact ⟨_, _, .element hw hw' hread.reads (hread'.reads.space_elements hw''), hread.accepted.append hread'.accepted,
      fuel3, by omega, v', hrun''⟩
  | bracket heq =>
    subst heq
    exact ⟨_, _, .lastElement hw hw' hread.reads, hread.accepted.append (allAccepted_singleton (by simp)), fuel2, by omega,
      _, hgoes⟩

theorem members_sound (fuel : Nat) (hvalue : ValueSound fuel) (ih : ∀ fuel' < fuel, MembersSound fuel')
    : MembersSound fuel := by
  intro _ _ _ _ _ _ _ _ h hn hkey
  obtain ⟨_, _, _, _, hw, rfl, hread⟩ := hvalue h (by simpa using hn)
  obtain ⟨_, _, _, hw0, hw1, hw2, hs, rfl⟩ := hkey.space hw
  obtain ⟨_, _, _, hrun⟩ := hread.goes
  obtain ⟨fuel2, _, _, _, hw', rfl, _, _, hattach, hgoes⟩ := run_attach hrun
  cases hattach with
  | member heq hkey' =>
    subst heq
    obtain ⟨_, _, hread'⟩ := ih fuel2 (by omega) hgoes hn hkey'
    obtain ⟨fuel3, _, v', hrun''⟩ := hread'.goes
    exact ⟨_, _, .member hw0 hs hw1 hw2 hw' hread.reads hread'.reads,
      (hread.accepted.append hread'.accepted).cons (by simp), fuel3, by omega, v', hrun''⟩
  | brace heq =>
    subst heq
    exact ⟨_, _, .lastMember hw0 hs hw1 hw2 hw' hread.reads,
      (hread.accepted.append (allAccepted_singleton (by simp))).cons (by simp), fuel2, by omega, _, hgoes⟩

theorem run_begin (h : run fuel stack none data = some (.ok res))
    : ∃ fuel' < fuel, ∃ w d, Space w ∧ data = w ++ d ∧ ∃ round rest, Begins stack.length d round rest ∧
        Goes fuel' stack res rest round := by
  rcases fuel with _ | fuel
  . contradiction
  obtain ⟨w, hw, hdata⟩ := exists_skipWs data
  refine ⟨fuel, Nat.lt_succ_self _, w, skipWs data, hw, hdata, ?_⟩
  rw [run] at h
  split at h
  . simp at h
  all_goals next hbegin => exact ⟨_, _, beginValue_sound hbegin, h⟩

theorem value_sound (fuel : Nat) (ih : ∀ fuel' < fuel, ElementsSound fuel') (ih' : ∀ fuel' < fuel, MembersSound fuel')
    : ValueSound fuel := by
  intro stack _ _ n h _
  obtain ⟨fuel1, hlt1, w, d, hw, rfl, _, rest, hbegin, hgoes⟩ := run_begin h
  refine ⟨w, d, ?_⟩
  cases hbegin with
  | scalar hreads hok => exact ⟨_, rest, hw, rfl, hreads n, hok, fuel1, hlt1, _, hgoes⟩
  | empty _ hreads hok =>
    rcases n with _ | n
    . omega
    exact ⟨_, rest, hw, rfl, hreads n, hok, fuel1, hlt1, _, hgoes⟩
  | arr _ hw' heq =>
    rcases n with _ | n
    . omega
    obtain ⟨_, r, hread⟩ := ih fuel1 hlt1 hgoes (show stack.length + 1 + n = maxNestingDepth by omega)
    obtain ⟨fuel2, _, v', hrun'⟩ := hread.goes
    subst heq
    exact ⟨_, r, hw, rfl, .array (hread.reads.space_elements hw'), hread.accepted.cons (by simp), fuel2, by omega, v', hrun'⟩
  | obj _ heq hkey =>
    rcases n with _ | n
    . omega
    obtain ⟨_, r, hread⟩ := ih' fuel1 hlt1 hgoes (show stack.length + 1 + n = maxNestingDepth by omega) hkey
    obtain ⟨fuel2, _, v', hrun'⟩ := hread.goes
    subst heq
    exact ⟨_, r, hw, rfl, .object hread.reads, hread.accepted.cons (by simp), fuel2, by omega, v', hrun'⟩

theorem run_sound (fuel : Nat) : ValueSound fuel ∧ ElementsSound fuel ∧ MembersSound fuel := by
  induction fuel using Nat.strong_induction_on with
  | _ fuel ih =>
    have hvalue := value_sound fuel (fun fuel' hlt => (ih fuel' hlt).2.1) (fun fuel' hlt => (ih fuel' hlt).2.2)
    exact ⟨hvalue, elements_sound fuel hvalue fun fuel' hlt => (ih fuel' hlt).2.1,
      members_sound fuel hvalue fun fuel' hlt => (ih fuel' hlt).2.2⟩

section Steps

theorem skipWs_skipWs (d : List UInt8) : skipWs (skipWs d) = skipWs d := by
  obtain ⟨_, hw, hd⟩ := exists_skipWs d
  nth_rw 2 [hd]
  exact (skipWs_append hw (skipWs d)).symm

theorem run_skipWs (fuel : Nat) (stack : List Frame) (d : List UInt8)
    : run fuel stack none (skipWs d) = run fuel stack none d := by
  cases fuel with
  | zero => rfl
  | succ => rw [run, run, skipWs_skipWs]

theorem run_done (h : beginValue stack.length (skipWs d) = .ok (.done v, r)) (fuel : Nat)
    : run (fuel + 1) stack none d = run fuel stack (some v) r := by
  rw [run, h]

theorem run_next (h : beginValue stack.length (skipWs d) = .ok (.next frame, r)) (fuel : Nat)
    : run (fuel + 1) stack none d = run fuel (frame :: stack) none r := by
  rw [run, h]

section

variable (hw : Space w) (fuel : Nat) (stack : List Frame)
include hw

theorem run_space (d : List UInt8) : run fuel stack none (w ++ d) = run fuel stack none d := by
  rw [← run_skipWs, skipWs_append hw, run_skipWs]

theorem run_comma (items : List Value) (v : Value) (d : List UInt8)
    : run (fuel + 1) (.arr items :: stack) (some v) (w ++ 0x2C :: d) =
        run fuel (.arr (items ++ [v]) :: stack) none d := by
  rw [run, skipWs_append hw, skipWs_cons (by decide)]
  dsimp only [attach]
  rw [if_pos rfl]
  dsimp only
  rw [run_skipWs]

theorem run_bracket (items : List Value) (v : Value) (d : List UInt8)
    : run (fuel + 1) (.arr items :: stack) (some v) (w ++ 0x5D :: d) =
        run fuel stack (some (.array (items ++ [v]))) d := by
  rw [run, skipWs_append hw, skipWs_cons (by decide)]
  dsimp only [attach]
  rw [if_neg (by decide), if_pos rfl]

theorem run_member (m : List (List UInt8 × Value)) (v : Value)
    (h : readObjectKey d = .ok (k', r)) : run (fuel + 1) (.obj m k :: stack) (some v) (w ++ 0x2C :: d) =
        run fuel (.obj (setEntry k v m) k' :: stack) none r := by
  rw [run, skipWs_append hw, skipWs_cons (by decide)]
  dsimp only [attach]
  rw [if_pos rfl, h]
  rfl

theorem run_brace (m : List (List UInt8 × Value)) (v : Value)
    (d : List UInt8) : run (fuel + 1) (.obj m k :: stack) (some v) (w ++ 0x7D :: d) =
        run fuel stack (some (.object (setEntry k v m))) d := by
  rw [run, skipWs_append hw, skipWs_cons (by decide)]
  dsimp only [attach]
  rw [if_neg (by decide), if_pos rfl]

end

theorem beginValue_null (depth : Nat) (r : List UInt8) : beginValue depth (nullText ++ r) = .ok (.done .null, r) := by
  have h := parseNull_append r
  dsimp only [nullText, cons_append] at h ⊢
  unfold beginValue
  dsimp only
  rw [if_neg (by decide), if_neg (by decide), if_neg (by decide), if_pos rfl, h]
  rfl

theorem beginValue_true (depth : Nat) (r : List UInt8)
    : beginValue depth (trueText ++ r) = .ok (.done (.bool true), r) := by
  have h := parseBool_true r
  dsimp only [trueText, cons_append] at h ⊢
  unfold beginValue
  dsimp only
  rw [if_neg (by decide), if_neg (by decide), if_pos (by decide), h]
  rfl

theorem beginValue_false (depth : Nat) (r : List UInt8)
    : beginValue depth (falseText ++ r) = .ok (.done (.bool false), r) := by
  have h := parseBool_false r
  dsimp only [falseText, cons_append] at h ⊢
  unfold beginValue
  dsimp only
  rw [if_neg (by decide), if_neg (by decide), if_pos (by decide), h]
  rfl

theorem beginValue_number (depth : Nat) (h : Number lit) (hr : Stop r) (hok : Accepted lit)
    : beginValue depth (lit ++ r) = .ok (.done (.number (parseFloat lit).1), r) := by
  have hparse := parseNumber_append h hr hok
  obtain ⟨b, _, rfl, hb⟩ := h.head
  have hb' : b = 0x2D ∨ isDigit b = true := hb.imp_right (isDigit_iff b).mpr
  have hne (c : UInt8) (hc : c ≠ 0x2D ∧ ¬IsDigit c) : b ≠ c := by
    rintro rfl
    exact hb.elim hc.1 hc.2
  rw [cons_append] at hparse ⊢
  unfold beginValue
  dsimp only
  rw [if_neg, if_neg (hne _ (by decide)), if_neg, if_neg (hne _ (by decide)), if_pos hb', hparse]
  . rfl
  all_goals exact fun h => h.elim (hne _ (by decide)) (hne _ (by decide))

theorem beginValue_string (depth : Nat) (h : parseStringBytes (0x22 :: d) = .ok (s, r))
    : beginValue depth (0x22 :: d) = .ok (.done (.string s), r) := by
  unfold beginValue parseStringValue
  dsimp only
  rw [if_neg (by decide), if_pos rfl, h]
  rfl

variable {depth : Nat}

section

variable (hdepth : depth < maxNestingDepth)
include hdepth

theorem beginValue_emptyArray (hw : Space w) (r : List UInt8)
    : beginValue depth (0x5B :: (w ++ 0x5D :: r)) = .ok (.done (.array []), r) := by
  unfold beginValue
  dsimp only
  rw [if_pos (.inl rfl), if_neg (by omega), if_pos rfl, skipWs_append hw, skipWs_cons (by decide)]
  rfl

theorem beginValue_array (hd : (skipWs d).head? ≠ some 0x5D)
    : beginValue depth (0x5B :: d) = .ok (.next (.arr []), skipWs d) := by
  unfold beginValue
  dsimp only
  rw [if_pos (.inl rfl), if_neg (by omega), if_pos rfl, if_neg hd]

theorem beginValue_emptyObject (hw : Space w) (r : List UInt8)
    : beginValue depth (0x7B :: (w ++ 0x7D :: r)) = .ok (.done (.object []), r) := by
  unfold beginValue
  dsimp only
  rw [if_pos (.inr rfl), if_neg (by omega), if_neg (by decide), skipWs_append hw, skipWs_cons (by decide)]
  rfl

theorem beginValue_object (hd : (skipWs d).head? ≠ some 0x7D)
    (hkey : readObjectKey (skipWs d) = .ok (k, r)) : beginValue depth (0x7B :: d) = .ok (.next (.obj [] k), r) := by
  unfold beginValue
  dsimp only
  rw [if_pos (.inr rfl), if_neg (by omega), if_neg (by decide), if_neg hd, hkey]
  rfl

end

end Steps

def Yields (n : Nat) (d : List UInt8) (v : Value) (r : List UInt8) : Prop :=
  ∀ stack : List Frame, stack.length + n ≤ maxNestingDepth →
    ∃ k, k + r.length ≤ d.length ∧ ∀ fuel, run (fuel + k) stack none d = run fuel stack (some v) r

def YieldsItems (n : Nat) (d : List UInt8) (vs : List Value) (r : List UInt8) : Prop :=
  ∀ (stack : List Frame) items, stack.length + 1 + n ≤ maxNestingDepth →
    ∃ k, k + r.length ≤ d.length ∧
      ∀ fuel, run (fuel + k) (.arr items :: stack) none d = run fuel stack (some (.array (items ++ vs))) r

def YieldsEntries (n : Nat) (d : List UInt8) (es : List (List UInt8 × Value)) (r : List UInt8) : Prop :=
  ∀ (stack : List Frame) m, stack.length + 1 + n ≤ maxNestingDepth →
    ∃ k key d', k + r.length ≤ d.length ∧ readObjectKey d = .ok (key, d') ∧ ∀ fuel,
      run (fuel + k) (.obj m key :: stack) none d' =
        run fuel stack (some (.object (es.foldl (fun m e => setEntry e.1 e.2 m) m))) r

theorem head_elements (h : Reads raw n .elements d ts r) : (skipWs d).head? ≠ some 0x5D := by
  obtain ⟨_, hw, hd⟩ := exists_skipWs d
  intro hhead
  rw [head_eq_some hhead] at hd
  exact bracket_ne_elements hw h hd.symm

theorem head_members (h : Reads raw n .members d ts r) : (skipWs d).head? ≠ some 0x7D := by
  obtain ⟨_, hw, hd⟩ := exists_skipWs d
  intro hhead
  rw [head_eq_some hhead] at hd
  exact bracket_ne_members hw h hd.symm

theorem readObjectKey_skipWs (d : List UInt8) : readObjectKey (skipWs d) = readObjectKey d := by
  unfold readObjectKey
  rw [skipWs_skipWs]

theorem Yields.of_begin (h : ∀ depth, depth + n ≤ maxNestingDepth → beginValue depth d = .ok (.done v, r))
    : Yields n d v r := by
  intro stack hdepth
  have hbegin := h stack.length hdepth
  obtain ⟨_, _, hreads⟩ : ∃ n ts, Reads Any n .value d ts r := by
    cases beginValue_sound hbegin with
    | scalar h => exact ⟨0, _, h 0⟩
    | empty _ h => exact ⟨1, _, h 0⟩
  have hlen := hreads.length_lt
  refine ⟨1, by omega, ?_⟩
  intro _
  apply run_done
  rw [skipWs_value hreads, hbegin]

theorem Yields.emptyArray (hw : Space w) : Yields (n + 1) (0x5B :: (w ++ 0x5D :: r)) (.array []) r :=
  .of_begin fun _ hdepth => beginValue_emptyArray (by omega) hw r

theorem Yields.emptyObject (hw : Space w) : Yields (n + 1) (0x7B :: (w ++ 0x7D :: r)) (.object []) r :=
  .of_begin fun _ hdepth => beginValue_emptyObject (by omega) hw r

theorem Yields.array (hd : Reads raw n' .elements d ts r) (h : YieldsItems n d vs r)
    : Yields (n + 1) (0x5B :: d) (.array vs) r := by
  intro stack hdepth
  obtain ⟨k, hlen, hrun⟩ := h stack [] (by omega)
  refine ⟨k + 1, ?_, ?_⟩
  . rw [length_cons]
    omega
  intro _
  have hbegin : beginValue stack.length (skipWs (0x5B :: d)) = .ok (.next (.arr []), skipWs d) := by
    rw [skipWs_cons (by decide)]
    exact beginValue_array (by omega) (head_elements hd)
  rw [← Nat.add_assoc, run_next hbegin, run_skipWs, hrun, nil_append]

theorem Yields.object (hd : Reads raw n' .members d ts r) (h : YieldsEntries n d es r)
    : Yields (n + 1) (0x7B :: d) (.object (es.foldl (fun m e => setEntry e.1 e.2 m) [])) r := by
  intro stack hdepth
  obtain ⟨k, key, d', hlen, hkey, hrun⟩ := h stack [] (by omega)
  refine ⟨k + 1, ?_, ?_⟩
  . rw [length_cons]
    omega
  intro _
  rw [← readObjectKey_skipWs] at hkey
  have hbegin : beginValue stack.length (skipWs (0x7B :: d)) = .ok (.next (.obj [] key), d') := by
    rw [skipWs_cons (by decide)]
    exact beginValue_object (by omega) (head_members hd) hkey
  rw [← Nat.add_assoc, run_next hbegin, hrun]

theorem Yields.lastItem (hw : Space w) (hw' : Space w') (h : Yields n d v (w' ++ 0x5D :: r))
    : YieldsItems n (w ++ d) [v] r := by
  intro stack items hdepth
  obtain ⟨k, hlen, hrun⟩ := h (.arr items :: stack) (by simpa using hdepth)
  refine ⟨k + 1, ?_, ?_⟩
  . simp only [length_append, length_cons] at hlen ⊢
    omega
  . intro _
    rw [Nat.add_comm k, ← Nat.add_assoc, run_space hw, hrun, run_bracket hw']

theorem Yields.item (hw : Space w) (hw' : Space w') (h : Yields n d v (w' ++ 0x2C :: d')) (h' : YieldsItems n d' vs r)
    : YieldsItems n (w ++ d) (v :: vs) r := by
  intro stack items hdepth
  obtain ⟨k, hlen, hrun⟩ := h (.arr items :: stack) (by simpa using hdepth)
  obtain ⟨k', hlen', hrun'⟩ := h' stack (items ++ [v]) hdepth
  refine ⟨k' + 1 + k, ?_, ?_⟩
  . simp only [length_append, length_cons] at hlen ⊢
    omega
  . intro _
    rw [← Nat.add_assoc, ← Nat.add_assoc, run_space hw, hrun, run_comma hw', hrun', append_assoc, singleton_append]

section

variable (hkey : readObjectKey x = .ok (key, skipWs d)) (hx : d.length ≤ x.length)
include hkey hx

theorem Yields.lastEntry (hw' : Space w') (h : Yields n d v (w' ++ 0x7D :: r)) : YieldsEntries n x [(key, v)] r := by
  intro stack m hdepth
  obtain ⟨k, hlen, hrun⟩ := h (.obj m key :: stack) (by simpa using hdepth)
  refine ⟨k + 1, key, _, ?_, hkey, ?_⟩
  . simp only [length_append, length_cons] at hlen ⊢
    omega
  . intro _
    rw [Nat.add_comm k, ← Nat.add_assoc, run_skipWs, hrun, run_brace hw']
    rfl

theorem Yields.entry (hw' : Space w') (h : Yields n d v (w' ++ 0x2C :: d')) (h' : YieldsEntries n d' es r)
    : YieldsEntries n x ((key, v) :: es) r := by
  intro stack m hdepth
  obtain ⟨k, hlen, hrun⟩ := h (.obj m key :: stack) (by simpa using hdepth)
  obtain ⟨k', _, _, hlen', hread', hrun'⟩ := h' stack (setEntry key v m) hdepth
  refine ⟨k' + 1 + k, key, _, ?_, hkey, ?_⟩
  . simp only [length_append, length_cons] at hlen ⊢
    omega
  . intro _
    rw [← Nat.add_assoc, ← Nat.add_assoc, run_skipWs, hrun, run_member hw' _ _ _ _ hread', hrun']
    rfl

end

def Completes (n : Nat) : Part → List UInt8 → List UInt8 → Prop
  | .value, d, r => Stop r → ∃ v, Yields n d v r
  | .elements, d, r => ∃ vs, YieldsItems n d vs r
  | .members, d, r => ∃ es, YieldsEntries n d es r

theorem run_complete (h : Reads Any n p d ts r) (hok : AllAccepted ts) : Completes n p d r := by
  induction h with
  | null => exact fun _ => ⟨_, .of_begin fun depth _ => beginValue_null depth _⟩
  | true => exact fun _ => ⟨_, .of_begin fun depth _ => beginValue_true depth _⟩
  | false => exact fun _ => ⟨_, .of_begin fun depth _ => beginValue_false depth _⟩
  | number h =>
    intro hr
    exact ⟨_, .of_begin fun depth _ => beginValue_number depth h hr (hok _ mem_cons_self)⟩
  | string h =>
    rename_i r
    intro _
    obtain ⟨_, hout⟩ := parseStringBytes_append h r
    exact ⟨_, .of_begin fun depth _ => beginValue_string depth hout⟩
  | emptyArray hw => exact fun _ => ⟨_, .emptyArray hw⟩
  | array h ih =>
    intro _
    obtain ⟨_, hitems⟩ := ih fun lit hmem => hok lit (mem_cons_of_mem _ hmem)
    exact ⟨_, .array h hitems⟩
  | emptyObject hw => exact fun _ => ⟨_, .emptyObject hw⟩
  | object h ih =>
    intro _
    obtain ⟨_, hentries⟩ := ih fun lit hmem => hok lit (mem_cons_of_mem _ hmem)
    exact ⟨_, .object h hentries⟩
  | lastElement hw hw' _ ih =>
    obtain ⟨_, hv⟩ := ih (fun lit hmem => hok lit (mem_append_left _ hmem)) (.append hw' (by decide))
    exact ⟨_, hv.lastItem hw hw'⟩
  | element hw hw' _ _ ih ih' =>
    obtain ⟨_, hv⟩ := ih (fun lit hmem => hok lit (mem_append_left _ hmem)) (.append hw' (by decide))
    obtain ⟨_, hvs⟩ := ih' fun lit hmem => hok lit (mem_append_right _ hmem)
    exact ⟨_, hv.item hw hw' hvs⟩
  | lastMember hw hs hw1 hw2 hw' _ ih =>
    obtain ⟨_, hv⟩ := ih (fun lit hmem => hok lit (mem_cons_of_mem _ (mem_append_left _ hmem))) (.append hw' (by decide))
    obtain ⟨_, hout⟩ := parseStringBytes_append hs _
    refine ⟨_, hv.lastEntry (readObjectKey_append hw hw1 hw2 hout) ?_ hw'⟩
    simp only [length_append, length_cons]
    omega
  | member hw hs hw1 hw2 hw' _ _ ih ih' =>
    obtain ⟨_, hv⟩ := ih (fun lit hmem => hok lit (mem_cons_of_mem _ (mem_append_left _ hmem))) (.append hw' (by decide))
    obtain ⟨_, hes⟩ := ih' fun lit hmem => hok lit (mem_cons_of_mem _ (mem_append_right _ hmem))
    obtain ⟨_, hout⟩ := parseStringBytes_append hs _
    refine ⟨_, hv.entry (readObjectKey_append hw hw1 hw2 hout) ?_ hw' hes⟩
    simp only [length_append, length_cons]
    omega

end Json
