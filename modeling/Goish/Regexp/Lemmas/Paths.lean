import Goish.Regexp.Paths
import Goish.Unicode.Utf8.Lemmas.Utf8

open List

namespace Regexp

variable {text : List UInt8} {o : Option Res} {x y : Option (Nat × Caps)} {k : Nat → Caps → Option (Nat × Caps)}
  {F lo pos q : Nat} {cont : List Item}

@[elab_as_elim]
theorem Node.induct {P : Node → Prop} (leaf : ∀ l, P (.leaf l)) (group : ∀ idx inner, P inner → P (.group idx inner))
    (nonCap : ∀ inner, P inner → P (.nonCap inner)) (concat : ∀ items, (∀ node ∈ items, P node) → P (.concat items))
    (alt : ∀ branches, (∀ node ∈ branches, P node) → P (.alt branches))
    (repeats : ∀ node min max hle greedy, P node → P (.repeats node min max hle greedy)) (node : Node) : P node :=
  @Node.rec P (fun nodes => ∀ node ∈ nodes, P node) leaf group nonCap concat alt repeats
    (fun _ h => nomatch h) (fun _ _ h hs => forall_mem_cons.mpr ⟨h, hs⟩) node

def found (r : Res) : Option (Nat × Caps) :=
  r.1.map fun e => (e, r.2)

def Finds (o : Option Res) (x : Option (Nat × Caps)) : Prop :=
  ∃ r, o = some r ∧ found r = x

theorem Finds.fail (caps : Caps) : Finds (some (none, caps)) none :=
  ⟨_, rfl, rfl⟩

theorem Finds.orElse {next : Caps → Option Res} (h : Finds o x) (h' : ∀ caps, Finds (next caps) y)
    : Finds (orElse o next) (x.or y) := by
  obtain ⟨⟨e, caps⟩, rfl, rfl⟩ := h
  cases e with
  | none => exact h' caps
  | some => exact ⟨_, rfl, rfl⟩

theorem Finds.orFail {next : Caps → Caps} (h : Finds o x) : Finds (Regexp.orElse o fun caps => some (none, next caps)) x := by
  have := h.orElse fun caps => Finds.fail (next caps)
  rwa [Option.or_none] at this

def first (k : Nat → Caps → Option (Nat × Caps)) (l : List (Nat × Caps)) : Option (Nat × Caps) :=
  l.findSome? fun x => k x.1 x.2

theorem first_cons (x : Nat × Caps) (l : List (Nat × Caps)) : first k (x :: l) = (k x.1 x.2).or (first k l) := by
  unfold first
  rw [List.findSome?_cons]
  cases k x.1 x.2 <;> rfl

theorem first_append (l l' : List (Nat × Caps)) : first k (l ++ l') = (first k l).or (first k l') :=
  List.findSome?_append

theorem first_flatMap (l : List (Nat × Caps)) (f : Nat × Caps → List (Nat × Caps))
    : first k (l.flatMap f) = first (fun q caps => first k (f (q, caps))) l := by
  induction l with
  | nil => rfl
  | cons x l ih => rw [flatMap_cons, first_append, ih, first_cons]

def Runs (text : List UInt8) (F lo : Nat) (m : Nat → Nat → Caps → Option Res) (k : Nat → Caps → Option (Nat × Caps)) : Prop :=
  ∀ fuel, F ≤ fuel → ∀ pos, lo ≤ pos → pos ≤ text.length → ∀ caps, Finds (m fuel pos caps) (k pos caps)

def ContRuns (text : List UInt8) (F lo : Nat) (cont : List Item) : (Nat → Caps → Option (Nat × Caps)) → Prop :=
  Runs text F lo fun fuel pos caps => matchCont text fuel pos caps cont

def Node.Adequate (text : List UInt8) (node : Node) : Prop :=
  ∀ cont F lo k, ContRuns text F lo cont k →
    Runs text (F + node.fuel text.length) lo (fun fuel pos caps => tryMatch text fuel node pos caps cont)
      fun pos caps => first k (node.paths .code text pos caps)

theorem rune_bounds (h : rune text pos test = some q) : pos < q ∧ q ≤ text.length := by
  unfold rune at h
  split at h
  . contradiction
  next hlt =>
  dsimp only at h
  split at h
  . rw [Option.some.injEq] at h
    have hne : text.drop pos ≠ [] := drop_eq_nil_iff.not.mpr (by omega)
    have := Utf8.decodeRune_length_pos hne
    rw [length_drop] at this
    unfold decodeRune at h
    omega
  . contradiction

theorem Leaf.step_bounds (l : Leaf) (hpos : pos ≤ text.length) (h : l.step text pos = some q)
    : pos ≤ q ∧ q ≤ text.length := by
  unfold Leaf.step at h
  split at h
  all_goals first
    | exact ⟨Nat.le_of_lt (rune_bounds h).1, (rune_bounds h).2⟩
    | split at h
      . cases h
        exact ⟨le_rfl, hpos⟩
      . contradiction

attribute [local simp] first

theorem leaf_adequate (l : Leaf) : (Node.leaf l).Adequate text := by
  intro _ _ _ _ hcont fuel hfuel pos _ hpos caps
  simp only [Node.fuel] at hfuel
  rcases fuel with _ | fuel
  . omega
  simp only [tryMatch, Node.paths]
  cases hstep : l.step text pos with
  | none => exact Finds.fail caps
  | some q =>
    obtain ⟨_, hq⟩ := l.step_bounds hpos hstep
    have := hcont fuel (by omega) q (by omega) hq caps
    simpa using this

theorem group_adequate (idx : Nat) {inner : Node} (ih : inner.Adequate text) : (Node.group idx inner).Adequate text := by
  intro cont F lo k hcont fuel hfuel pos hlo hpos caps
  simp only [Node.fuel] at hfuel
  rcases fuel with _ | fuel
  . omega
  simp only [tryMatch, Node.paths]
  have hend : ContRuns text (F + 1) lo (.endGroup idx :: cont) fun q caps =>
      k q (caps.set idx ((slot caps idx).1, asI32 q)) := by
    intro fuel _ q hlo hq _
    rcases fuel with _ | fuel
    . omega
    simp only [matchCont]
    exact (hcont fuel (by omega) q hlo hq _).orFail
  have := ih _ _ _ _ hend fuel (by omega) pos hlo hpos (caps.set idx (asI32 pos, -1))
  simp only [first, List.findSome?_map]
  exact this.orFail

theorem nonCap_adequate {inner : Node} (ih : inner.Adequate text) : (Node.nonCap inner).Adequate text := by
  intro cont F lo k hcont fuel hfuel pos hlo hpos caps
  simp only [Node.fuel] at hfuel
  rcases fuel with _ | fuel
  . omega
  simp only [tryMatch, Node.paths]
  exact ih cont F lo k hcont fuel (by omega) pos hlo hpos caps

def SeqAdequate (text : List UInt8) (nodes : List Node) : Prop :=
  ∀ cont F lo k, ContRuns text F lo cont k →
    ContRuns text (F + seqFuel text.length nodes) lo (nodes.map .node ++ cont)
      fun pos caps => first k (seqPaths .code text nodes pos caps)

theorem seq_adequate (ih : ∀ node ∈ nodes, node.Adequate text) : SeqAdequate text nodes := by
  induction nodes with
  | nil =>
    intro _ _ _ _ hcont fuel hfuel pos hlo hpos caps
    have := hcont fuel hfuel pos hlo hpos caps
    simp only [seqPaths]
    simpa using this
  | cons _ _ ihl =>
    rw [forall_mem_cons] at ih
    intro cont F lo k hcont fuel hfuel pos hlo hpos caps
    simp only [seqFuel] at hfuel
    rcases fuel with _ | fuel
    . omega
    simp only [seqPaths, first_flatMap, map_cons, cons_append, matchCont]
    exact ih.1 _ _ _ _ (ihl ih.2 cont F lo k hcont) fuel (by omega) pos hlo hpos caps

theorem concat_adequate (ih : SeqAdequate text items) : (Node.concat items).Adequate text := by
  intro cont F lo k hcont fuel hfuel pos hlo hpos caps
  simp only [Node.fuel] at hfuel
  rcases fuel with _ | fuel
  . omega
  simp only [Node.paths]
  cases items with
  | nil =>
    simp only [tryMatch]
    exact ih cont F lo k hcont fuel (by omega) pos hlo hpos caps
  | cons =>
    have := ih cont F lo k hcont (fuel + 1) (by omega) pos hlo hpos caps
    simp only [map_cons, cons_append, matchCont] at this
    simpa only [tryMatch] using this

theorem alt_adequate (ih : ∀ node ∈ branches, node.Adequate text) : (Node.alt branches).Adequate text := by
  intro cont F lo k hcont fuel hfuel pos hlo hpos caps
  simp only [Node.fuel] at hfuel
  rcases fuel with _ | fuel
  . omega
  simp only [tryMatch, Node.paths]
  induction branches with
  | nil => exact Finds.fail caps
  | cons _ _ ihl =>
    rw [forall_mem_cons] at ih
    simp only [seqFuel] at hfuel
    simp only [altPaths, first_append, foldr_cons]
    have hnode := ih.1 cont F lo k hcont fuel (by omega) pos hlo hpos caps
    exact hnode.orElse fun _ => ihl ih.2 (by omega)

theorem repeat_runs {node : Node} (ih : node.Adequate text) (greedy : Bool) (hcont : ContRuns text F lo cont k)
    (n e : Nat)
    : ∀ fuel, F + n * (node.fuel text.length + 2) + 1 ≤ fuel → ∀ pos, lo ≤ pos → pos ≤ text.length → text.length < pos + n →
        ∀ caps min max prev, stopped pos prev = none →
          Finds (matchRepeat text fuel node min max greedy pos caps cont prev)
            (first k (iterate .code greedy (node.paths .code text) (n + e) min max pos caps)) := by
  induction n with
  | zero => intros; omega
  | succ n ihn =>
    intro fuel hfuel pos hlo hpos _ caps min max _ hprev
    rw [Nat.succ_mul] at hfuel
    rcases fuel with _ | fuel
    . omega
    have hstop := hcont fuel (by omega) pos hlo hpos caps
    rw [Nat.add_right_comm]
    simp only [matchRepeat, hprev, iterate, Mode.stop, ne_eq, reduceCtorEq, not_false_eq_true, true_or, and_true]
    split
    . simpa using hstop
    have htail : ContRuns text (F + n * (node.fuel text.length + 2) + 2) pos
        (.repeatTail node (min - 1) (nextMax max) pos greedy caps :: cont) fun q caps' =>
          first k (if q = pos then [(pos, caps)]
            else iterate .code greedy (node.paths .code text) (n + e) (min - 1) (nextMax max) q caps') := by
      intro fuel _ q _ hlen caps'
      obtain ⟨fuel, rfl⟩ : ∃ n, fuel = n + 1 + 1 := ⟨fuel - 2, by omega⟩
      simp only [matchCont]
      by_cases heq : q = pos
      . subst heq
        simpa [matchRepeat, stopped] using hcont fuel (by omega) q hlo hpos caps
      . have hprev : stopped q (some (pos, caps)) = none := if_neg heq
        simpa [heq] using ihn (fuel + 1) (by omega) q (by omega) hlen (by omega) caps' (min - 1) (nextMax max) _ hprev
    have hagain := ih _ _ _ _ htail fuel (by omega) pos le_rfl hpos caps
    split
    . rw [first_flatMap]
      exact hagain.orFail
    split
    . rw [first_append, first_flatMap]
      exact hagain.orElse fun _ => by simpa using hstop
    . rw [first_cons, first_flatMap]
      exact hstop.orElse fun _ => hagain.orFail

theorem repeats_adequate (ih : node.Adequate text) (min max : Nat) (hle : min ≤ max) (greedy : Bool)
    : (Node.repeats node min max hle greedy).Adequate text := by
  intro _ _ _ _ hcont fuel hfuel pos hlo hpos caps
  simp only [Node.fuel] at hfuel
  rcases fuel with _ | fuel
  . omega
  simp only [tryMatch, Node.paths]
  have hmul := Nat.mul_le_mul_right (node.fuel text.length + 2) (show text.length + 1 - pos ≤ text.length + 1 by omega)
  exact repeat_runs ih greedy hcont (text.length + 1 - pos) min fuel (by omega) pos hlo hpos (by omega) caps min max none rfl

theorem Node.adequate (text : List UInt8) (node : Node) : node.Adequate text := by
  induction node using Node.induct with
  | leaf l => exact leaf_adequate l
  | group idx _ ih => exact group_adequate idx ih
  | nonCap _ ih => exact nonCap_adequate ih
  | concat _ ih => exact concat_adequate (seq_adequate ih)
  | alt _ ih => exact alt_adequate ih
  | repeats _ min max hle greedy ih => exact repeats_adequate ih min max hle greedy

theorem nil_runs : ContRuns text 1 0 [] fun pos caps => some (pos, caps) := by
  intro fuel _ _ _ _ _
  rcases fuel with _ | _
  . omega
  simp only [matchCont]
  exact ⟨_, rfl, rfl⟩

section Keeps

variable {mode : Mode} {Inv : Nat → Caps → Prop}

theorem of_mem_iterate {n min max : Nat} {x : Nat × Caps} (hx : x ∈ iterate mode greedy body (n + 1) min max pos caps)
    : x = (pos, caps) ∨ ∃ y ∈ body pos caps, x ∈ iterate mode greedy body n (min - 1) (nextMax max) y.1 y.2 := by
  have hagain (hx : x ∈ (body pos caps).flatMap fun y => if y.1 = pos ∧ (mode ≠ .doc ∨ min = 0) then mode.stop pos caps else
      iterate mode greedy body n (min - 1) (nextMax max) y.1 y.2)
      : x = (pos, caps) ∨ ∃ y ∈ body pos caps, x ∈ iterate mode greedy body n (min - 1) (nextMax max) y.1 y.2 := by
    obtain ⟨y, hy, hx⟩ := mem_flatMap.mp hx
    split at hx
    . cases mode <;> simp_all [Mode.stop]
    . exact .inr ⟨y, hy, hx⟩
  simp only [iterate] at hx
  split_ifs at hx
  . exact .inl (mem_singleton.mp hx)
  . exact hagain hx
  . exact (mem_append.mp hx).elim hagain fun hx => .inl (mem_singleton.mp hx)
  . exact (mem_cons.mp hx).elim .inl hagain

structure Keeps (mode : Mode) (text : List UInt8) (Inv : Nat → Caps → Prop) : Prop where
  step {l : Leaf} {pos q : Nat} {caps : Caps} : Inv pos caps → l.step text pos = some q → Inv q caps
  opens {pos idx : Nat} {caps : Caps} : Inv pos caps → Inv pos (caps.set idx (mode.offset pos, -1))
  closes {pos idx : Nat} {caps : Caps} : Inv pos caps → Inv pos (caps.set idx ((slot caps idx).1, mode.offset pos))

theorem Keeps.paths (h : Keeps mode text Inv) (node : Node) {caps : Caps} (hinv : Inv pos caps)
    : ∀ x ∈ node.paths mode text pos caps, Inv x.1 x.2 := by
  induction node using Node.induct generalizing pos caps with
  | leaf =>
    intro x hx
    simp only [Node.paths, mem_map, Option.mem_toList] at hx
    obtain ⟨_, hq, rfl⟩ := hx
    exact h.step hinv hq
  | group _ _ ih =>
    intro x hx
    simp only [Node.paths, mem_map] at hx
    obtain ⟨y, hy, rfl⟩ := hx
    exact h.closes (ih (h.opens hinv) y hy)
  | nonCap _ ih =>
    simp only [Node.paths]
    exact ih hinv
  | concat items ih =>
    simp only [Node.paths]
    induction items generalizing pos caps with
    | nil =>
      intro x hx
      simp only [seqPaths, mem_singleton] at hx
      rwa [hx]
    | cons _ _ ihl =>
      intro x hx
      simp only [seqPaths, mem_flatMap] at hx
      obtain ⟨y, hy, hx⟩ := hx
      rw [forall_mem_cons] at ih
      exact ihl ih.2 (ih.1 hinv y hy) x hx
  | alt branches ih =>
    simp only [Node.paths]
    induction branches with
    | nil =>
      intro x hx
      simp [altPaths] at hx
    | cons _ _ ihl =>
      rw [forall_mem_cons] at ih
      simp only [altPaths, forall_mem_append]
      exact ⟨ih.1 hinv, ihl ih.2⟩
  | repeats _ min max hle _ ih =>
    simp only [Node.paths]
    generalize text.length + 1 - pos + min = n
    clear hle
    induction n generalizing min max pos caps with
    | zero =>
      intro x hx
      simp [iterate] at hx
    | succ n ihn =>
      intro x hx
      rcases of_mem_iterate hx with rfl | ⟨y, hy, hx⟩
      . exact hinv
      . exact ihn _ _ (ih hinv y hy) x hx

theorem Node.paths_bounds (node : Node) (caps : Caps) (hpos : pos ≤ text.length)
    : ∀ x ∈ node.paths mode text pos caps, pos ≤ x.1 ∧ x.1 ≤ text.length := by
  have hkeeps : Keeps mode text fun q _ => pos ≤ q ∧ q ≤ text.length := by
    refine ⟨?_, id, id⟩
    intro l p q _ h hstep
    have := l.step_bounds h.2 hstep
    omega
  exact hkeeps.paths node ⟨le_rfl, hpos⟩

end Keeps

variable {re : Regexp} {start hi : Nat} {caps : Caps}

theorem first_some (l : List (Nat × Caps)) : first (fun q caps => some (q, caps)) l = l.head? := by
  cases l <;> rfl

theorem matchAt_eq (re : Regexp) (hpos : pos ≤ text.length)
    : matchAt re text pos = (re.root.paths .code text pos ((unset re).set 0 (asI32 pos, -1))).head?.map fun x =>
        (x.1, x.2.set 0 (asI32 pos, asI32 x.1)) := by
  obtain ⟨⟨e, _⟩, hr, hfound⟩ := re.root.adequate text _ _ _ _ nil_runs (re.root.fuel text.length + 1) (by omega) pos
    (Nat.zero_le _) hpos ((unset re).set 0 (asI32 pos, -1))
  dsimp only at hr hfound
  unfold matchAt
  rw [hr, ← first_some, ← hfound]
  cases e <;> rfl

theorem stored_set (caps : Caps) (idx : Nat) (i j : ℤ)
    : stored (caps.set idx (i, j)) = (stored caps).set idx (i.bmod (2 ^ 32), j.bmod (2 ^ 32)) :=
  map_set

theorem slot_stored (caps : Caps) (idx : Nat) : (slot (stored caps) idx).1 = (slot caps idx).1.bmod (2 ^ 32) := by
  unfold slot stored
  rw [getD_eq_getElem?_getD, getD_eq_getElem?_getD, getElem?_map]
  cases caps[idx]? <;> rfl

theorem asI32_eq_bmod (n : Nat) : asI32 n = (n : ℤ).bmod (2 ^ 32) := by
  unfold asI32
  rfl

theorem iterate_stored (h : ∀ pos caps, body pos (stored caps) = (body' pos caps).map (Prod.map id stored))
    (n min max pos : Nat) (caps : Caps)
    : iterate .code greedy body n min max pos (stored caps) =
        (iterate .exact greedy body' n min max pos caps).map (Prod.map id stored) := by
  induction n generalizing min max pos caps with
  | zero => rfl
  | succ n ih =>
    have hagain : ((body pos (stored caps)).flatMap fun y => if y.1 = pos then [(pos, stored caps)] else
        iterate .code greedy body n (min - 1) (nextMax max) y.1 y.2) =
          ((body' pos caps).flatMap fun y => if y.1 = pos then [(pos, caps)] else
            iterate .exact greedy body' n (min - 1) (nextMax max) y.1 y.2).map (Prod.map id stored) := by
      rw [h, flatMap_map, map_flatMap]
      apply flatMap_congr
      intro y _
      simp only [Prod.map_fst, Prod.map_snd, id, ih]
      split <;> rfl
    simp only [iterate, Mode.stop, ne_eq, reduceCtorEq, not_false_eq_true, true_or, and_true, hagain]
    split_ifs <;> simp

theorem Node.paths_stored (node : Node) (pos : Nat) (caps : Caps)
    : node.paths .code text pos (stored caps) = (node.paths .exact text pos caps).map (Prod.map id stored) := by
  induction node using Node.induct generalizing pos caps with
  | leaf l => cases h : l.step text pos <;> simp [h]
  | group idx _ ih =>
    have hopen := ih pos (caps.set idx (pos, -1))
    rw [stored_set, ← asI32_eq_bmod, show Int.bmod (-1) (2 ^ 32) = -1 from rfl] at hopen
    simp only [Node.paths, Mode.offset, hopen, map_map]
    apply map_congr_left
    intro x _
    simp [slot_stored, stored_set, asI32_eq_bmod]
  | nonCap _ ih => simp [ih]
  | concat items ih =>
    simp only [Node.paths]
    induction items generalizing pos caps with
    | nil => simp
    | cons _ _ ihl =>
      rw [forall_mem_cons] at ih
      simp [ih.1, flatMap_map, map_flatMap, ihl ih.2]
  | alt branches ih =>
    simp only [Node.paths]
    induction branches with
    | nil => simp
    | cons _ _ ihl =>
      rw [forall_mem_cons] at ih
      simp [ih.1, ihl ih.2]
  | repeats _ _ _ _ _ ih =>
    simp only [Node.paths]
    exact iterate_stored ih _ _ _ _ _

theorem matchAt_stored (re : Regexp) (hpos : pos ≤ text.length)
    : matchAt re text pos = (spans .exact re text pos).head?.map (Prod.map id stored) := by
  have hstart : (unset re).set 0 (asI32 pos, -1) = stored ((unset re).set 0 ((pos : ℤ), -1)) := by
    rw [stored_set, ← asI32_eq_bmod]
    simp [unset, stored]
  rw [matchAt_eq re hpos, hstart, Node.paths_stored, spans]
  simp only [head?_map, Option.map_map]
  congr 1
  funext x
  simp [Mode.offset, stored_set, asI32_eq_bmod]

section Marks

variable {P : Nat → Prop} {caps : Caps}

def Marks (P : Nat → Prop) (i : ℤ) : Prop :=
  i = -1 ∨ ∃ p : Nat, P p ∧ i = p

def AllMarks (P : Nat → Prop) (caps : Caps) : Prop :=
  ∀ c ∈ caps, Marks P c.1 ∧ Marks P c.2

theorem AllMarks.set (h : AllMarks P caps) (hi : Marks P i) (hj : Marks P j) (idx : Nat)
    : AllMarks P (caps.set idx (i, j)) := by
  intro c hc
  rcases mem_or_eq_of_mem_set hc with hmem | rfl
  . exact h c hmem
  . exact ⟨hi, hj⟩

theorem AllMarks.slot (h : AllMarks P caps) (idx : Nat) : Marks P (slot caps idx).1 := by
  unfold Regexp.slot
  rw [getD_eq_getElem?_getD]
  cases hget : caps[idx]? with
  | none => exact .inl rfl
  | some c => exact (h c (mem_of_getElem? hget)).1

theorem spans_marks (hstep : ∀ {l : Leaf} {pos q}, P pos → l.step text pos = some q → P q) (hpos : P pos)
    : ∀ x ∈ spans .exact re text pos, P x.1 ∧ AllMarks P x.2 := by
  have hkeeps : Keeps .exact text fun q caps => P q ∧ AllMarks P caps :=
    ⟨fun h hs => ⟨hstep h.1 hs, h.2⟩, fun h => ⟨h.1, h.2.set (.inr ⟨_, h.1, rfl⟩) (.inl rfl) _⟩,
      fun h => ⟨h.1, h.2.set (h.2.slot _) (.inr ⟨_, h.1, rfl⟩) _⟩⟩
  have hunset : AllMarks P (unset re) := by
    intro c hc
    rw [eq_of_mem_replicate hc]
    exact ⟨.inl rfl, .inl rfl⟩
  intro x hx
  obtain ⟨y, hy, rfl⟩ := mem_map.mp hx
  have := hkeeps.paths re.root ⟨hpos, hunset.set (.inr ⟨pos, hpos, rfl⟩) (.inl rfl) 0⟩ y hy
  exact ⟨this.1, this.2.set (.inr ⟨pos, hpos, rfl⟩) (.inr ⟨y.1, this.1, rfl⟩) 0⟩

end Marks

theorem findFrom_eq_some (h : findFrom re text start = some (lo, hi, caps))
    : start ≤ lo ∧ lo ≤ text.length ∧ matchAt re text lo = some (hi, caps) ∧
        ∀ p, start ≤ p → p < lo → matchAt re text p = none := by
  unfold findFrom at h
  generalize hn : text.length + 1 - start = n at h
  induction n generalizing start with
  | zero => contradiction
  | succ n ih =>
    unfold findFrom.go at h
    split at h
    . next heq =>
      cases h
      exact ⟨le_rfl, by omega, heq, fun p hp hlt => by omega⟩
    next hnone =>
    obtain ⟨_, hlen, hmatch, hbefore⟩ := ih (by omega) h
    refine ⟨by omega, hlen, hmatch, fun p hp hlt => ?_⟩
    rcases eq_or_lt_of_le hp with heq | hgt
    . exact heq ▸ hnone
    . exact hbefore p hgt hlt

theorem findFrom_eq_none (h : findFrom re text start = none) (p : Nat) (hp : start ≤ p) (hlen : p ≤ text.length)
    : matchAt re text p = none := by
  unfold findFrom at h
  generalize hn : text.length + 1 - start = n at h
  induction n generalizing start with
  | zero => omega
  | succ n ih =>
    unfold findFrom.go at h
    split at h
    . contradiction
    next hnone =>
    rcases eq_or_lt_of_le hp with heq | hgt
    . exact heq ▸ hnone
    . exact ih hgt (by omega) h

end Regexp
