import Goish.Net.Url.Impl.Resolve

namespace Url

open List

/-- RFC 3986, 5.2.4. -/
def removeDotSegments (input output : List UInt8) : List UInt8 :=
  match input with
  | [] => output
  | 46 :: 46 :: 47 :: rest => removeDotSegments rest output
  | 46 :: 47 :: rest => removeDotSegments rest output
  | 47 :: 46 :: 47 :: rest => removeDotSegments (47 :: rest) output
  | [47, 46] => removeDotSegments [47] output
  | 47 :: 46 :: 46 :: 47 :: rest => removeDotSegments (47 :: rest) (dropSegment output)
  | [47, 46, 46] => removeDotSegments [47] (dropSegment output)
  | [46] => output
  | [46, 46] => output
  | c :: rest => removeDotSegments (rest.dropWhile (· ≠ slash)) (output ++ c :: rest.takeWhile (· ≠ slash))
termination_by input.length
decreasing_by
  all_goals simp only [length_cons, length_nil]
  any_goals omega
  exact Nat.lt_succ_of_le (dropWhile_suffix _).length_le
where
  dropSegment (output : List UInt8) : List UInt8 :=
    output.take ((lastIndexByte output slash).getD 0)

/-- RFC 3986, 5.2.3: the reference behind the last slash of the base. -/
def merge (authority : Bool) (base ref : List UInt8) : List UInt8 :=
  if authority ∧ base = [] then slash :: ref else (base.reverse.dropWhile (· ≠ slash)).reverse ++ ref

/-- RFC 3986, 5.2.2. -/
def target (authority : Bool) (base ref : List UInt8) : List UInt8 :=
  if ref = [] then base else if ref.head? = some slash then ref else merge authority base ref

theorem dropWhile_reverse (s : List UInt8) : (s.reverse.dropWhile (· ≠ slash)).reverse =
      match lastIndexByte s slash with
      | none => []
      | some i => s.take (i + 1) := by
  induction s with
  | nil => rfl
  | cons x s ih =>
    rw [reverse_cons, dropWhile_append, lastIndexByte]
    cases h : lastIndexByte s slash with
    | none => by_cases hx : x = slash <;> simp_all
    | some =>
      rw [h] at ih
      have hsome : s.reverse.dropWhile (· ≠ slash) ≠ [] := by
        rw [← reverse_ne_nil_iff, ih, ne_eq, take_eq_nil_iff]
        rintro (_ | rfl) <;> contradiction
      rw [if_neg (mt List.isEmpty_iff.mp hsome), reverse_append, ih]
      rfl

theorem target_eq (authority : Bool) (base ref : List UInt8) : target authority base ref =
    if authority ∧ base = [] ∧ ref ≠ [] ∧ ref.head? ≠ some slash then slash :: ref else fullPath base ref := by
  unfold target merge fullPath
  rw [dropWhile_reverse]
  cases lastIndexByte base slash <;> split_ifs <;> simp_all

def join (l : List (List UInt8)) : List UInt8 :=
  l.flatMap (slash :: ·)

@[simp] theorem join_nil : join [] = [] := rfl

@[simp] theorem join_cons : join (s :: l) = slash :: s ++ join l := rfl

/-- What a segment does to the output. -/
def output (out s : List UInt8) : List UInt8 :=
  if s = dot then out else if s = dotdot then removeDotSegments.dropSegment out else out ++ slash :: s

def close (out s : List UInt8) : List UInt8 :=
  if s = dot ∨ s = dotdot then out ++ [slash] else out

theorem removeDotSegments_join (hs : slash ∉ s) : removeDotSegments (join (s :: l)) out =
      if l = [] then close (output out s) s else removeDotSegments (join l) (output out s) := by
  unfold close output
  by_cases h : s = dot ∨ s = dotdot
  . cases l <;> rcases h with rfl | rfl <;> simp [removeDotSegments]
  have hpos : ∀ x ∈ s, (decide (x ≠ slash)) = true := by
    intro x hx
    rw [decide_eq_true_iff]
    rintro rfl
    exact hs hx
  have htake : (s ++ join l).takeWhile (· ≠ slash) = s ∧ (s ++ join l).dropWhile (· ≠ slash) = join l := by
    rw [takeWhile_append_of_pos hpos, dropWhile_append_of_pos hpos]
    cases l <;> simp
  rw [join_cons, cons_append, removeDotSegments]
  . rw [htake.1, htake.2]
    cases l <;> simp_all [removeDotSegments]
  -- None of the patterns before the last one matches.
  all_goals rcases s with _ | ⟨x, _ | ⟨y, _ | ⟨z, s⟩⟩⟩ <;> cases l <;> simp_all [slash, @eq_comm _ (47 : UInt8)]

theorem removeDotSegments_run (hl : ∀ s ∈ l ++ [z], slash ∉ s)
    : removeDotSegments (join (l ++ [z])) out = close ((l ++ [z]).foldl output out) z := by
  induction l generalizing out with
  | nil => exact removeDotSegments_join (hl z (by simp))
  | cons s l ih =>
    rw [cons_append, removeDotSegments_join (hl s (by simp)), if_neg (by simp), foldl_cons]
    exact ih fun t ht => hl t (mem_cons_of_mem s ht)

/-- The state of the loop behind the output of the RFC. After a `..` at the root not even the empty element before the
first slash is left. -/
def render (w : Bool × List UInt8) : List UInt8 × Bool :=
  if w.1 then (if w.2 = [] then ([slash], true) else (w.2, false)) else (slash :: w.2, false)

/-- Whether a `..` was read at the root and no `.` there since, and the output. -/
def walk (w : Bool × List UInt8) (s : List UInt8) : Bool × List UInt8 :=
  (if s = dot then w.1 && w.2 ≠ [] else if s = dotdot then w.1 || w.2 = [] else w.1, output w.2 s)

/-- The path has no dot segment. -/
def Clean (out : List UInt8) : Prop :=
  ∃ c, out = join c ∧ ∀ s ∈ c, slash ∉ s ∧ s ≠ dot ∧ s ≠ dotdot

theorem resolveElem_render {w : Bool × List UInt8} (h : Clean w.2)
    : resolveElem (render w) s = render (walk w s) := by
  obtain ⟨b, out⟩ := w
  obtain ⟨c, rfl, _⟩ := h
  unfold resolveElem
  split_ifs with h1 h2
  . cases b <;> cases c <;> simp [h1, render, walk, output]
  . cases c with
    | nil => cases b <;> simp [h2, render, walk, output, removeDotSegments.dropSegment, lastIndexByte]
    | cons t c =>
      cases hi : lastIndexByte (t ++ join c) slash <;> cases b <;>
        simp [h2, hi, render, walk, output, removeDotSegments.dropSegment, lastIndexByte]
  all_goals cases b <;> cases c <;> simp_all [render, walk, output]

theorem lastIndexByte_none (h : c ∉ s) : lastIndexByte s c = none := by
  induction s <;> grind [lastIndexByte]

theorem lastIndexByte_append (h : c ∉ t) : lastIndexByte (s ++ c :: t) c = some s.length := by
  induction s with
  | nil => simp [lastIndexByte, lastIndexByte_none h]
  | cons x s ih => simp [lastIndexByte, ih]

theorem clean_output (h : Clean out) (hs : slash ∉ s) : Clean (output out s) := by
  obtain ⟨c, rfl, hc⟩ := h
  unfold output
  split_ifs with h1 h2
  . exact ⟨c, rfl, hc⟩
  . refine ⟨c.dropLast, ?_, fun t ht => hc t (dropLast_subset _ ht)⟩
    rcases eq_nil_or_concat' c with rfl | ⟨c, t, rfl⟩
    . rfl
    . simp [removeDotSegments.dropSegment, join, lastIndexByte_append (hc t (by simp)).1]
  . refine ⟨c ++ [s], by simp [join], ?_⟩
    rw [forall_mem_append, forall_mem_singleton]
    exact ⟨hc, hs, h1, h2⟩

theorem foldl_resolveElem {l : List (List UInt8)} {w : Bool × List UInt8} (hl : ∀ s ∈ l, slash ∉ s) (h : Clean w.2)
    : l.foldl resolveElem (render w) = render (l.foldl walk w) ∧ Clean (l.foldl walk w).2 := by
  induction l generalizing w with
  | nil => exact ⟨rfl, h⟩
  | cons s l ih =>
    rw [foldl_cons, foldl_cons, resolveElem_render h]
    exact ih (fun t ht => hl t (mem_cons_of_mem s ht)) (clean_output h (hl s mem_cons_self))

theorem not_mem_splitOn (s : List UInt8) : ∀ t ∈ s.splitOn slash, slash ∉ t := by
  unfold splitOn
  induction s with
  | nil => simp
  | cons x s ih =>
    rw [splitOnP_cons_eq_if_modifyHead]
    split_ifs with hx
    . simpa using ih
    . obtain ⟨a, l, hal⟩ := exists_cons_of_ne_nil (splitOnP_ne_nil (· == slash) s)
      rw [hal] at ih ⊢
      simpa [@eq_comm _ slash, show x ≠ slash by simpa using hx] using ih

theorem intercalate_cons {l : List (List UInt8)} : [slash].intercalate (s :: l) = s ++ join l := by
  induction l generalizing s with
  | nil => simp
  | cons t l ih => simp [intercalate_cons_cons, ih]

theorem join_splitOn (s : List UInt8) : join (s.splitOn slash) = slash :: s := by
  obtain ⟨a, l, hal⟩ := exists_cons_of_ne_nil (splitOn_ne_nil slash s)
  rw [hal, join_cons, cons_append, ← intercalate_cons, ← hal, intercalate_splitOn]

theorem Clean.splitOn (h : Clean out) : ∀ s ∈ out.splitOn slash, s ≠ dot ∧ s ≠ dotdot := by
  obtain ⟨c, rfl, hc⟩ := h
  have hsplit : ([slash].intercalate ([] :: c)).splitOn slash = [] :: c := by
    apply splitOn_intercalate
    . simpa using fun s hs => (hc s hs).1
    . simp
  rw [intercalate_cons, nil_append] at hsplit
  rw [hsplit]
  simpa using fun s hs => (hc s hs).2

theorem Clean.drop (h : Clean out) (h1 : out[1]? = some slash) : Clean (out.drop 1) := by
  obtain ⟨c, rfl, hc⟩ := h
  rcases c with _ | ⟨_ | ⟨x, s⟩, c⟩
  . contradiction
  . exact ⟨c, rfl, fun s hs => hc s (mem_cons_of_mem _ hs)⟩
  . simp_all

/-- Whether the path climbs over the root, where it stands at the start if `b`. -/
def climbs (b : Bool) (s : List UInt8) : Bool :=
  ((s.splitOn slash).foldl walk (b, [])).1

theorem foldl_walk_snd (l : List (List UInt8)) (w : Bool × List UInt8) : (l.foldl walk w).2 = l.foldl output w.2 :=
  (foldl_hom Prod.snd fun _ _ => rfl).symm

theorem drop_render {w : Bool × List UInt8} (h : Clean w.2) (hz : w.2 = [] → z = dot ∨ z = dotdot)
    : Clean (close w.2 z) ∧ close w.2 z ≠ [] ∧
      (let r := if z = dot ∨ z = dotdot then (render w).1 ++ [slash] else (render w).1
      if r[1]? = some slash then r.drop 1 else r) =
        if w.1 ∧ (close w.2 z)[1]? = some slash then (close w.2 z).drop 1 else close w.2 z := by
  obtain ⟨b, out⟩ := w
  obtain ⟨c, rfl, hc⟩ := h
  refine ⟨?_, ?_, ?_⟩
  . unfold close
    split_ifs
    . exact ⟨c ++ [[]], by simp [join], by simpa [or_imp, forall_and] using hc⟩
    . exact ⟨c, rfl, hc⟩
  . unfold close
    split_ifs <;> simp_all
  . unfold close render
    cases c <;> cases b <;> split_ifs <;> simp_all

theorem resolvePath_eq {b : Bool} (hfull : fullPath base ref = if b then x else slash :: x)
    (hne : fullPath base ref ≠ [])
    : Clean (removeDotSegments (slash :: x) []) ∧ removeDotSegments (slash :: x) [] ≠ [] ∧
      resolvePath base ref = if climbs b x ∧ (removeDotSegments (slash :: x) [])[1]? = some slash
        then (removeDotSegments (slash :: x) []).drop 1 else removeDotSegments (slash :: x) [] := by
  obtain ⟨l, z, hlz⟩ := (eq_nil_or_concat' (x.splitOn slash)).resolve_left (splitOn_ne_nil slash x)
  have hmem := not_mem_splitOn x
  rw [hlz] at hmem
  obtain ⟨hfold, hclean⟩ := foldl_resolveElem (w := (b, [])) hmem ⟨[], rfl, by simp⟩
  have hout := foldl_walk_snd (l ++ [z]) (b, [])
  have hcode : ((fullPath base ref).splitOn slash).foldl resolveElem ([slash], true) =
        render ((l ++ [z]).foldl walk (b, [])) ∧
      ((fullPath base ref).splitOn slash).getLastD [] = z := by
    rw [hfull, ← hfold]
    cases b with
    | true => simp [hlz, render]
    | false =>
      rw [if_neg (by simp), splitOn, splitOnP_cons_eq_if_modifyHead, if_pos (by simp), ← splitOn, hlz]
      exact ⟨rfl, getLastD_concat (l := [] :: l)⟩
  have hz : ((l ++ [z]).foldl walk (b, [])).2 = [] → z = dot ∨ z = dotdot := by
    rw [foldl_append]
    simp [walk, output]
    split_ifs <;> simp_all
  have hdrop := drop_render hclean hz
  rw [← join_splitOn, climbs, hlz, removeDotSegments_run hmem, ← hout]
  refine ⟨hdrop.1, hdrop.2.1, ?_⟩
  unfold resolvePath
  simp only [hne, if_false, hcode.1, hcode.2]
  exact hdrop.2.2

theorem fullPath_eq (h : target authority base ref = slash :: x)
    : fullPath base ref ≠ [] ∧
      fullPath base ref = if decide (base = [] ∧ ref.head? ≠ some slash) then x else slash :: x := by
  rw [target_eq] at h
  unfold fullPath at *
  split_ifs at h ⊢ <;> simp_all [lastIndexByte]

/-- The code takes a second slash at the start of the result for the one that it wrote first. -/
theorem resolvePath_iff (authority : Bool) (base ref : List UInt8)
    : (∀ x, target authority base ref = slash :: x → resolvePath base ref = removeDotSegments (slash :: x) [])
          ∧ (∀ s ∈ (resolvePath base ref).splitOn slash, s ≠ dot ∧ s ≠ dotdot)
        ↔ ∀ x, target authority base ref = slash :: x → ¬(climbs (base = [] ∧ ref.head? ≠ some slash) x
          ∧ (removeDotSegments (slash :: x) [])[1]? = some slash) := by
  have hdots : ∀ s ∈ (resolvePath base ref).splitOn slash, s ≠ dot ∧ s ≠ dotdot := by
    by_cases hne : fullPath base ref = []
    . simp [resolvePath, hne]
    obtain ⟨hclean, _, heq⟩ := resolvePath_eq (b := true) (x := fullPath base ref) rfl hne
    rw [heq]
    split_ifs with h
    . exact (hclean.drop h.2).splitOn
    . exact hclean.splitOn
  rw [and_iff_left hdots]
  refine forall₂_congr fun x h => ?_
  obtain ⟨hne, hfull⟩ := fullPath_eq h
  obtain ⟨_, hrfc, heq⟩ := resolvePath_eq hfull hne
  rw [heq]
  split_ifs with hslip
  . refine iff_of_false (fun hdrop => ?_) (not_not_intro hslip)
    have := congrArg length hdrop
    have := length_pos_iff.mpr hrfc
    simp only [length_drop] at *
    omega
  . exact iff_of_true rfl hslip

theorem resolvePath_slips : target false [47] [47, 46, 46, 47, 47, 97] = [47, 46, 46, 47, 47, 97] ∧
    resolvePath [47] [47, 46, 46, 47, 47, 97] = [47, 97] ∧
    removeDotSegments [47, 46, 46, 47, 47, 97] [] = [47, 47, 97] := by
  refine ⟨by decide, by decide, ?_⟩
  simp [removeDotSegments, removeDotSegments.dropSegment, lastIndexByte, slash]

end Url
