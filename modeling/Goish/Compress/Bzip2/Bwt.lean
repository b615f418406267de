import Goish.Compress.Bzip2.Rle
import Mathlib.Data.List.Rotate

open List UInt8

namespace Bzip2

/-- The rows are the rotations of `s` in order, `last` is their last column. -/
structure Transform (s : List UInt8) (rows : List (List UInt8)) (last : List UInt8) : Prop where
  sorted : rows.Pairwise (· ≤ ·)
  perm : rows.Perm s.cyclicPermutations
  column : rows.map getLast? = last.map some

/-- The positions of the column in the order of their bytes. -/
def links (last : List UInt8) : List Nat :=
  (range 256).flatMap fun b => last.idxsOf (ofNat b)

section Order

variable {last : List UInt8}

theorem mem_idxsOf : i ∈ last.idxsOf b ↔ last[i]? = some b := by
  rw [mem_idxsOf_iff_exists_getElem_pos, List.getElem?_eq_some_iff]
  simp

theorem links_pairwise (last : List UInt8)
    : (links last).Pairwise fun i j => ∃ b c, last[i]? = some b ∧ last[j]? = some c ∧ (b < c ∨ b = c ∧ i < j) := by
  unfold links
  rw [pairwise_flatMap]
  constructor
  . intro b _
    refine pairwise_idxsOf.imp_of_mem ?_
    intro i j hi hj hlt
    exact ⟨_, _, mem_idxsOf.mp hi, mem_idxsOf.mp hj, .inr ⟨rfl, hlt⟩⟩
  refine pairwise_lt_range.imp_of_mem ?_
  intro b c _ hc hlt i hi j hj
  refine ⟨_, _, mem_idxsOf.mp hi, mem_idxsOf.mp hj, .inl ?_⟩
  rw [mem_range] at hc
  rwa [lt_iff_toNat_lt, toNat_ofNat_of_lt' (show _ < 256 by omega), toNat_ofNat_of_lt' hc]

theorem mem_links : i ∈ links last ↔ i < last.length := by
  simp only [links, mem_flatMap, mem_range, mem_idxsOf]
  constructor
  . intro ⟨_, _, h⟩
    exact (List.getElem?_eq_some_iff.mp h).1
  . intro h
    refine ⟨last[i].toNat, toNat_lt _, ?_⟩
    simp

theorem links_nodup (last : List UInt8) : (links last).Nodup := by
  refine (links_pairwise last).imp ?_
  rintro i j ⟨b, c, hb, hc, hlt⟩ rfl
  rw [hb, Option.some.injEq] at hc
  subst hc
  simp at hlt

theorem links_perm (last : List UInt8) : (links last).Perm (range last.length) := by
  rw [perm_ext_iff_of_nodup (links_nodup last) nodup_range]
  intro i
  rw [mem_links, mem_range]

end Order

section Rows

theorem append_lt_append {u v : List UInt8} (h : u < v) (hlen : u.length = v.length) : u ++ t < v ++ t' := by
  induction u generalizing v with
  | nil =>
    rw [eq_nil_of_length_eq_zero hlen.symm] at h
    exact absurd h (List.lt_irrefl _)
  | cons a u ih =>
    rcases v with _ | ⟨_, _⟩
    . cases hlen
    rw [cons_append, cons_append, cons_lt_cons_iff] at *
    exact h.imp id fun h => ⟨h.1, ih h.2 (by simpa using hlen)⟩

theorem map_rotate_perm (s : List UInt8) (k : Nat)
    : (s.cyclicPermutations.map (·.rotate k)).Perm s.cyclicPermutations := by
  have heq : s.cyclicPermutations.map (·.rotate k) = (s.rotate k).cyclicPermutations := by
    apply ext_getElem
    . simp
    . intro i _ _
      simp only [getElem_map, getElem_cyclicPermutations, rotate_rotate, Nat.add_comm]
  rw [heq, cyclicPermutations_rotate]
  exact rotate_perm _ _

variable {s last : List UInt8} {rows : List (List UInt8)} {i p : Nat} (h : Transform s rows last)
include h

theorem Transform.row (hb : last[i]? = some b) : ∃ u, rows[i]? = some (u ++ [b]) ∧ u.length + 1 = s.length := by
  have hcol : (rows.map getLast?)[i]? = some (some b) := by
    rw [h.column, getElem?_map, hb]
    rfl
  rw [getElem?_map, Option.map_eq_some_iff] at hcol
  obtain ⟨_, hw, hlast⟩ := hcol
  obtain ⟨u, rfl⟩ := getLast?_eq_some_iff.mp hlast
  have hlen := length_mem_cyclicPermutations s (h.perm.mem_iff.mp (mem_of_getElem? hw))
  exact ⟨u, hw, by simpa using hlen⟩

omit h in
theorem turn_eq (hw : rows[i]? = some (u ++ [b])) : (rows.getD i []).rotate u.length = b :: u := by
  rw [getD_eq_getElem?_getD, hw, Option.getD_some, rotate_append_length_eq]
  rfl

variable (hs : s ≠ [])
include hs

theorem Transform.length_eq : rows.length = s.length ∧ last.length = s.length := by
  have hlen := congrArg length h.column
  simp only [length_map] at hlen
  rw [← hlen, h.perm.length_eq, length_cyclicPermutations_of_ne_nil s hs]
  exact ⟨rfl, rfl⟩

/-- The rows turned right by one, in the order of the links, are the rows. -/
theorem Transform.rows_eq : (links last).map (fun i => (rows.getD i []).rotate (s.length - 1)) = rows := by
  refine Perm.eq_of_pairwise (fun _ _ _ _ => List.le_antisymm) ?_ h.sorted ?_
  . rw [pairwise_map]
    refine (links_pairwise last).imp ?_
    intro i j ⟨b, c, hb, hc, hlt⟩
    obtain ⟨u, hu, hulen⟩ := h.row hb
    obtain ⟨v, hv, _⟩ := h.row hc
    have hlen : v.length = u.length := by omega
    rw [← hulen, Nat.add_sub_cancel, turn_eq hu, ← hlen, turn_eq hv]
    intro hgt
    rw [cons_lt_cons_iff] at hgt
    rcases hlt with hlt | ⟨rfl, hlt⟩
    . rcases hgt with hgt | ⟨rfl, _⟩
      . exact UInt8.lt_asymm hlt hgt
      . exact UInt8.lt_irrefl _ hlt
    -- Two rows with the same last byte stand in the order of their other bytes.
    . have hvu : v < u := by simpa using hgt
      obtain ⟨hi, hu⟩ := List.getElem?_eq_some_iff.mp hu
      obtain ⟨hj, hv⟩ := List.getElem?_eq_some_iff.mp hv
      have hrows := pairwise_iff_getElem.mp h.sorted i j hi hj hlt
      rw [hu, hv] at hrows
      exact hrows (append_lt_append hvu hlen)
  . have hmap : (range last.length).map (fun i => (rows.getD i []).rotate (s.length - 1)) =
        rows.map (·.rotate (s.length - 1)) := by
      rw [(h.length_eq hs).2, ← (h.length_eq hs).1]
      apply ext_getElem
      . simp
      . intro i hi _
        simp at hi
        simp [hi]
    rw [((links_perm last).map _).congr_left, hmap]
    exact (h.perm.map _).trans ((map_rotate_perm s _).trans h.perm.symm)

/-- A link leads from a row to the one that is turned left by one. -/
theorem Transform.next (hw : rows[p]? = some w) (hi : (links last)[p]? = some i)
    : ∃ b u, w = b :: u ∧ u.length + 1 = s.length ∧ last[i]? = some b ∧ rows[i]? = some (u ++ [b]) := by
  have hlt := mem_links.mp (mem_of_getElem? hi)
  obtain ⟨u, hu, hlen⟩ := h.row (getElem?_eq_getElem hlt)
  refine ⟨last[i], u, ?_, hlen, getElem?_eq_getElem hlt, hu⟩
  have hrow := congrArg (·[p]?) (h.rows_eq hs)
  rw [← hlen, Nat.add_sub_cancel] at hrow
  simp only [getElem?_map, hi, hw, Option.map_some, Option.some.injEq, turn_eq hu] at hrow
  exact hrow.symm

end Rows

section Links

def counts (last : List UInt8) : List Nat :=
  (range 256).map fun b => last.count (ofNat b)

/-- The place of the byte at `k` in the order of the bytes. -/
def place (last : List UInt8) (k : Nat) (b : UInt8) : Nat :=
  ((counts last).take b.toNat).sum + (last.take k).count b

def word (x : UInt8) (i : Nat) : UInt32 :=
  x.toUInt32 ||| i.toUInt32 <<< 8

/-- The array after `k` turns of the second loop. -/
def stage (last : List UInt8) (k : Nat) : List UInt32 :=
  zipWith (fun x i => word x (if i < k then i else 0)) last (links last)

theorem sumCounts_getElem? (c : List Nat) (sum i : Nat)
    : (sumCounts sum c)[i]? = (c)[i]?.map fun _ => sum + (c.take i).sum := by
  induction c generalizing sum i with
  | nil => simp [sumCounts]
  | cons x c ih =>
    cases i with
    | zero => simp [sumCounts]
    | succ =>
      rw [sumCounts, getElem?_cons_succ, ih]
      simp [Nat.add_assoc]

theorem sumCounts_eq (last : List UInt8)
    : sumCounts 0 (counts last) = (range 256).map fun b => place last 0 (ofNat b) := by
  apply ext_getElem?
  intro i
  rw [sumCounts_getElem?]
  by_cases hi : i < 256
  . simp [counts, place, hi, Nat.mod_eq_of_lt]
  . simp [counts, hi]

variable {last : List UInt8} {p : Nat}

theorem links_place (hb : last[k]? = some b) : (links last)[place last k b]? = some k := by
  have hlt := b.toNat_lt
  have hlen : ((range b.toNat).flatMap fun b => last.idxsOf (ofNat b)).length =
      ((counts last).take b.toNat).sum := by
    simp [counts, length_flatMap, ← map_take, take_range, Nat.min_eq_left (Nat.le_of_lt hlt)]
  have hsplit : last = last.take k ++ b :: last.drop (k + 1) := by
    obtain ⟨_, rfl⟩ := List.getElem?_eq_some_iff.mp hb
    rw [← drop_eq_getElem_cons, take_append_drop]
  have hidx : (last.idxsOf b)[(last.take k).count b]? = some k := by
    obtain ⟨hk, -⟩ := List.getElem?_eq_some_iff.mp hb
    have hcount : ((last.take k).idxsOf b).length = (last.take k).count b := length_idxsOf
    rw [hsplit, idxsOf_append, ← hsplit, ← hcount, getElem?_append_right (Nat.le_refl _), Nat.sub_self]
    simp [Nat.min_eq_left (Nat.le_of_lt hk)]
  obtain ⟨r, hr⟩ : ∃ r, 256 = b.toNat + (r + 1) := ⟨255 - b.toNat, by omega⟩
  unfold links place
  rw [hr, range_add, flatMap_append, ← hlen, getElem?_append_right (Nat.le_add_right ..), Nat.add_sub_cancel_left,
    range_succ_eq_map, map_cons, flatMap_cons, Nat.add_zero, UInt8.ofNat_toNat,
    getElem?_append_left (List.getElem?_eq_some_iff.mp hidx).1]
  exact hidx

theorem word_toNat (hi : i < 2 ^ 24) : (word x i).toNat = i * 256 + x.toNat := by
  have hx := x.toNat_lt
  have hshift : (i.toUInt32 <<< 8).toNat = i <<< 8 := by
    rw [UInt32.toNat_shiftLeft, Nat.toUInt32_eq, UInt32.toNat_ofNat_of_lt' (show i < 2 ^ 32 by omega)]
    show i <<< 8 % 2 ^ 32 = _
    rw [Nat.shiftLeft_eq]
    omega
  rw [word, UInt32.toNat_or, hshift, toNat_toUInt32, Nat.or_comm, ← Nat.shiftLeft_add_eq_or_of_lt hx, Nat.shiftLeft_eq]

theorem word_and (hi : i < 2 ^ 24) : (word x i &&& 0xff).toNat = x.toNat := by
  have hx := x.toNat_lt
  rw [UInt32.toNat_and, word_toNat hi]
  show _ &&& (2 ^ 8 - 1) = _
  rw [Nat.and_two_pow_sub_one_eq_mod]
  omega

theorem word_toUInt8 (hi : i < 2 ^ 24) : (word x i).toUInt8 = x := by
  have hx := x.toNat_lt
  rw [← UInt8.toNat_inj, UInt32.toNat_toUInt8, word_toNat hi]
  omega

theorem word_shiftRight (x : UInt8) (hi : i < 2 ^ 24) : (word x i >>> 8).toNat = i := by
  have hx := x.toNat_lt
  rw [UInt32.toNat_shiftRight, word_toNat hi]
  show _ >>> 8 = _
  rw [Nat.shiftRight_eq_div_pow]
  omega

theorem stage_getElem? (hx : last[p]? = some x) (hi : (links last)[p]? = some i)
    : (stage last k)[p]? = some (word x (if i < k then i else 0)) := by
  simp [stage, getElem?_zipWith, hx, hi]

theorem links_exists (hx : last[p]? = some x) : ∃ i, (links last)[p]? = some i ∧ i < last.length := by
  have hp : p < (links last).length := by
    rw [(links_perm last).length_eq, length_range]
    exact (List.getElem?_eq_some_iff.mp hx).1
  exact ⟨_, getElem?_eq_getElem hp, mem_links.mp (getElem_mem hp)⟩

theorem place_succ (hb : last[k]? = some b) (c : UInt8)
    : place last (k + 1) c = place last k c + if b = c then 1 else 0 := by
  rw [place, take_add_one, hb, count_append, ← Nat.add_assoc, place]
  simp [count_singleton]

theorem linkStep_stage (hsmall : last.length < 2 ^ 24) (hb : last[k]? = some b)
    : linkStep (stage last k, (range 256).map fun b => place last k (ofNat b)) k =
        some (stage last (k + 1), (range 256).map fun b => place last (k + 1) (ofNat b)) := by
  have hlink := links_place hb
  obtain ⟨i, hi, _⟩ := links_exists hb
  have hplace : place last k b < last.length := by
    rw [← length_range (n := last.length), ← (links_perm last).length_eq]
    exact (List.getElem?_eq_some_iff.mp hlink).1
  have hx := getElem?_eq_getElem hplace
  have hand : (word b (if i < k then i else 0) &&& 0xff).toNat = b.toNat := by
    apply word_and
    split <;> omega
  have hget : ((range 256).map fun b => place last k (ofNat b))[b.toNat]? = some (place last k b) := by
    simp [b.toNat_lt]
  unfold linkStep
  simp only [stage_getElem? hb hi, stage_getElem? hx hlink, Option.bind_eq_bind, Option.bind_some, hand, hget, lt_irrefl,
    if_false]
  congr 2
  . apply ext_getElem?
    intro p
    rw [getElem?_set]
    split
    . next heq =>
      subst heq
      rw [stage_getElem? hx hlink, if_pos (Nat.lt_succ_self k), if_pos]
      . simp [word]
      . exact (List.getElem?_eq_some_iff.mp (stage_getElem? (k := k) hx hlink)).1
    next hne =>
    cases hy : last[p]? with
    | none => simp [stage, getElem?_zipWith, hy]
    | some =>
      obtain ⟨j, hj, _⟩ := links_exists hy
      have hjk : j ≠ k := by
        rintro rfl
        have hlt := (List.getElem?_eq_some_iff.mp hlink).1
        exact hne ((getElem?_inj hlt (links_nodup last)).mp (hlink.trans hj.symm))
      rw [stage_getElem? hy hj, stage_getElem? hy hj]
      congr 2
      split <;> split <;> omega
  . apply ext_getElem?
    intro c
    rw [getElem?_set]
    split
    . next heq =>
      subst heq
      simp [place_succ hb, b.toNat_lt]
    next hne =>
    by_cases hc : c < 256
    . have hne' : b ≠ ofNat c := by
        rintro rfl
        exact hne (toNat_ofNat_of_lt' hc)
      simp [place_succ hb, hc, hne']
    . simp [hc]

theorem stage_zero (last : List UInt8) : stage last 0 = last.map toUInt32 := by
  apply ext_getElem?
  intro p
  cases hx : last[p]? with
  | none => simp [stage, getElem?_zipWith, hx]
  | some =>
    obtain ⟨i, hi, _⟩ := links_exists hx
    rw [stage_getElem? hx hi, if_neg (Nat.not_lt_zero i), getElem?_map, hx]
    simp [word]

theorem foldlM_linkStep (hsmall : last.length < 2 ^ 24) (hk : k ≤ last.length)
    : (range k).foldlM linkStep (last.map toUInt32, sumCounts 0 (counts last)) =
        some (stage last k, (range 256).map fun b => place last k (ofNat b)) := by
  induction k with
  | zero =>
    rw [stage_zero, sumCounts_eq]
    rfl
  | succ k ih =>
    rw [range_succ, foldlM_append, ih (Nat.le_of_succ_le hk)]
    have hstep := linkStep_stage hsmall (getElem?_eq_getElem hk)
    simp [hstep]

end Links

section Follow

variable {s : List UInt8} {p : Nat} (h : Transform s rows last) (hs : s ≠ [])
include h hs

/-- From its row on the links lead through the bytes of a rotation. -/
theorem Transform.follow (hsmall : last.length < 2 ^ 24) (hw : rows[p]? = some w) (hi : (links last)[p]? = some i)
    (hpos : tPos.toNat = i) (hm : m ≤ s.length) : Bzip2.follow (stage last last.length) m tPos = some (w.take m) := by
  induction m generalizing w p i tPos with
  | zero => rfl
  | succ m ih =>
    obtain ⟨b, _, rfl, _, hb, hnext⟩ := h.next hs hw hi
    obtain ⟨_, hj, hjlt⟩ := links_exists hb
    have hjsmall := Nat.lt_trans hjlt hsmall
    have hword := stage_getElem? (k := last.length) hb hj
    have hrest := ih hnext hj (word_shiftRight b hjsmall) (Nat.le_of_succ_le hm)
    rw [take_append_of_le_length (by omega)] at hrest
    rw [Bzip2.follow, hpos, hword, if_pos hjlt]
    simp [word_toUInt8 hjsmall, hrest]

theorem inverseBWT_exact (hlen : s.length ≤ 900000) (hptr : rows[origPtr]? = some s)
    : ∃ tt tPos, inverseBWT (last.map toUInt32) origPtr (counts last) = some (tt, tPos) ∧
        Bzip2.follow tt tt.length tPos = some s := by
  obtain ⟨hrows, hlast⟩ := h.length_eq hs
  have hsmall : last.length < 2 ^ 24 := by omega
  have hlt : origPtr < last.length := by
    rw [hlast, ← hrows]
    exact (List.getElem?_eq_some_iff.mp hptr).1
  obtain ⟨i, hi, hilt⟩ := links_exists (getElem?_eq_getElem hlt)
  have hword := stage_getElem? (k := last.length) (getElem?_eq_getElem hlt) hi
  rw [if_pos hilt] at hword
  refine ⟨stage last last.length, word last[origPtr] i >>> 8, ?_, ?_⟩
  . rw [inverseBWT, length_map, foldlM_linkStep hsmall (Nat.le_refl _)]
    simp [hword]
  . have hstage : (stage last last.length).length = s.length := by
      rw [stage, length_zipWith, (links_perm last).length_eq, length_range, Nat.min_self, hlast]
    rw [hstage, h.follow hs hsmall hptr hi (word_shiftRight _ (Nat.lt_trans hilt hsmall)) (Nat.le_refl _), take_length]

end Follow

theorem inverseBWT_exact_ba : ∃ tt tPos, inverseBWT [98, 97] 1 (counts [98, 97]) = some (tt, tPos) ∧
        Bzip2.follow tt tt.length tPos = some [98, 97] :=
  have h : Transform [98, 97] [[97, 98], [98, 97]] [98, 97] := ⟨by decide, by decide, rfl⟩
  inverseBWT_exact h (by decide) (by decide) rfl

end Bzip2
