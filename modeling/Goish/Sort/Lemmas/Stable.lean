import Goish.Sort.Lemmas.Merge

namespace SortInterface

open List StableSort Option

variable {lt : α → α → Bool}

inductive Runs (lt : α → α → Bool) (k : Nat) : List α → Prop where
  | last (hle : l.length ≤ k) (hs : Sorted lt l) : Runs lt k l
  | cons (hlen : w.length = k) (hs : Sorted lt w) (h : Runs lt k l) : Runs lt k (w ++ l)

theorem Runs.nil : Runs lt k [] :=
  .last (Nat.zero_le k) .nil

theorem Runs.sorted (h : Runs lt k l) (hle : l.length ≤ k) : Sorted lt l := by
  cases h with
  | last _ hs => exact hs
  | @cons _ l =>
    rw [length_append] at hle
    rwa [length_eq_zero_iff.mp (by omega : l.length = 0), append_nil]

theorem Runs.uncons (h : Runs lt k l) (hle : k ≤ l.length)
    : ∃ w l', l = w ++ l' ∧ w.length = k ∧ Sorted lt w ∧ Runs lt k l' := by
  cases h with
  | last hge hs => exact ⟨l, [], (append_nil l).symm, Nat.le_antisymm hge hle, hs, .nil⟩
  | cons hlen hs h => exact ⟨_, _, rfl, hlen, hs, h⟩

theorem blocks_spec {P : List α → Prop} (hstep : 0 < step)
    (hwrap : step ≤ n → n + step < 2 ^ 63)
    (hf : ∀ x r, P r → step ≤ r.length → x.length + r.length = n →
      ∃ w r', f (x ++ r) x.length (x.length + step : Nat) = some (x ++ (w ++ r')) ∧ w.length = step ∧ Sorted lt w ∧
        P r' ∧ SameOrder lt r (w ++ r'))
    (x r : List α) (hr : P r) (hn : x.length + r.length = n) (hfuel : r.length < fuel)
    : ∃ z t, blocks f step n fuel (x ++ r) x.length (x.length + step : Nat)
          = some (x ++ (z ++ t), ((x.length + z.length : Nat) : Int)) ∧
        P t ∧ t.length < step ∧ (∀ l, Runs lt step l → Runs lt step (z ++ l)) ∧ SameOrder lt r (z ++ t) := by
  induction fuel generalizing x r with
  | zero => contradiction
  | succ _ ih =>
    unfold blocks
    split
    . next hle =>
      obtain ⟨w, r', hf', hw, hs, hr', hsame⟩ := hf x r hr (by omega) hn
      have hlen := hsame.perm.length_eq
      rw [length_append] at hlen
      obtain ⟨z, t, hblocks, ht, htlt, hz, hsame'⟩ := ih (x ++ w) r' hr' (by rw [length_append]; omega) (by omega)
      rw [length_append, hw, append_assoc, append_assoc, ← append_assoc w] at hblocks
      rw [hf', bind_eq_bind, bind_some, i64_eq (by omega) (by omega)]
      refine ⟨w ++ z, t, ?_, ht, htlt, ?_, ?_⟩
      . rwa [length_append, hw, ← Nat.add_assoc]
      . intro l hl
        rw [append_assoc]
        exact .cons hw hs (hz l hl)
      . rw [append_assoc]
        exact hsame.trans ((SameOrder.refl w).append hsame')
    . next hgt => exact ⟨[], r, rfl, hr, by omega, fun _ hl => hl, .refl r⟩

section Merges

variable (hw : WeakOrder lt)
include hw

theorem merge_block (hpos : 0 < k) (hn : n ≤ 2 ^ 62) (x r : List α) (hr : Runs lt k r)
    (hle : 2 * k ≤ r.length) (hlen : x.length + r.length = n)
    : ∃ w r', symMerge lt (x ++ r).length (x ++ r) x.length (i64 ((x.length : Int) + k)) (x.length + 2 * k : Nat)
          = some (x ++ (w ++ r')) ∧
        w.length = 2 * k ∧ Sorted lt w ∧ Runs lt k r' ∧ SameOrder lt r (w ++ r') := by
  obtain ⟨u, r, rfl, _, hsu, hr⟩ := hr.uncons (by omega)
  rw [length_append] at hle hlen
  obtain ⟨v, r, rfl, _, hsv, hr⟩ := hr.uncons (by omega)
  obtain ⟨w, hmerge, hs, hsame⟩ := symMerge_spec (m := x.length + k) (b := x.length + 2 * k)
    hw (x ++ (u ++ (v ++ r))).length x u v r hsu hsv rfl (by omega) (by omega)
    (by simp only [length_append]; omega) (by omega)
  rw [onlyIf, if_pos (by omega)] at hmerge
  refine ⟨w, r, ?_, ?_, hs, hr, ?_⟩
  . rwa [i64_eq (by omega) (by omega)]
  . have := hsame.perm.length_eq
    rw [length_append] at this
    omega
  . rw [← append_assoc]
    exact hsame.append (.refl r)

theorem merge_rest (hpos : 0 < k) (z t : List α) (ht : Runs lt k t) (hlt : t.length < 2 * k)
    (hn : (z ++ t).length ≤ 2 ^ 62) : ∃ w, onlyIf (((z.length + k : Nat) : Int) < (z ++ t).length)
          (fun d => symMerge lt d.length d z.length (z.length + k : Nat) (z ++ t).length) (z ++ t)
        = some (z ++ w) ∧ Sorted lt w ∧ SameOrder lt t w := by
  rw [length_append] at *
  unfold onlyIf
  split
  . next h =>
    obtain ⟨u, v, rfl, _, hsu, hv⟩ := ht.uncons (by omega)
    rw [length_append] at *
    obtain ⟨w, hmerge, hs, hsame⟩ := symMerge_spec (m := z.length + k) (b := z.length + (u.length + v.length))
      hw (z ++ (u ++ (v ++ []))).length z u v [] hsu (hv.sorted (by omega)) rfl (by omega) (by omega)
      (by simp only [length_append]; omega) hn
    rw [onlyIf, if_pos (by omega), append_nil, append_nil] at hmerge
    exact ⟨w, hmerge, hs, hsame⟩
  . next h => exact ⟨t, rfl, ht.sorted (by omega), .refl t⟩

theorem merges_spec {k : Nat} (fuel : Nat) (hn : d.length ≤ 2 ^ 62) (hd : Runs lt k d) (hpos : 0 < k) (hfive : 5 ∣ k)
    (hfuel : d.length < fuel + k) (hsome : 0 < fuel)
    : ∃ d', stable.merges lt fuel d k = some d' ∧ Sorted lt d' ∧ SameOrder lt d d' := by
  induction fuel generalizing d k with
  | zero => contradiction
  | succ _ ih =>
    unfold stable.merges
    split
    . next hlt =>
      obtain ⟨z, t, hblocks, ht, htlt, hz, hsame⟩ := blocks_spec (P := Runs lt k)
        (f := fun d a b => symMerge lt d.length d a (i64 (a + k)) b) (by omega) (by omega) (merge_block hw hpos hn) [] d hd
        (Nat.zero_add _) (Nat.lt_add_one _)
      rw [length_nil, Nat.zero_add, Nat.zero_add, nil_append, nil_append, Int.natCast_zero] at hblocks
      have hlen := hsame.perm.length_eq
      obtain ⟨w, hrest, hsw, hsame'⟩ := merge_rest hw hpos z t ht htlt (by omega)
      have hlen' := hsame'.perm.length_eq
      have hstep : i64 (2 * (k : Int)) = (2 * k : Nat) := by
        rw [i64_eq] <;> omega
      have hm : i64 ((z.length : Int) + k) = (z.length + k : Nat) := by
        rw [length_append] at hlen
        rw [i64_eq] <;> omega
      have hnext : i64 ((k : Int) * 2) = (2 * k : Nat) := by
        rw [i64_eq] <;> omega
      have hmoved := hsame.trans ((SameOrder.refl z).append hsame')
      have hlen'' := hmoved.perm.length_eq
      obtain ⟨d', hmerges, hs, hsame''⟩ := ih (d := z ++ w) (k := 2 * k) (by omega)
        (hz w (.last (by omega) hsw)) (by omega) (Nat.dvd_mul_left_of_dvd hfive 2) (by omega) (by omega)
      refine ⟨d', ?_, hs, hmoved.trans hsame''⟩
      dsimp only
      rw [hstep]
      rw [hblocks, bind_eq_bind, bind_some, hm, hrest, bind_eq_bind, bind_some, hnext, hmerges]
    . next hge => exact ⟨d, rfl, hd.sorted (by omega), .refl d⟩

theorem stable_spec (d : List α) (hn : d.length ≤ 2 ^ 62)
    : ∃ d', stable lt d = some d' ∧ Sorted lt d' ∧ SameOrder lt d d' := by
  have hsort : ∀ x r : List α, True → 20 ≤ r.length → x.length + r.length = d.length →
      ∃ w r', insertionSort lt (x ++ r) x.length (x.length + 20 : Nat) = some (x ++ (w ++ r')) ∧ w.length = 20 ∧
        Sorted lt w ∧ True ∧ SameOrder lt r (w ++ r') := by
    intro x r _ _ _
    obtain ⟨w, hins, hs, hsame⟩ := insertionSort_spec hw x (r.take 20) (r.drop 20)
    have htake : (r.take 20).length = 20 := by
      rw [length_take]
      omega
    rw [htake, take_append_drop] at hins
    have hmove := hsame.append (.refl (r.drop 20))
    rw [take_append_drop] at hmove
    exact ⟨w, r.drop 20, hins, hsame.perm.length_eq.trans htake, hs, trivial, hmove⟩
  obtain ⟨z, t, hblocks, -, _, hz, hsame⟩ := blocks_spec (by omega) (by omega) hsort [] d trivial (Nat.zero_add _)
    (Nat.lt_add_one _)
  obtain ⟨w, hins, hsw, hsame'⟩ := insertionSort_spec hw z t []
  have hmoved := hsame.trans ((SameOrder.refl z).append hsame')
  have hlen := hmoved.perm.length_eq
  have hlen' := hsame'.perm.length_eq
  have hlen'' := hsame.perm.length_eq
  obtain ⟨d', hmerges, hs, hsame''⟩ := merges_spec (k := 20) hw ((z ++ t).length + 1) (by omega) (hz w (.last (by omega) hsw))
    (by decide) (by decide) (by omega) (by omega)
  refine ⟨d', ?_, hs, hmoved.trans hsame''⟩
  rw [append_nil, append_nil, ← length_append] at hins
  rw [length_nil, Nat.zero_add, Nat.zero_add, nil_append, nil_append, Int.natCast_zero] at hblocks
  unfold stable
  rw [show (20 : Int) = (20 : Nat) from rfl, hblocks, bind_eq_bind, bind_some]
  dsimp only
  rw [hins, bind_eq_bind, bind_some, hmerges]

end Merges

end SortInterface
