import Goish.Data.StableSort
import Goish.Sort.Lemmas.Rotate

namespace SortInterface

open List StableSort Option

variable {lt : α → α → Bool}

theorem insert_spec (hw : WeakOrder lt) (x u y : List α) (e : α) (hs : Sorted lt u)
    : ∃ w, insert lt x.length u.length (x ++ (u ++ e :: y)) = some (x ++ (w ++ y)) ∧ Sorted lt w ∧
        SameOrder lt (u ++ [e]) w := by
  induction u using reverseRecOn generalizing y with
  | nil => exact ⟨[e], rfl, pairwise_singleton .., .refl _⟩
  | append_singleton u z ih =>
    obtain ⟨hu, -, huz⟩ := sorted_append.mp hs
    have hj : (x.length : Int) + (u.length + 1 : Nat) = ((x ++ u).length + 1 + ([] : List α).length : Nat) := by
      rw [length_append, length_nil]
      omega
    have hj' : (x.length : Int) + (u.length + 1 : Nat) - 1 = (x ++ u).length := by
      rw [length_append]
      omega
    have hless : less lt .. = some _ := less_eq (getElem?_right (x ++ u) [] y z e) (getElem?_left (x ++ u) [] y z e)
    have hswap := swap_append_symm (x ++ u) [] y z e
    rw [nil_append] at hless hswap
    rw [show (u ++ [z]).length = u.length + 1 by simp, insert, hj', hj]
    rw [show x ++ (u ++ [z] ++ e :: y) = x ++ u ++ z :: e :: y by simp, hless, bind_eq_bind, bind_some]
    split
    . next hlt =>
      obtain ⟨w, hins, hw', hsame⟩ := ih (z :: y) hu
      rw [hswap, bind_eq_bind, bind_some]
      refine ⟨w ++ [z], ?_, ?_, ?_⟩
      . simpa using hins
      . refine sorted_append.mpr ⟨hw', pairwise_singleton .., ?_⟩
        intro a ha b hb
        rw [mem_singleton.mp hb]
        rcases mem_append.mp (hsame.perm.mem_iff.mp ha) with ha | ha
        . exact huz a ha z mem_cons_self
        . rw [mem_singleton.mp ha]
          exact hw.asymm e z hlt
      have hexch : SameOrder lt (u ++ ([z] ++ [e])) (u ++ ([e] ++ [z])) := by
        apply (SameOrder.refl u).append (.swap hw _)
        intro a ha b hb
        rwa [mem_singleton.mp ha, mem_singleton.mp hb]
      rw [append_assoc]
      apply hexch.trans
      rw [← append_assoc]
      exact hsame.append (.refl _)
    . next hge =>
      refine ⟨u ++ [z] ++ [e], by simp, ?_, .refl _⟩
      refine sorted_append.mpr ⟨hs, pairwise_singleton .., ?_⟩
      intro a ha b hb
      rw [mem_singleton.mp hb]
      exact hw.negTrans e z a (Bool.eq_false_iff.mpr hge) (hs.le_last hw ha)

theorem insertionSort_spec (hw : WeakOrder lt) (x u y : List α)
    : ∃ w, insertionSort lt (x ++ (u ++ y)) x.length (x.length + u.length : Nat) = some (x ++ (w ++ y)) ∧
        Sorted lt w ∧ SameOrder lt u w := by
  have hloop : ∀ (r w : List α), Sorted lt w → 0 < w.length →
      ∃ w', (range' (w.length - 1) r.length).foldlM (fun d i => insert lt x.length (i + 1) d)
          (x ++ (w ++ (r ++ y))) = some (x ++ (w' ++ y)) ∧ Sorted lt w' ∧ SameOrder lt (w ++ r) w' := by
    intro r
    induction r with
    | nil =>
      intro w hs _
      exact ⟨w, rfl, hs, by rw [append_nil]; exact .refl w⟩
    | cons e r ih =>
      intro w hs _
      obtain ⟨w1, hins, hs1, hsame1⟩ := insert_spec hw x w (r ++ y) e hs
      have hlen := hsame1.perm.length_eq
      rw [length_append, length_singleton] at hlen
      obtain ⟨w', hfold, hs', hsame'⟩ := ih w1 hs1 (by omega)
      rw [length_cons, range'_succ, foldlM_cons, show w.length - 1 + 1 = w.length by omega,
        cons_append, hins, bind_eq_bind, bind_some]
      rw [show w1.length - 1 = w.length by omega] at hfold
      refine ⟨w', hfold, hs', ?_⟩
      have hmove := (hsame1.append (.refl r)).trans hsame'
      rwa [append_assoc] at hmove
  unfold insertionSort
  cases u with
  | nil =>
    rw [show (((x.length + ([] : List α).length : Nat) : Int) - (x.length + 1)).toNat = 0 by
      rw [length_nil]; omega]
    exact ⟨[], rfl, .nil, .refl _⟩
  | cons e u =>
    obtain ⟨w, hfold, hs, hsame⟩ := hloop u [e] (pairwise_singleton ..) (Nat.succ_pos _)
    rw [show (((x.length + (e :: u).length : Nat) : Int) - (x.length + 1)).toNat = u.length by
      rw [length_cons]; omega, range_eq_range']
    exact ⟨w, hfold, hs, hsame⟩

theorem search_spec {q : Nat → Bool} (hij : i ≤ j) (hj : j < 2 ^ 63) (hp : ∀ h, i ≤ h → h < j → p h = some (q h))
    : ∃ s : Nat, search p i j = some (s : Int) ∧ i ≤ s ∧ s ≤ j ∧ (s = i ∨ q (s - 1) = true) ∧
        (s = j ∨ q s = false) := by
  have hgo : ∀ (fuel a b : Nat), i ≤ a → a ≤ b → b ≤ j → b ≤ a + fuel → (a = i ∨ q (a - 1) = true) →
      (b = j ∨ q b = false) →
      ∃ s : Nat, search.go p fuel a b = some (s : Int) ∧ i ≤ s ∧ s ≤ j ∧ (s = i ∨ q (s - 1) = true) ∧
        (s = j ∨ q s = false) := by
    intro fuel
    induction fuel with
    | zero =>
      intro a b ha _ hb _ hqa hqb
      obtain rfl : a = b := by omega
      exact ⟨a, rfl, ha, hb, hqa, hqb⟩
    | succ _ ih =>
      intro a b ha _ hb _ hqa hqb
      rw [search.go]
      split
      . next hlt =>
        rw [avg_eq (by omega)]
        dsimp only
        rw [hp _ (by omega) (by omega), bind_eq_bind, bind_some]
        split
        . next hq => exact ih ((a + b) / 2 + 1) b (by omega) (by omega) hb (by omega) (.inr hq) hqb
        . next hq =>
          exact ih a ((a + b) / 2) ha (by omega) (by omega) (by omega) hqa (.inr (Bool.eq_false_iff.mpr hq))
      . next hge =>
        obtain rfl : a = b := by omega
        exact ⟨a, rfl, ha, hb, hqa, hqb⟩
  exact hgo _ i j (Nat.le_refl i) hij (Nat.le_refl j) (by omega) (.inl rfl) (.inl rfl)

theorem le_getElem? {i j : Nat} (hw : WeakOrder lt) (h : Sorted lt l) (hi : l[i]? = some x)
    (hj : l[j]? = some y) (hij : i ≤ j) : lt y x = false := by
  obtain ⟨hi', rfl⟩ := List.getElem?_eq_some_iff.mp hi
  obtain ⟨hj', rfl⟩ := List.getElem?_eq_some_iff.mp hj
  rcases Nat.lt_or_eq_of_le hij with hlt | heq
  . exact pairwise_iff_getElem.mp h i j hi' hj' hlt
  . subst heq
    exact hw.irrefl _

theorem search_split {p : Int → Option Bool} {f : α → Bool} (hw : WeakOrder lt) (hs : Sorted lt v)
    (hf : ∀ z z', lt z' z = false → f z' = true → f z = true) (hlen : m + v.length < 2 ^ 63)
    (hp : ∀ k z, v[k]? = some z → p (m + k : Nat) = some (f z))
    : ∃ v1 v2, v = v1 ++ v2 ∧ search p m (m + v.length : Nat) = some ((m + v1.length : Nat) : Int) ∧
        (∀ z ∈ v1, f z = true) ∧ ∀ z ∈ v2, f z = false := by
  have hq : ∀ h, m ≤ h → h < m + v.length → p h = some ((v[h - m]?).any f) := by
    intro h _ _
    have hz := getElem?_eq_getElem (show h - m < v.length by omega)
    have hph := hp (h - m) _ hz
    rw [show m + (h - m) = h by omega] at hph
    rw [hph, hz]
    rfl
  obtain ⟨s, hsearch, _, _, hbefore, hbehind⟩ := search_spec (by omega) hlen hq
  refine ⟨v.take (s - m), v.drop (s - m), (take_append_drop ..).symm, ?_, ?_, ?_⟩
  . rw [hsearch, length_take]
    congr
    omega
  . intro z hz
    obtain ⟨_, hk⟩ := mem_iff_getElem?.mp hz
    rw [getElem?_take] at hk
    split at hk
    . next hlt =>
      have hq := hbefore.resolve_left (by omega)
      obtain ⟨z', hz', hfz'⟩ := (any_eq_true f _).mp hq
      exact hf z z' (le_getElem? hw hs hk hz' (by omega)) hfz'
    . contradiction
  . intro z hz
    obtain ⟨_, hk⟩ := mem_iff_getElem?.mp hz
    rw [getElem?_drop] at hk
    obtain ⟨_, -⟩ := List.getElem?_eq_some_iff.mp hk
    have hq := hbehind.resolve_left (by omega)
    have hz0 := List.getElem?_eq_getElem (show s - m < v.length by omega)
    rw [Bool.eq_false_iff]
    intro hfz
    rw [hz0, any_some, hf _ z (le_getElem? hw hs hz0 hk (by omega)) hfz] at hq
    contradiction

theorem getElem?_first (x u v : List α) (hk : u[k]? = some z) : (x ++ (u ++ v))[x.length + k]? = some z := by
  obtain ⟨hlt, -⟩ := List.getElem?_eq_some_iff.mp hk
  rw [List.getElem?_append_right (Nat.le_add_right ..), Nat.add_sub_cancel_left, List.getElem?_append_left hlt, hk]

theorem getElem?_second (x u v y : List α) (hk : v[k]? = some z)
    : (x ++ (u ++ (v ++ y)))[x.length + u.length + k]? = some z := by
  have h := getElem?_first (x ++ u) v y hk
  rwa [append_assoc, length_append] at h

theorem merge_halves (hw : WeakOrder lt) (hu : Sorted lt (u1 ++ u2)) (hv : Sorted lt (v1 ++ v2))
    (hless : ∀ z ∈ u2, ∀ z' ∈ v1, lt z' z = true) (hge : ∀ z ∈ u1, ∀ z' ∈ v2, lt z' z = false)
    (hs1 : Sorted lt w1) (hs2 : Sorted lt w2) (h1 : SameOrder lt (u1 ++ v1) w1) (h2 : SameOrder lt (u2 ++ v2) w2)
    : Sorted lt (w1 ++ w2) ∧ SameOrder lt (u1 ++ u2 ++ (v1 ++ v2)) (w1 ++ w2) := by
  constructor
  . refine sorted_append.mpr ⟨hs1, hs2, ?_⟩
    intro z hz z' hz'
    rcases mem_append.mp (h1.perm.mem_iff.mp hz) with hz | hz
    . rcases mem_append.mp (h2.perm.mem_iff.mp hz') with hz' | hz'
      . exact (sorted_append.mp hu).2.2 z hz z' hz'
      . exact hge z hz z' hz'
    . rcases mem_append.mp (h2.perm.mem_iff.mp hz') with hz' | hz'
      . exact hw.asymm z z' (hless z' hz' z hz)
      . exact (sorted_append.mp hv).2.2 z hz z' hz'
  . have hmove := ((SameOrder.refl u1).append (.swap hw hless)).append (.refl v2)
    simp only [append_assoc] at hmove ⊢
    apply hmove.trans
    rw [← append_assoc]
    exact h1.append h2

theorem symMerge_left (hw : WeakOrder lt) (x v y : List α) (e : α) (hs : Sorted lt v)
    (hlen : x.length + 1 + v.length < 2 ^ 63)
    : ∃ w, symMerge lt (fuel + 1) (x ++ e :: (v ++ y)) x.length (x.length + 1 : Nat) (x.length + 1 + v.length : Nat)
          = some (x ++ (w ++ y)) ∧ Sorted lt w ∧ SameOrder lt ([e] ++ v) w := by
  have hf : ∀ z z', lt z' z = false → lt z' e = true → lt z e = true := by
    intro z z' hle hz'
    rw [← Bool.not_eq_false]
    intro hz
    rw [hw.negTrans z' z e hle hz] at hz'
    contradiction
  have hp : ∀ k z, v[k]? = some z →
      less lt (x ++ e :: (v ++ y)) (x.length + 1 + k : Nat) x.length = some (lt z e) := by
    intro k z hk
    exact less_eq (getElem?_second x [e] v y hk) (by simp)
  obtain ⟨v1, v2, rfl, hsearch, hv1, hv2⟩ := search_split
    (p := fun h => less lt (x ++ e :: (v ++ y)) h x.length) hw hs hf hlen hp
  obtain ⟨hs1, hs2, -⟩ := sorted_append.mp hs
  rw [symMerge, if_pos (by omega), hsearch, bind_eq_bind, bind_some,
    show (((x.length + 1 + v1.length : Nat) : Int) - 1 - x.length).toNat = v1.length by omega, append_assoc,
    moveRight_spec x v1 (v2 ++ y) e]
  refine ⟨v1 ++ ([e] ++ v2), by simp, merge_halves hw (show Sorted lt ([] ++ [e]) from pairwise_singleton ..) hs ?_ ?_ hs1
    (pairwise_cons.mpr ⟨hv2, hs2⟩) (.refl v1) (.refl _)⟩
  . simpa using hv1
  . simp

theorem symMerge_right (hw : WeakOrder lt) (x u y : List α) (e : α) (hs : Sorted lt u) (htwo : u.length ≠ 1)
    (hlen : x.length + u.length < 2 ^ 63)
    : ∃ w, symMerge lt (fuel + 1) (x ++ (u ++ e :: y)) x.length (x.length + u.length : Nat)
            (x.length + u.length + 1 : Nat)
          = some (x ++ (w ++ y)) ∧ Sorted lt w ∧ SameOrder lt (u ++ [e]) w := by
  have hf : ∀ z z', lt z' z = false → (!lt e z') = true → (!lt e z) = true := by
    intro z z' hle hz'
    rw [Bool.not_eq_true'] at *
    exact hw.negTrans e z' z hz' hle
  have he : (x ++ (u ++ e :: y))[x.length + u.length]? = some e := getElem?_second x u [e] y (k := 0) rfl
  have hp : ∀ k z, u[k]? = some z →
      (less lt (x ++ (u ++ e :: y)) (x.length + u.length : Nat) (x.length + k : Nat)).map not = some (!lt e z) := by
    intro k z hk
    rw [less_eq he (getElem?_first x u (e :: y) hk)]
    rfl
  obtain ⟨u1, u2, rfl, hsearch, hu1, hu2⟩ := search_split
    (p := fun h => (less lt (x ++ (u ++ e :: y)) (x.length + u.length : Nat) h).map not) hw hs hf hlen hp
  obtain ⟨hs1, hs2, h12⟩ := sorted_append.mp hs
  simp only [Bool.not_eq_true', Bool.not_eq_false'] at hu1 hu2
  have hmove := moveLeft_spec (x ++ u1) u2 y e
  rw [length_append, Nat.add_assoc, ← length_append, append_assoc, ← append_assoc u1] at hmove
  rw [symMerge, if_neg (by omega), if_pos (by omega), hsearch, bind_eq_bind, bind_some,
    show (((x.length + (u1 ++ u2).length : Nat) : Int) - (x.length + u1.length : Nat)).toNat = u2.length by
      rw [length_append]
      omega,
    hmove]
  refine ⟨u1 ++ ([e] ++ u2), by simp, ?_, ?_⟩
  . exact sorted_append.mpr ⟨hs1, pairwise_cons.mpr ⟨fun z hz => hw.asymm e z (hu2 z hz), hs2⟩,
      fun a ha => forall_mem_cons.mpr ⟨hu1 a ha, h12 a ha⟩⟩
  rw [append_assoc]
  apply SameOrder.append (.refl u1) (.swap hw _)
  intro a ha b hb
  rw [mem_singleton.mp hb]
  exact hu2 a ha

theorem search_halves {p : Int → Option Bool} (hw : WeakOrder lt) (hu : Sorted lt u) (hv : Sorted lt v)
    (hle : h ≤ u.length + v.length) (hlen : a + h < 2 ^ 63)
    (hp : ∀ k z z', k < h → u[k]? = some z → v[h - 1 - k]? = some z' → p (a + k : Nat) = some (!lt z' z))
    : ∃ u1 u2 v1 v2, u = u1 ++ u2 ∧ v = v1 ++ v2 ∧ u1.length + v1.length = h ∧
        search p (a + (h - v.length) : Nat) (a + min h u.length : Nat) = some ((a + u1.length : Nat) : Int) ∧
        (∀ z ∈ u2, ∀ z' ∈ v1, lt z' z = true) ∧ ∀ z ∈ u1, ∀ z' ∈ v2, lt z' z = false := by
  have hq : ∀ c, a + (h - v.length) ≤ c → c < a + min h u.length →
      p c = some (!(v[h - 1 - (c - a)]?).any fun z' => (u[c - a]?).any fun z => lt z' z) := by
    intro c _ _
    have hz := getElem?_eq_getElem (show c - a < u.length by omega)
    have hz' := getElem?_eq_getElem (show h - 1 - (c - a) < v.length by omega)
    have hpc := hp (c - a) _ _ (by omega) hz hz'
    rw [show a + (c - a) = c by omega] at hpc
    rw [hpc, hz, hz']
    rfl
  obtain ⟨s, hsearch, _, _, hbefore, hbehind⟩ := search_spec (by omega) (by omega) hq
  obtain ⟨k, rfl⟩ := Nat.exists_eq_add_of_le (show a ≤ s by omega)
  refine ⟨u.take k, u.drop k, v.take (h - k), v.drop (h - k), (take_append_drop ..).symm,
    (take_append_drop ..).symm, ?_, ?_, ?_, ?_⟩
  . rw [length_take, length_take]
    omega
  . rw [hsearch, length_take, Nat.min_eq_left (by omega)]
  . intro _ hz _ hz'
    obtain ⟨_, hi⟩ := mem_iff_getElem?.mp hz
    obtain ⟨_, hj⟩ := mem_iff_getElem?.mp hz'
    rw [getElem?_drop] at hi
    rw [getElem?_take] at hj
    split at hj
    . next hjk =>
      obtain ⟨_, -⟩ := List.getElem?_eq_some_iff.mp hi
      have hlt := hbehind.resolve_left (by omega)
      have he := List.getElem?_eq_getElem (show k < u.length by omega)
      have he' := getElem?_eq_getElem (show h - 1 - k < v.length by omega)
      rw [Nat.add_sub_cancel_left, he, he', any_some, any_some, Bool.not_eq_false'] at hlt
      rw [← Bool.not_eq_false]
      intro hge
      have hle := hw.negTrans _ _ _ (hw.negTrans _ _ _ (le_getElem? hw hv hj he' (by omega)) hge)
        (le_getElem? hw hu he hi (by omega))
      rw [hlt] at hle
      contradiction
    . contradiction
  . intro _ hz _ hz'
    obtain ⟨_, hi⟩ := mem_iff_getElem?.mp hz
    obtain ⟨_, hj⟩ := mem_iff_getElem?.mp hz'
    rw [getElem?_take] at hi
    rw [getElem?_drop] at hj
    split at hi
    . next hik =>
      obtain ⟨_, -⟩ := List.getElem?_eq_some_iff.mp hj
      have hge := hbefore.resolve_left (by omega)
      have he := List.getElem?_eq_getElem (show a + k - 1 - a < u.length by omega)
      have he' := getElem?_eq_getElem (show h - 1 - (a + k - 1 - a) < v.length by omega)
      rw [he, he', any_some, any_some, Bool.not_eq_true'] at hge
      exact hw.negTrans _ _ _ (le_getElem? hw hv he' hj (by omega))
        (hw.negTrans _ _ _ hge (le_getElem? hw hu hi he (by omega)))
    . contradiction

theorem onlyIf_rotate (x u v y : List α) (ha : x.length = a) (hm : a + u.length = m) (hb : m + v.length = b)
    : onlyIf ((a : Int) < m ∧ (m : Int) < b) (rotate · a m b) (x ++ (u ++ (v ++ y))) = some (x ++ (v ++ (u ++ y))) := by
  subst ha hm hb
  unfold onlyIf
  split
  . next h => exact rotate_spec x u v y (by rintro rfl; simp at h) (by rintro rfl; simp at h)
  next h =>
  by_cases hu : u = []
  . rw [hu, nil_append, nil_append]
  . have hpos := length_pos_iff.mpr hu
    rw [show v = [] from length_eq_zero_iff.mp (by omega), nil_append, nil_append]

theorem symMerge_eq {a m b s : Nat} (ham : a + 2 ≤ m) (hmb : m + 2 ≤ b) (hb : b ≤ 2 ^ 62) (hs : s ≤ (a + b) / 2)
    (hsearch : search (fun c => (less lt d (i64 (((a + b) / 2 + m - 1 : Nat) - c)) c).map not)
      (max a ((a + b) / 2 + m - b) : Nat) (min ((a + b) / 2) m : Nat) = some (s : Int))
    : symMerge lt (fuel + 1) d a m b
        = (onlyIf ((s : Int) < m ∧ (m : Int) < ((a + b) / 2 + m - s : Nat)) (rotate · s m ((a + b) / 2 + m - s : Nat)) d).bind
            fun d => (onlyIf ((a : Int) < s ∧ (s : Int) < ((a + b) / 2 : Nat))
              (symMerge lt fuel · a s ((a + b) / 2 : Nat)) d).bind
            fun d => onlyIf ((((a + b) / 2 : Nat) : Int) < ((a + b) / 2 + m - s : Nat) ∧
                (((a + b) / 2 + m - s : Nat) : Int) < b)
              (symMerge lt fuel · ((a + b) / 2 : Nat) ((a + b) / 2 + m - s : Nat) b) d := by
  have hn : i64 (((a + b) / 2 : Nat) + m) = ((a + b) / 2 + m : Nat) := by
    rw [i64_eq] <;> omega
  have hp : i64 (((a + b) / 2 + m : Nat) - 1) = ((a + b) / 2 + m - 1 : Nat) := by
    rw [i64_eq] <;> omega
  have hstop : i64 (((a + b) / 2 + m : Nat) - s) = ((a + b) / 2 + m - s : Nat) := by
    rw [i64_eq] <;> omega
  have hlo : (if (m : Int) > ((a + b) / 2 : Nat) then i64 (((a + b) / 2 + m : Nat) - b) else a)
      = (max a ((a + b) / 2 + m - b) : Nat) := by
    split
    . rw [i64_eq] <;> omega
    . omega
  have hhi : (if (m : Int) > ((a + b) / 2 : Nat) then (((a + b) / 2 : Nat) : Int) else m) = (min ((a + b) / 2) m : Nat) := by
    split <;> omega
  rw [symMerge, if_neg (by omega), if_neg (by omega), avg_eq (by omega)]
  dsimp only
  rw [hn, hp, hlo, hhi, hsearch, bind_eq_bind, bind_some, hstop]
  rfl

theorem symMerge_spec {a m b : Nat} (hw : WeakOrder lt) (fuel : Nat) (x u v y : List α) (hu : Sorted lt u) (hv : Sorted lt v)
    (ha : x.length = a) (hm : a + u.length = m) (hb : m + v.length = b) (hfuel : u.length + v.length ≤ fuel)
    (hlen : b ≤ 2 ^ 62)
    : ∃ w, onlyIf ((a : Int) < m ∧ (m : Int) < b) (symMerge lt fuel · a m b) (x ++ (u ++ (v ++ y)))
          = some (x ++ (w ++ y)) ∧ Sorted lt w ∧ SameOrder lt (u ++ v) w := by
  induction fuel generalizing x u v y a m b with
  | zero =>
    rw [length_eq_zero_iff.mp (by omega : u.length = 0), length_eq_zero_iff.mp (by omega : v.length = 0)]
    exact ⟨[], if_neg (by omega), .nil, .refl _⟩
  | succ _ ih =>
    by_cases hne : 0 < u.length ∧ 0 < v.length
    . rw [onlyIf, if_pos (by omega)]
      by_cases hu1 : u.length = 1
      . obtain ⟨e, rfl⟩ := length_eq_one_iff.mp hu1
        subst ha hm hb
        exact symMerge_left hw x v y e hv (by rw [hu1] at hlen; omega)
      by_cases hv1 : v.length = 1
      . obtain ⟨e, rfl⟩ := length_eq_one_iff.mp hv1
        subst ha hm hb
        exact symMerge_right hw x u y e hu hu1 (by omega)
      have hp : ∀ k z z', k < (u.length + v.length) / 2 → u[k]? = some z →
          v[(u.length + v.length) / 2 - 1 - k]? = some z' →
          (less lt (x ++ (u ++ (v ++ y))) (i64 (((a + b) / 2 + m - 1 : Nat) - (a + k : Nat))) (a + k : Nat)).map not
            = some (!lt z' z) := by
        intro k _ _ _ hz hz'
        rw [i64_eq (by omega) (by omega), ← ha,
          show (((x.length + b) / 2 + m - 1 : Nat) : Int) - (x.length + k : Nat)
            = (x.length + u.length + ((u.length + v.length) / 2 - 1 - k) : Nat) by omega,
          less_eq (getElem?_second x u v y hz') (getElem?_first x u (v ++ y) hz)]
        rfl
      obtain ⟨u1, u2, v1, v2, rfl, rfl, _, hsearch, hless, hge⟩ := search_halves
        (p := fun c => (less lt (x ++ (u ++ (v ++ y))) (i64 (((a + b) / 2 + m - 1 : Nat) - c)) c).map not)
        hw hu hv (by omega) (by omega) hp
      rw [length_append, length_append] at *
      rw [symMerge_eq (s := a + u1.length) (by omega) (by omega) hlen (by omega) (by
        rw [← hsearch]
        congr <;> omega)]
      obtain ⟨hsu1, hsu2, -⟩ := sorted_append.mp hu
      obtain ⟨hsv1, hsv2, -⟩ := sorted_append.mp hv
      obtain ⟨w1, hmerge1, hsw1, hsame1⟩ := ih (a := a) (m := a + u1.length) (b := (a + b) / 2) x u1 v1
        (u2 ++ (v2 ++ y)) hsu1 hsv1 ha rfl (by omega) (by omega) (by omega)
      have hlen1 := hsame1.perm.length_eq
      rw [length_append] at hlen1
      obtain ⟨w2, hmerge2, hsw2, hsame2⟩ := ih (a := (a + b) / 2) (m := (a + b) / 2 + m - (a + u1.length)) (b := b)
        (x ++ w1) u2 v2 y hsu2 hsv2 (by rw [length_append]; omega) (by omega) (by omega) (by omega) hlen
      refine ⟨w1 ++ w2, ?_, merge_halves hw hu hv hless hge hsw1 hsw2 hsame1 hsame2⟩
      have hrot := onlyIf_rotate (a := a + u1.length) (m := m) (b := (a + b) / 2 + m - (a + u1.length)) (x ++ u1) u2 v1
        (v2 ++ y) (by rw [length_append]; omega) (by omega) (by omega)
      simp only [append_assoc] at hrot hmerge1 hmerge2 ⊢
      rw [hrot, bind_some, hmerge1, bind_some, hmerge2]
    . rw [onlyIf, if_neg (by omega)]
      refine ⟨u ++ v, by simp, ?_, .refl _⟩
      by_cases hnil : u = []
      . rwa [hnil]
      . have hpos := length_pos_iff.mpr hnil
        rwa [show v = [] from length_eq_zero_iff.mp (by omega), append_nil]

end SortInterface
