import Goish.Data.StableSort
import Goish.Sort.Lemmas.Interface

namespace SortInterface

open List StableSort Option

def Child (i c : Nat) : Prop :=
  c = 2 * i + 1 ∨ c = 2 * i + 2

theorem Child.lt (h : Child i c) : i < c := by
  unfold Child at h
  omega

theorem Child.parent (h : Child i c) (h' : Child j c) : i = j := by
  unfold Child at h h'
  omega

structure Moved (stop : Nat) (d d' : List α) : Prop where
  perm : d'.Perm d
  above : ∀ k, stop ≤ k → d'[k]? = d[k]?
  below : ∀ k, k < stop → ∃ k', k' < stop ∧ d'[k]? = d[k']?

theorem Moved.refl (stop : Nat) (d : List α) : Moved stop d d :=
  ⟨.refl _, fun _ _ => rfl, fun k hk => ⟨k, hk, rfl⟩⟩

theorem Moved.trans (h : Moved stop d1 d2) (h' : Moved stop d2 d3) : Moved stop d1 d3 := by
  refine ⟨h'.perm.trans h.perm, fun k hk => (h'.above k hk).trans (h.above k hk), ?_⟩
  intro k hk
  obtain ⟨k', hk', heq⟩ := h'.below k hk
  obtain ⟨k'', hk'', heq'⟩ := h.below k' hk'
  exact ⟨k'', hk'', heq.trans heq'⟩

structure Swapped (d d' : List α) (i j : Nat) : Prop where
  left : d'[i]? = d[j]?
  right : d'[j]? = d[i]?
  other : ∀ k, k ≠ i → k ≠ j → d'[k]? = d[k]?
  moved : ∀ stop, i < stop → j < stop → Moved stop d d'

theorem swap_spec {d : List α} (hi : i < d.length) (hj : j < d.length) (hne : i ≠ j)
    : ∃ d', swap d i j = some d' ∧ Swapped d d' i j := by
  refine ⟨_, swap_eq (List.getElem?_eq_getElem hi) (List.getElem?_eq_getElem hj), ?_⟩
  have hget : ∀ k, ((d.set i d[j]).set j d[i])[k]? = if j = k then some d[i] else if i = k then some d[j] else d[k]? := by
    intro k
    rw [List.getElem?_set, List.getElem?_set, length_set]
    simp only [hi, hj, if_true]
  have hleft : ((d.set i d[j]).set j d[i])[i]? = d[j]? := by
    rw [hget, if_neg (Ne.symm hne), if_pos rfl, List.getElem?_eq_getElem hj]
  have hright : ((d.set i d[j]).set j d[i])[j]? = d[i]? := by
    rw [hget, if_pos rfl, List.getElem?_eq_getElem hi]
  have hother : ∀ k, k ≠ i → k ≠ j → ((d.set i d[j]).set j d[i])[k]? = d[k]? := by
    intro k hki hkj
    rw [hget, if_neg (Ne.symm hkj), if_neg (Ne.symm hki)]
  refine ⟨hleft, hright, hother, ?_⟩
  intro _ his hjs
  refine ⟨set_set_perm hi hj, fun k hk => hother k (by omega) (by omega), ?_⟩
  intro k hk
  by_cases hki : k = i
  . exact ⟨j, hjs, hki ▸ hleft⟩
  . by_cases hkj : k = j
    . exact ⟨i, his, hkj ▸ hright⟩
    . exact ⟨k, hk, hother k hki hkj⟩

variable (lt : α → α → Bool)

def HeapAt (d : List α) (stop i : Nat) : Prop :=
  ∀ c x y, Child i c → c < stop → d[i]? = some x → d[c]? = some y → lt x y = false

def Heap (d : List α) (lo stop : Nat) : Prop :=
  ∀ i, lo ≤ i → HeapAt lt d stop i

structure Sift (d : List α) (lo stop r : Nat) : Prop where
  heap : ∀ i, lo ≤ i → i ≠ r → HeapAt lt d stop i
  up : ∀ i, lo ≤ i → Child i r →
    ∀ c x y, Child r c → c < stop → d[i]? = some x → d[c]? = some y → lt x y = false

def Edge (d : List α) (i c : Nat) : Prop :=
  ∀ x y, d[i]? = some x → d[c]? = some y → lt x y = false

structure Hole (d : List α) (lo stop r : Nat) : Prop where
  heap : ∀ i c, lo ≤ i → Child i c → c < stop → i ≠ r → c ≠ r → Edge lt d i c
  up : ∀ i c, lo ≤ i → Child i r → Child r c → c < stop → Edge lt d i c

variable {lt}

theorem edge_of (hx : d[i]? = some x) (hy : d[c]? = some y) (h : lt x y = false) : Edge lt d i c := by
  intro u v hu hv
  rwa [← some.inj (hx.symm.trans hu), ← some.inj (hy.symm.trans hv)]

theorem Edge.of_eq (h : Edge lt d i c) (hi : d'[i']? = d[i]?) (hc : d'[c']? = d[c]?) : Edge lt d' i' c' :=
  fun x y hx hy => h x y (hi ▸ hx) (hc ▸ hy)

theorem HeapAt.edge (h : HeapAt lt d stop i) (hc : Child i c) (hstop : c < stop) : Edge lt d i c :=
  fun x y => h c x y hc hstop

theorem heapAt_of (h : ∀ c, Child i c → c < stop → Edge lt d i c) : HeapAt lt d stop i :=
  fun c x y hc hstop => h c hc hstop x y

theorem Sift.hole (h : Sift lt d lo stop r) : Hole lt d lo stop r :=
  ⟨fun i _ hi hc hstop hne _ => (h.heap i hi hne).edge hc hstop, fun i c hi hir hc hstop x y => h.up i hi hir c x y hc hstop⟩

theorem Sift.done (h : Sift lt d lo stop r) (hr : HeapAt lt d stop r) : Heap lt d lo stop := by
  intro i hi
  by_cases hir : i = r
  . exact hir ▸ hr
  . exact h.heap i hi hir

theorem Hole.step (h : Hole lt d lo stop r) (hlo : lo ≤ c) (hc : Child r c) (hstop : c < stop) (hs : Swapped d d' r c)
    (hlt : Edge lt d c r) (hmin : ∀ c', Child r c' → c' < stop → Edge lt d c c') : Sift lt d' lo stop c := by
  have hrc := hc.lt
  constructor
  case heap =>
    intro i hi hne
    apply heapAt_of
    intro c' hc' hstop'
    have hic := hc'.lt
    by_cases hir : i = r
    . subst hir
      by_cases hcc : c' = c
      . exact hcc ▸ hlt.of_eq hs.left hs.right
      . exact (hmin c' hc' hstop').of_eq hs.left (hs.other c' (by omega) hcc)
    have hi' := hs.other i hir hne
    by_cases hcr : c' = r
    . subst hcr
      exact (h.up i c hi hc' hc hstop).of_eq hi' hs.left
    . exact (h.heap i c' hi hc' hstop' hir hcr).of_eq hi' (hs.other c' hcr fun heq => hir ((heq ▸ hc').parent hc))
  case up =>
    intro i _ hic c' u v hc' hstop'
    have hcc := hc'.lt
    rw [hic.parent hc]
    exact (h.heap c c' hlo hc' hstop' (by omega) (by omega)).of_eq hs.left (hs.other c' (by omega) (by omega)) u v

section

variable (hw : WeakOrder lt)
include hw

theorem Edge.refl (d : List α) (i : Nat) : Edge lt d i i := by
  intro x y hx hy
  rw [some.inj (hx.symm.trans hy)]
  exact hw.irrefl y

theorem Edge.trans (h : Edge lt d i j) (h' : Edge lt d j c) (hj : j < c) : Edge lt d i c := by
  intro x y hx hy
  have hz := List.getElem?_eq_getElem (Nat.lt_trans hj (List.getElem?_eq_some_iff.mp hy).1)
  exact hw.negTrans x _ y (h x _ hx hz) (h' _ y hz hy)

theorem heap_root (h : Heap lt d 0 stop) (hstop : stop ≤ d.length) (hx : d[0]? = some x)
    (i : Nat) (hi : i < stop) (hy : d[i]? = some y) : lt x y = false := by
  induction i using Nat.strongRecOn generalizing y with
  | _ i ih =>
    by_cases hzero : i = 0
    . rw [hzero, hx] at hy
      cases hy
      exact hw.irrefl x
    . have hparent : (i - 1) / 2 < d.length := by omega
      have hz := List.getElem?_eq_getElem hparent
      have hzy := h ((i - 1) / 2) (Nat.zero_le _) i _ _ (by unfold Child; omega) hi hz hy
      exact hw.negTrans x _ y (ih ((i - 1) / 2) (by omega) (by omega) hz) hzy

theorem pick_spec {r stop : Nat} (hleft : 2 * r + 1 < stop) (hstop : stop ≤ d.length)
    : ∃ c : Nat, pick lt d (2 * r + 1 : Nat) stop = some (c : Int) ∧ Child r c ∧ c < stop ∧
        ∀ c', Child r c' → c' < stop → Edge lt d c c' := by
  have hx := List.getElem?_eq_getElem (Nat.lt_of_lt_of_le hleft hstop)
  unfold pick
  split
  . next hlt =>
    have hright : 2 * r + 2 < d.length := by omega
    have hy := List.getElem?_eq_getElem hright
    rw [show ((2 * r + 1 : Nat) : Int) + 1 = (2 * r + 2 : Nat) by omega, less_eq hx hy]
    cases hcmp : lt d[2 * r + 1] d[2 * r + 2] with
    | true =>
      refine ⟨2 * r + 2, rfl, .inr rfl, by omega, ?_⟩
      rintro _ (rfl | rfl) -
      . exact edge_of hy hx (hw.asymm _ _ hcmp)
      . exact .refl hw d _
    | false =>
      refine ⟨2 * r + 1, rfl, .inl rfl, hleft, ?_⟩
      rintro _ (rfl | rfl) -
      . exact .refl hw d _
      . exact edge_of hx hy hcmp
  . next hge =>
    refine ⟨2 * r + 1, rfl, .inl rfl, hleft, ?_⟩
    rintro _ (rfl | rfl) hlt
    . exact .refl hw d _
    . omega

/-- The child that is picked, and what follows when it is compared with its parent. -/
theorem pick_less {r stop : Nat} (hleft : 2 * r + 1 < stop) (hstop : stop ≤ d.length)
    : ∃ (c : Nat) (x y : α), pick lt d (2 * r + 1 : Nat) stop = some (c : Int) ∧ Child r c ∧ c < stop ∧
        d[r]? = some x ∧ d[c]? = some y ∧ (lt x y = false → HeapAt lt d stop r) ∧
        (lt x y = true → ∃ d', swap d r c = some d' ∧ Moved stop d d' ∧
          ∀ lo, lo ≤ c → Hole lt d lo stop r → Sift lt d' lo stop c) := by
  obtain ⟨c, hpick, hc, hcstop, hmin⟩ := pick_spec hw hleft hstop
  have hr : r < stop := by omega
  have hx := List.getElem?_eq_getElem (Nat.lt_of_lt_of_le hr hstop)
  have hy := List.getElem?_eq_getElem (Nat.lt_of_lt_of_le hcstop hstop)
  refine ⟨c, _, _, hpick, hc, hcstop, hx, hy, ?_, ?_⟩
  . intro hxy
    apply heapAt_of
    intro c' hc' hstop' u v hu hv
    rw [← some.inj (hx.symm.trans hu)]
    exact hw.negTrans _ _ v hxy (hmin c' hc' hstop' _ v hy hv)
  . intro hxy
    obtain ⟨d', hswap, hs⟩ := swap_spec (Nat.lt_of_lt_of_le hr hstop) (Nat.lt_of_lt_of_le hcstop hstop)
      (Nat.ne_of_lt hc.lt)
    exact ⟨d', hswap, hs.moved stop hr hcstop, fun lo hlo h =>
      h.step hlo hc hcstop hs (edge_of hy hx (hw.asymm _ _ hxy)) hmin⟩

theorem siftDown_spec {d : List α} {lo stop r fuel : Nat} (h : Sift lt d lo stop r) (hlo : lo ≤ r) (hr : r < stop)
    (hstop : stop ≤ d.length) (hlen : d.length ≤ 2 ^ 62) (hfuel : stop ≤ r + fuel)
    : ∃ d', siftDown lt fuel d r stop = some d' ∧ Heap lt d' lo stop ∧ Moved stop d d' := by
  induction fuel generalizing d r with
  | zero => omega
  | succ _ ih =>
    have hchild : i64 ((r : Int) * 2 + 1) = (2 * r + 1 : Nat) := by
      rw [i64_eq] <;> omega
    rw [siftDown, hchild]
    split
    . next hge =>
      refine ⟨d, rfl, h.done ?_, .refl _ _⟩
      intro c x y hc
      unfold Child at hc
      omega
    next hlt =>
    obtain ⟨c, x, y, hpick, hc, hcstop, hx, hy, hstay, hmove⟩ := pick_less hw (r := r) (d := d) (by omega) hstop
    rw [hpick, bind_eq_bind, bind_some, less_eq hx hy, bind_eq_bind, bind_some]
    split
    . next hxy =>
      have hrc := hc.lt
      obtain ⟨_, hswap, hmoved, hsift⟩ := hmove hxy
      have hlen' := hmoved.perm.length_eq
      obtain ⟨d'', heq, hheap, hmoved'⟩ := ih (hsift lo (by omega) h.hole) (by omega) hcstop (by omega) (by omega)
        (by omega)
      rw [hswap]
      exact ⟨d'', heq, hheap, hmoved.trans hmoved'⟩
    . next hxy => exact ⟨d, rfl, h.done (hstay (Bool.eq_false_iff.mpr hxy)), .refl _ _⟩

theorem heapify_spec (h : Heap lt d (start + 1) d.length) (hstart : start < d.length)
    (hlen : d.length ≤ 2 ^ 62) : ∃ d', sort.heapify lt d start = some d' ∧ Heap lt d' 0 d'.length ∧ d'.Perm d := by
  induction start generalizing d with
  | zero =>
    have hsift : Sift lt d 0 d.length 0 := ⟨fun i _ hne => h i (by omega), fun i _ hc => by unfold Child at hc; omega⟩
    obtain ⟨d', heq, hheap, hmoved⟩ := siftDown_spec hw hsift (Nat.le_refl 0) hstart (Nat.le_refl _) hlen
      (show d.length ≤ 0 + d.length by omega)
    refine ⟨d', heq, ?_, hmoved.perm⟩
    rwa [hmoved.perm.length_eq]
  | succ start ih =>
    have hsift : Sift lt d (start + 1) d.length (start + 1) :=
      ⟨fun i hi hne => h i (by omega), fun i hi hc => by unfold Child at hc; omega⟩
    obtain ⟨_, heq, hheap, hmoved⟩ := siftDown_spec hw hsift (Nat.le_refl _) hstart (Nat.le_refl _) hlen
      (show d.length ≤ start + 1 + d.length by omega)
    have hlen' := hmoved.perm.length_eq
    rw [← hlen'] at hheap
    obtain ⟨d'', heq', hheap', hperm⟩ := ih hheap (by omega) (by omega)
    rw [sort.heapify, heq]
    exact ⟨d'', heq', hheap', hperm.trans hmoved.perm⟩

end

def Drained (lt : α → α → Bool) (d : List α) (stop : Nat) : Prop :=
  ∀ i j x y, i < j → stop < j → d[i]? = some x → d[j]? = some y → lt y x = false

theorem Drained.step (hw : WeakOrder lt) (h : Drained lt d (stop + 1)) (hheap : Heap lt d 0 (stop + 2))
    (hlen : stop + 1 < d.length) (hs : Swapped d d1 0 (stop + 1)) (hmoved : Moved (stop + 1) d1 d2)
    : Drained lt d2 stop := by
  intro i j x y _ _ hx hy
  rw [hmoved.above j (by omega)] at hy
  -- The place of the element before the two moves.
  have hfrom : ∃ i', (i' < j ∨ j = stop + 1 ∧ i' ≤ j) ∧ d[i']? = some x := by
    by_cases his : i < stop + 1
    . obtain ⟨k, _, heq⟩ := hmoved.below i his
      rw [heq] at hx
      by_cases hzero : k = 0
      . rw [hzero, hs.left] at hx
        exact ⟨stop + 1, by omega, hx⟩
      . rw [hs.other k hzero (by omega)] at hx
        exact ⟨k, by omega, hx⟩
    . rw [hmoved.above i (by omega)] at hx
      by_cases heq : i = stop + 1
      . rw [heq, hs.right] at hx
        exact ⟨0, by omega, hx⟩
      . rw [hs.other i (by omega) heq] at hx
        exact ⟨i, by omega, hx⟩
  obtain ⟨i', _, hx⟩ := hfrom
  by_cases heq : j = stop + 1
  . rw [heq, hs.right] at hy
    exact heap_root hw hheap (by omega) hy i' (by omega) hx
  . rw [hs.other j (by omega) heq] at hy
    exact h i' j x y (by omega) (by omega) hx hy

theorem drain_spec {d : List α} (hw : WeakOrder lt) (h : Drained lt d stop)
    (hheap : Heap lt d 0 (stop + 1)) (hstop : stop < d.length) (hlen : d.length ≤ 2 ^ 62)
    : ∃ d', sort.drain lt d stop = some d' ∧ Drained lt d' 0 ∧ d'.Perm d := by
  induction stop generalizing d with
  | zero => exact ⟨d, rfl, h, .refl _⟩
  | succ stop ih =>
    obtain ⟨d1, hswap, hs⟩ := swap_spec (d := d) (i := 0) (j := stop + 1) (by omega) hstop (by omega)
    have hperm := (hs.moved (stop + 2) (by omega) (by omega)).perm
    have hlen1 := hperm.length_eq
    -- The root is the only element of the shorter heap that may be out of place.
    have hsift : Sift lt d1 0 (stop + 1) 0 := by
      constructor
      . intro i hi hne c x y hc _ hx hy
        have hc' := hc
        unfold Child at hc'
        rw [hs.other i hne (by omega)] at hx
        rw [hs.other c (by omega) (by omega)] at hy
        exact hheap i hi c x y hc (by omega) hx hy
      . intro _ _ hc
        unfold Child at hc
        omega
    obtain ⟨d2, hdown, hheap', hmoved⟩ := siftDown_spec hw hsift (Nat.le_refl 0) (Nat.succ_pos stop) (by omega)
      (by omega) (show stop + 1 ≤ 0 + d1.length by omega)
    have hlen2 := hmoved.perm.length_eq
    obtain ⟨d', hdrain, hdone, hperm'⟩ := ih (h.step hw hheap hstop hs hmoved) hheap' (by omega) (by omega)
    have hswap : swap d 0 (stop + 1 : Nat) = some d1 := hswap
    have hdown : siftDown lt d1.length d1 0 (stop + 1 : Nat) = some d2 := hdown
    rw [sort.drain, hswap, bind_eq_bind, bind_some, hdown]
    exact ⟨d', hdrain, hdone, hperm'.trans (hmoved.perm.trans hperm)⟩

theorem sort_spec (hw : WeakOrder lt) (d : List α) (hlen : d.length ≤ 2 ^ 62)
    : ∃ d', sort lt d = some d' ∧ d'.Perm d ∧ Sorted lt d' := by
  unfold sort
  split
  . next hle =>
    refine ⟨d, rfl, .refl _, ?_⟩
    cases d with
    | nil => exact .nil
    | cons x l =>
      rw [eq_nil_of_length_eq_zero (l := l) (by rw [length_cons] at hle; omega)]
      exact pairwise_singleton ..
  next hlt =>
  have hleaves : Heap lt d ((d.length - 1) / 2 + 1) d.length := by
    intro _ _ _ _ _ hc
    unfold Child at hc
    omega
  obtain ⟨d1, hheapify, hheap, hperm⟩ := heapify_spec hw hleaves (by omega) hlen
  have hlen1 := hperm.length_eq
  have hnone : Drained lt d1 (d.length - 1) := by
    intro _ _ _ _ _ _ _ hy
    rw [List.getElem?_eq_none (by omega)] at hy
    contradiction
  rw [show d1.length = d.length - 1 + 1 by omega] at hheap
  obtain ⟨d', hdrain, hdone, hperm'⟩ := drain_spec hw hnone hheap (by omega) (by omega)
  rw [hheapify]
  refine ⟨d', hdrain, hperm'.trans hperm, ?_⟩
  rw [Sorted, pairwise_iff_getElem]
  intro i j hi hj hij
  exact hdone i j _ _ hij (by omega) (List.getElem?_eq_getElem hi) (List.getElem?_eq_getElem hj)

end SortInterface
