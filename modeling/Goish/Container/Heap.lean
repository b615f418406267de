import Goish.Container.Impl.Heap
import Goish.Sort.Sort

namespace ContainerHeap

open List SortInterface StableSort Option

variable {lt : α → α → Bool}

theorem less_flip (d : List α) (i j : Int) : less lt d j i = less (flip lt) d i j := by
  unfold less
  simp only [and_comm (a := 0 ≤ j)]
  cases d[i.toNat]? <;> cases d[j.toNat]? <;> rfl

theorem child_eq (d : List α) (j n : Int) : child lt d j n = pick (flip lt) d j n := by
  unfold child pick
  rw [less_flip]

theorem hole_of_heap {d d' : List α} (hw : WeakOrder lt) (h : Heap lt d 0 d.length)
    (hsame : ∀ k < n, k ≠ r → d'[k]? = d[k]?) : Hole lt d' 0 n r := by
  have hedge : ∀ i c, Child i c → Edge lt d i c :=
    fun i c hc x y hx hy => h i (Nat.zero_le i) c x y hc (List.getElem?_eq_some_iff.mp hy).1 hx hy
  constructor
  case heap =>
    intro i c _ hc hcn hir hcr
    exact (hedge i c hc).of_eq (hsame i (Nat.lt_trans hc.lt hcn) hir) (hsame c hcn hcr)
  case up =>
    intro i c _ hir hc hcn
    have hlt := hir.lt
    have hlt' := hc.lt
    exact ((hedge i r hir).trans hw (hedge r c hc) hlt').of_eq (hsame i (by omega) (by omega)) (hsame c hcn (by omega))

theorem heap_of_hole {d : List α} (h : Hole lt d lo n r) (hr : HeapAt lt d n r)
    (hparent : ∀ i, lo ≤ i → Child i r → Edge lt d i r) : Heap lt d lo n := by
  intro i hi
  apply heapAt_of
  intro c hc hcn
  by_cases hir : i = r
  . subst hir
    exact hr.edge hc hcn
  . by_cases hcr : c = r
    . subst hcr
      exact hparent i hi hc
    . exact h.heap i c hi hc hcn hir hcr

theorem hole_up {d d' : List α} (hw : WeakOrder lt) (h : Hole lt d 0 n j) (hij : Child i j) (hjn : j < n)
    (hs : Swapped d d' i j) (hlt : Edge lt d j i) : Hole lt d' 0 n i ∧ HeapAt lt d' n i := by
  have hij' := hij.lt
  have hsibling : ∀ c, Child i c → c < n → c ≠ j → Edge lt d i c ∧ d'[c]? = d[c]? := by
    intro c hc hcn hcj
    have hic := hc.lt
    exact ⟨h.heap i c (Nat.zero_le i) hc hcn (by omega) hcj, hs.other c (by omega) hcj⟩
  refine ⟨⟨?heap, ?up⟩, heapAt_of ?out⟩
  case heap =>
    intro k c hk hc hcn hki hci
    have hkc := hc.lt
    by_cases hkj : k = j
    . subst hkj
      exact (h.up i c (Nat.zero_le i) hij hc hcn).of_eq hs.right (hs.other c hci (by omega))
    . have hcj : c ≠ j := fun heq => hki ((heq ▸ hc).parent hij)
      exact (h.heap k c hk hc hcn hkj hcj).of_eq (hs.other k hki hkj) (hs.other c hci hcj)
  case up =>
    intro k c hk hki hc hcn
    have hki' := hki.lt
    have hgrand := h.heap k i hk hki (by omega) (by omega) (by omega)
    have hother := hs.other k (by omega) (by omega)
    by_cases hcj : c = j
    . subst hcj
      exact hgrand.of_eq hother hs.right
    . obtain ⟨hedge, heq⟩ := hsibling c hc hcn hcj
      exact (hgrand.trans hw hedge hc.lt).of_eq hother heq
  case out =>
    intro c hc hcn
    by_cases hcj : c = j
    . subst hcj
      exact hlt.of_eq hs.left hs.right
    . obtain ⟨hedge, heq⟩ := hsibling c hc hcn hcj
      exact (hlt.trans hw hedge hc.lt).of_eq hs.left heq

theorem popLast_spec {d d' : List α} (hheap : Heap (flip lt) d' 0 n) (hmoved : Moved n d d') (hlen : d.length = n + 1)
    (hx : d[n]? = some x)
    : ∃ d2, popLast d' = some (x, d2) ∧ Heap (flip lt) d2 0 d2.length ∧ d.Perm (x :: d2) := by
  have hlen' := hmoved.perm.length_eq
  rw [← hmoved.above n (Nat.le_refl n)] at hx
  have hlast : d'.getLast? = some x := by
    rwa [getLast?_eq_getElem?, hlen', hlen]
  refine ⟨d'.dropLast, by rw [popLast, hlast]; rfl, ?_, ?_⟩
  . intro i hi c u v hc hcn hu hv
    rw [length_dropLast] at hcn
    have hic := hc.lt
    rw [getElem?_dropLast, if_pos (by omega)] at hu hv
    exact hheap i hi c u v hc (by omega) hu hv
  . refine hmoved.perm.symm.trans ?_
    conv => lhs; rw [← dropLast_append_getLast? x hlast]
    exact perm_append_comm

section

variable (hw : WeakOrder (flip lt))
include hw

theorem up_spec {d : List α} {j n fuel : Nat} (h : Hole (flip lt) d 0 n j) (hj : HeapAt (flip lt) d n j) (hjn : j < n)
    (hn : n ≤ d.length) (hfuel : j < fuel) : ∃ d', up lt fuel d j = some d' ∧ Heap (flip lt) d' 0 n ∧ Moved n d d' := by
  induction fuel generalizing d j with
  | zero => omega
  | succ fuel ih =>
    unfold up
    cases j with
    | zero =>
      refine ⟨d, rfl, heap_of_hole h hj ?_, .refl n d⟩
      intro i _ hc
      exact absurd hc.lt (Nat.not_lt_zero i)
    | succ k =>
      have hparent : (((k + 1 : Nat) : Int) - 1).tdiv 2 = (k / 2 : Nat) := by
        rw [show ((k + 1 : Nat) : Int) - 1 = k by omega]
        rfl
      have hc : Child (k / 2) (k + 1) := by
        unfold Child
        omega
      have hx := getElem?_eq_getElem (show k / 2 < d.length by omega)
      have hy := getElem?_eq_getElem (show k + 1 < d.length by omega)
      rw [hparent]
      dsimp only
      rw [if_neg (by omega), less_eq hy hx, bind_eq_bind, bind_some]
      split
      . next hlt =>
        obtain ⟨d1, hswap, hs⟩ := swap_spec (show k / 2 < d.length by omega) (show k + 1 < d.length by omega) (by omega)
        have hmoved := hs.moved n (by omega) hjn
        obtain ⟨hhole, hat⟩ := hole_up hw h hc hjn hs (edge_of hy hx (hw.asymm _ _ hlt))
        obtain ⟨d', hup, hheap, hmoved'⟩ := ih hhole hat (by omega) (hmoved.perm.length_eq ▸ hn) (by omega)
        rw [hswap]
        exact ⟨d', hup, hheap, hmoved.trans hmoved'⟩
      . next hlt =>
        refine ⟨d, rfl, heap_of_hole h hj ?_, .refl n d⟩
        intro i _ hi
        rw [hi.parent hc]
        exact edge_of hx hy (Bool.eq_false_iff.mpr hlt)

section Down

variable {d : List α} {r n : Nat} (hr : r < n) (hn : n ≤ d.length) (hlen : d.length < 2 ^ 63)
include hr hn hlen

theorem down_step (fuel : Nat)
    : (down.go lt n (fuel + 1) d r = some (d, (r : Int)) ∧ HeapAt (flip lt) d n r) ∨
      ∃ c d', Child r c ∧ c < n ∧ down.go lt n (fuel + 1) d r = down.go lt n fuel d' c ∧ Moved n d d' ∧
        ∀ lo, lo ≤ c → Hole (flip lt) d lo n r → Sift (flip lt) d' lo n c := by
  rw [down.go]
  by_cases hchild : 2 * r + 1 < n
  . rw [i64_eq (by omega) (by omega), show 2 * (r : Int) + 1 = (2 * r + 1 : Nat) by omega, if_neg (by omega), child_eq]
    obtain ⟨c, x, y, hpick, hc, hcn, hx, hy, hstay, hmove⟩ := pick_less hw (d := d) hchild hn
    rw [hpick, bind_eq_bind, bind_some, less_eq hy hx, bind_eq_bind, bind_some]
    split
    . next hlt =>
      obtain ⟨d', hswap, hmoved, hsift⟩ := hmove hlt
      rw [hswap]
      exact .inr ⟨c, d', hc, hcn, rfl, hmoved, hsift⟩
    . next hlt => exact .inl ⟨rfl, hstay (Bool.eq_false_iff.mpr hlt)⟩
  . refine .inl ⟨if_pos ?_, ?_⟩
    . by_cases hwrap : 2 * r + 1 < 2 ^ 63
      . rw [i64_eq (by omega) (by omega)]
        omega
      . -- The index wraps to a negative one.
        unfold i64
        rw [← Int.sub_bmod_right, Int.bmod_eq_of_le] <;> omega
    . intro c x y hc hcn
      unfold Child at hc
      omega

theorem down_go (h : Sift (flip lt) d lo n r) (hlo : lo ≤ r) (fuel : Nat) (hfuel : n ≤ r + fuel)
    : ∃ d' r', down.go lt n fuel d r = some (d', ((r' : Nat) : Int)) ∧ r ≤ r' ∧ Heap (flip lt) d' lo n ∧ Moved n d d' := by
  induction fuel generalizing d r with
  | zero => omega
  | succ fuel ih =>
    rcases down_step hw hr hn hlen fuel with ⟨heq, hat⟩ | ⟨c, d1, hc, hcn, heq, hmoved, hsift⟩
    . exact ⟨d, r, heq, Nat.le_refl r, h.done hat, .refl n d⟩
    have hlt := hc.lt
    have hlen' := hmoved.perm.length_eq
    obtain ⟨d', r', heq', hle, hheap, hmoved'⟩ := ih hcn (by omega) (by omega) (hsift lo (by omega) h.hole) (by omega)
      (by omega)
    exact ⟨d', r', heq.trans heq', by omega, hheap, hmoved.trans hmoved'⟩

theorem down_spec (h : Hole (flip lt) d lo n r) (hlo : lo ≤ r)
    : (down lt d r n = some (d, false) ∧ HeapAt (flip lt) d n r) ∨
      ∃ d', down lt d r n = some (d', true) ∧ Heap (flip lt) d' lo n ∧ Moved n d d' := by
  unfold down
  rcases down_step hw hr hn hlen d.length with ⟨heq, hat⟩ | ⟨c, d1, hc, hcn, heq, hmoved, hsift⟩
  . rw [heq, map_some]
    exact .inl ⟨by simp, hat⟩
  have hlt := hc.lt
  have hlen' := hmoved.perm.length_eq
  obtain ⟨d', r', heq', hle, hheap, hmoved'⟩ := down_go hw hcn (by omega) (by omega) (hsift lo (by omega) h) (by omega)
    d.length (by omega)
  rw [heq, heq', map_some]
  exact .inr ⟨d', by simp; omega, hheap, hmoved.trans hmoved'⟩

theorem down_top (h : Hole (flip lt) d lo n r) (hlo : lo ≤ r) (htop : ∀ i, lo ≤ i → ¬Child i r)
    : ∃ d' b, down lt d r n = some (d', b) ∧ Heap (flip lt) d' lo n ∧ Moved n d d' := by
  rcases down_spec hw hr hn hlen h hlo with ⟨heq, hat⟩ | ⟨d', heq, hheap, hmoved⟩
  . exact ⟨d, false, heq, heap_of_hole h hat fun i hi hc => absurd hc (htop i hi), .refl n d⟩
  . exact ⟨d', true, heq, hheap, hmoved⟩

theorem downOrUp_spec (h : Hole (flip lt) d 0 n r)
    : ∃ d', downOrUp lt d r n = some d' ∧ Heap (flip lt) d' 0 n ∧ Moved n d d' := by
  unfold downOrUp
  rcases down_spec hw hr hn hlen h (Nat.zero_le r) with ⟨heq, hat⟩ | ⟨d', heq, hheap, hmoved⟩
  . rw [heq]
    exact up_spec hw h hat hr hn (by omega)
  . rw [heq]
    exact ⟨d', rfl, hheap, hmoved⟩

end Down

theorem init_go {d : List α} (h : Heap (flip lt) d i n) (hi : 2 * i ≤ n) (hn : n = d.length) (hlen : d.length < 2 ^ 63)
    : ∃ d', init.go lt n i d = some d' ∧ Heap (flip lt) d' 0 n ∧ d'.Perm d := by
  induction i generalizing d with
  | zero => exact ⟨d, rfl, h, .refl d⟩
  | succ i ih =>
    have htop (k : Nat) (hk : i ≤ k) : ¬Child k i := fun hc => Nat.not_lt.mpr hk hc.lt
    have hhole : Hole (flip lt) d i n i :=
      ⟨fun k c hk hc hcn hne _ => (h k (by omega)).edge hc hcn, fun k c hk hc => absurd hc (htop k hk)⟩
    obtain ⟨d1, _, heq, hheap, hmoved⟩ := down_top hw (by omega) (Nat.le_of_eq hn) hlen hhole (Nat.le_refl i) htop
    have hlen' := hmoved.perm.length_eq
    obtain ⟨d', heq', hheap', hperm⟩ := ih hheap (by omega) (by omega) (by omega)
    rw [init.go, heq]
    exact ⟨d', heq', hheap', hperm.trans hmoved.perm⟩

theorem remove_hole {d : List α} {i n : Nat} (h : Heap (flip lt) d 0 d.length) (hi : i < n) (hlen : d.length = n + 1)
    (hx : d[i]? = some x)
    : ∃ d', SortInterface.swap d i n = some d' ∧ Hole (flip lt) d' 0 n i ∧ d'[n]? = some x ∧ d'.Perm d := by
  obtain ⟨d', hswap, hs⟩ := swap_spec (d := d) (i := i) (j := n) (by omega) (by omega) (by omega)
  refine ⟨d', hswap, ?_, hs.right.trans hx, (hs.moved (n + 1) (by omega) (by omega)).perm⟩
  exact hole_of_heap hw h fun k hk hne => hs.other k hne (by omega)

end

/-- No child is less than its parent. -/
def InOrder (lt : α → α → Bool) (d : List α) : Prop :=
  Heap (flip lt) d 0 d.length

structure Kept (lt : α → α → Bool) : Prop where
  init : ∀ d, d.length < 2 ^ 63 → ∃ d', init lt d = some d' ∧ InOrder lt d' ∧ d'.Perm d
  push : ∀ d x, InOrder lt d → (d ++ [x]).length < 2 ^ 63 → ∃ d', push lt d x = some d' ∧ InOrder lt d' ∧ d'.Perm (x :: d)
  pop : ∀ d, InOrder lt d → d ≠ [] → d.length < 2 ^ 63 →
    ∃ x d', pop lt d = some (x, d') ∧ InOrder lt d' ∧ d.Perm (x :: d') ∧ ∀ y ∈ d, lt y x = false
  remove : ∀ d (i : Nat) x, InOrder lt d → d.length < 2 ^ 63 → d[i]? = some x →
    ∃ d', remove lt d i = some (x, d') ∧ InOrder lt d' ∧ d.Perm (x :: d')
  fix : ∀ d (i : Nat) x, InOrder lt d → i < d.length → d.length < 2 ^ 63 →
    ∃ d', fix lt (d.set i x) i = some d' ∧ InOrder lt d' ∧ d'.Perm (d.set i x)

theorem inOrder_of_moved {d d' : List α} (h : Heap (flip lt) d' 0 d.length) (hmoved : Moved n d d') : InOrder lt d' := by
  unfold InOrder
  rwa [hmoved.perm.length_eq]

theorem heap_kept (h : IsStrictWeakOrder α fun x y => lt x y = true) : Kept lt := by
  have hlt := weakOrder h
  have hw : WeakOrder (flip lt) := ⟨fun x y => hlt.asymm y x, fun x y z hxy hyz => hlt.negTrans z y x hyz hxy⟩
  constructor
  case init =>
    intro d hlen
    have hleaves : Heap (flip lt) d (d.length / 2) d.length := by
      intro _ _ _ _ _ hc
      unfold Child at hc
      omega
    obtain ⟨d', heq, hheap, hperm⟩ := init_go hw hleaves (by omega) rfl hlen
    rw [← hperm.length_eq] at hheap
    exact ⟨d', heq, hheap, hperm⟩
  case push =>
    intro d x hd hlen
    have hlen' : (d ++ [x]).length = d.length + 1 := by simp
    have hleaf : HeapAt (flip lt) (d ++ [x]) (d ++ [x]).length d.length := by
      intro c u v hc
      have := hc.lt
      omega
    have hhole : Hole (flip lt) (d ++ [x]) 0 (d ++ [x]).length d.length := by
      apply hole_of_heap hw hd
      intro k hk hne
      rw [getElem?_append_left (by omega)]
    obtain ⟨d', heq, hheap, hmoved⟩ := up_spec hw hhole hleaf (by omega) (Nat.le_refl _)
      (show d.length < d.length + 2 by omega)
    refine ⟨d', ?_, inOrder_of_moved hheap hmoved, hmoved.perm.trans perm_append_comm⟩
    unfold push
    rwa [hlen', show ((d.length + 1 : Nat) : Int) - 1 = d.length by omega]
  case pop =>
    intro d hd hne hlen
    obtain ⟨x, l, rfl⟩ := exists_cons_of_ne_nil hne
    have hroot : ∀ y ∈ x :: l, lt y x = false := by
      intro y hy
      obtain ⟨i, hi⟩ := mem_iff_getElem?.mp hy
      exact heap_root hw hd (Nat.le_refl _) rfl i (List.getElem?_eq_some_iff.mp hi).1 hi
    cases l with
    | nil => exact ⟨x, [], rfl, fun _ _ _ _ _ _ h => by contradiction, .refl _, hroot⟩
    | cons z l =>
      obtain ⟨d1, hswap, hhole, hx1, hperm⟩ := remove_hole hw hd (i := 0) (n := l.length + 1) (by omega) rfl rfl
      have hlen1 := hperm.length_eq
      rw [length_cons, length_cons] at hlen1 hlen
      obtain ⟨d', b, heq, hheap, hmoved⟩ := down_top hw (by omega) (by omega) (by omega) hhole (Nat.le_refl 0)
        fun i _ hc => absurd hc.lt (Nat.not_lt_zero i)
      obtain ⟨d2, hpop, hd2, hperm2⟩ := popLast_spec hheap hmoved (by omega) hx1
      refine ⟨x, d2, ?_, hd2, hperm.symm.trans hperm2, hroot⟩
      have hcast : (((x :: z :: l).length : Nat) : Int) - 1 = (l.length + 1 : Nat) := by simp
      simp only [pop, hcast, ← Int.natCast_zero, hswap, heq, bind_eq_bind, bind_some, hpop]
  case remove =>
    intro d i x hd hlen hx
    have hi := (List.getElem?_eq_some_iff.mp hx).1
    obtain ⟨n, hn⟩ := Nat.exists_eq_add_of_le' (show 1 ≤ d.length by omega)
    unfold remove
    rw [show (d.length : Int) - 1 = n by omega]
    by_cases hin : n = i
    . rw [if_neg (by omega)]
      exact popLast_spec (fun i hi c u v hc hcn => hd i hi c u v hc (by omega)) (.refl n d) hn (hin ▸ hx)
    obtain ⟨d1, hswap, hhole, hx1, hperm⟩ := remove_hole hw hd (show i < n by omega) hn hx
    have hlen1 := hperm.length_eq
    obtain ⟨d', heq, hheap, hmoved⟩ := downOrUp_spec hw (by omega) (by omega) (by omega) hhole
    obtain ⟨d2, hpop, hd2, hperm2⟩ := popLast_spec hheap hmoved (by omega) hx1
    rw [if_pos (by omega), hswap, bind_eq_bind, bind_some, heq, bind_some]
    exact ⟨d2, hpop, hd2, hperm.symm.trans hperm2⟩
  case fix =>
    intro d i x hd hi hlen
    have hlen' : (d.set i x).length = d.length := length_set
    have hhole : Hole (flip lt) (d.set i x) 0 (d.set i x).length i := by
      apply hole_of_heap hw hd
      intro k hk hne
      rw [getElem?_set_ne (Ne.symm hne)]
    obtain ⟨d', heq, hheap, hmoved⟩ := downOrUp_spec hw (by omega) (Nat.le_refl _) (by omega) hhole
    exact ⟨d', heq, inOrder_of_moved hheap hmoved, hmoved.perm⟩

theorem heap_kept_nat : Kept fun x y : Nat => decide (x < y) :=
  heap_kept nat_weakOrder

end ContainerHeap
