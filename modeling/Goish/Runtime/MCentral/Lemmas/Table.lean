import Goish.Runtime.MHeap.Reachable
import Goish.Runtime.MCentral.Lemmas.Links

open Loop MHeap

namespace Central

namespace Span

structure SameShape (s s' : Span) : Prop where
  base : s'.base = s.base
  npages : s'.npages = s.npages
  elemsize : s'.elemsize = s.elemsize
  nelems : s'.nelems = s.nelems
  sizeclass : s'.sizeclass = s.sizeclass

theorem SameShape.trans (h : SameShape s s') (h' : SameShape s' s'') : SameShape s s'' :=
  ⟨h'.base.trans h.base, h'.npages.trans h.npages, h'.elemsize.trans h.elemsize,
    h'.nelems.trans h.nelems, h'.sizeclass.trans h.sizeclass⟩

theorem SameShape.of_desc (h : s'.desc = s.desc) : SameShape s s' := by
  unfold desc at h
  simp only [Span.mk.injEq] at h
  exact ⟨h.1, h.2.1, h.2.2.1, h.2.2.2.1, h.2.2.2.2.1⟩

theorem links_of_desc {s s' : Span} (h : s'.desc = s.desc)
    : s'.next = s.next ∧ s'.prev = s.prev ∧ s'.cached = s.cached := by
  unfold desc at h
  simp only [Span.mk.injEq] at h
  obtain ⟨_, _, _, _, _, _, _, _, _, h10, h11, h12⟩ := h
  exact ⟨h10, h11, h12⟩

theorem SameShape.of_unlinked (h : s'.unlinked = s.unlinked) : SameShape s s' := by
  unfold unlinked at h
  simp only [Span.mk.injEq] at h
  exact ⟨h.1, h.2.1, h.2.2.1, h.2.2.2.1, h.2.2.2.2.1⟩

def fresh (cls base : Nat) : Span :=
  { Span.new with
    base := base
    npages := npagesOfClass.getD cls 0
    elemsize := sizeOfClass.getD cls 0
    nelems := u16 (npagesOfClass.getD cls 0 * pageSize / sizeOfClass.getD cls 0)
    sizeclass := cls }

structure Geometry (s : Span) : Prop where
  cls_pos : 1 ≤ s.sizeclass
  cls_lt : s.sizeclass < numSizeClasses
  npages : s.npages = npagesOfClass.getD s.sizeclass 0
  elemsize : s.elemsize = sizeOfClass.getD s.sizeclass 0
  nelems : s.nelems = u16 (s.npages * pageSize / s.elemsize)

theorem class_bounds : ∀ c, c < numSizeClasses → 1 ≤ c →
    0 < sizeOfClass.getD c 0 ∧
      npagesOfClass.getD c 0 * pageSize / sizeOfClass.getD c 0 ≤ maxObjsPerSpan ∧
      1 ≤ npagesOfClass.getD c 0 * pageSize / sizeOfClass.getD c 0 := by
  decide

theorem fresh_geometry (hpos : 1 ≤ c) (hlt : c < numSizeClasses) (addr : Nat) : (fresh c addr).Geometry :=
  ⟨hpos, hlt, rfl, rfl, rfl⟩

namespace Geometry

variable {s s' : Span} (h : s.Geometry)
include h

theorem congr (hs : SameShape s s') : s'.Geometry where
  cls_pos := by simpa only [hs.sizeclass] using h.cls_pos
  cls_lt := by simpa only [hs.sizeclass] using h.cls_lt
  npages := by simpa only [hs.npages, hs.sizeclass] using h.npages
  elemsize := by simpa only [hs.elemsize, hs.sizeclass] using h.elemsize
  nelems := by simpa only [hs.nelems, hs.npages, hs.elemsize] using h.nelems

theorem elemsize_pos : 0 < s.elemsize := by
  rw [h.elemsize]
  exact (class_bounds _ h.cls_lt h.cls_pos).1

theorem nelems_eq : s.nelems = s.npages * pageSize / s.elemsize := by
  have hle := (class_bounds _ h.cls_lt h.cls_pos).2.1
  rw [← h.npages, ← h.elemsize] at hle
  unfold maxObjsPerSpan at hle
  rw [h.nelems, u16_eq (by omega)]

theorem nelems_le : s.nelems ≤ 1024 := by
  have hle := (class_bounds _ h.cls_lt h.cls_pos).2.1
  rwa [← h.npages, ← h.elemsize, ← h.nelems_eq] at hle

theorem nelems_pos : 1 ≤ s.nelems := by
  have hle := (class_bounds _ h.cls_lt h.cls_pos).2.2
  rwa [← h.npages, ← h.elemsize, ← h.nelems_eq] at hle

theorem slot_le (hk : k < s.nelems) : k * s.elemsize + s.elemsize ≤ s.npages * pageSize := by
  have hmul : (k + 1) * s.elemsize ≤ s.nelems * s.elemsize := Nat.mul_le_mul_right _ hk
  have hdiv := Nat.div_mul_le_self (s.npages * pageSize) s.elemsize
  rw [← h.nelems_eq] at hdiv
  rw [Nat.succ_mul] at hmul
  exact le_trans hmul hdiv

end Geometry

end Span

namespace MCentral

variable {m m' : MCentral} {listed listed' : Nat → Prop}

structure Placed (m : MCentral) (i q : Nat) : Prop where
  base : (m.spans i).base = m.arenaBase + q * pageSize
  tracked : q + (m.spans i).npages ≤ m.trackedPages
  mapped : ∀ p, q ≤ p → p < q + (m.spans i).npages → m.pageToSpan p = i

structure Table (m : MCentral) (listed : Nat → Prop) : Prop extends Linked m listed where
  geometry : ∀ i, m.Used i → (m.spans i).Geometry
  placed : ∀ i, m.Used i → ∃ (q : Nat), m.Placed i q

def Fresh (m : MCentral) (base npages : Nat) : Prop :=
  ∃ (q : Nat),
    base = m.arenaBase + q * pageSize ∧
    q + npages ≤ m.trackedPages ∧
    ∀ i, m.Used i → PagesDisjoint (base, npages) ((m.spans i).base, (m.spans i).npages)

theorem pageToSpan_setPages (m : MCentral) (first npages idx p : Nat) : (m.setPages first npages idx).pageToSpan p =
        if first ≤ p ∧ p < first + npages then idx else m.pageToSpan p := by
  exact forRange_fill id (by omega) fun _ _ _ _ => rfl

theorem pageToSpan_releaseSpan (m : MCentral) (i p : Nat)
    (htracked : ((m.spans i).base - m.arenaBase) / pageSize + (m.spans i).npages ≤ m.trackedPages)
    : (m.releaseSpan i).1.pageToSpan p =
        if ((m.spans i).base - m.arenaBase) / pageSize ≤ p ∧
            p < ((m.spans i).base - m.arenaBase) / pageSize + (m.spans i).npages then nilSpan
        else m.pageToSpan p := by
  unfold releaseSpan
  dsimp only
  generalize ((m.spans i).base - m.arenaBase) / pageSize = first at *
  refine forRange_fill id (by omega) fun n _ _ hn => ?_
  rw [if_pos (by omega)]
  rfl

theorem Placed.firstPage (h : m.Placed i q) : ((m.spans i).base - m.arenaBase) / pageSize = q := by
  rw [h.base, pageSize_eq]
  omega

theorem Placed.congr (h : m.Placed i q) (hs : Span.SameShape (m.spans i) (m'.spans i))
    (hbase : m'.arenaBase = m.arenaBase) (htracked : m'.trackedPages = m.trackedPages)
    (hmap : ∀ p, q ≤ p → p < q + (m.spans i).npages → m'.pageToSpan p = m.pageToSpan p) : m'.Placed i q where
  base := by
    rw [hs.base, hbase]
    exact h.base
  tracked := by
    rw [hs.npages, htracked]
    exact h.tracked
  mapped := by
    rw [hs.npages]
    intro p h1 h2
    rw [hmap p h1 h2]
    exact h.mapped p h1 h2

namespace Table

variable (h : Table m listed)
include h

theorem congr (hl : Linked m' listed') (hs : ∀ i, Span.SameShape (m.spans i) (m'.spans i))
    (hbase : m'.arenaBase = m.arenaBase) (htracked : m'.trackedPages = m.trackedPages)
    (hmap : m'.pageToSpan = m.pageToSpan) : Table m' listed' := by
  have hused : ∀ i, m'.Used i ↔ m.Used i := by
    intro i
    unfold Used
    rw [(hs i).sizeclass]
  constructor
  case toLinked => exact hl
  case geometry =>
    intro i hi
    exact (h.geometry i ((hused i).mp hi)).congr (hs i)
  case placed =>
    intro i hi
    obtain ⟨q, hq⟩ := h.placed i ((hused i).mp hi)
    exact ⟨q, hq.congr (hs i) hbase htracked (fun p _ _ => by rw [hmap])⟩

theorem of_same (hs : SameSpans m m') (hl : Linked m' listed') : Table m' listed' :=
  h.congr hl (fun i => Span.SameShape.of_unlinked (hs.spans i)) hs.arenaBase hs.trackedPages
    hs.pageToSpan

theorem setSpan (hi : m.Used i) (hs : Span.SameShape (m.spans i) s) (hnext : s.next = m.next i)
    (hprev : s.prev = m.prev i) : Table (m.setSpan i s) listed := by
  apply h.congr (h.toLinked.setSpan hi hnext hprev hs.sizeclass)
  . intro j
    rw [spans_setSpan]
    split
    . next heq =>
      rwa [heq]
    . exact ⟨rfl, rfl, rfl, rfl, rfl⟩
  . rfl
  . rfl
  . rfl

theorem setDesc (hi : m.Used i) (hd : s.desc = (m.spans i).desc) : Table (m.setSpan i s) listed := by
  obtain ⟨hnext, hprev, _⟩ := Span.links_of_desc hd
  exact h.setSpan hi (Span.SameShape.of_desc hd) hnext hprev

theorem iff (hiff : ∀ i, listed i ↔ listed' i) : Table m listed' :=
  { h with toLinked := h.toLinked.iff hiff }

theorem lookup_slotAddr (hi : m.Used i) (hk : k < (m.spans i).nelems)
    : m.lookup ((m.spans i).slotAddr k) = some (i, k) := by
  have hg := h.geometry i hi
  obtain ⟨q, hq⟩ := h.placed i hi
  have hslot := hg.slot_le hk
  have hpos := hg.elemsize_pos
  have hnel := hg.nelems_le
  have hpage : (m.arenaBase + q * pageSize + k * (m.spans i).elemsize - m.arenaBase) / pageSize
      = q + k * (m.spans i).elemsize / pageSize := by
    rw [show m.arenaBase + q * pageSize + k * (m.spans i).elemsize - m.arenaBase
      = k * (m.spans i).elemsize + pageSize * q by rw [mul_comm q]; omega]
    rw [Nat.add_mul_div_left _ _ (by decide), add_comm]
  have hin : k * (m.spans i).elemsize / pageSize < (m.spans i).npages := by
    rw [Nat.div_lt_iff_lt_mul (by decide)]
    omega
  have htr := hq.tracked
  have hbase := hq.base
  unfold lookup Span.slotAddr
  rw [if_neg (by omega), hbase, hpage, if_neg (by omega), hq.mapped _ (Nat.le_add_right _ _) (by omega),
    if_neg (h.used i hi).1, if_neg (by omega)]
  unfold Span.slotOf
  rw [hbase, Nat.add_sub_cancel_left, Nat.mul_div_cancel _ hpos, Span.u16_eq (by omega)]

end Table

theorem initSpan_spans (hr : Reserved m idx m1) (cls base j : Nat)
    : (m1.initSpan idx cls base).spans j = if j = idx then Span.fresh cls base else m.spans j := by
  unfold initSpan setPages
  dsimp only
  rw [spans_setSpan]
  split
  . rw [hr.cached]
    rfl
  . next hne => exact hr.spans j hne

theorem arenaBase_setSpan (m : MCentral) (idx : Nat) (s : Span) : (m.setSpan idx s).arenaBase = m.arenaBase :=
  rfl

theorem initSpan_pageToSpan (hr : Reserved m idx m1) (hfirst : base = m.arenaBase + q * pageSize)
    (cls p : Nat) : (m1.initSpan idx cls base).pageToSpan p =
        if q ≤ p ∧ p < q + npagesOfClass.getD cls 0 then idx else m.pageToSpan p := by
  unfold initSpan
  rw [pageToSpan_setPages]
  rw [arenaBase_setSpan, hr.arenaBase, hfirst, show (m.arenaBase + q * pageSize - m.arenaBase) / pageSize = q by
    rw [Nat.add_sub_cancel_left, Nat.mul_div_cancel _ (by decide)]]
  rw [← hr.pageToSpan]
  rfl

theorem Table.enter (h : Table m listed) (heq : m.allocSpanIdx = some (idx, m1)) (hpos : 1 ≤ cls)
    (hlt : cls < numSizeClasses) (hfresh : m.Fresh base (npagesOfClass.getD cls 0))
    : Table (m1.initSpan idx cls base) listed ∧ Reserved m idx m1 := by
  obtain ⟨hr, hl⟩ := allocSpanIdx_spec h.toLinked heq
  have hspans := initSpan_spans hr cls base
  obtain ⟨q, hbase, htracked, hdis⟩ := hfresh
  have hmap := initSpan_pageToSpan hr hbase cls
  refine ⟨?_, hr⟩
  constructor
  case toLinked =>
    refine (hl (Span.fresh cls base) (Nat.ne_of_gt hpos)).congr (fun j => ?_) (fun j => ?_) (fun j => ?_)
      (fun j _ => ?_) (fun _ _ => rfl) rfl rfl
    all_goals
      simp only [next, prev, hspans, spans_setSpan]
      split
      . rfl
      . next hne => rw [hr.spans j hne]
  case geometry =>
    intro j hj
    unfold Used at hj
    rw [hspans] at hj ⊢
    split
    . exact Span.fresh_geometry hpos hlt base
    . next hne =>
      rw [if_neg hne] at hj
      exact h.geometry j hj
  case placed =>
    intro j hj
    unfold Used at hj
    rw [hspans] at hj
    have harena : (m1.initSpan idx cls base).arenaBase = m.arenaBase := hr.arenaBase
    have htr : (m1.initSpan idx cls base).trackedPages = m.trackedPages := hr.trackedPages
    split at hj
    . next heq =>
      refine ⟨q, ?_, ?_, ?_⟩
      . rwa [hspans, if_pos heq, harena]
      . rwa [hspans, if_pos heq, htr]
      . intro p h1 h2
        rw [hspans, if_pos heq] at h2
        rw [hmap, if_pos ⟨h1, h2⟩, heq]
    next hne =>
    obtain ⟨q', hq'⟩ := h.placed j hj
    have hsame : Span.SameShape (m.spans j) ((m1.initSpan idx cls base).spans j) := by
      rw [hspans, if_neg hne]
      exact ⟨rfl, rfl, rfl, rfl, rfl⟩
    refine ⟨q', hq'.congr hsame harena htr ?_⟩
    intro _ _ _
    rw [hmap, if_neg]
    -- The pages of the span and the fresh pages are disjoint.
    intro _
    have hd := hdis j hj
    unfold PagesDisjoint at hd
    rw [hq'.base, hbase, pageSize_eq] at hd
    omega

theorem Table.leave (h : Table m listed) (hi : m.Used i) (hl : Linked m' listed')
    (hspans : ∀ j, j ≠ i → Span.SameShape (m.spans j) (m'.spans j)) (hgone : ¬ m'.Used i)
    (hmap : m'.pageToSpan = (m.releaseSpan i).1.pageToSpan) (hbase : m'.arenaBase = m.arenaBase)
    (htracked : m'.trackedPages = m.trackedPages) : Table m' listed' := by
  have hne : ∀ j, m'.Used j → j ≠ i := fun j hj heq => hgone (heq ▸ hj)
  have hused : ∀ j, m'.Used j → m.Used j := by
    intro j hj
    have := (hspans j (hne j hj)).sizeclass
    unfold Used at *
    rwa [this] at hj
  obtain ⟨_, hq⟩ := h.placed i hi
  constructor
  case toLinked => exact hl
  case geometry =>
    intro j hj
    exact (h.geometry j (hused j hj)).congr (hspans j (hne j hj))
  case placed =>
    intro j hj
    obtain ⟨q', hq'⟩ := h.placed j (hused j hj)
    refine ⟨q', hq'.congr (hspans j (hne j hj)) hbase htracked ?_⟩
    intro p h1 h2
    rw [hmap, pageToSpan_releaseSpan m i p (by rw [hq.firstPage]; exact hq.tracked), hq.firstPage,
      if_neg]
    intro ⟨h3, h4⟩
    apply hne j hj
    rw [← hq'.mapped p h1 h2, hq.mapped p h3 h4]

end MCentral

end Central
