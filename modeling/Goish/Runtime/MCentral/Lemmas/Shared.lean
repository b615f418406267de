import Goish.Runtime.MCentral.Shared

open MHeap

namespace Central

theorem Span.AtRest.pending {s : Span} (h : s.AtRest clean held) (hpos : 1 ≤ s.nelems)
    : s.Pending clean held (.window 0) where
  toCounted := h.toCounted
  ready := ⟨rfl, hpos⟩
  exact := fun hclean j hj => Or.inl (h.exact hclean j hj)

theorem Span.fresh_atRest (clean : Prop) (hpos : 1 ≤ cls) (hlt : cls < numSizeClasses) (addr : Nat)
    (hheld : ∀ k, ¬ held k) : (Span.fresh cls addr).AtRest clean held := by
  constructor
  case toCounted =>
    constructor
    . exact (Span.fresh_geometry hpos hlt addr).nelems_le
    . symm
      apply Bitmap.popcount_eq_zero_iff.mpr
      exact fun j => Bitmap.get_zero
    . exact fun k hk => absurd hk (hheld k)
    . exact fun k hk => absurd hk (hheld k)
  case exact =>
    intro _ j hj
    have : (Bitmap.zero allocBitsWords).get j = true := hj
    rw [Bitmap.get_zero] at this
    contradiction

theorem Span.Counted.not_held {s : Span} (h : s.Counted held) (hempty : s.isEmpty = true) : ∀ k, ¬ held k := by
  intro k hk
  have hget := h.held_get k hk
  have hzero : s.allocBits.popcount = 0 := by
    rw [← h.count]
    simpa [Span.isEmpty] using hempty
  rw [Bitmap.popcount_eq_zero_iff.mp hzero k] at hget
  contradiction

namespace SharedHeap

variable {s t : SharedHeap}

def Sale (s : SharedHeap) (x : Option (Nat × Nat)) (t : SharedHeap) : Prop :=
  ∀ y, x = some y → y ∉ s.held ∧ y.2 < (t.central.spans y.1).nelems

theorem Sale.none : Sale s none t :=
  fun _ => nofun

theorem setBusy_self : s.setBusy idx b idx = b :=
  if_pos rfl

theorem setBusy_ne (hj : j ≠ idx) : s.setBusy idx b j = s.busy j :=
  if_neg hj

section Steps

variable (h : s.Inv clean)
include h

theorem Inv.same (htable : m.Table s.listed) (hs : s.central.SameSpans m) : Inv clean { s with central := m } := by
  have hlisted : ∀ i, s.listed i ↔ listed { s with central := m } i := by
    intro i
    obtain ⟨_, hcls, _, hc⟩ := unlinked_fields (hs.spans i)
    unfold listed MCentral.Used
    rw [hcls, hc]
  constructor
  case table => exact htable.iff hlisted
  case spans => exact fun i => (h.spans i).congr (hs.spans i) rfl (fun _ => Iff.rfl) Iff.rfl
  case nodup => exact h.nodup

theorem Inv.not_busy (hlisted : s.listed i) : s.busy i = none := by
  cases hb : s.busy i with
  | none => rfl
  | some =>
    rcases ((h.spans i).busy (by simp [hb])).2 with hc | hc
    . rw [hlisted.2.1] at hc
      contradiction
    . exact absurd hc hlisted.2.2

theorem Inv.atRest (hlisted : s.listed i) : (s.central.spans i).AtRest clean (s.slots i) := by
  have := (h.spans i).slots hlisted.1
  rw [h.not_busy hlisted] at this
  exact this.2 hlisted.2.1

theorem Inv.used_of_cached (hc : (s.central.spans i).cached = true) : s.central.Used i := by
  apply not_not.mp
  intro hu
  rw [h.table.not_cached hu] at hc
  contradiction

theorem Inv.unused (hu : ¬ s.central.Used i) : s.busy i = none ∧ ∀ k, ¬ s.slots i k := by
  constructor
  . cases hb : s.busy i with
    | none => rfl
    | some => exact absurd ((h.spans i).busy (by simp [hb])).1 hu
  . exact fun k hk => hu ((h.spans i).held k hk)

theorem Inv.origin (ho : s.central.Origin s.listed cls base i sp) (hpos : 1 ≤ cls) (hlt : cls < numSizeClasses)
    : sp.AtRest clean (s.slots i) ∧ sp.cached = false ∧ s.busy i = none := by
  rcases ho with ho | ho
  . obtain ⟨hl, _, hs⟩ := ho
    obtain ⟨hsame, _, _, hcached⟩ := unlinked_fields hs
    exact ⟨(h.atRest hl).congr hsame, hcached.trans hl.2.1, h.not_busy hl⟩
  . obtain ⟨hu, _, hs⟩ := ho
    obtain ⟨hsame, _, _, hcached⟩ := unlinked_fields hs
    obtain ⟨hb, hheld⟩ := h.unused hu
    exact ⟨(Span.fresh_atRest clean hpos hlt base hheld).congr hsame, hcached, hb⟩

theorem take_inv (hlock : s.caching = none) (hdrawn : s.central.Drawn cls base)
    (htake : MCentral.cacheSpan.take s.central cls base = some (idx, m)) (hidx : idx ≠ nilSpan) : Inv clean
        { s with central := m, busy := s.setBusy idx (some (.window 0, none)), caching := some idx } := by
  have hcls := MCentral.cacheSpan_take_class htake hidx
  obtain ⟨htable, hch, hu, sp, ho, hsp⟩ := MCentral.cacheSpan_take_spec h.table hdrawn htake hidx
  obtain ⟨hrest, hcached, _⟩ := h.origin ho hcls.1 hcls.2
  obtain ⟨hsame, _, hfree, hc⟩ := unlinked_fields hsp
  have hslots : sp.SameSlots (m.spans idx) :=
    { hsame with }
  apply h.one idx htable
  . exact fun _ hj => and_iff_left hj
  . simp [listed]
  . constructor
    case slots =>
      intro _
      dsimp only
      rw [setBusy_self]
      exact (hrest.congr hslots).pending (htable.geometry idx hu).nelems_pos
    case held => exact fun _ _ => hu
    case busy => exact fun _ => ⟨hu, Or.inr rfl⟩
    case caching => exact fun _ => ⟨hu, hc.trans hcached, hfree, none, setBusy_self⟩
  . exact h.nodup
  . exact hch.spans
  . exact fun _ hj => setBusy_ne hj
  . exact fun _ _ _ => Iff.rfl
  . intro j hj
    simp [hlock, Ne.symm hj]

theorem takeNone_inv (htake : MCentral.cacheSpan.take s.central cls base = some (nilSpan, m))
    : Inv clean { s with central := m } := by
  obtain ⟨htable, hs⟩ := MCentral.cacheSpan_take_nil h.table htake
  exact h.same htable hs

theorem load_inv (hbusy : s.busy idx = some (r, none)) : Inv clean
        { s with busy :=
            s.setBusy idx (some (r, some ((s.central.spans idx).allocBits.word r.wordIndex))) } := by
  obtain ⟨hu, hor⟩ := (h.spans idx).busy (by simp [hbusy])
  refine h.one idx h.table (fun _ _ => Iff.rfl) Iff.rfl ?_ h.nodup (fun _ _ => rfl) (fun _ hj => setBusy_ne hj)
    (fun _ _ _ => Iff.rfl) (fun _ _ => Iff.rfl)
  constructor
  case slots =>
    intro _
    have hpend := (h.spans idx).slots hu
    rw [hbusy] at hpend
    dsimp only
    rw [setBusy_self]
    exact Span.Pending.load hpend
  case held => exact (h.spans idx).held
  case busy => exact fun _ => ⟨hu, hor⟩
  case caching =>
    intro hc
    obtain ⟨h1, h2, h3, _, hload⟩ := (h.spans idx).caching hc
    rw [hbusy, Option.some.injEq, Prod.mk.injEq] at hload
    rw [hload.1]
    exact ⟨h1, h2, h3, _, setBusy_self⟩

theorem publish_inv (hlock : s.caching = some idx) (hbusy : s.busy idx = some (r, some load)) : Inv clean
        { s with
          central := MCentral.cacheSpan.publish s.central idx load
          busy := s.setBusy idx none
          caching := none } := by
  obtain ⟨hu, _, hfree, _, hwin⟩ := (h.spans idx).caching hlock
  rw [hbusy, Option.some.injEq, Prod.mk.injEq] at hwin
  obtain ⟨hr, _⟩ := hwin
  subst hr
  have hloaded : (s.central.spans idx).Loaded clean (s.slots idx) (.window 0) load := by
    have := (h.spans idx).slots hu
    rwa [hbusy] at this
  have hclaimed := hloaded.refill
  have hdesc : ((s.central.spans idx).refill 0 load).desc = (s.central.spans idx).desc :=
    Span.desc_refill
  have hshape := Span.SameShape.of_desc hdesc
  obtain ⟨hnext, hprev, _⟩ := Span.links_of_desc hdesc
  have hspan : (MCentral.cacheSpan.publish s.central idx load).spans idx
      = { (s.central.spans idx).refill 0 load with cached := true } := by
    unfold MCentral.cacheSpan.publish
    rw [MCentral.spans_setSpan, if_pos rfl]
  have hused : (MCentral.cacheSpan.publish s.central idx load).Used idx := by
    unfold MCentral.Used
    rw [hspan]
    exact fun h0 => hu (hshape.sizeclass.symm.trans h0)
  have hother : ∀ j, j ≠ idx →
      (MCentral.cacheSpan.publish s.central idx load).spans j = s.central.spans j := by
    intro j hj
    unfold MCentral.cacheSpan.publish
    rw [MCentral.spans_setSpan, if_neg hj]
  have htable := h.table.setSpan (s := { (s.central.spans idx).refill 0 load with cached := true })
    hu { hshape with } hnext hprev
  apply h.one idx htable (fun _ _ => Iff.rfl)
  . simp [listed, hspan, hlock]
  . constructor
    case slots =>
      intro _
      have heq : (fun x => s.slots idx x ∨ Span.Refill.window 0 = .prefetch x) = s.slots idx := by
        funext x
        simp
      rw [heq] at hclaimed
      dsimp only
      rw [setBusy_self, hspan]
      refine ⟨fun _ => ?_, fun hc => absurd hc (by simp)⟩
      have hf : ((s.central.spans idx).refill 0 load).freeindex = 0 := by
        rwa [Span.freeindex_refill]
      rw [hf]
      apply hclaimed.congr
      exact ⟨rfl, rfl, rfl, rfl⟩
    case held => exact fun _ _ => hused
    case busy =>
      intro hb
      exact absurd setBusy_self hb
    case caching => exact nofun
  . exact h.nodup
  . intro j hj
    rw [hother j hj]
  . exact fun _ hj => setBusy_ne hj
  . exact fun _ _ _ => Iff.rfl
  . intro j hj
    simp [hlock, Ne.symm hj]

theorem Inv.update (hu : s.central.Used idx) (hd : sp.desc = (s.central.spans idx).desc)
    (hcentral : t.central = s.central.setSpan idx sp)
    (hcaching : t.caching = s.caching) (hbusy : ∀ j, j ≠ idx → t.busy j = s.busy j)
    (hheld : ∀ j, j ≠ idx → ∀ k, (j, k) ∈ t.held ↔ (j, k) ∈ s.held) (hnodup : t.held.Nodup)
    (hslots : Slots clean sp (t.slots idx) (t.busy idx))
    (howner : t.busy idx ≠ none → sp.cached = true ∨ s.caching = some idx)
    (hlock : s.caching = some idx →
      sp.freeindex = 0 ∧ ∃ (load : Option (BitVec 64)), t.busy idx = some (.window 0, load))
    : t.Inv clean := by
  have hspan : t.central.spans idx = sp := by
    rw [hcentral, MCentral.spans_setSpan, if_pos rfl]
  have hother : ∀ j, j ≠ idx → t.central.spans j = s.central.spans j := by
    intro j hj
    rw [hcentral, MCentral.spans_setSpan, if_neg hj]
  have hcached := (Span.links_of_desc hd).2.2
  have hused : t.central.Used idx := by
    unfold MCentral.Used
    rwa [hspan, (Span.SameShape.of_desc hd).sizeclass]
  have htable := h.table.setDesc hu hd
  rw [← hcentral] at htable
  apply h.one idx htable (fun _ _ => Iff.rfl)
  . simp [listed, hcaching, hspan, hcached, hu, hused]
  . constructor
    case slots =>
      intro _
      rwa [hspan]
    case held => exact fun _ _ => hused
    case busy =>
      intro hb
      rw [hspan, hcaching]
      exact ⟨hused, howner hb⟩
    case caching =>
      intro hc
      rw [hcaching] at hc
      rw [hspan]
      have := (h.spans idx).caching hc
      exact ⟨hused, hcached.trans this.2.1, hlock hc⟩
  . exact hnodup
  . intro j hj
    rw [hother j hj]
  . exact hbusy
  . exact hheld
  . intro j _
    rw [hcaching]

theorem advance_inv (hcached : (s.central.spans idx).cached = true)
    (hd : o.span.desc = (s.central.spans idx).desc) (hok : o.Ok clean (s.slots idx))
    (hclean : clean → o.overruns = false) : Inv clean (s.advance idx o) ∧ Sale s (o.sold idx) (s.advance idx o) := by
  have hu := h.used_of_cached hcached
  have hc : o.span.cached = true := (Span.links_of_desc hd).2.2.trans hcached
  have hspan : (s.advance idx o).central.spans idx = o.span := if_pos rfl
  have hsale : Sale s (o.sold idx) (s.advance idx o) := by
    intro y hy
    cases o with
    | done slot =>
      rcases slot with _ | k
      . contradiction
      have heq : (idx, k) = y := Option.some.inj hy
      subst heq
      rw [hspan]
      exact ⟨hok.2.1, hok.1⟩
    | overrun | refill => contradiction
  have hnodup : (s.advance idx o).held.Nodup := by
    unfold advance
    cases hsold : o.sold idx with
    | none => exact h.nodup
    | some y => exact List.nodup_cons.mpr ⟨(hsale y hsold).1, h.nodup⟩
  have hheld : ∀ j, j ≠ idx → ∀ k, (j, k) ∈ (s.advance idx o).held ↔ (j, k) ∈ s.held := by
    intro j hj k
    unfold advance Span.Outcome.sold
    cases o with
    | done slot => cases slot <;> simp [hj]
    | overrun | refill => rfl
  have hbusy : (s.advance idx o).busy idx = o.pending := setBusy_self
  refine ⟨?_, hsale⟩
  apply h.update hu hd
  . rfl
  . rfl
  . exact fun _ hj => setBusy_ne hj
  . exact hheld
  . exact hnodup
  . rw [hbusy]
    cases o with
    | done slot sp =>
      refine ⟨fun _ => ?_, fun hf => absurd (hf.symm.trans hc) (by simp)⟩
      cases slot with
      | none => exact hok
      | some k =>
        have heq : (s.advance idx (.done (some k) sp)).slots idx = fun x => s.slots idx x ∨ x = k := by
          funext x
          unfold slots advance Span.Outcome.sold
          simp [or_comm]
        rw [heq]
        exact hok.2.2
    | overrun =>
      refine ⟨fun _ => ?_, fun hf => absurd (hf.symm.trans hc) (by simp)⟩
      exact hok (fun hcl => nomatch hclean hcl)
    | refill => exact hok
  . exact fun _ => Or.inl hc
  . intro hcaching
    have := ((h.spans idx).caching hcaching).2.1
    rw [hcached] at this
    contradiction

theorem start_inv (hcached : (s.central.spans idx).cached = true) (hbusy : s.busy idx = none)
    (ho : Span.nextFreeOwner.start (s.central.spans idx) = o) (hclean : clean → o.overruns = false)
    : Inv clean (s.advance idx o) ∧ Sale s (o.sold idx) (s.advance idx o) := by
  have hslots := (h.spans idx).slots (h.used_of_cached hcached)
  rw [hbusy] at hslots
  apply advance_inv h hcached _ _ hclean
  . rw [← ho]
    exact Span.desc_start
  . rw [← ho]
    exact (hslots.1 hcached).start

theorem resume_inv (hcached : (s.central.spans idx).cached = true) (hbusy : s.busy idx = some (r, some load))
    (ho : Span.nextFreeOwner.resume (s.central.spans idx) r load = o) (hclean : clean → o.overruns = false)
    : Inv clean (s.advance idx o) ∧ Sale s (o.sold idx) (s.advance idx o) := by
  have hslots := (h.spans idx).slots (h.used_of_cached hcached)
  rw [hbusy] at hslots
  apply advance_inv h hcached _ _ hclean
  . rw [← ho]
    exact Span.desc_resume
  . rw [← ho]
    exact Span.Loaded.resume hslots

theorem Inv.held_erase (idx k : Nat) : (∀ j, j ≠ idx → ∀ x, (j, x) ∈ s.held.erase (idx, k) ↔ (j, x) ∈ s.held) ∧
        ∀ x, (idx, x) ∈ s.held.erase (idx, k) ↔ s.slots idx x ∧ x ≠ k := by
  constructor
  . intro j hj x
    rw [h.nodup.mem_erase_iff]
    simp [hj]
  . intro x
    rw [h.nodup.mem_erase_iff]
    simp [slots, and_comm]

theorem freeLate_inv (hheld : (idx, k) ∈ s.held)
    : Inv clean { s with central := s.central.freeAtomic idx k, held := s.held.erase (idx, k) } := by
  have hu := (h.spans idx).held k hheld
  have hslots := (h.spans idx).slots hu
  obtain ⟨hother, hself⟩ := h.held_erase idx k
  have hd := Span.desc_freeSlotAtomic (s := s.central.spans idx) (j := k)
  obtain ⟨hfreed, hfree⟩ := Span.freeSlotAtomic_freed hslots.counted hheld
  have hcached := (Span.links_of_desc hd).2.2
  apply h.update hu hd
  . rfl
  . rfl
  . exact fun _ _ => rfl
  . exact hother
  . exact h.nodup.erase _
  . have heq : slots { s with central := s.central.freeAtomic idx k, held := s.held.erase (idx, k) } idx
        = fun x => s.slots idx x ∧ x ≠ k := funext fun x => propext (hself x)
    rw [heq]
    exact hslots.free hfreed hheld hfree hcached
  . intro hb
    rw [hcached]
    exact ((h.spans idx).busy hb).2
  . intro hc
    rw [hfree]
    exact ((h.spans idx).caching hc).2.2

section

variable (hlock : s.caching = none) (hbusy : s.busy idx = none)
include hlock hbusy

theorem Inv.settle (hch : s.central.Changed idx m) (htable : m.Table lst) (hlst : ∀ j, lst j ↔ (s.listed j ∨ j = idx))
    (hsp : (m.spans idx).AtRest clean (fun k => (idx, k) ∈ held')) (hcached : (m.spans idx).cached = false)
    (hheld : ∀ j, j ≠ idx → ∀ k, (j, k) ∈ held' ↔ (j, k) ∈ s.held) (hnodup : held'.Nodup)
    : Inv clean { s with central := m, held := held' } := by
  have hu : m.Used idx := htable.listed_used idx ((hlst idx).mpr (Or.inr rfl))
  apply h.one idx htable
  . intro j hj
    simp [hlst, hj]
  . simp [hlst, listed, hu, hcached, hlock]
  . constructor
    case slots =>
      intro _
      rw [hbusy]
      exact ⟨fun hc => absurd (hcached.symm.trans hc) (by simp), fun _ => hsp⟩
    case held => exact fun _ _ => hu
    case busy => exact fun hb => absurd hbusy hb
    case caching => exact fun hc => absurd (hlock.symm.trans hc) (by simp)
  . exact hnodup
  . exact hch.spans
  . exact fun _ _ => rfl
  . exact hheld
  . exact fun _ _ => Iff.rfl

theorem Inv.drop (hch : s.central.Changed idx m)
    (htable : m.Table lst) (hlst : ∀ j, lst j ↔ (s.listed j ∧ j ≠ idx)) (hgone : ¬ m.Used idx)
    (hempty : ∀ k, (idx, k) ∉ held') (hheld : ∀ j, j ≠ idx → ∀ k, (j, k) ∈ held' ↔ (j, k) ∈ s.held)
    (hnodup : held'.Nodup) : Inv clean { s with central := m, held := held' } := by
  apply h.one idx htable
  . intro j hj
    simp [hlst, hj]
  . simp [hlst, listed, hgone]
  . constructor
    case slots => exact fun hu => absurd hu hgone
    case held => exact fun k hk => absurd hk (hempty k)
    case busy => exact fun hb => absurd hbusy hb
    case caching => exact fun hc => absurd (hlock.symm.trans hc) (by simp)
  . exact hnodup
  . exact hch.spans
  . exact fun _ _ => rfl
  . exact hheld
  . exact fun _ _ => Iff.rfl

theorem Inv.returned (hret : s.central.Returned s.listed idx sp r) (hsp : sp.AtRest clean (fun k => (idx, k) ∈ held'))
    (hcached : sp.cached = false) (hheld : ∀ j, j ≠ idx → ∀ k, (j, k) ∈ held' ↔ (j, k) ∈ s.held) (hnodup : held'.Nodup)
    : Inv clean { s with central := r.1, held := held' } := by
  cases hret with
  | kept _ ht hch hs =>
    obtain ⟨hslots, _, _, hc⟩ := unlinked_fields hs
    exact h.settle hlock hbusy hch ht (fun _ => Iff.rfl) (hsp.congr hslots) (hc.trans hcached) hheld
      hnodup
  | gone hempty ht hch hgone =>
    exact h.drop hlock hbusy hch ht (fun _ => Iff.rfl) hgone (hsp.toCounted.not_held hempty) hheld
      hnodup

end

theorem uncache_inv (hlock : s.caching = none) (hcached : (s.central.spans idx).cached = true)
    (hbusy : s.busy idx = none) : Inv clean { s with central := (s.central.uncacheSpan idx).1 } := by
  have hu := h.used_of_cached hcached
  have hslots := (h.spans idx).slots hu
  rw [hbusy] at hslots
  have hnot : ¬ s.listed idx := by
    intro hl
    rw [hl.2.1] at hcached
    contradiction
  apply h.returned hlock hbusy (MCentral.uncacheSpan_returned h.table hu hnot)
  . apply (hslots.1 hcached).release.congr
    exact ⟨rfl, rfl, rfl, rfl⟩
  . rfl
  . exact fun _ _ _ => Iff.rfl
  . exact h.nodup

theorem freeLocked_inv (hheld : (idx, k) ∈ s.held) (hcached : (s.central.spans idx).cached = false)
    (hlock : s.caching = none) : Inv clean
        { s with central := (s.central.freeLocked idx k).1, held := s.held.erase (idx, k) } := by
  have hlisted : s.listed idx := ⟨(h.spans idx).held k hheld, hcached, by simp [hlock]⟩
  have hrest := h.atRest hlisted
  obtain ⟨hother, hself⟩ := h.held_erase idx k
  have hd := Span.desc_freeSlotLocked (s := s.central.spans idx) (j := k)
  apply h.returned hlock (h.not_busy hlisted) (MCentral.freeLocked_returned h.table hlisted k)
  . have heq : (fun x => (idx, x) ∈ s.held.erase (idx, k)) = fun x => s.slots idx x ∧ x ≠ k :=
      funext fun x => propext (hself x)
    rw [heq]
    exact hrest.free (Span.freeSlotLocked_freed hrest.toCounted hheld)
  . exact (Span.links_of_desc hd).2.2.trans hcached
  . exact hother
  . exact h.nodup.erase (idx, k)

theorem alloc_inv (hlock : s.caching = none) (hcls : classFor size align = some cls)
    (hdrawn : s.central.Drawn cls base) (htake : MCentral.alloc.take s.central size align base = some (x, m))
    : Inv clean { s with central := m, held := x.toList ++ s.held } ∧
        Sale s x { s with central := m, held := x.toList ++ s.held } := by
  rcases MCentral.alloc_take_spec h.table hcls hdrawn htake with hnone | hserved
  . obtain ⟨hx, htable, hs⟩ := hnone
    subst hx
    exact ⟨h.same htable hs, Sale.none⟩
  obtain ⟨hpos, idx, s0, hserved⟩ := hserved
  obtain ⟨hrest, hcached, hbusy⟩ := h.origin hserved.origin hpos (MCentral.classFor_lt hcls)
  have hd := Span.desc_allocSlotLocked (s := s0)
  have hok := hrest.allocSlotLocked
  have hx := hserved.sold
  obtain ⟨hslots, _, _, hc⟩ := unlinked_fields hserved.span
  have hc' := (hc.trans (Span.links_of_desc hd).2.2).trans hcached
  generalize s0.allocSlotLocked = res at hx hok hslots
  obtain ⟨slot, _⟩ := res
  cases slot with
  | none =>
    rw [hx]
    exact ⟨h.settle hlock hbusy hserved.changed hserved.table (fun _ => Iff.rfl)
      (hok.congr hslots) hc' (fun _ _ _ => Iff.rfl) h.nodup, Sale.none⟩
  | some k =>
    rw [hx]
    obtain ⟨hk, hfree, hrest2⟩ := hok
    have heq : (fun x => (idx, x) ∈ (idx, k) :: s.held) = fun x => s.slots idx x ∨ x = k := by
      funext x
      simp [slots, or_comm]
    rw [← heq] at hrest2
    refine ⟨h.settle hlock hbusy hserved.changed hserved.table (fun _ => Iff.rfl)
      (hrest2.congr hslots) hc' ?_ (List.nodup_cons.mpr ⟨hfree, h.nodup⟩), ?_⟩
    . intro j hj x
      simp [hj]
    intro y hy
    have hy' : (idx, k) = y := Option.some.inj hy
    subst hy'
    refine ⟨hfree, ?_⟩
    rwa [hslots.nelems]

theorem free_inv (hheld : (idx, k) ∈ s.held)
    (hlock : (s.central.spans idx).cached = true ∨ s.caching = none) : Inv clean
        { s with
          central := (s.central.free ((s.central.spans idx).slotAddr k)).2.1
          held := s.held.erase (idx, k) } := by
  have hu := (h.spans idx).held k hheld
  have hk := ((h.spans idx).slots hu).counted.held_lt k hheld
  unfold MCentral.free
  rw [h.table.lookup_slotAddr hu hk]
  dsimp only
  split
  . exact freeLate_inv h hheld
  next hcached =>
  rw [Bool.not_eq_true] at hcached
  apply freeLocked_inv h hheld hcached
  rcases hlock with hc | hlock
  . rw [hcached] at hc
    contradiction
  . exact hlock

theorem step_inv (hstep : Step clean s x t) : t.Inv clean ∧ Sale s x t := by
  cases hstep with
  | take hlock hdrawn htake hidx => exact ⟨take_inv h hlock hdrawn htake hidx, Sale.none⟩
  | takeNone _ _ htake => exact ⟨takeNone_inv h htake, Sale.none⟩
  | load hbusy => exact ⟨load_inv h hbusy, Sale.none⟩
  | publish hlock hbusy => exact ⟨publish_inv h hlock hbusy, Sale.none⟩
  | start hcached hbusy ho hclean => exact start_inv h hcached hbusy ho hclean
  | resume hcached hbusy ho hclean => exact resume_inv h hcached hbusy ho hclean
  | uncache hlock hcached hbusy => exact ⟨uncache_inv h hlock hcached hbusy, Sale.none⟩
  | alloc hlock hcls hdrawn htake => exact alloc_inv h hlock hcls hdrawn htake
  | free hheld hlock => exact ⟨free_inv h hheld hlock, Sale.none⟩
  | freeLate hheld => exact ⟨freeLate_inv h hheld, Sale.none⟩

end Steps

theorem reachable_inv (hr : (sharedSystem clean arenaBase trackedPages).Reachable s) : s.Inv clean := by
  apply hr.invariant (Inv clean)
  . intro s hs
    exact init_inv clean arenaBase trackedPages hs
  . intro s t h ⟨x, hstep⟩
    exact (step_inv h hstep).1

end SharedHeap

end Central
