import Goish.Runtime.MCentral.Lemmas.Table

open MHeap

namespace Central

namespace MCentral

variable {m m' : MCentral} {listed : Nat → Prop}

def Drawn (m : MCentral) (cls base : Nat) : Prop :=
  base = allocFailed ∨ m.Fresh base (npagesOfClass.getD cls 0)

theorem Used.of_unlinked (hu : m.Used i) (hs : (m'.spans j).unlinked = (m.spans i).unlinked) : m'.Used j := by
  unfold Used
  rwa [(Span.SameShape.of_unlinked hs).sizeclass]

def Origin (m : MCentral) (listed : Nat → Prop) (cls base idx : Nat) (s : Span) : Prop :=
  (listed idx ∧ (m.spans idx).sizeclass = cls ∧ s.unlinked = (m.spans idx).unlinked) ∨
    (¬ m.Used idx ∧ base ≠ allocFailed ∧ s.unlinked = (Span.fresh cls base).unlinked)

structure Changed (m : MCentral) (idx : Nat) (m' : MCentral) : Prop where
  spans : ∀ j, j ≠ idx → (m'.spans j).unlinked = (m.spans j).unlinked
  arenaBase : m'.arenaBase = m.arenaBase
  trackedPages : m'.trackedPages = m.trackedPages

theorem SameSpans.changed (h : SameSpans m m') (idx : Nat) : Changed m idx m' :=
  ⟨fun j _ => h.spans j, h.arenaBase, h.trackedPages⟩

theorem Changed.trans (h : Changed m idx m') (h' : Changed m' idx m'') : Changed m idx m'' :=
  ⟨fun j hj => (h'.spans j hj).trans (h.spans j hj), h'.arenaBase.trans h.arenaBase,
    h'.trackedPages.trans h.trackedPages⟩

theorem Changed.setSpan (m : MCentral) (idx : Nat) (s : Span) : Changed m idx (m.setSpan idx s) where
  spans := by
    intro j hj
    rw [spans_setSpan, if_neg hj]
  arenaBase := rfl
  trackedPages := rfl

theorem Drawn.of_same (h : m.Drawn cls base) (hs : SameSpans m m') : m'.Drawn cls base := by
  rcases h with h | h
  . exact Or.inl h
  obtain ⟨q, h1, h2, h3⟩ := h
  refine Or.inr ⟨q, ?_, ?_, ?_⟩
  . rwa [hs.arenaBase]
  . rwa [hs.trackedPages]
  intro i hi
  have hshape := Span.SameShape.of_unlinked (hs.spans i)
  rw [hshape.base, hshape.npages]
  apply h3
  unfold Used at *
  rwa [hshape.sizeclass] at hi

theorem cacheSpan_cases (hexec : m.cacheSpan cls base = some (idx, m'))
    : idx = nilSpan ∧ cacheSpan.take m cls base = some (nilSpan, m') ∨
        idx ≠ nilSpan ∧ ∃ m1, cacheSpan.take m cls base = some (idx, m1) ∧
          m' = cacheSpan.publish m1 idx ((m1.spans idx).allocBits.word 0) := by
  unfold cacheSpan at hexec
  split at hexec
  . contradiction
  next m1 htake =>
  split at hexec
  . next h0 =>
    cases hexec
    exact .inl ⟨rfl, h0 ▸ htake⟩
  . next hne =>
    cases hexec
    exact .inr ⟨hne, m1, htake, rfl⟩

theorem cacheSpan_take_class (heq : cacheSpan.take m cls base = some (idx, m')) (hne : idx ≠ nilSpan)
    : 1 ≤ cls ∧ cls < numSizeClasses := by
  unfold cacheSpan.take at heq
  split at heq
  . cases heq
    contradiction
  . omega

theorem classFor_lt (h : classFor size align = some cls) : cls < numSizeClasses := by
  have h8 : ∀ x ∈ sizeToClass8, x < numSizeClasses := by decide +kernel
  have h128 : ∀ x ∈ sizeToClass128, x < numSizeClasses := by decide +kernel
  have hget : ∀ (l : List Nat) (i : Nat), (∀ x ∈ l, x < numSizeClasses) →
      l.getD i 0 < numSizeClasses := by
    intro l i hl
    rw [List.getD_eq_getElem?_getD]
    cases hi : l[i]? with
    | none => decide
    | some x => exact hl x (List.mem_of_getElem? hi)
  unfold classFor at h
  dsimp only at h
  generalize (if align > minHeapAlign then _ else _) = eff at h
  split at h
  . exact nomatch h
  split at h
  . cases h
    exact hget _ _ h8
  . cases h
    exact hget _ _ h128

theorem acquire_cases (found entered : Nat → MCentral → MCentral) (h : Table m listed)
    (heq : (match m.partialSpan cls with
      | (idx, m) =>
        if idx ≠ nilSpan then
          some (idx, found idx m)
        else if base = allocFailed then
          some (nilSpan, m)
        else
          match m.allocSpanIdx with
          | none => none
          | some (idx, m) => some (idx, entered idx m)) = some (idx, m'))
    : ∃ (m1 : MCentral), Linked m1 listed ∧ SameSpans m m1 ∧
        (idx ≠ nilSpan ∧ listed idx ∧ (m.spans idx).sizeclass = cls ∧ m' = found idx m1 ∨
          idx = nilSpan ∧ m' = m1 ∨
          idx ≠ nilSpan ∧ base ≠ allocFailed ∧
            ∃ (m2 : MCentral), m1.allocSpanIdx = some (idx, m2) ∧ m' = entered idx m2) := by
  generalize hp : m.partialSpan cls = p at heq
  obtain ⟨_, m1⟩ := p
  obtain ⟨hl, hs, hi⟩ := partialSpan_spec h.toLinked hp
  refine ⟨m1, hl, hs, ?_⟩
  dsimp only at heq
  split at heq
  . next hine =>
    cases heq
    exact Or.inl ⟨hine, (hi hine).1, (hi hine).2, rfl⟩
  split at heq
  . cases heq
    exact Or.inr (Or.inl ⟨rfl, rfl⟩)
  next hbase =>
  split at heq
  . contradiction
  next i2 m2 halloc =>
  cases heq
  exact Or.inr (Or.inr ⟨(allocSpanIdx_spec hl halloc).1.ne_nil, hbase, m2, halloc, rfl⟩)

theorem or_listed (hl : listed i) (j : Nat) : listed j ↔ listed j ∨ j = i := by
  refine ⟨Or.inl, ?_⟩
  rintro (hj | rfl)
  . exact hj
  . exact hl

theorem and_listed (hl : ¬ listed i) (j : Nat) : listed j ↔ listed j ∧ j ≠ i :=
  ⟨fun hj => ⟨hj, fun heq => hl (heq ▸ hj)⟩, fun hj => hj.1⟩

section Acquire

variable (h : Table m listed) (hdrawn : m.Drawn cls base)
include h hdrawn

theorem enter_spec (hpos : 1 ≤ cls) (hlt : cls < numSizeClasses) (hs : SameSpans m m1) (hl : Linked m1 listed)
    (hbase : base ≠ allocFailed) (heq : m1.allocSpanIdx = some (idx, m2))
    : Table (m2.initSpan idx cls base) listed ∧ ¬ m.Used idx ∧ (m2.initSpan idx cls base).Used idx ∧
        (m2.initSpan idx cls base).spans idx = Span.fresh cls base ∧
        Changed m idx (m2.initSpan idx cls base) := by
  have htable := h.of_same hs hl
  rcases hdrawn.of_same hs with h0 | hfresh
  . contradiction
  obtain ⟨ht, hr⟩ := htable.enter heq hpos hlt hfresh
  have hspans := initSpan_spans hr cls base
  have hself : (m2.initSpan idx cls base).spans idx = Span.fresh cls base := by
    rw [hspans, if_pos rfl]
  refine ⟨ht, ?_, ?_, hself, ?_⟩
  . intro hu
    exact hr.unused (hu.of_unlinked (hs.spans idx))
  . unfold Used
    rw [hself]
    show cls ≠ 0
    omega
  apply (hs.changed idx).trans
  constructor
  . intro j hj
    rw [hspans, if_neg hj]
  . exact hr.arenaBase
  . exact hr.trackedPages

theorem cacheSpan_take_spec (heq : cacheSpan.take m cls base = some (idx, m')) (hne : idx ≠ nilSpan)
    : Table m' (fun j => listed j ∧ j ≠ idx) ∧ Changed m idx m' ∧ m'.Used idx ∧
        ∃ (s : Span), Origin m listed cls base idx s ∧
          (m'.spans idx).unlinked = ({ s with freeindex := 0 } : Span).unlinked := by
  have hcls := cacheSpan_take_class heq hne
  unfold cacheSpan.take at heq
  rw [if_neg (by omega)] at heq
  obtain ⟨m1, hl, hs, ⟨_, hlisted, hc, rfl⟩ | ⟨h0, _⟩ | ⟨_, hbase, _, halloc, rfl⟩⟩ :=
    acquire_cases (fun idx m => (m.listRemove idx).setSpan idx { (m.listRemove idx).spans idx with freeindex := 0 }) _ h heq
  . have hrem := (h.of_same hs hl).of_same (listRemove_same m1 idx) (hl.remove hlisted)
    have hsame := hs.trans (listRemove_same m1 idx)
    have hu : (m1.listRemove idx).Used idx :=
      (h.listed_used idx hlisted).of_unlinked (hsame.spans idx)
    refine ⟨hrem.setSpan hu ⟨rfl, rfl, rfl, rfl, rfl⟩ rfl rfl,
      (hsame.changed idx).trans (Changed.setSpan _ _ _), ?_, (m1.listRemove idx).spans idx,
      Or.inl ⟨hlisted, hc, hsame.spans idx⟩, ?_⟩
    . unfold Used
      rwa [spans_setSpan, if_pos rfl]
    . rw [spans_setSpan, if_pos rfl]
  . contradiction
  . obtain ⟨ht, hu, hused, hspan, hch⟩ := enter_spec h hdrawn hcls.1 hcls.2 hs hl hbase halloc
    refine ⟨?_, hch, hused, Span.fresh cls base, Or.inr ⟨hu, hbase, rfl⟩, ?_⟩
    . exact ht.iff (and_listed fun hj => hu (h.listed_used _ hj))
    . rw [hspan]
      rfl

omit hdrawn in
theorem cacheSpan_take_nil (heq : cacheSpan.take m cls base = some (nilSpan, m'))
    : Table m' listed ∧ SameSpans m m' := by
  unfold cacheSpan.take at heq
  split at heq
  . cases heq
    exact ⟨h, SameSpans.refl m⟩
  obtain ⟨m1, hl, hs, ⟨h0, _⟩ | ⟨_, rfl⟩ | ⟨h0, _⟩⟩ :=
    acquire_cases (fun idx m => (m.listRemove idx).setSpan idx { (m.listRemove idx).spans idx with freeindex := 0 }) _ h heq
  . contradiction
  . exact ⟨h.of_same hs hl, hs⟩
  . contradiction

theorem alloc_span_spec (hpos : 1 ≤ cls) (hlt : cls < numSizeClasses) (heq : alloc.span m cls base = some (idx, m'))
    (hne : idx ≠ nilSpan) : Table m' (fun j => listed j ∨ j = idx) ∧ Changed m idx m' ∧
        Origin m listed cls base idx (m'.spans idx) := by
  obtain ⟨_, hl, hs, ⟨_, hlisted, hc, rfl⟩ | ⟨h0, _⟩ | ⟨_, hbase, m2, halloc, rfl⟩⟩ := acquire_cases (fun _ m => m) _ h heq
  . refine ⟨?_, hs.changed idx, Or.inl ⟨hlisted, hc, hs.spans idx⟩⟩
    exact h.of_same hs (hl.iff (or_listed hlisted))
  . contradiction
  obtain ⟨ht, hu, hused, hspan, hch⟩ := enter_spec h hdrawn hpos hlt hs hl hbase halloc
  have hpush := push_same (m2.initSpan idx cls base) true idx
  rw [← partialPush_eq] at hpush
  refine ⟨?_, hch.trans (hpush.changed idx), Or.inr ⟨hu, hbase, ?_⟩⟩
  . apply ht.of_same hpush
    exact ht.toLinked.push (fun hl => hu (h.listed_used _ hl)) hused true
  . rw [hpush.spans, hspan]

omit hdrawn in
theorem alloc_span_nil (heq : alloc.span m cls base = some (nilSpan, m')) : Table m' listed ∧ SameSpans m m' := by
  obtain ⟨m1, hl, hs, ⟨h0, _⟩ | ⟨_, rfl⟩ | ⟨h0, _⟩⟩ := acquire_cases (fun _ m => m) _ h heq
  . contradiction
  . exact ⟨h.of_same hs hl, hs⟩
  . contradiction

end Acquire

theorem releaseSpan_linked (h : Linked m listed) : Linked (m.releaseSpan i).1 listed :=
  h.congr (fun _ => rfl) (fun _ => rfl) (fun _ => rfl) (fun _ _ => rfl) (fun _ _ => rfl) rfl rfl

theorem release_spec (h : Table m listed) (hi : m.Used i)
    (hs : SameSpans (m.releaseSpan i).1 m1) (hl : Linked m1 listed') (hno : ¬ listed' i)
    : Table (m1.releaseSpanIdx i) listed' ∧ Changed m i (m1.releaseSpanIdx i) ∧
        ¬ (m1.releaseSpanIdx i).Used i := by
  have hspans : ∀ j, j ≠ i → ((m1.releaseSpanIdx i).spans j).unlinked = (m.spans j).unlinked := by
    intro j hj
    unfold releaseSpanIdx
    rw [spans_setSpan, if_neg hj, hs.spans]
    rfl
  have hgone : ¬ (m1.releaseSpanIdx i).Used i := by
    unfold Used releaseSpanIdx
    rw [spans_setSpan, if_pos rfl]
    exact fun hu => hu rfl
  have hu : m1.Used i := by
    unfold Used
    rwa [hs.sizeclass]
  refine ⟨?_, ⟨hspans, hs.arenaBase, hs.trackedPages⟩, hgone⟩
  apply h.leave hi (hl.releaseSpanIdx hno hu) _ hgone hs.pageToSpan hs.arenaBase hs.trackedPages
  intro j hj
  exact Span.SameShape.of_unlinked (hspans j hj)

theorem releaseSpan_pages (m : MCentral) (i : Nat) : (m.releaseSpan i).2 = ((m.spans i).base, (m.spans i).npages) := rfl

inductive Returned (m : MCentral) (listed : Nat → Prop) (idx : Nat) (sp : Span)
    : MCentral × Option (Nat × Nat) → Prop where
  | kept {m' : MCentral} (hempty : sp.isEmpty = false) (ht : Table m' (fun j => listed j ∨ j = idx))
      (hch : Changed m idx m') (hs : (m'.spans idx).unlinked = sp.unlinked)
    : Returned m listed idx sp (m', none)
  | gone {m' : MCentral} (hempty : sp.isEmpty = true) (ht : Table m' (fun j => listed j ∧ j ≠ idx))
      (hch : Changed m idx m') (hgone : ¬ m'.Used idx)
    : Returned m listed idx sp (m', some ((m.spans idx).base, (m.spans idx).npages))

section

variable (h : Table m listed)
include h

theorem push_spec (hi : m.Used i) (hl : ¬ listed i) (b : Bool)
    : Table (m.push b i) (fun j => listed j ∨ j = i) ∧ SameSpans m (m.push b i) :=
  ⟨h.of_same (push_same m b i) (h.toLinked.push hl hi b), push_same m b i⟩

theorem move_spec (hl : listed i) (b : Bool)
    : Table ((m.listRemove i).push b i) listed ∧ SameSpans m ((m.listRemove i).push b i) := by
  have hs := (listRemove_same m i).trans (push_same (m.listRemove i) b i)
  exact ⟨h.of_same hs (h.toLinked.move hl b), hs⟩

theorem uncacheSpan_returned (hi : m.Used idx) (hl : ¬ listed idx)
    : Returned m listed idx { (m.spans idx).releaseUnsold with cached := false }
        (m.uncacheSpan idx) := by
  have hd := Span.desc_releaseUnsold (s := m.spans idx)
  have hshape := Span.SameShape.of_desc hd
  obtain ⟨hnext, hprev, _⟩ := Span.links_of_desc hd
  unfold uncacheSpan
  rw [if_neg (h.used idx hi).1]
  dsimp only
  generalize hsp : ({ (m.spans idx).releaseUnsold with cached := false } : Span) = sp
  have hsame : (m.spans idx).SameShape sp := by
    rw [← hsp]
    exact { hshape with }
  have hself : (m.setSpan idx sp).spans idx = sp := if_pos rfl
  have htable : (m.setSpan idx sp).Table listed := by
    apply h.setSpan hi hsame
    . rwa [← hsp]
    . rwa [← hsp]
  have hused : (m.setSpan idx sp).Used idx := by
    unfold Used
    rwa [hself, hsame.sizeclass]
  have hch := Changed.setSpan m idx sp
  have hpush : sp.isEmpty = false → ∀ b,
      Returned m listed idx sp ((m.setSpan idx sp).push b idx, none) := by
    intro hempty b
    obtain ⟨ht, hs⟩ := push_spec htable hused hl b
    have hsp := hs.spans idx
    rw [hself] at hsp
    exact .kept hempty ht (hch.trans (hs.changed idx)) hsp
  split
  . next hempty =>
    obtain ⟨ht, hch', hgone⟩ := release_spec htable hused (SameSpans.refl _) (releaseSpan_linked htable.toLinked) hl
    have hpages : ((m.setSpan idx sp).releaseSpan idx).2
        = ((m.spans idx).base, (m.spans idx).npages) := by
      rw [releaseSpan_pages, hself, hsame.base, hsame.npages]
    rw [hpages]
    exact .gone hempty (ht.iff (and_listed hl)) (hch.trans hch') hgone
  . next hempty =>
    rw [Bool.not_eq_true] at hempty
    split
    . exact hpush hempty false
    . exact hpush hempty true

theorem freeLocked_returned (hl : listed idx) (k : Nat)
    : Returned m listed idx ((m.spans idx).freeSlotLocked k) (m.freeLocked idx k) := by
  have hi := h.listed_used idx hl
  have hd := Span.desc_freeSlotLocked (s := m.spans idx) (j := k)
  unfold freeLocked
  dsimp only
  generalize (m.spans idx).freeSlotLocked k = sp at *
  have hsame := Span.SameShape.of_desc hd
  have hself : (m.setSpan idx sp).spans idx = sp := if_pos rfl
  have htable := h.setDesc hi hd
  have hch := Changed.setSpan m idx sp
  -- The span is on the partial list or where it was.
  generalize hm : (if (m.spans idx).isFull = true then
    ((m.setSpan idx sp).listRemove idx).partialPush idx else m.setSpan idx sp) = m3
  have hm3 : m3.Table listed ∧ (m.setSpan idx sp).SameSpans m3 := by
    rw [← hm]
    split
    . exact move_spec htable hl true
    . exact ⟨htable, SameSpans.refl _⟩
  obtain ⟨ht3, hs3⟩ := hm3
  have hspan := hs3.spans idx
  rw [hself] at hspan
  have hch3 := hch.trans (hs3.changed idx)
  have hempty3 : (m3.spans idx).isEmpty = sp.isEmpty := by
    have := congrArg Span.isEmpty hspan
    exact this
  have hshape3 := hsame.trans (Span.SameShape.of_unlinked hspan)
  rw [hempty3]
  split
  . next hempty =>
    obtain ⟨ht4, hch4, hgone⟩ := release_spec ht3 (ht3.listed_used idx hl) (listRemove_same _ idx)
      ((releaseSpan_linked ht3.toLinked).remove hl) fun hand => hand.2 rfl
    have hret := Returned.gone hempty ht4 (hch3.trans hch4) hgone
    rwa [← hshape3.base, ← hshape3.npages] at hret
  . next hempty =>
    rw [Bool.not_eq_true] at hempty
    exact .kept hempty (ht3.iff (or_listed hl)) hch3 hspan

end

structure Served (m : MCentral) (listed : Nat → Prop) (cls base idx : Nat) (s0 : Span)
    (x : Option (Nat × Nat)) (m' : MCentral) : Prop where
  origin : Origin m listed cls base idx s0
  table : Table m' (fun j => listed j ∨ j = idx)
  changed : Changed m idx m'
  sold : x = s0.allocSlotLocked.1.map fun slot => (idx, slot)
  span : (m'.spans idx).unlinked = s0.allocSlotLocked.2.unlinked

theorem alloc_take_spec (h : Table m listed) (hcls : classFor size align = some cls) (hdrawn : m.Drawn cls base)
    (heq : alloc.take m size align base = some (x, m')) : (x = none ∧ Table m' listed ∧ SameSpans m m') ∨
        1 ≤ cls ∧ ∃ (idx : Nat) (s0 : Span), Served m listed cls base idx s0 x m' := by
  simp only [alloc.take, hcls] at heq
  split at heq
  . cases heq
    exact Or.inl ⟨rfl, h, SameSpans.refl m⟩
  next hpos =>
  split at heq
  . contradiction
  next idx m1 hspan =>
  split at heq
  . next h0 =>
    subst h0
    cases heq
    exact Or.inl ⟨rfl, alloc_span_nil h hspan⟩
  next hne =>
  obtain ⟨htable, hch, ho⟩ :=
    alloc_span_spec h hdrawn (by omega) (classFor_lt hcls) hspan hne
  have hd := Span.desc_allocSlotLocked (s := m1.spans idx)
  have hu := htable.listed_used idx (Or.inr rfl)
  rw [Option.some.injEq, Prod.mk.injEq] at heq
  obtain ⟨hx, hm⟩ := heq
  refine Or.inr ⟨by omega, idx, m1.spans idx, ?_⟩
  unfold alloc.slot at hx hm
  generalize hslot : (m1.spans idx).allocSlotLocked = res at hx hm hd
  obtain ⟨slot, sp⟩ := res
  have htable2 := htable.setDesc hu hd
  have hch2 := hch.trans (Changed.setSpan m1 idx sp)
  have hself : (m1.setSpan idx sp).spans idx = sp := if_pos rfl
  obtain ⟨ht3, hs3⟩ := move_spec htable2 (Or.inr rfl) false
  have hspan3 := hs3.spans idx
  rw [hself] at hspan3
  have hfull : Served m listed cls base idx (m1.spans idx)
      (slot.map fun slot => (idx, slot)) (((m1.setSpan idx sp).listRemove idx).push false idx) :=
    ⟨ho, ht3, hch2.trans (hs3.changed idx), by rw [hslot], by rw [hslot]; exact hspan3⟩
  have hkept : Served m listed cls base idx (m1.spans idx)
      (slot.map fun slot => (idx, slot)) (m1.setSpan idx sp) :=
    ⟨ho, htable2, hch2, by rw [hslot], by rw [hslot, hself]⟩
  cases slot with
  | none =>
    subst hx hm
    exact hfull
  | some =>
    dsimp only at hx hm
    subst hx
    split at hm
    . subst hm
      exact hfull
    . subst hm
      exact hkept

end MCentral

end Central
