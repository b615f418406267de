import Goish.Runtime.MCentral.Lemmas.SpanOwner
import Goish.Runtime.MCentral.Lemmas.Central

open MHeap

namespace Central

structure SlotHeap where
  central : MCentral
  held : List (Nat × Nat)

structure SharedHeap extends SlotHeap where
  busy : Nat → Option (Span.Refill × Option (BitVec 64))
  caching : Option Nat

def Span.Outcome.sold (idx : Nat) : Span.Outcome → Option (Nat × Nat)
  | .done slot _ => slot.map fun slot => (idx, slot)
  | .overrun _ => none
  | .refill _ _ => none

def Span.Outcome.pending : Span.Outcome → Option (Span.Refill × Option (BitVec 64))
  | .done _ _ => none
  | .overrun _ => none
  | .refill r _ => some (r, none)

def Span.Outcome.overruns : Span.Outcome → Bool
  | .overrun _ => true
  | _ => false

namespace SharedHeap

def setBusy (s : SharedHeap) (idx : Nat) (b : Option (Span.Refill × Option (BitVec 64)))
    : Nat → Option (Span.Refill × Option (BitVec 64)) :=
  fun i => if i = idx then b else s.busy i

def advance (s : SharedHeap) (idx : Nat) (o : Span.Outcome) : SharedHeap :=
  { s with
    central := s.central.setSpan idx o.span
    held := (o.sold idx).toList ++ s.held
    busy := s.setBusy idx o.pending }

inductive Step (clean : Prop) : SharedHeap → Option (Nat × Nat) → SharedHeap → Prop where
  | take (hlock : s.caching = none) (hdrawn : s.central.Drawn cls base)
      (htake : MCentral.cacheSpan.take s.central cls base = some (idx, m)) (hidx : idx ≠ nilSpan)
    : Step clean s none
        { s with central := m, busy := s.setBusy idx (some (.window 0, none)), caching := some idx }
  | takeNone (hlock : s.caching = none) (hdrawn : s.central.Drawn cls base)
      (htake : MCentral.cacheSpan.take s.central cls base = some (nilSpan, m))
    : Step clean s none { s with central := m }
  | load (hbusy : s.busy idx = some (r, none)) : Step clean s none
        { s with busy :=
            s.setBusy idx (some (r, some ((s.central.spans idx).allocBits.word r.wordIndex))) }
  | publish (hlock : s.caching = some idx) (hbusy : s.busy idx = some (r, some load))
    : Step clean s none
        { s with
          central := MCentral.cacheSpan.publish s.central idx load
          busy := s.setBusy idx none
          caching := none }
  | start (hcached : (s.central.spans idx).cached = true) (hbusy : s.busy idx = none)
      (ho : Span.nextFreeOwner.start (s.central.spans idx) = o) (hclean : clean → o.overruns = false)
    : Step clean s (o.sold idx) (s.advance idx o)
  | resume (hcached : (s.central.spans idx).cached = true) (hbusy : s.busy idx = some (r, some load))
      (ho : Span.nextFreeOwner.resume (s.central.spans idx) r load = o)
      (hclean : clean → o.overruns = false) : Step clean s (o.sold idx) (s.advance idx o)
  | uncache (hlock : s.caching = none) (hcached : (s.central.spans idx).cached = true)
      (hbusy : s.busy idx = none)
    : Step clean s none { s with central := (s.central.uncacheSpan idx).1 }
  | alloc (hlock : s.caching = none) (hcls : classFor size align = some cls)
      (hdrawn : s.central.Drawn cls base)
      (htake : MCentral.alloc.take s.central size align base = some (x, m))
    : Step clean s x { s with central := m, held := x.toList ++ s.held }
  | free (hheld : (idx, k) ∈ s.held)
      (hlock : (s.central.spans idx).cached = true ∨ s.caching = none) : Step clean s none
        { s with
          central := (s.central.free ((s.central.spans idx).slotAddr k)).2.1
          held := s.held.erase (idx, k) }
  -- `free` has read the flag of the span before its owner gave the span back.
  | freeLate (hheld : (idx, k) ∈ s.held) : Step clean s none
        { s with central := s.central.freeAtomic idx k, held := s.held.erase (idx, k) }

end SharedHeap

def sharedSystem (clean : Prop) (arenaBase trackedPages : Nat) : System SharedHeap where
  init s := s =
    {
      central := MCentral.init arenaBase trackedPages
      held := []
      busy := fun _ => none
      caching := none
    }
  step s t := ∃ (x : Option (Nat × Nat)), SharedHeap.Step clean s x t

namespace SharedHeap

variable {s t : SharedHeap}

def listed (s : SharedHeap) (i : Nat) : Prop :=
  s.central.Used i ∧ (s.central.spans i).cached = false ∧ s.caching ≠ some i

def slots (s : SharedHeap) (i k : Nat) : Prop :=
  (i, k) ∈ s.held

def Slots (clean : Prop) (s : Span) (held : Nat → Prop)
    : Option (Span.Refill × Option (BitVec 64)) → Prop
  | none =>
    (s.cached = true → s.Claimed clean held s.freeindex) ∧ (s.cached = false → s.AtRest clean held)
  | some (r, none) => s.Pending clean held r
  | some (r, some load) => s.Loaded clean held r load

structure Local (clean : Prop) (s : SharedHeap) (i : Nat) : Prop where
  slots : s.central.Used i → Slots clean (s.central.spans i) (s.slots i) (s.busy i)
  held : ∀ k, (i, k) ∈ s.held → s.central.Used i
  busy : s.busy i ≠ none →
    s.central.Used i ∧ ((s.central.spans i).cached = true ∨ s.caching = some i)
  caching : s.caching = some i →
    s.central.Used i ∧ (s.central.spans i).cached = false ∧ (s.central.spans i).freeindex = 0 ∧
      ∃ (load : Option (BitVec 64)), s.busy i = some (.window 0, load)

structure Inv (clean : Prop) (s : SharedHeap) : Prop where
  table : s.central.Table s.listed
  spans : ∀ i, s.Local clean i
  nodup : s.held.Nodup

theorem unlinked_fields {s s' : Span} (h : s'.unlinked = s.unlinked)
    : s.SameSlots s' ∧ s'.sizeclass = s.sizeclass ∧ s'.freeindex = s.freeindex
        ∧ s'.cached = s.cached := by
  unfold Span.unlinked at h
  simp only [Span.mk.injEq] at h
  obtain ⟨_, _, _, h4, h5, h6, h7, h8, h9, _, _, h12⟩ := h
  exact ⟨⟨h4, h6, h8, h9⟩, h5, h7, h12⟩

theorem Slots.congr {s s' : Span} (h : Slots clean s held b) (hs : s.SameSlots s')
    (hfree : s'.freeindex = s.freeindex) (hcached : s'.cached = s.cached) : Slots clean s' held b := by
  cases b with
  | none =>
    unfold Slots at *
    rw [hfree, hcached]
    exact ⟨fun hc => (h.1 hc).congr hs, fun hc => (h.2 hc).congr hs⟩
  | some w =>
    obtain ⟨_, load⟩ := w
    cases load with
    | none => exact Span.Pending.congr hs h
    | some => exact Span.Loaded.congr hs h

theorem Slots.counted {s : Span} (h : Slots clean s held b) : s.Counted held := by
  cases b with
  | none =>
    cases hc : s.cached with
    | true => exact (h.1 hc).toCounted
    | false => exact (h.2 hc).toCounted
  | some w =>
    obtain ⟨_, load⟩ := w
    cases load with
    | none => exact Span.Pending.toCounted h
    | some => exact (Span.Loaded.toPending h).toCounted

theorem Slots.free {s : Span} (h : Slots clean s held b) (hf : s.Freed j s') (hj : held j)
    (hfree : s'.freeindex = s.freeindex) (hcached : s'.cached = s.cached)
    : Slots clean s' (fun x => held x ∧ x ≠ j) b := by
  cases b with
  | none =>
    unfold Slots at *
    rw [hfree, hcached]
    exact ⟨fun hc => (h.1 hc).free hf hj, fun hc => (h.2 hc).free hf⟩
  | some w =>
    obtain ⟨_, load⟩ := w
    cases load with
    | none => exact Span.Pending.free hf h hj
    | some => exact Span.Loaded.free hf h hj

theorem Local.congr (h : s.Local clean i) (hspan : (t.central.spans i).unlinked = (s.central.spans i).unlinked)
    (hbusy : t.busy i = s.busy i) (hheld : ∀ k, (i, k) ∈ t.held ↔ (i, k) ∈ s.held)
    (hcaching : t.caching = some i ↔ s.caching = some i) : t.Local clean i := by
  obtain ⟨hs, hcls, hfree, hcached⟩ := unlinked_fields hspan
  have hused : t.central.Used i ↔ s.central.Used i := by
    unfold MCentral.Used
    rw [hcls]
  have hslots : t.slots i = s.slots i := funext fun k => propext (hheld k)
  constructor
  case slots =>
    intro hu
    rw [hbusy, hslots]
    exact (h.slots (hused.mp hu)).congr hs hfree hcached
  case held =>
    intro k hk
    exact hused.mpr (h.held k ((hheld k).mp hk))
  case busy =>
    rw [hbusy, hused, hcached, hcaching]
    exact h.busy
  case caching =>
    rw [hbusy, hused, hcached, hcaching, hfree]
    exact h.caching

theorem Inv.one (h : s.Inv clean) (idx : Nat) (htable : t.central.Table lst)
    (hlst : ∀ j, j ≠ idx → (lst j ↔ s.listed j)) (hself : lst idx ↔ t.listed idx) (hlocal : t.Local clean idx)
    (hnodup : t.held.Nodup) (hspans : ∀ j, j ≠ idx → (t.central.spans j).unlinked = (s.central.spans j).unlinked)
    (hbusy : ∀ j, j ≠ idx → t.busy j = s.busy j) (hheld : ∀ j, j ≠ idx → ∀ k, (j, k) ∈ t.held ↔ (j, k) ∈ s.held)
    (hcaching : ∀ j, j ≠ idx → (t.caching = some j ↔ s.caching = some j)) : t.Inv clean where
  table := by
    apply htable.iff
    intro j
    by_cases heq : j = idx
    . rwa [heq]
    obtain ⟨_, hcls, _, hc⟩ := unlinked_fields (hspans j heq)
    rw [hlst j heq]
    unfold listed MCentral.Used
    simp only [hcls, hc, ne_eq, hcaching j heq]
  spans := by
    intro j
    by_cases heq : j = idx
    . rwa [heq]
    . exact (h.spans j).congr (hspans j heq) (hbusy j heq) (hheld j heq) (hcaching j heq)
  nodup := hnodup

theorem init_inv (clean : Prop) (arenaBase trackedPages : Nat)
    (hs : (sharedSystem clean arenaBase trackedPages).init s) : s.Inv clean := by
  subst hs
  have hused : ∀ i, ¬ (MCentral.init arenaBase trackedPages).Used i := fun _ hu => hu rfl
  constructor
  case table =>
    constructor
    case toLinked =>
      apply (MCentral.Linked.init arenaBase trackedPages).iff
      intro i
      exact ⟨False.elim, fun hl => hused i hl.1⟩
    case geometry => exact fun i hi => absurd hi (hused i)
    case placed => exact fun i hi => absurd hi (hused i)
  case spans =>
    intro i
    constructor
    case slots => exact fun hi => absurd hi (hused i)
    case held => simp
    case busy => exact fun hb => absurd rfl hb
    case caching => simp
  case nodup => exact List.nodup_nil

end SharedHeap

end Central
