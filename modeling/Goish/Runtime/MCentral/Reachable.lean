import Goish.Runtime.MCentral.Lemmas.Shared
import Mathlib.Data.List.Nodup

open List MHeap

namespace Central

open SlotHeap SharedHeap

namespace SlotHeap

inductive Op where
  | cacheSpan (cls base : Nat)
  | allocSlotIn (idx : Nat)
  | uncacheSpan (idx : Nat)
  | alloc (size align base : Nat)
  | free (idx slot : Nat)

def exec (s : SlotHeap) : Op → Option SlotHeap
  | .cacheSpan cls base =>
    (s.central.cacheSpan cls base).map fun (_, m) => { s with central := m }
  | .allocSlotIn idx =>
    if (s.central.spans idx).cached then
      let (x, m) := MCentral.allocSlotIn.take s.central idx
      some { central := m, held := x.toList ++ s.held }
    else
      none
  | .uncacheSpan idx =>
    if (s.central.spans idx).cached then
      some { s with central := (s.central.uncacheSpan idx).1 }
    else
      none
  | .alloc size align base =>
    (MCentral.alloc.take s.central size align base).map fun (x, m) =>
      { central := m, held := x.toList ++ s.held }
  | .free idx slot =>
    if (idx, slot) ∈ s.held then
      some
        {
          central := (s.central.free ((s.central.spans idx).slotAddr slot)).2.1
          held := s.held.erase (idx, slot)
        }
    else
      none

def Op.Drawn (s : SlotHeap) : Op → Prop
  | .cacheSpan cls base => s.central.Drawn cls base
  | .alloc size align base => ∀ cls, classFor size align = some cls → s.central.Drawn cls base
  | _ => True

def Op.overruns (s : SlotHeap) : Op → Bool
  | .allocSlotIn idx => (s.central.spans idx).nextFreeOwner.overruns
  | _ => false

end SlotHeap

def slotSystem (clean : Prop) (arenaBase trackedPages : Nat) : System SlotHeap where
  init s := s = { central := MCentral.init arenaBase trackedPages, held := [] }
  step s t :=
    ∃ (op : SlotHeap.Op), op.Drawn s ∧ (clean → op.overruns s = false) ∧ s.exec op = some t

namespace SlotHeap

variable {s t : SlotHeap}

def shared (s : SlotHeap) : SharedHeap :=
  { s with
    busy := fun _ => none
    caching := none }

theorem setBusy_none (s : SharedHeap) (hs : ∀ j, j ≠ idx → s.busy j = none) : s.setBusy idx none = fun _ => none := by
  funext j
  unfold setBusy
  split
  . rfl
  . next hne => exact hs j hne

section Steps

variable (h : s.shared.Inv clean)
include h

theorem cacheSpan_inv (hdrawn : s.central.Drawn cls base) (hexec : s.central.cacheSpan cls base = some (idx, m))
    : SharedHeap.Inv clean (shared { s with central := m }) := by
  obtain ⟨_, htake⟩ | ⟨hne, m1, htake, rfl⟩ := MCentral.cacheSpan_cases hexec
  . exact takeNone_inv h htake
  have h1 := take_inv h rfl hdrawn htake hne
  have h2 := load_inv h1 (setBusy_self (s := s.shared))
  have h3 := publish_inv h2 rfl setBusy_self
  rw [setBusy_none] at h3
  . exact h3
  . intro j hj
    simp [setBusy, hj, shared]

theorem allocSlotIn_inv (hcached : (s.central.spans idx).cached = true)
    (hclean : clean → (s.central.spans idx).nextFreeOwner.overruns = false) : SharedHeap.Inv clean
        (shared
          {
            central := (MCentral.allocSlotIn.take s.central idx).2
            held := (MCentral.allocSlotIn.take s.central idx).1.toList ++ s.held
          }) := by
  have hu : s.central.Used idx := h.used_of_cached hcached
  have hclaimed := ((h.spans idx).slots hu).1 hcached
  have hok := hclaimed.nextFreeOwner.1
  have hend : ∀ r sp, (s.central.spans idx).nextFreeOwner ≠ .refill r sp :=
    hclaimed.nextFreeOwner.2
  have hdesc : (s.central.spans idx).nextFreeOwner.span.desc = (s.central.spans idx).desc := by
    unfold Span.nextFreeOwner
    rw [Span.desc_run, Span.desc_start]
  have hadv := (advance_inv h hcached hdesc hok hclean).1
  unfold MCentral.allocSlotIn.take
  rw [if_neg (h.table.used idx hu).1]
  unfold advance at hadv
  generalize (s.central.spans idx).nextFreeOwner = o at *
  cases o with
  | done | overrun =>
    unfold Span.Outcome.pending at hadv
    rwa [setBusy_none _ (fun _ _ => rfl)] at hadv
  | refill r sp => exact absurd rfl (hend r sp)

theorem exec_inv (hdrawn : op.Drawn s) (hclean : clean → op.overruns s = false)
    (hexec : s.exec op = some t) : t.shared.Inv clean := by
  cases op with
  | cacheSpan =>
    obtain ⟨_, heq, ht⟩ := Option.map_eq_some_iff.mp hexec
    subst ht
    exact cacheSpan_inv h hdrawn heq
  | allocSlotIn =>
    obtain ⟨hc, hexec⟩ := Option.ite_none_right_eq_some.mp hexec
    cases hexec
    exact allocSlotIn_inv h hc hclean
  | uncacheSpan =>
    obtain ⟨hc, hexec⟩ := Option.ite_none_right_eq_some.mp hexec
    cases hexec
    exact uncache_inv h rfl hc rfl
  | alloc size align =>
    obtain ⟨_, heq, ht⟩ := Option.map_eq_some_iff.mp hexec
    subst ht
    cases hcls : classFor size align with
    | none =>
      unfold MCentral.alloc.take at heq
      rw [hcls] at heq
      cases heq
      exact h
    | some cls => exact (alloc_inv h rfl hcls (hdrawn cls hcls) heq).1
  | free =>
    obtain ⟨hheld, hexec⟩ := Option.ite_none_right_eq_some.mp hexec
    cases hexec
    exact free_inv h hheld (Or.inr rfl)

end Steps

theorem reachable_inv (hr : (slotSystem clean arenaBase trackedPages).Reachable s) : s.shared.Inv clean := by
  apply hr.invariant (fun s => s.shared.Inv clean)
  . intro s hs
    subst hs
    exact init_inv clean arenaBase trackedPages rfl
  . intro _ _ h ⟨_, hdrawn, hclean, hexec⟩
    exact exec_inv h hdrawn hclean hexec

structure Exact (s : SlotHeap) (i : Nat) : Prop where
  count : (s.central.spans i).allocCount = (s.held.filter fun x => x.1 = i).length
  bits : ∀ k, (s.central.spans i).allocBits.get k = true ↔ (i, k) ∈ s.held
  behind : ∀ k, (s.central.spans i).nelems ≤ k → (s.central.spans i).allocBits.get k = false

theorem slotsOf_nodup (hnodup : s.held.Nodup) (i : Nat) : ((s.held.filter fun x => x.1 = i).map Prod.snd).Nodup := by
  apply List.Nodup.map_on
  . intro x hx y hy heq
    have h1 := (mem_filter.mp hx).2
    have h2 := (mem_filter.mp hy).2
    rw [decide_eq_true_eq] at h1 h2
    exact Prod.ext (h1.trans h2.symm) heq
  . exact hnodup.filter _

theorem mem_slotsOf (i k : Nat) : k ∈ (s.held.filter fun x => x.1 = i).map Prod.snd ↔ (i, k) ∈ s.held := by
  rw [mem_map]
  constructor
  . intro ⟨x, hx, heq⟩
    obtain ⟨_, h2⟩ := mem_filter.mp hx
    rw [decide_eq_true_eq] at h2
    rwa [← h2, ← heq]
  . intro hk
    exact ⟨(i, k), mem_filter.mpr ⟨hk, by simp⟩, rfl⟩

theorem exact_of_atRest (hnodup : s.held.Nodup)
    (h : (s.central.spans i).AtRest True fun k => (i, k) ∈ s.held) : s.Exact i := by
  have hbits : ∀ k, (s.central.spans i).allocBits.get k = true ↔ (i, k) ∈ s.held :=
    fun k => ⟨h.exact trivial k, h.held_get k⟩
  constructor
  case count =>
    rw [h.count]
    rw [Bitmap.popcount_eq_length (slotsOf_nodup hnodup i)]
    . rw [length_map]
    . intro k
      rw [hbits, mem_slotsOf]
  case bits => exact hbits
  case behind =>
    intro k _
    rw [Bool.eq_false_iff]
    intro hget
    have := h.held_lt k ((hbits k).mp hget)
    omega

end SlotHeap

section Accounting

variable {s : SlotHeap} {i arenaBase trackedPages : Nat}

theorem uncached_exact (hr : (slotSystem True arenaBase trackedPages).Reachable s)
    (hcached : (s.central.spans i).cached = false) : s.Exact i := by
  have h := reachable_inv hr
  by_cases hu : s.central.Used i
  . have hlisted : s.shared.listed i := ⟨hu, hcached, nofun⟩
    exact exact_of_atRest h.nodup (h.atRest hlisted)
  -- An index that is not used has a blank span.
  have hunused : (s.central.spans i).unlinked = Span.new.unlinked := h.table.unused i hu
  have hblank := (unlinked_fields hunused).1
  have hheld : ∀ k, ¬ (i, k) ∈ s.held := (h.unused hu).2
  apply exact_of_atRest h.nodup
  apply Span.AtRest.congr hblank
  constructor
  case toCounted =>
    refine ⟨by decide, ?_, fun k hk => absurd hk (hheld k), fun k hk => absurd hk (hheld k)⟩
    symm
    exact Bitmap.popcount_eq_zero_iff.mpr fun _ => Bitmap.get_zero
  case exact =>
    intro _ k hk
    have : (Bitmap.zero allocBitsWords).get k = true := hk
    rw [Bitmap.get_zero] at this
    contradiction

def SlotHeap.run (ops : List SlotHeap.Op) : SlotHeap :=
  ops.foldl (fun s op => (s.exec op).getD s) { central := MCentral.init 8192 16, held := [] }

theorem SlotHeap.run_append (op : Op) (hr : (slotSystem clean 8192 16).Reachable (run ops))
    (hdrawn : op.Drawn (run ops)) (hclean : clean → op.overruns (run ops) = false)
    (hexec : ((run ops).exec op).isSome = true)
    : (slotSystem clean 8192 16).Reachable (run (ops ++ [op])) := by
  apply hr.step
  refine ⟨op, hdrawn, hclean, ?_⟩
  unfold run at *
  rw [foldl_append]
  exact (Option.getD_of_ne_none (Option.isSome_iff_ne_none.mp hexec) _).symm

theorem SlotHeap.run_cacheSpan (clean : Prop)
    : (slotSystem clean 8192 16).Reachable (run [.cacheSpan 44 8192]) := by
  have hinit : (slotSystem clean 8192 16).Reachable (run []) := System.Reachable.init rfl
  apply run_append _ hinit _ (fun _ => rfl) (by decide +kernel)
  exact Or.inr ⟨0, rfl, by decide, fun i hi => absurd rfl hi⟩

theorem uncached_exact_small :
    ∃ (s : SlotHeap), s.held = [(1, 0)] ∧ (s.central.spans 1).cached = false ∧ s.Exact 1 := by
  have h1 := run_cacheSpan True
  have h2 := run_append (.allocSlotIn 1) h1 trivial
    (fun _ => by decide +kernel) (by decide +kernel)
  have h3 := run_append (.uncacheSpan 1) h2 trivial (fun _ => rfl) (by decide +kernel)
  exact ⟨_, by decide +kernel, by decide +kernel, uncached_exact h3 (by decide +kernel)⟩

theorem overrun_leaks :
    ∃ (s : SlotHeap), (slotSystem False 8192 16).Reachable s ∧ (s.central.spans 1).cached = false ∧
      s.held = [(1, 0), (1, 1)] ∧ (s.central.spans 1).allocCount = 3 ∧
      (s.central.spans 1).nelems = 2 ∧ (s.central.spans 1).allocBits.get 2 = true ∧ ¬ s.Exact 1 := by
  have h1 := run_cacheSpan False
  have h2 := run_append (.allocSlotIn 1) h1 trivial False.elim (by decide +kernel)
  have h3 := run_append (.allocSlotIn 1) h2 trivial False.elim (by decide +kernel)
  have h4 := run_append (.free 1 0) h3 trivial False.elim (by decide +kernel)
  have h5 := run_append (.uncacheSpan 1) h4 trivial False.elim (by decide +kernel)
  have h6 := run_append (.cacheSpan 44 0) h5 (Or.inl rfl) False.elim
    (by decide +kernel)
  have h7 := run_append (.allocSlotIn 1) h6 trivial False.elim (by decide +kernel)
  have h8 := run_append (.allocSlotIn 1) h7 trivial False.elim (by decide +kernel)
  have h9 := run_append (.uncacheSpan 1) h8 trivial False.elim (by decide +kernel)
  refine ⟨_, h9, by decide +kernel, by decide +kernel, by decide +kernel, by decide +kernel,
    by decide +kernel, ?_⟩
  intro h
  have := h.behind 2 (by decide +kernel)
  revert this
  decide +kernel

end Accounting

section Sales

variable {s t : SharedHeap} {idx k arenaBase trackedPages : Nat}

theorem sold_once (hr : (sharedSystem False arenaBase trackedPages).Reachable s)
    (hstep : SharedHeap.Step False s (some (idx, k)) t) : (idx, k) ∉ s.held ∧ k < (t.central.spans idx).nelems :=
  (step_inv (reachable_inv hr) hstep).2 (idx, k) rfl

end Sales

namespace SharedHeap

def take (s : SharedHeap) (cls base : Nat) : Option SharedHeap :=
  match s.caching, MCentral.cacheSpan.take s.central cls base with
  | none, some (idx, m) =>
    if idx ≠ nilSpan then
      some { s with central := m, busy := s.setBusy idx (some (.window 0, none)), caching := some idx }
    else
      none
  | _, _ => none

theorem take_step (hdrawn : s.central.Drawn cls base) (h : s.take cls base = some t)
    : (sharedSystem False arenaBase trackedPages).step s t := by
  unfold take at h
  split at h
  . next hlock htake =>
    simp only [Option.ite_none_right_eq_some, Option.some.injEq] at h
    obtain ⟨hidx, rfl⟩ := h
    exact ⟨_, .take hlock hdrawn htake hidx⟩
  . contradiction

inductive Act where
  | retake (cls : Nat)
  | load (idx : Nat)
  | publish
  | start (idx : Nat)
  | uncache (idx : Nat)
  | free (idx slot : Nat)

def act (s : SharedHeap) : Act → Option SharedHeap
  | .retake cls => s.take cls allocFailed
  | .load idx =>
    match s.busy idx with
    | some (r, none) =>
      some { s with busy := s.setBusy idx (some (r, some ((s.central.spans idx).allocBits.word r.wordIndex))) }
    | _ => none
  | .publish =>
    match s.caching.map fun idx => (idx, s.busy idx) with
    | some (idx, some (_, some load)) =>
      some { s with
        central := MCentral.cacheSpan.publish s.central idx load, busy := s.setBusy idx none, caching := none }
    | _ => none
  | .start idx =>
    if (s.central.spans idx).cached = true ∧ s.busy idx = none then
      some (s.advance idx (Span.nextFreeOwner.start (s.central.spans idx)))
    else
      none
  | .uncache idx =>
    if s.caching = none ∧ (s.central.spans idx).cached = true ∧ s.busy idx = none then
      some { s with central := (s.central.uncacheSpan idx).1 }
    else
      none
  | .free idx slot =>
    if (idx, slot) ∈ s.held ∧ (s.central.spans idx).cached = true then
      some { s with
        central := (s.central.free ((s.central.spans idx).slotAddr slot)).2.1, held := s.held.erase (idx, slot) }
    else
      none

theorem act_step (s : SharedHeap) (a : Act) (t : SharedHeap) (h : s.act a = some t)
    : (sharedSystem False arenaBase trackedPages).step s t := by
  cases a with
  | retake => exact take_step (.inl rfl) h
  | load =>
    simp only [act] at h
    split at h
    . next hbusy =>
      cases h
      exact ⟨_, .load hbusy⟩
    . contradiction
  | publish =>
    simp only [act] at h
    split at h
    . next hboth =>
      obtain ⟨_, hlock, heq⟩ := Option.map_eq_some_iff.mp hboth
      obtain ⟨rfl, hbusy⟩ := Prod.mk.inj heq
      cases h
      exact ⟨_, .publish hlock hbusy⟩
    . contradiction
  | start | uncache | free =>
    simp only [act, Option.ite_none_right_eq_some, Option.some.injEq] at h
    obtain ⟨hguard, rfl⟩ := h
    first
      | exact ⟨_, .start hguard.1 hguard.2 rfl False.elim⟩
      | exact ⟨_, .uncache hguard.1 hguard.2.1 hguard.2.2⟩
      | exact ⟨_, .free hguard.1 (.inl hguard.2)⟩

def sells (s : SharedHeap) (idx : Nat) : Option (Nat × Nat) :=
  if (s.central.spans idx).cached = true ∧ s.busy idx = none then
    (Span.nextFreeOwner.start (s.central.spans idx)).sold idx
  else
    none

end SharedHeap

theorem sold_once_again : ∃ s t : SharedHeap, (sharedSystem False 8192 16).Reachable s ∧ s.held = [(1, 1)] ∧
    SharedHeap.Step False s (some (1, 0)) t ∧ (1, 0) ∉ s.held ∧ 0 < (t.central.spans 1).nelems := by
  have hinit : (sharedSystem False 8192 16).Reachable (run []).shared := .init rfl
  have hdrawn : (MCentral.init 8192 16).Drawn 44 8192 := .inr ⟨0, rfl, by decide, fun i hi => absurd rfl hi⟩
  have htake : (run []).shared.take 44 8192 = some (((run []).shared.take 44 8192).getD (run []).shared) :=
    (Option.getD_of_ne_none (Option.isSome_iff_ne_none.mp (by decide +kernel)) _).symm
  -- Both slots are sold, one is freed while the span is cached, and the span is given back and cached again.
  obtain ⟨s, hrun, hs⟩ := System.exists_run _ _ SharedHeap.act_step (((run []).shared.take 44 8192).getD (run []).shared)
    [.load 1, .publish, .start 1, .start 1, .free 1 0, .uncache 1, .retake 44, .load 1, .publish]
    (fun s => s.held = [(1, 1)] ∧ s.sells 1 = some (1, 0)) (by decide +kernel)
  have hr := (hinit.step (take_step hdrawn htake)).trans hrun
  simp only [decide_eq_true_eq, SharedHeap.sells, Option.ite_none_right_eq_some] at hs
  obtain ⟨hheld, hguard, hsold⟩ := hs
  have hstep : SharedHeap.Step False s _ _ := .start hguard.1 hguard.2 rfl False.elim
  rw [hsold] at hstep
  exact ⟨s, _, hr, hheld, hstep, sold_once hr hstep⟩

end Central
