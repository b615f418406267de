import Goish.Runtime.Sysmon.Impl.Sysmon
import Mathlib.Data.List.Pairwise
import Mathlib.Data.List.Perm.Basic

open List Function

namespace Sysmon

open State

variable {G : Type u} {T : Type v}

namespace Pc

def isParked : Pc G T → Bool
  | .parked => true
  | .parkedTok _ => true
  | _ => false

def token : Pc G T → Option T
  | .parkTok _ tok => some tok
  | .parkTokRead _ tok => some tok
  | .parkedTok tok => some tok
  | .woken tok => some tok
  | .nap tok => some tok
  | .returned tok _ => some tok
  | .rearm tok => some tok
  | .rearmState tok => some tok
  | _ => none

def target : Pc G T → Option G
  | .cancelReady _ true x => x
  | _ => none

end Pc

def Pc.outside : Pc G T → Bool
  | .idle => true
  | .cancelled _ _ => true
  | .returned _ _ => true
  | _ => false

def Call.pc : Call T → Pc G T
  | .timerPark ns => .park ns
  | .timerParkCancellable ns tok => .parkTok ns tok
  | .timerNap tok => .nap tok
  | .timerCancel tok => .cancel tok
  | .rearm tok => .rearm tok

namespace State

variable {owner : T → G} {s t : State G T}

attribute [local simp] Pc.token Call.pc

theorem call_spec [DecidableEq G] [DecidableEq T] (hcall : s.call owner g c = some t)
    : (s.pc g).outside = true ∧ t = s.goto g c.pc ∧
        ∀ tok, (c.pc : Pc G T).token = some tok → owner tok = g ∨ (s.pc g).token = some tok := by
  cases hg : s.pc g with
  | idle | cancelled | returned =>
    simp only [call, hg] at hcall
    refine ⟨rfl, ?_⟩
    cases c with
    | timerPark ns | timerCancel tok =>
      rw [Option.some.injEq] at hcall
      exact ⟨hcall.symm, by simp⟩
    | timerParkCancellable ns tok | timerNap tok =>
      rw [Option.ite_none_right_eq_some, Option.some.injEq] at hcall
      exact ⟨hcall.2.symm, by simp [hcall.1]⟩
    | rearm =>
      simp only [Option.ite_none_right_eq_some, Option.some.injEq, reduceCtorEq] at hcall
      all_goals exact ⟨hcall.2.symm, by simp [hcall.1]⟩
  | _ => simp [call, hg] at hcall

def Live (s : State G T) (e : TimerEntry G T) : Prop :=
  match e.cancel with
  | none => True
  | some tok => (s.token tok).state = .armed

def Waits (s : State G T) (e : TimerEntry G T) : Prop :=
  match e.cancel with
  | none => s.pc e.g = .parked
  | some tok => s.pc e.g = .parkedTok tok

def Pending (s : State G T) (g : G) : Prop :=
  (s.pc g).isParked ∧ ∀ e ∈ s.heap, s.Live e → e.g ≠ g

def Reads (s : State G T) (g : G) : Prop :=
  match s.pc g with
  | .parkRead deadline => deadline = s.start g + s.dur g
  | .parkTokRead deadline _ => deadline = s.start g + s.dur g
  | .rearmState tok => (s.token tok).g = none
  | _ => True

structure Free (s : State G T) (g : G) : Prop where
  live : ∀ e ∈ s.heap, s.Live e → e.g ≠ g
  ready : ∀ now, s.sys ≠ .ready now g
  target : ∀ x, (s.pc x).target ≠ some g

structure Inv (owner : T → G) (s : State G T) : Prop where
  live : ∀ e ∈ s.heap, s.Live e → s.Waits e ∧ e.deadline = s.start e.g + s.dur e.g
  single : s.heap.Pairwise fun e e' => s.Live e → s.Live e' → e.g ≠ e'.g
  ready : ∀ now g, s.sys = .ready now g → s.Pending g ∧ s.start g + s.dur g ≤ now
  target : ∀ x g, (s.pc x).target = some g → s.Pending g ∧ ∀ now, s.sys ≠ .ready now g
  alone : ∀ x y g, (s.pc x).target = some g → (s.pc y).target = some g → x = y
  token : ∀ tok g, (s.token tok).state = .armed → (s.token tok).g = some g →
    ∃ e ∈ s.heap, e.g = g ∧ e.cancel = some tok
  own : ∀ g tok, (s.pc g).token = some tok → owner tok = g
  reads : ∀ g, s.Reads g
  fault : s.fault = false

theorem Waits.parked (h : s.Waits e) : (s.pc e.g).isParked = true := by
  unfold Waits at h
  split at h
  all_goals
    rw [h]
    rfl

theorem Inv.ghost (h : s.Inv owner) {clock : Int64} {fires wins readied : T → Nat}
    : Inv owner { s with clock := clock, fires := fires, wins := wins, readied := readied } :=
  { h with }

attribute [local simp] Reads

theorem new_inv (clock : Int64) : Inv owner (new clock) := by
  constructor <;> simp [new, Pc.target]

section

variable (h : s.Inv owner)
include h

theorem Inv.eq_of_live (he : e ∈ s.heap) (he' : e' ∈ s.heap) (hlive : s.Live e)
    (hlive' : s.Live e') (hg : e.g = e'.g) : e = e' := by
  apply not_not.mp
  intro hne
  have hsymm : Std.Symm (fun e e' => s.Live e → s.Live e' → e.g ≠ e'.g) :=
    ⟨fun _ _ h h1 h2 heq => h h2 h1 heq.symm⟩
  exact h.single.forall he he' hne hlive hlive' hg

theorem Inv.retoken {heap : List (TimerEntry G T)} {token : T → TimerToken G}
    (hheap : heap.Sublist s.heap)
    (hlive : ∀ e ∈ heap, Live { s with heap := heap, token := token } e → s.Live e)
    (htoken : ∀ tok g, (token tok).state = .armed → (token tok).g = some g →
      ∃ e ∈ heap, e.g = g ∧ e.cancel = some tok)
    (hreads : ∀ x tok, s.pc x = .rearmState tok → (token tok).g = none)
    : Inv owner { s with heap := heap, token := token } := by
  have hpending : ∀ x, s.Pending x → Pending { s with heap := heap, token := token } x :=
    fun x hx => ⟨hx.1, fun e he hl => hx.2 e (hheap.subset he) (hlive e he hl)⟩
  refine { h with live := ?_, single := ?_, ready := ?_, target := ?_, token := htoken, reads := ?_ }
  . exact fun e he hl => h.live e (hheap.subset he) (hlive e he hl)
  . apply (h.single.sublist hheap).imp_of_mem
    exact fun he he' hne hl hl' => hne (hlive _ he hl) (hlive _ he' hl')
  . exact fun now x hx => (h.ready now x hx).imp_left (hpending x)
  . exact fun x y hy => (h.target x y hy).imp_left (hpending y)
  intro x
  have hx := h.reads x
  unfold Reads at *
  cases hpc : s.pc x with
  | rearmState tok => exact hreads x tok hpc
  | parkRead | parkTokRead =>
    simp only [hpc] at hx ⊢
    exact hx
  | _ => trivial

theorem Inv.rearmState_g (hx : s.pc x = .rearmState tok) : (s.token tok).g = none := by
  have hreads := h.reads x
  unfold Reads at hreads
  simp only [hx] at hreads
  exact hreads

theorem Inv.setToken [DecidableEq T] {k : TimerToken G} (hg : k.g = none)
    (hlive : ∀ e ∈ s.heap, e.cancel = some tok → k.state = .armed → (s.token tok).state = .armed)
    : Inv owner { s with token := update s.token tok k } := by
  apply h.retoken (.refl _)
  . intro e he hl
    unfold Live at *
    cases hc : e.cancel with
    | none => trivial
    | some tok' =>
      simp only [hc] at hl ⊢
      by_cases heq : tok' = tok
      . rw [heq] at hc hl ⊢
        rw [update_self] at hl
        exact hlive e he hc hl
      . rwa [update_of_ne heq] at hl
  . intro tok' x harmed hx
    by_cases heq : tok' = tok
    . simp [heq, hg] at hx
    . rw [update_of_ne heq] at harmed hx
      exact h.token tok' x harmed hx
  . intro x tok' hx
    by_cases heq : tok' = tok
    . simp [heq, hg]
    . rw [update_of_ne heq]
      exact h.rearmState_g hx

theorem Inv.shrink {heap : List (TimerEntry G T)} {token : T → TimerToken G}
    (hheap : heap.Sublist s.heap) (hg : ∀ tok, (token tok).g = (s.token tok).g)
    (hstate : ∀ tok, (token tok).state = .armed → (s.token tok).state = .armed)
    (htoken : ∀ tok, (token tok).state = .armed → ∀ e ∈ s.heap, e.cancel = some tok → e ∈ heap)
    : Inv owner { s with heap := heap, token := token } := by
  apply h.retoken hheap
  . intro e _ he
    unfold Live at *
    cases hc : e.cancel with
    | none => trivial
    | some tok =>
      simp only [hc] at he
      exact hstate tok he
  . intro tok x harmed hx
    rw [hg] at hx
    obtain ⟨e, he, heg, htok⟩ := h.token tok x (hstate tok harmed) hx
    exact ⟨e, htoken tok harmed e he htok, heg, htok⟩
  . intro _ _ hx
    rw [hg]
    exact h.rearmState_g hx

theorem Inv.disarm [DecidableEq T] (tok : T) {st : TimerState} (hst : st ≠ .armed) : Inv owner (s.setState tok st) := by
  apply h.shrink (.refl _)
  . intro k
    by_cases heq : k = tok
    all_goals simp [heq]
  . intro k
    by_cases heq : k = tok
    . simp [heq, hst]
    . simp [heq]
  . exact fun _ _ e he _ => he

end

attribute [local simp] setState

section Cas

variable [DecidableEq T] (s : State G T) (tok : T)

theorem fire_fst : (s.fire tok).1 = decide ((s.token tok).state = .armed) := by
  unfold fire
  split <;> simp_all

@[simp]
theorem fire_frame : (s.fire tok).2.pc = s.pc ∧ (s.fire tok).2.heap = s.heap ∧ (s.fire tok).2.sys = s.sys ∧
        (s.fire tok).2.start = s.start ∧ (s.fire tok).2.dur = s.dur := by
  unfold fire
  split <;> simp

theorem cancel_fst : (s.cancel tok).1 = decide ((s.token tok).state = .armed) := by
  unfold cancel
  split <;> simp_all

@[simp]
theorem cancel_frame : (s.cancel tok).2.pc = s.pc ∧ (s.cancel tok).2.heap = s.heap ∧ (s.cancel tok).2.sys = s.sys ∧
        ((s.cancel tok).2.token tok).g = (s.token tok).g := by
  unfold cancel
  split <;> simp

structure Settles (t : State G T) (st : TimerState) : Prop where
  token : ∀ k, t.token k = if k = tok ∧ (s.token tok).state = .armed then ⟨st, (s.token k).g⟩ else s.token k
  readied : t.readied = s.readied

theorem Settles.setState (harmed : (s.token tok).state = .armed) : s.Settles tok (s.setState tok st) st := by
  refine ⟨fun k => ?_, rfl⟩
  by_cases heq : k = tok
  all_goals simp [heq, harmed]

theorem Settles.unarmed (hnot : (s.token tok).state ≠ .armed) : s.Settles tok s st := by
  refine ⟨fun k => ?_, rfl⟩
  rw [if_neg (fun hboth => hnot hboth.2)]

theorem fire_settles : s.Settles tok (s.fire tok).2 .fired := by
  unfold fire
  split
  . next harmed => exact { Settles.setState s tok harmed with }
  . next hnot => exact .unarmed s tok hnot

theorem cancel_settles : s.Settles tok (s.cancel tok).2 .cancelled := by
  unfold cancel
  split
  . next harmed => exact { Settles.setState s tok harmed with }
  . next hnot => exact .unarmed s tok hnot

variable {s tok} (h : s.Settles tok t st)
include h

theorem Settles.of_ne (hne : k ≠ tok) : t.token k = s.token k := by
  rw [h.token, if_neg (fun hboth => hne hboth.1)]

theorem Settles.settled (hk : (s.token k).state ≠ .armed) : t.token k = s.token k := by
  rw [h.token, if_neg]
  rintro ⟨rfl, harmed⟩
  exact hk harmed

theorem Settles.armed (harmed : (s.token tok).state = .armed) : (t.token tok).state = st := by
  rw [h.token, if_pos ⟨rfl, harmed⟩]

theorem Settles.state_ne (hst : st ≠ .armed) : (t.token tok).state ≠ .armed := by
  by_cases harmed : (s.token tok).state = .armed
  . rwa [h.armed harmed]
  . rwa [h.settled harmed]

theorem Settles.live (hst : st ≠ .armed) (hlive : t.Live e) : s.Live e ∧ e.cancel ≠ some tok := by
  unfold Live at *
  cases hc : e.cancel with
  | none => simp
  | some k =>
    simp only [hc] at hlive ⊢
    have hne : k ≠ tok := by
      rintro rfl
      exact h.state_ne hst hlive
    rw [h.of_ne hne] at hlive
    simp [hlive, hne]

end Cas

theorem least_spec (h : s.least i = some e) : s.heap[i]? = some e ∧ ∀ e' ∈ s.heap, e.deadline ≤ e'.deadline := by
  unfold least at h
  split at h
  . contradiction
  next e' hget =>
  rw [Option.ite_none_right_eq_some, Option.some.injEq] at h
  rw [← h.2]
  exact ⟨hget, by simpa using h.1⟩

def fireEntry [DecidableEq T] (s : State G T) (e : TimerEntry G T) : State G T :=
  e.cancel.elim s fun tok => (s.fire tok).2

section

variable [DecidableEq T] (s : State G T) (now : Int64) (e : TimerEntry G T) (heap : List (TimerEntry G T))
include heap

theorem expire_cases : s.Live e ∧ s.expire now e heap =
          { (s.fireEntry e) with heap := heap, sys := .ready now e.g } ∨
        ∃ tok, e.cancel = some tok ∧ (s.token tok).state ≠ .armed ∧
          s.expire now e heap = { s with heap := heap } := by
  unfold expire fireEntry Live
  cases hc : e.cancel with
  | none => simp
  | some tok =>
    unfold fire
    by_cases harmed : (s.token tok).state = .armed
    . simp [harmed]
    . simp [harmed]

theorem expire_pc : (s.expire now e heap).pc = s.pc := by
  rcases s.expire_cases now e heap with hlive | hdead
  . rw [hlive.2]
    unfold fireEntry
    cases e.cancel <;> simp
  . obtain ⟨_, _, _, heq⟩ := hdead
    rw [heq]

end

theorem goready_pc [DecidableEq G] [DecidableEq T] (s : State G T) (hne : x ≠ g) : (s.goready g).pc x = s.pc x := by
  unfold goready
  split <;> simp [goto, hne]

theorem Inv.cancel [DecidableEq T] (h : s.Inv owner) (tok : T) : Inv owner (s.cancel tok).2 := by
  unfold State.cancel
  split
  . exact (h.disarm tok (by simp)).ghost
  . exact h

theorem Inv.fire [DecidableEq T] (h : s.Inv owner) (tok : T) : Inv owner (s.fire tok).2 := by
  unfold State.fire
  split
  . exact (h.disarm tok (by simp)).ghost
  . exact h

theorem Inv.setReady (h : s.Inv owner) (hpend : s.Pending g) (hdue : s.start g + s.dur g ≤ now)
    (htarget : ∀ x, (s.pc x).target ≠ some g) : Inv owner { s with sys := .ready now g } := by
  refine { h with ready := ?_, target := ?_ }
  . intro _ _ hx
    simp only [SysPc.ready.injEq] at hx
    rw [← hx.1, ← hx.2]
    exact ⟨hpend, hdue⟩
  intro x y hy
  refine ⟨(h.target x y hy).1, ?_⟩
  intro _ hsys
  simp only [SysPc.ready.injEq] at hsys
  rw [← hsys.2] at hy
  exact htarget x hy

theorem Inv.setSys (h : s.Inv owner) {sys : SysPc G} (hsys : ∀ now g, sys ≠ .ready now g)
    : Inv owner { s with sys := sys } := by
  refine { h with ready := ?_, target := ?_ }
  . exact fun now g hg => (hsys now g hg).elim
  . exact fun x g hg => ⟨(h.target x g hg).1, fun now => hsys now g⟩

variable [DecidableEq G]

attribute [local simp] Pc.isParked State.goto

section Move

variable (h : s.Inv owner) {g : G} {p : Pc G T} {start dur : G → Int64}
include h

omit [DecidableEq G] in
theorem Inv.free (hg : (s.pc g).isParked = false) : s.Free g := by
  constructor
  case live =>
    intro e he hlive heq
    have hparked := (h.live e he hlive).1.parked
    rw [heq, hg] at hparked
    cases hparked
  case ready =>
    intro now hsys
    have hparked := (h.ready now g hsys).1.1
    rw [hg] at hparked
    cases hparked
  case target =>
    intro x hx
    have hparked := (h.target x g hx).1.1
    rw [hg] at hparked
    cases hparked

theorem Inv.move (hfree : s.Free g) (htarget : ∀ x, p.target = some x → x ≠ g ∧ (s.pc x).isParked = true ∧ s.Free x)
    (hown : ∀ tok, p.token = some tok → owner tok = g) (htimes : ∀ x, x ≠ g → start x = s.start x ∧ dur x = s.dur x)
    (hreads : Reads { s.goto g p with start := start, dur := dur } g)
    : Inv owner { s.goto g p with start := start, dur := dur } := by
  have hpending : ∀ x, x ≠ g → s.Pending x → Pending { s.goto g p with start := start, dur := dur } x := by
    intro x hne hx
    refine ⟨?_, hx.2⟩
    dsimp only [goto]
    rw [update_of_ne hne]
    exact hx.1
  have htargets : ∀ x y, (update s.pc g p x).target = some y →
      x = g ∧ p.target = some y ∨ x ≠ g ∧ (s.pc x).target = some y := by
    intro x y hy
    by_cases heq : x = g
    . rw [heq, update_self] at hy
      exact .inl ⟨heq, hy⟩
    . rw [update_of_ne heq] at hy
      exact .inr ⟨heq, hy⟩
  refine { h with live := ?live, ready := ?ready, target := ?target, alone := ?alone, own := ?own, reads := ?reads }
  case live =>
    intro e he hlive
    obtain ⟨hwaits, hdeadline⟩ := h.live e he hlive
    have hne := hfree.live e he hlive
    constructor
    . unfold Waits at *
      dsimp only [goto]
      rwa [update_of_ne hne]
    . dsimp only
      rwa [(htimes _ hne).1, (htimes _ hne).2]
  case ready =>
    intro now x hx
    have hne : x ≠ g := by
      rintro rfl
      exact hfree.ready now hx
    obtain ⟨hpend, hle⟩ := h.ready now x hx
    refine ⟨hpending x hne hpend, ?_⟩
    dsimp only
    rwa [(htimes _ hne).1, (htimes _ hne).2]
  case target =>
    intro x y hy
    rcases htargets x y hy with hnew | hold
    . obtain ⟨hne, hparked, hy⟩ := htarget y hnew.2
      exact ⟨hpending y hne ⟨hparked, hy.live⟩, hy.ready⟩
    have hne : y ≠ g := by
      rintro rfl
      exact hfree.target x hold.2
    obtain ⟨hpend, hsys⟩ := h.target x y hold.2
    exact ⟨hpending y hne hpend, hsys⟩
  case alone =>
    intro x y z hx hy
    rcases htargets x z hx with hx' | hx'
    . rcases htargets y z hy with hy' | hy'
      . rw [hx'.1, hy'.1]
      . exact ((htarget z hx'.2).2.2.target y hy'.2).elim
    . rcases htargets y z hy with hy' | hy'
      . exact ((htarget z hy'.2).2.2.target x hx'.2).elim
      . exact h.alone x y z hx'.2 hy'.2
  case own =>
    intro x tok hx
    dsimp only [goto] at hx
    by_cases heq : x = g
    . rw [heq, update_self] at hx
      rw [heq]
      exact hown tok hx
    . rw [update_of_ne heq] at hx
      exact h.own x tok hx
  case reads =>
    intro x
    by_cases heq : x = g
    . rwa [heq]
    have hx := h.reads x
    unfold Reads at *
    dsimp only [goto]
    rwa [update_of_ne heq, (htimes x heq).1, (htimes x heq).2]

theorem Inv.goto (hfree : s.Free g) (htarget : p.target = none) (hown : ∀ tok, p.token = some tok → owner tok = g)
    (hreads : (s.goto g p).Reads g) : Inv owner (s.goto g p) :=
  h.move hfree (by simp [htarget]) hown (fun _ _ => ⟨rfl, rfl⟩) hreads

omit [DecidableEq G] in
theorem Inv.enter {token : T → TimerToken G} (hfree : s.Free e.g) (hwaits : s.Waits e)
    (hdeadline : e.deadline = s.start e.g + s.dur e.g) (hstate : ∀ tok, (token tok).state = (s.token tok).state)
    (htoken : ∀ tok, token tok = s.token tok ∨ e.cancel = some tok ∧ (token tok).g = some e.g)
    : Inv owner { s with heap := e :: s.heap, token := token } := by
  have hlive : ∀ e', Live { s with heap := e :: s.heap, token := token } e' ↔ s.Live e' := by
    intro e'
    unfold Live
    cases e'.cancel with
    | none => rfl
    | some =>
      dsimp only
      rw [hstate]
  have hpending : ∀ x, e.g ≠ x → s.Pending x →
      Pending { s with heap := e :: s.heap, token := token } x := by
    intro x hne hx
    refine ⟨hx.1, ?_⟩
    intro e' he' hl
    rw [hlive] at hl
    cases he' with
    | head => exact hne
    | tail _ hold => exact hx.2 e' hold hl
  refine { h with live := ?live, single := ?single, ready := ?ready, target := ?target, token := ?token, reads := ?reads }
  case live =>
    intro e' he' hl
    rw [hlive] at hl
    cases he' with
    | head => exact ⟨hwaits, hdeadline⟩
    | tail _ hold => exact h.live e' hold hl
  case single =>
    simp only [hlive]
    refine List.Pairwise.cons ?_ h.single
    exact fun e' he' _ hl => (hfree.live e' he' hl).symm
  case ready =>
    intro now x hx
    obtain ⟨hpend, hle⟩ := h.ready now x hx
    refine ⟨hpending x ?_ hpend, hle⟩
    rintro rfl
    exact hfree.ready now hx
  case target =>
    intro x y hy
    obtain ⟨hpend, hsys⟩ := h.target x y hy
    refine ⟨hpending y ?_ hpend, hsys⟩
    rintro rfl
    exact hfree.target x hy
  case token =>
    intro tok x harmed hx
    rcases htoken tok with hsame | hnew
    . dsimp only at harmed hx
      rw [hsame] at harmed hx
      obtain ⟨e', he', heg, htok⟩ := h.token tok x harmed hx
      exact ⟨e', mem_cons_of_mem _ he', heg, htok⟩
    . dsimp only at hx
      rw [hnew.2, Option.some.injEq] at hx
      exact ⟨_, mem_cons_self, hx, hnew.1⟩
  case reads =>
    intro x
    have hx := h.reads x
    unfold Reads at *
    cases hpc : s.pc x with
    | rearmState tok =>
      simp only [hpc] at hx
      cases htoken tok with
      | inl hsame =>
        dsimp only
        rwa [hsame]
      | inr hnew =>
        -- The owner of the token is parked, so it does not arm the token again.
        unfold Waits at hwaits
        simp only [hnew.1] at hwaits
        have howner := h.own x tok (by simp [hpc])
        have howner' := h.own e.g tok (by simp [hwaits])
        rw [← howner, howner', hwaits] at hpc
        cases hpc
    | _ =>
      simp only [hpc] at hx
      exact hx

theorem Inv.push {token : T → TimerToken G} {cancel : Option T} (hg : (s.pc g).isParked = false)
    (hp : match cancel with | none => p = .parked | some tok => p = .parkedTok tok)
    (hown : ∀ tok, cancel = some tok → owner tok = g) (hstate : ∀ tok, (token tok).state = (s.token tok).state)
    (htoken : ∀ tok, token tok = s.token tok ∨ cancel = some tok ∧ (token tok).g = some g)
    : Inv owner { (s.push g (s.start g + s.dur g) cancel).goto g p with token := token } := by
  have hfree := h.free hg
  have hparked : p.target = none ∧ p.token = cancel ∧ (s.goto g p).Reads g := by
    cases cancel with
    | none | some => simp [hp, Pc.target]
  have hmove : Inv owner (s.goto g p) := by
    apply h.goto hfree hparked.1 ?_ hparked.2.2
    rwa [hparked.2.1]
  refine hmove.enter (e := ⟨s.start g + s.dur g, g, cancel⟩) ⟨hfree.live, hfree.ready, ?_⟩ ?_ rfl hstate htoken
  . intro x
    dsimp only [State.goto]
    by_cases heq : x = g
    . simp [heq, hparked.1]
    . rw [update_of_ne heq]
      exact hfree.target x
  . unfold Waits
    simp only [State.goto, update_self]
    exact hp

theorem Inv.goready [DecidableEq T] (hparked : (s.pc g).isParked = true) (hfree : s.Free g)
    : Inv owner (s.goready g) := by
  unfold State.goready
  split
  . exact h.goto hfree rfl (by simp) (by simp)
  . next tok hg =>
    have hown := h.own g tok (by simp [hg])
    exact (h.goto hfree rfl (by simp [hown]) (by simp)).ghost
  . next hnot hnot' =>
    cases hg : s.pc g <;> simp_all

end Move

section Step

variable [DecidableEq T] (h : s.Inv owner)
include h

theorem Inv.cancel_step (hg : s.pc g = .cancel tok) (hstep : s.step g = some t) : t.Inv owner := by
  simp only [step, hg, Option.some.injEq, cancel_frame] at hstep
  rw [← hstep, cancel_fst]
  have hparked : ((s.cancel tok).2.pc g).isParked = false := by simp [hg]
  have hcancel := h.cancel tok
  by_cases haim : (s.token tok).state = .armed ∧ (s.token tok).g ≠ none
  . obtain ⟨x, hx⟩ := Option.ne_none_iff_exists'.mp haim.2
    obtain ⟨e, he, heg, htok⟩ := h.token tok x haim.1 hx
    have hlive : s.Live e := by
      unfold Live
      rw [htok]
      exact haim.1
    have hwaits := (h.live e he hlive).1.parked
    rw [heg] at hwaits
    have hfree : (s.cancel tok).2.Free x := by
      constructor
      case live =>
        intro _ he' hlive' heq
        rw [(cancel_frame s tok).2.1] at he'
        obtain ⟨hold, hne⟩ := (cancel_settles s tok).live (by decide) hlive'
        rw [h.eq_of_live he' he hold hlive (heq.trans heg.symm)] at hne
        exact hne htok
      case ready =>
        intro now hsys
        rw [(cancel_frame s tok).2.2.1] at hsys
        exact (h.ready now x hsys).1.2 e he hlive heg
      case target =>
        intro y hy
        rw [(cancel_frame s tok).1] at hy
        exact (h.target y x hy).1.2 e he hlive heg
    rw [decide_eq_true haim.1, hx]
    refine hcancel.move (hcancel.free hparked) ?_ (by simp) (fun _ _ => ⟨rfl, rfl⟩)
      (by simp)
    intro y hy
    rw [← Option.some.inj hy, (cancel_frame s tok).1]
    refine ⟨?_, hwaits, hfree⟩
    rintro rfl
    rw [hg] at hwaits
    cases hwaits
  . have htarget : Pc.target (T := T) (.cancelReady tok (decide ((s.token tok).state = .armed))
        (s.token tok).g) = none := by
      unfold Pc.target
      by_cases harmed : (s.token tok).state = .armed
      . simp_all
      . simp [harmed]
    exact hcancel.goto (hcancel.free hparked) htarget (by simp) (by simp)

theorem Inv.cancelReady_step (hg : s.pc g = .cancelReady tok won x) (hstep : s.step g = some t) : t.Inv owner := by
  have hmoved : Inv owner (s.goto g (.cancelled tok won)) :=
    h.goto (h.free (by simp [hg])) rfl (by simp) (by simp)
  simp only [step, hg] at hstep
  split at hstep
  . next x =>
    have htarget : (s.pc g).target = some x := by simp [hg, Pc.target]
    obtain ⟨hpend, hsys⟩ := h.target g x htarget
    cases hstep
    have hne : x ≠ g := by
      rintro rfl
      rw [Pending, hg] at hpend
      exact Bool.false_ne_true hpend.1
    apply hmoved.goready
    . simp only [State.goto, update_of_ne hne]
      exact hpend.1
    refine ⟨hpend.2, hsys, ?_⟩
    intro y hy
    simp only [State.goto] at hy
    by_cases heq : y = g
    . rw [heq, update_self] at hy
      cases hy
    . rw [update_of_ne heq] at hy
      exact heq (h.alone y g x hy htarget)
  . cases hstep
    exact hmoved

theorem Inv.rearm_step (hg : s.pc g = .rearm tok) (hstep : s.step g = some t) : t.Inv owner := by
  simp only [step, hg, Option.some.injEq] at hstep
  have hown := h.own g tok (by simp [hg])
  have hset : Inv owner (s.setG tok none) := h.setToken rfl fun _ _ _ harmed => harmed
  rw [← hstep]
  apply hset.goto (hset.free (by simp [setG, hg])) rfl
  . simp [hown]
  . simp [setG]

omit [DecidableEq G] [DecidableEq T] h in
-- The condition under which a token may be armed again.
def NoStale (s : State G T) (tok : T) : Prop :=
  ∀ e ∈ s.heap, e.cancel ≠ some tok

theorem Inv.rearmState_step (hg : s.pc g = .rearmState tok) (hstep : s.step g = some t)
    (hstale : s.NoStale tok) : t.Inv owner := by
  simp only [step, hg, Option.some.injEq] at hstep
  have hset : Inv owner (s.setState tok .armed) :=
    h.setToken (h.rearmState_g hg) fun e he hc => (hstale e he hc).elim
  rw [← hstep]
  exact hset.goto (hset.free (by simp [hg])) rfl (by simp)
    (by simp)

omit [DecidableEq G] [DecidableEq T] h in
theorem heap_perm (he : s.heap[i]? = some e) : (e :: s.heap.eraseIdx i).Perm s.heap := by
  obtain ⟨hi, hget⟩ := List.getElem?_eq_some_iff.mp he
  rw [← hget]
  exact getElem_cons_eraseIdx_perm hi

omit [DecidableEq G] [DecidableEq T] in
theorem Inv.others (he : s.heap[i]? = some e) (hlive : s.Live e)
    : ∀ e' ∈ s.heap.eraseIdx i, s.Live e' → e'.g ≠ e.g := by
  have hpair := (heap_perm he).symm.pairwise h.single (fun hne hl hl' heq => hne hl' hl heq.symm)
  rw [pairwise_cons] at hpair
  exact fun e' he' hlive' heq => hpair.1 e' he' hlive hlive' heq.symm

omit [DecidableEq G] [DecidableEq T] in
theorem Inv.pop (he : s.heap[i]? = some e) (hdead : ∀ tok, e.cancel = some tok → (s.token tok).state ≠ .armed)
    : Inv owner { s with heap := s.heap.eraseIdx i } := by
  apply h.shrink (eraseIdx_sublist _ _) (fun _ => rfl) (fun _ harmed => harmed)
  intro tok harmed _ he' htok
  rw [← (heap_perm he).mem_iff, mem_cons] at he'
  rcases he' with heq | hrest
  . rw [heq] at htok
    exact (hdead tok htok harmed).elim
  . exact hrest

omit [DecidableEq G] [DecidableEq T] h in
theorem free_of_live (h : s.Inv owner) (he : e ∈ s.heap) (hlive : s.Live e)
    : (∀ now, s.sys ≠ .ready now e.g) ∧ ∀ x, (s.pc x).target ≠ some e.g :=
  ⟨fun now hsys => (h.ready now e.g hsys).1.2 e he hlive rfl,
    fun x hx => (h.target x e.g hx).1.2 e he hlive rfl⟩

omit [DecidableEq G] in
theorem Inv.fireEntry (e : TimerEntry G T)
    : Inv owner (s.fireEntry e) ∧ (s.fireEntry e).heap = s.heap ∧ (s.fireEntry e).pc = s.pc ∧
        (s.fireEntry e).start = s.start ∧ (s.fireEntry e).dur = s.dur ∧
        (∀ tok, e.cancel = some tok → ((s.fireEntry e).token tok).state ≠ .armed) ∧
        ∀ e', (s.fireEntry e).Live e' → s.Live e' := by
  unfold State.fireEntry
  cases e.cancel with
  | none => exact ⟨h, rfl, rfl, rfl, rfl, by simp, fun _ hl => hl⟩
  | some tok =>
    refine ⟨h.fire tok, by simp, by simp, by simp, by simp, ?_, ?_⟩
    . intro k hk
      cases hk
      exact (fire_settles s tok).state_ne (by decide)
    . exact fun _ hl => ((fire_settles s tok).live (by decide) hl).1

omit [DecidableEq G] in
theorem Inv.expire (he : s.heap[i]? = some e) (hdue : e.deadline ≤ now)
    : Inv owner (s.expire now e (s.heap.eraseIdx i)) := by
  have hmem := mem_of_getElem? he
  rcases s.expire_cases now e (s.heap.eraseIdx i) with hboth | hdead
  . obtain ⟨hlive, heq⟩ := hboth
    obtain ⟨hwaits, hdeadline⟩ := h.live e hmem hlive
    obtain ⟨hfire, hheap, hpc, hstart, hdur, hdead, hold⟩ := h.fireEntry e
    have hpop := hfire.pop (i := i) (by rw [hheap]; exact he) hdead
    rw [hheap] at hpop
    rw [heq]
    apply hpop.setReady
    . constructor
      . rw [hpc]
        exact hwaits.parked
      . exact fun e' he' hlive' => h.others he hlive e' he' (hold e' hlive')
    . rwa [hstart, hdur, ← hdeadline]
    . rw [hpc]
      exact (free_of_live h hmem hlive).2
  . obtain ⟨_, hc, hnot, heq⟩ := hdead
    rw [heq]
    apply h.pop he
    intro k hk
    rw [hc, Option.some.injEq] at hk
    rwa [← hk]

theorem Inv.sysmon_step (hstep : s.sysmon i = some t) : t.Inv owner := by
  unfold sysmon at hstep
  split at hstep
  . cases hstep
    exact h.setSys (by simp)
  . next now hsys =>
    split at hstep
    . cases hstep
      exact h.setSys (by simp)
    next hdue =>
    split at hstep
    . contradiction
    next e he =>
    obtain ⟨hget, hleast⟩ := least_spec he
    cases hstep
    apply h.expire hget
    -- Some entry is due, and this one has the least deadline.
    simp only [all_eq_true, decide_eq_true_eq, not_forall, Int64.not_lt] at hdue
    obtain ⟨e', hmem, hle⟩ := hdue
    exact Int64.le_trans (hleast e' hmem) hle
  . next now g hsys =>
    obtain ⟨hpend, _⟩ := h.ready now g hsys
    have hpass : Inv owner { s with sys := .pass now } := h.setSys (by simp)
    have hcomm : State.goready { s with sys := .pass now } g = { s.goready g with sys := .pass now } := by
      unfold State.goready
      dsimp only
      split <;> rfl
    rw [Option.some.injEq, ← hcomm] at hstep
    rw [← hstep]
    apply hpass.goready hpend.1
    refine ⟨hpend.2, by simp, ?_⟩
    exact fun x hx => (h.target x g hx).2 now hsys

theorem Inv.fire_step (hg : (s.pc g).isParked = false) (hown : owner tok = g)
    : Inv owner ((s.fire tok).2.goto g (.returned tok fired)) := by
  have hfire := h.fire tok
  exact hfire.goto (hfire.free (by simpa using hg)) rfl (by simp [hown])
    (by simp)

theorem Inv.step (hstep : s.step g = some t)
    (hstale : ∀ tok, s.pc g = .rearmState tok → s.NoStale tok) : t.Inv owner := by
  cases hg : s.pc g
  case cancel => exact h.cancel_step hg hstep
  case cancelReady => exact h.cancelReady_step hg hstep
  case rearm => exact h.rearm_step hg hstep
  case rearmState tok => exact h.rearmState_step hg hstep (hstale tok hg)
  all_goals simp only [State.step, hg, reduceCtorEq] at hstep
  case park =>
    have hfree := h.free (g := g) (by simp [hg])
    split at hstep
    . cases hstep
      exact h.goto hfree rfl (by simp) (by simp)
    . cases hstep
      refine h.move hfree nofun (by simp) ?_ (by simp [readClock])
      exact fun x hne => ⟨update_of_ne hne _ _, update_of_ne hne _ _⟩
  case parkRead =>
    have hreads := h.reads g
    unfold Reads at hreads
    simp only [hg] at hreads
    simp only [Option.some.injEq] at hstep
    rw [← hstep, hreads]
    exact h.push (by simp [hg]) rfl (by simp) (fun _ => rfl) (fun _ => .inl rfl)
  case parkTok _ tok =>
    have hown := h.own g tok (by simp [hg])
    split at hstep
    . cases hstep
      exact h.fire_step (by simp [hg]) hown
    . cases hstep
      refine h.move (h.free (by simp [hg])) nofun (by simp [hown]) ?_
        (by simp [readClock])
      exact fun x hne => ⟨update_of_ne hne _ _, update_of_ne hne _ _⟩
  case parkTokRead _ tok =>
    have hown := h.own g tok (by simp [hg])
    have hreads := h.reads g
    unfold Reads at hreads
    simp only [hg] at hreads
    split at hstep
    . cases hstep
      exact h.goto (h.free (by simp [hg])) rfl (by simp [hown])
        (by simp)
    rw [Option.some.injEq] at hstep
    rw [← hstep, hreads]
    refine h.push (by simp [hg]) rfl (by simp [hown]) ?_ ?_
    all_goals
      intro k
      by_cases heq : k = tok
      all_goals simp [heq, setG, State.push]
  case woken tok =>
    have hown := h.own g tok (by simp [hg])
    cases hstep
    exact h.goto (h.free (by simp [hg])) rfl (by simp [hown])
      (by simp)
  case nap tok =>
    have hown := h.own g tok (by simp [hg])
    cases hstep
    exact h.fire_step (by simp [hg]) hown

theorem Inv.call (hcall : s.call owner g c = some t) : t.Inv owner := by
  obtain ⟨_, ht, htoken⟩ := call_spec hcall
  have hparked : (s.pc g).isParked = false := by
    cases hpc : s.pc g <;> simp_all [Pc.outside]
  rw [ht]
  refine h.goto (h.free hparked) ?_ ?_ ?_
  . cases c <;> rfl
  . intro tok htok
    rcases htoken tok htok with hown | hret
    . exact hown
    . exact h.own g tok hret
  . cases c <;> simp

end Step

end State

end Sysmon
