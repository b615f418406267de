import Goish.Data.System
import Goish.Time.Impl.Ticker

/-! At most one loop is live, and nothing is sent between a `Stop` and the next `Reset`, provided that no loop is about
to send when a `Stop` returns and that every loop has returned when a `Reset` clears the flag. -/

open Function Option

namespace Time

namespace Ticker

def LoopPc.live : LoopPc → Bool
  | .unborn => false
  | .returned => false
  | _ => true

theorem LoopPc.ne_unborn {pc : LoopPc} (h : pc.live) : pc ≠ .unborn := by
  rintro rfl
  contradiction

def OwnerPc.resets : OwnerPc → Bool
  | .reset _ => true
  | .resetLoad => true
  | .resetting => true
  | .restart => true
  | .spawn => true
  | .exited => true
  | .idle | .stop | .stopping => false

def State.Unsending (s : State) : Prop :=
  ∀ n < s.started, s.loops n ≠ .send

def State.NoLoop (s : State) : Prop :=
  ∀ n < s.started, (s.loops n).live = false

end Ticker

-- `stops` is what is asked when a `Stop` returns and `restarts` when a `Reset` clears the flag.
def tickerSystem (stops restarts : Ticker.State → Prop) : System Ticker.State where
  init s := ∃ clock d, 0 ≤ clock ∧ 0 < d ∧ s = .newTicker clock d
  step s t :=
    (∃ n, s.loop n = some t) ∨ (∃ c, s.call c = some t) ∨
      (s.step = some t ∧ (s.owner = .stopping → stops s) ∧ (s.owner = .restart → restarts s)) ∨
      ∃ sys, t = { s with sys := sys } ∧ sys.fault = false ∧
        ((∃ g, s.sys.step g = some sys) ∨ (∃ i, s.sys.sysmon i = some sys) ∨
          ∃ clock, s.sys.clock ≤ clock ∧ sys = { s.sys with clock := clock })

namespace Ticker

attribute [local simp] LoopPc.live

namespace State

variable {s t : State}

structure Inv (s : State) : Prop where
  unborn : ∀ n, s.started ≤ n → s.loops n = .unborn
  one : ∀ m n, (s.loops m).live → (s.loops n).live → m = n
  stopping : s.owner = .stopping → s.stopped = true
  restart : s.owner = .restart → s.stopped = true
  spawn : s.owner = .spawn → s.NoLoop
  quiet : s.quiet = true → s.Unsending ∧ s.stopped = true ∧ s.owner.resets = false

theorem timer_spec (h : s.timer g c = some t) : ∃ sys, t = { s with sys := sys } := by
  simp only [timer, map_eq_some_iff] at h
  obtain ⟨sys, _, ht⟩ := h
  exact ⟨sys, ht.symm⟩

structure Moves (s t : State) (n : Nat) (pc : LoopPc) : Prop where
  loops : t.loops = update s.loops n pc
  stopped : t.stopped = s.stopped
  owner : t.owner = s.owner
  started : t.started = s.started
  quiet : t.quiet = s.quiet
  live : (s.loops n).live
  born : pc ≠ .unborn
  send : pc = .send → s.stopped = false
  sent : t.sent = s.sent ∨ s.loops n = .send ∧ t.sent = s.sent ++ [n]

theorem moves_goto (hlive : (s.loops n).live) (hborn : pc ≠ .unborn)
    (hsend : pc = .send → s.stopped = false) : Moves s (s.goto n pc) n pc :=
  ⟨rfl, rfl, rfl, rfl, rfl, hlive, hborn, hsend, .inl rfl⟩

theorem loop_moves (h : s.loop n = some t) : ∃ pc, Moves s t n pc := by
  unfold loop at h
  split at h
  . contradiction
  . next hn =>
    split at h
    all_goals
      cases h
      exact ⟨_, moves_goto (by simp [hn]) (by simp) (by simp)⟩
  . next hn =>
    obtain ⟨_, ht⟩ := timer_spec h
    rw [ht]
    exact ⟨.parking, rfl, rfl, rfl, rfl, rfl, by simp [hn], by simp, by simp, .inl rfl⟩
  . next hn =>
    split at h <;> cases h
    all_goals exact ⟨_, moves_goto (by simp [hn]) (by simp) (by simp)⟩
  . next hn =>
    split at h
    . cases h
      exact ⟨_, moves_goto (by simp [hn]) (by simp) (by simp)⟩
    . obtain ⟨_, ht⟩ := timer_spec h
      rw [ht]
      exact ⟨.rearming, rfl, rfl, rfl, rfl, rfl, by simp [hn], by simp, by simp, .inl rfl⟩
  . next hn =>
    split at h
    all_goals
      cases h
      exact ⟨_, moves_goto (by simp [hn]) (by simp) (by simp_all)⟩
  . next hn =>
    obtain ⟨_, ht⟩ := timer_spec h
    rw [ht]
    exact ⟨.rearming, rfl, rfl, rfl, rfl, rfl, by simp [hn], by simp, by simp, .inr ⟨hn, rfl⟩⟩
  . next hn =>
    split at h <;> cases h
    exact ⟨_, moves_goto (by simp [hn]) (by simp) (by simp)⟩
  . contradiction

theorem Inv.lt_started (h : s.Inv) (hn : s.loops n ≠ .unborn) : n < s.started := by
  apply Nat.lt_of_not_le
  intro hle
  exact hn (h.unborn n hle)

theorem Moves.live_of_live (h : Moves s t n pc) (hm : (t.loops m).live) : (s.loops m).live := by
  by_cases heq : m = n
  . rw [heq]
    exact h.live
  . rwa [h.loops, update_of_ne heq] at hm

section

variable (h : s.Inv)
include h

theorem Inv.moves (hmove : Moves s t n pc) : t.Inv where
  unborn m hm := by
    rw [hmove.started] at hm
    have hunborn := h.unborn m hm
    have hne : m ≠ n := by
      intro heq
      exact LoopPc.ne_unborn hmove.live (heq ▸ hunborn)
    rwa [hmove.loops, update_of_ne hne]
  one m m' hm hm' := h.one m m' (hmove.live_of_live hm) (hmove.live_of_live hm')
  stopping hown := by
    rw [hmove.stopped]
    exact h.stopping (hmove.owner ▸ hown)
  restart hown := by
    rw [hmove.stopped]
    exact h.restart (hmove.owner ▸ hown)
  spawn hown := by
    have hno := h.spawn (hmove.owner ▸ hown) n (h.lt_started (LoopPc.ne_unborn hmove.live))
    rw [hmove.live] at hno
    contradiction
  quiet hquiet := by
    obtain ⟨hsend, hstopped, hown⟩ := h.quiet (hmove.quiet ▸ hquiet)
    rw [hmove.stopped, hmove.owner]
    refine ⟨?_, hstopped, hown⟩
    intro m hm
    rw [hmove.started] at hm
    by_cases heq : m = n
    . rw [hmove.loops, heq, update_self]
      intro hpc
      rw [hmove.send hpc] at hstopped
      contradiction
    . rw [hmove.loops, update_of_ne heq]
      exact hsend m hm

theorem Inv.setSys (sys : Sysmon.State (Option Nat) Nat) : { s with sys := sys }.Inv :=
  { h with }

theorem Inv.setOwner (hstopping : o ≠ .stopping) (hrestart : o ≠ .restart) (hspawn : o ≠ .spawn)
    (hquiet : s.quiet = true → o.resets = false) : { s with owner := o }.Inv := by
  refine ⟨h.unborn, h.one, fun heq => absurd heq hstopping, fun heq => absurd heq hrestart,
    fun heq => absurd heq hspawn, ?_⟩
  intro hq
  obtain ⟨hsend, hstopped, _⟩ := h.quiet hq
  exact ⟨hsend, hstopped, hquiet hq⟩

theorem Inv.not_quiet (hown : s.owner.resets = true) : s.quiet = false := by
  cases hquiet : s.quiet with
  | false => rfl
  | true =>
    rw [(h.quiet hquiet).2.2] at hown
    contradiction

theorem Inv.call (hcall : s.call c = some t) : t.Inv := by
  unfold State.call at hcall
  split at hcall
  . split at hcall
    . cases hcall
      exact h.setOwner (by simp) (by simp) (by simp) (fun _ => rfl)
    . cases hcall
      exact ⟨h.unborn, h.one, by simp, by simp, by simp, by simp⟩
  . contradiction

theorem Inv.spawnTickLoop (hno : s.NoLoop) (hquiet : s.quiet = false)
    : { s.spawnTickLoop with owner := .idle }.Inv := by
  have honly : ∀ m, (s.spawnTickLoop.loops m).live → m = s.started := by
    intro m hm
    by_cases heq : m = s.started
    . exact heq
    . simp only [State.spawnTickLoop, update_of_ne heq] at hm
      rw [hno m (h.lt_started (LoopPc.ne_unborn hm))] at hm
      contradiction
  refine ⟨?_, ?_, by simp, by simp, by simp, ?_⟩
  . intro m hm
    simp only [State.spawnTickLoop] at hm ⊢
    rw [update_of_ne (by omega)]
    exact h.unborn m (by omega)
  . intro m n hm hn
    rw [honly m hm, honly n hn]
  . intro htrue
    simp [State.spawnTickLoop, hquiet] at htrue

attribute [local simp] OwnerPc.resets

theorem Inv.step (hstep : s.step = some t) (hstops : s.owner = .stopping → s.Unsending)
    (hrestarts : s.owner = .restart → s.NoLoop) : t.Inv := by
  unfold State.step at hstep
  split at hstep
  . contradiction
  . obtain ⟨_, ht⟩ := timer_spec hstep
    rw [ht]
    refine ⟨h.unborn, h.one, fun _ => rfl, by simp, by simp, ?_⟩
    intro hquiet
    exact ⟨(h.quiet hquiet).1, rfl, rfl⟩
  . next hown =>
    split at hstep
    . cases hstep
      refine ⟨h.unborn, h.one, by simp, by simp, by simp, ?_⟩
      exact fun _ => ⟨hstops hown, h.stopping hown, rfl⟩
    . contradiction
  . next hown =>
    have hquiet := h.not_quiet (by simp [hown])
    split at hstep
    . cases hstep
      exact h.setOwner (by simp) (by simp) (by simp) (by simp [hquiet])
    . cases hstep
      exact ⟨h.unborn, h.one, by simp, by simp, by simp, by simp [hquiet]⟩
  . next hown =>
    have hquiet := h.not_quiet (by simp [hown])
    split at hstep
    . next hstopped =>
      cases hstep
      exact ⟨h.unborn, h.one, by simp, fun _ => hstopped, by simp, by simp [hquiet]⟩
    . obtain ⟨sys, ht⟩ := timer_spec hstep
      rw [ht]
      exact (h.setOwner (by simp) (by simp) (by simp) (by simp [hquiet])).setSys sys
  . split at hstep
    . cases hstep
      exact h.setOwner (by simp) (by simp) (by simp) (fun _ => rfl)
    . contradiction
  . next hown =>
    cases hstep
    have hquiet := h.not_quiet (by simp [hown])
    exact ⟨h.unborn, h.one, by simp, by simp, fun _ => hrestarts hown, by simp [hquiet]⟩
  . next hown =>
    cases hstep
    exact h.spawnTickLoop (h.spawn hown) (h.not_quiet (by simp [hown]))
  . contradiction

end

theorem newTicker_inv (clock d : Int64) : (newTicker clock d).Inv := by
  have hnone : Inv {
      sys := .new clock
      stopped := false
      period := d
      token := 0
      loops := fun _ => .unborn
      started := 0
      owner := .idle
      sent := []
      quiet := false
    } := by
    refine ⟨fun _ _ => rfl, ?_, by simp, by simp, by simp, by simp⟩
    intro m n hm
    simp at hm
  apply hnone.spawnTickLoop
  . intro _ _
    rfl
  . rfl

theorem call_frame (h : s.call c = some t) : t.loops = s.loops ∧ t.sent = s.sent := by
  unfold State.call at h
  split at h
  . split at h <;> exact some.inj h ▸ ⟨rfl, rfl⟩
  . contradiction

theorem step_frame (h : s.step = some t)
    : (t.loops = s.loops ∨ t.loops = update s.loops s.started .top) ∧ t.sent = s.sent := by
  unfold State.step at h
  split at h
  all_goals try split at h
  all_goals first
    | contradiction
    | exact some.inj h ▸ ⟨.inl rfl, rfl⟩
    | exact some.inj h ▸ ⟨.inr rfl, rfl⟩
    | obtain ⟨_, ht⟩ := timer_spec h
      exact ht ▸ ⟨.inl rfl, rfl⟩

theorem step_cases (h : (tickerSystem stops restarts).step s t) : (∃ n pc, Moves s t n pc) ∨
        ((t.loops = s.loops ∨ t.loops = update s.loops s.started .top) ∧ t.sent = s.sent) := by
  rcases h with hloop | hrest
  . obtain ⟨n, hloop⟩ := hloop
    obtain ⟨pc, hmove⟩ := loop_moves hloop
    exact .inl ⟨n, pc, hmove⟩
  apply Or.inr
  rcases hrest with hcall | hrest
  . obtain ⟨_, hcall⟩ := hcall
    have hframe := call_frame hcall
    exact ⟨.inl hframe.1, hframe.2⟩
  . rcases hrest with hown | hsys
    . exact step_frame hown.1
    . obtain ⟨_, ht, _⟩ := hsys
      exact ht ▸ ⟨.inl rfl, rfl⟩

theorem sent_cases (h : (tickerSystem stops restarts).step s t)
    : t.sent = s.sent ∨ ∃ n, s.loops n = .send ∧ t.sent = s.sent ++ [n] := by
  rcases step_cases h with hmove | hframe
  . obtain ⟨n, _, hmove⟩ := hmove
    rcases hmove.sent with hsame | hsent
    . exact .inl hsame
    . exact .inr ⟨n, hsent⟩
  . exact .inl hframe.2

theorem Inv.returned (h : s.Inv) (hstep : (tickerSystem stops restarts).step s t)
    (hn : s.loops n = .returned) : t.loops n = .returned := by
  rcases step_cases hstep with hmove | hframe
  . obtain ⟨m, _, hmove⟩ := hmove
    have hne : n ≠ m := by
      intro heq
      have hlive := hmove.live
      rw [← heq, hn] at hlive
      contradiction
    rw [hmove.loops, update_of_ne hne, hn]
  . rcases hframe.1 with hsame | hspawn
    . rw [hsame, hn]
    . have hlt := h.lt_started (n := n) (by simp [hn])
      rw [hspawn, update_of_ne (by omega), hn]

theorem reachable_inv (h : (tickerSystem Unsending NoLoop).Reachable s) : s.Inv := by
  apply h.invariant
  . rintro s ⟨clock, d, _, _, hs⟩
    rw [hs]
    exact newTicker_inv clock d
  rintro s t hinv (hloop | hrest)
  . obtain ⟨_, hloop⟩ := hloop
    obtain ⟨_, hmove⟩ := loop_moves hloop
    exact hinv.moves hmove
  rcases hrest with hcall | hrest
  . obtain ⟨_, hcall⟩ := hcall
    exact hinv.call hcall
  rcases hrest with hown | hsys
  . exact hinv.step hown.1 hown.2.1 hown.2.2
  . obtain ⟨sys, ht, _⟩ := hsys
    rw [ht]
    exact hinv.setSys sys

end State

theorem ticker_quiet {s : State} (h : (tickerSystem State.Unsending State.NoLoop).Reachable s)
    : (∀ m n, (s.loops m).live → (s.loops n).live → m = n) ∧
        ∀ t, (tickerSystem State.Unsending State.NoLoop).step s t →
          (t.sent = s.sent ∨ ∃ n, (s.loops n).live ∧ t.sent = s.sent ++ [n]) ∧
          (∀ n, s.loops n = .returned → t.loops n = .returned) ∧ (s.quiet = true → t.sent = s.sent) := by
  have hinv := State.reachable_inv h
  refine ⟨hinv.one, ?_⟩
  intro t hstep
  refine ⟨?_, fun n => hinv.returned hstep, ?_⟩
  . rcases State.sent_cases hstep with hsame | hsent
    . exact .inl hsame
    . obtain ⟨n, hn, hsent⟩ := hsent
      exact .inr ⟨n, by simp [hn], hsent⟩
  intro hquiet
  rcases State.sent_cases hstep with hsame | hsent
  . exact hsame
  . obtain ⟨n, hn, _⟩ := hsent
    have hlt := hinv.lt_started (n := n) (by simp [hn])
    exact absurd hn ((hinv.quiet hquiet).1 n hlt)

namespace State

inductive Act where
  | loop (n : Nat)
  | call (c : Call)
  | owner
  | timer (g : Option Nat)
  | sysmon (i : Nat)
  | tick (clock : Int64)

variable {s t : State}

def setTimer (s : State) (sys : Option (Sysmon.State (Option Nat) Nat)) : Option State :=
  match sys with
  | none => none
  | some sys => if sys.fault = false then some { s with sys := sys } else none

theorem setTimer_spec {sys : Option (Sysmon.State (Option Nat) Nat)} (h : s.setTimer sys = some t)
    : ∃ sys', sys = some sys' ∧ t = { s with sys := sys' } ∧ sys'.fault = false := by
  unfold setTimer at h
  split at h
  . contradiction
  next sys' =>
  split at h
  . next hfault => exact ⟨sys', rfl, (some.inj h).symm, hfault⟩
  . contradiction

section
variable (stops restarts : State → Prop) [DecidablePred stops] [DecidablePred restarts]

def act (s : State) : Act → Option State
  | .loop n => s.loop n
  | .call c => s.call c
  | .owner =>
    if (s.owner = .stopping → stops s) ∧ (s.owner = .restart → restarts s) then s.step else none
  | .timer g => s.setTimer (s.sys.step g)
  | .sysmon i => s.setTimer (s.sys.sysmon i)
  | .tick clock => if s.sys.clock ≤ clock then s.setTimer (some { s.sys with clock := clock }) else none

theorem act_step (s : State) (a : Act) (t : State) (h : s.act stops restarts a = some t)
    : (tickerSystem stops restarts).step s t := by
  cases a with
  | loop n => exact .inl ⟨n, h⟩
  | call c => exact .inr (.inl ⟨c, h⟩)
  | owner =>
    simp only [act] at h
    split at h
    . next hguard => exact .inr (.inr (.inl ⟨h, hguard⟩))
    . contradiction
  | timer g =>
    obtain ⟨sys, hsys, ht, hfault⟩ := setTimer_spec h
    exact .inr (.inr (.inr ⟨sys, ht, hfault, .inl ⟨g, hsys⟩⟩))
  | sysmon i =>
    obtain ⟨sys, hsys, ht, hfault⟩ := setTimer_spec h
    exact .inr (.inr (.inr ⟨sys, ht, hfault, .inr (.inl ⟨i, hsys⟩)⟩))
  | tick clock =>
    simp only [act] at h
    split at h
    . next hclock =>
      obtain ⟨sys, hsys, ht, hfault⟩ := setTimer_spec h
      exact .inr (.inr (.inr ⟨sys, ht, hfault, .inr (.inr ⟨clock, hclock, (some.inj hsys).symm⟩)⟩))
    . contradiction

end

instance : DecidablePred Unsending := fun s =>
  inferInstanceAs (Decidable (∀ n < s.started, s.loops n ≠ .send))

instance : DecidablePred NoLoop := fun s =>
  inferInstanceAs (Decidable (∀ n < s.started, (s.loops n).live = false))

def parks (n : Nat) : List Act :=
  [.loop n, .loop n, .timer (some n), .timer (some n)]

def wakes (n : Nat) : List Act :=
  [.timer (some n), .loop n]

def stops : List Act :=
  [.call .stop, .owner, .timer none, .timer none, .owner]

def restarts (d : Int64) : List Act :=
  [.call (.reset d), .owner, .owner, .owner, .owner]

def fires : List Act :=
  [.sysmon 0, .sysmon 0]

def goOn : List Act :=
  wakes 0 ++ [.loop 0, .timer (some 0), .timer (some 0), .loop 0] ++ parks 0 ++ parks 1 ++
    [.tick 300, .sysmon 0] ++ fires ++ fires ++ wakes 0 ++ [.loop 0, .loop 0] ++ wakes 1 ++ [.loop 1, .loop 1]

end State

theorem reachable_newTicker : (tickerSystem stops restarts).Reachable (.newTicker 5 100) :=
  .init ⟨5, 100, by decide, by decide, rfl⟩

theorem ticker_quiet_restart : ∃ s, (tickerSystem State.Unsending State.NoLoop).Reachable s ∧ s.sent = [0, 1] ∧
        ∀ m n, (s.loops m).live → (s.loops n).live → m = n := by
  obtain ⟨s, hrun, hs⟩ := System.exists_run _ _ (State.act_step State.Unsending State.NoLoop)
    (.newTicker 5 100)
    (State.parks 0 ++ [.tick 110, .sysmon 0] ++ State.fires ++ [.sysmon 0] ++ State.wakes 0 ++
      [.loop 0, .loop 0, .timer (some 0), .timer (some 0), .loop 0] ++ State.parks 0 ++ State.stops ++
      State.wakes 0 ++ [.loop 0] ++ State.restarts 50 ++ State.parks 1 ++ [.tick 200, .sysmon 0] ++
      State.fires ++ State.wakes 1 ++ [.loop 1, .loop 1])
    (fun s => s.sent = [0, 1])
    (by decide +kernel)
  rw [decide_eq_true_eq] at hs
  have hreach := reachable_newTicker.trans hrun
  exact ⟨s, hreach, hs, (ticker_quiet hreach).1⟩

theorem ticker_late : (∃ s t, (tickerSystem (fun _ => True) State.NoLoop).Reachable s ∧ s.quiet = true ∧
        (tickerSystem (fun _ => True) State.NoLoop).step s t ∧ t.sent = s.sent ++ [0]) ∧
        ∃ s t, (tickerSystem State.Unsending (fun _ => True)).Reachable s ∧ s.owner = .idle ∧
          s.loops 0 = .parking ∧ s.loops 1 = .top ∧ s.sent = [] ∧
          Relation.ReflTransGen (tickerSystem State.Unsending (fun _ => True)).step s t ∧
          t.sent = [0, 1] := by
  constructor
  . obtain ⟨s, hrun, hs⟩ := System.exists_run _ _ (State.act_step (fun _ => True) State.NoLoop)
      (.newTicker 5 100)
      (State.parks 0 ++ [.tick 110, .sysmon 0] ++ State.fires ++ State.wakes 0 ++ [.loop 0] ++ State.stops)
      (fun s => decide (s.quiet = true) && (s.loop 0).any fun t => t.sent = s.sent ++ [0])
      (by decide +kernel)
    simp only [Bool.and_eq_true, decide_eq_true_eq, any_eq_true] at hs
    obtain ⟨hquiet, t, hstep, hsent⟩ := hs
    exact ⟨s, t, reachable_newTicker.trans hrun, hquiet, .inl ⟨0, hstep⟩, hsent⟩
  obtain ⟨s, hrun, hs⟩ := System.exists_run _ _ (State.act_step State.Unsending (fun _ => True))
    (.newTicker 5 100)
    (State.parks 0 ++ State.stops ++ State.restarts 100)
    (fun s => decide (s.owner = .idle ∧ s.loops 0 = .parking ∧ s.loops 1 = .top ∧ s.sent = []) &&
      (State.goOn.foldlM (State.act State.Unsending (fun _ => True)) s).any fun t => t.sent = [0, 1])
    (by decide +kernel)
  rw [Bool.and_eq_true, decide_eq_true_eq] at hs
  obtain ⟨⟨hidle, hold, hnew, hsent⟩, hrest⟩ := hs
  obtain ⟨t, hrun', ht⟩ := System.exists_run _ _ (State.act_step State.Unsending (fun _ => True)) _ _ _ hrest
  exact ⟨s, t, reachable_newTicker.trans hrun, hidle, hold, hnew, hsent, hrun', decide_eq_true_eq.mp ht⟩

end Ticker

end Time
