import Goish.Data.System
import Goish.Sync.Lemmas.Singleflight

/-! What the callers of a group get, in any interleaving of `Do`, `DoChan` and `ForgetUnshared`. -/

open Function

namespace Sync

def groupSystem (G : Type u) (K : Type v) (V : Type w) (E : Type z) [DecidableEq G] [DecidableEq K]
    : System (Singleflight.State G K V E) where
  init s := s = .new
  step s t := (∃ g, s.step g = some t) ∨ (∃ c r, s.exec c r = some t) ∨ ∃ g r, s.call g r = some t

namespace Singleflight

def Pc.outside : Pc K V E → Bool
  | .idle => true
  | .done _ _ _ _ => true
  | .doneChan _ _ => true
  | .forgot _ => true
  | _ => false

namespace State

variable {G : Type u} {K : Type v} {V : Type w} {E : Type z} [DecidableEq G] [DecidableEq K]
variable {s t : State G K V E}

theorem Inv.advance (h : s.Inv) (hstep : (groupSystem G K V E).step s t) : s.Advances t := by
  rcases hstep with hstep | hrest
  . obtain ⟨_, hstep⟩ := hstep
    exact h.step hstep
  rcases hrest with hexec | hcall
  . obtain ⟨_, _, hexec⟩ := hexec
    exact h.exec hexec
  . obtain ⟨_, _, hcall⟩ := hcall
    exact h.call hcall

theorem reachable_inv (h : (groupSystem G K V E).Reachable s) : s.Inv := by
  apply h.invariant
  . rintro s rfl
    exact new_inv
  . exact fun s t hinv hstep => (hinv.advance hstep).inv

attribute [local simp] Prod.Lex.toLex_lt_toLex DoCall.rank

omit [DecidableEq G] in
theorem Inv.exec_progress (h : s.Inv) (hx : s.calls c = some x) (hdoing : x.doing ≠ .returned) (r : V × E)
    : ∃ t x', s.exec c r = some t ∧ t.calls c = some x' ∧ x'.doing.rank < x.doing.rank := by
  simp only [State.exec, hx]
  cases hd : x.doing with
  | run | store | lock =>
    refine ⟨_, _, rfl, update_self _ _ _, ?_⟩
    simp
  | returned => exact (hdoing hd).elim
  | send _ _ _ chans =>
    cases chans with
    | nil =>
      refine ⟨_, _, rfl, update_self _ _ _, ?_⟩
      simp
    | cons ch =>
      obtain ⟨_, hy, _, hsent⟩ := h.pending c x hx ch (by simp [Call.pending, hd])
      simp only [hy, hsent, List.length_nil, Nat.lt_add_one, if_true]
      refine ⟨_, _, rfl, update_self _ _ _, ?_⟩
      simp

def Stuck (s : State G K V E) : Prop :=
  (∀ g, s.step g = none) ∧ ∀ c r, s.exec c r = none

theorem Inv.returned_of_stuck [Inhabited V] [Inhabited E] (h : s.Inv) (hstuck : s.Stuck)
    (hx : s.calls c = some x) : x.doing = .returned := by
  apply not_not.mp
  intro hdoing
  obtain ⟨_, _, hexec, _⟩ := h.exec_progress hx hdoing (default, default)
  rw [hstuck.2] at hexec
  cases hexec

theorem Inv.outside_of_stuck [Inhabited V] [Inhabited E] (h : s.Inv) (hstuck : s.Stuck) (g : G)
    : (s.pc g).outside = true := by
  have hstep := hstuck.1 g
  have hok := h.pcs g
  unfold PcOk at hok
  cases hg : s.pc g with
  | idle | done | doneChan | forgot => rfl
  | fatal => simp [hg] at hok
  | «do» key =>
    simp only [State.step, hg, State.doLocked, initMap_eq] at hstep
    split at hstep
    . next c hc =>
      obtain ⟨_, hx, _⟩ := h.map key c hc
      simp [hx] at hstep
    . cases hstep
  | doChan key =>
    simp only [State.step, hg, State.doChanLocked, initMap_eq] at hstep
    split at hstep
    . next c hc =>
      obtain ⟨_, hx, _⟩ := h.map key c hc
      simp [hx] at hstep
    . cases hstep
  | forgetUnshared key =>
    simp only [State.step, hg, State.forgetLocked] at hstep
    split at hstep
    . cases hstep
    next m hm =>
    split at hstep
    . cases hstep
    next c hc =>
    obtain ⟨_, hx, _⟩ := h.map key c (by simp [lookup, hm, hc])
    simp [hx, ite_eq_iff] at hstep
  | leader =>
    simp only [hg] at hok
    obtain ⟨_, hx, _⟩ := h.served_call hok
    have hdoing := h.returned_of_stuck hstuck hx
    simp only [State.step, hg, hx, hdoing] at hstep
    split at hstep <;> cases hstep
  | leaderOut =>
    simp only [hg] at hok
    obtain ⟨_, hx, _⟩ := h.served_call hok.1
    simp [State.step, hg, hx] at hstep
  | follower _ c =>
    simp only [hg] at hok
    obtain ⟨x, hx, _⟩ := h.served_call hok
    have hdoing := h.returned_of_stuck hstuck hx
    have hwg : x.wg = 0 := by
      rw [(h.calls c x hx).landed_iff]
      simp [Call.inFlight, hdoing]
    simp [State.step, hg, hx, hwg] at hstep
  | followerOut =>
    simp only [hg] at hok
    obtain ⟨_, hx, _⟩ := h.served_call hok.1
    simp only [State.step, hg, hx] at hstep
    split at hstep <;> cases hstep

omit [DecidableEq G] [DecidableEq K] in
theorem Inv.alone (h : s.Inv) (hx : s.calls c = some x) (hdups : x.dups = 0) (hmem : y ∈ x.callers)
    : x.callers = [y] := by
  have hlength := (h.calls c x hx).callers
  rw [hdups, Nat.zero_add, List.length_eq_one_iff] at hlength
  obtain ⟨_, hz⟩ := hlength
  rw [hz, List.mem_singleton] at hmem
  rw [hz, hmem]

end State

structure State.Coherent [DecidableEq G] [DecidableEq K] [Inhabited V] [Inhabited E] (s : State G K V E) : Prop where
  map : ∀ key c, s.lookup key = some c → ∃ x, s.calls c = some x ∧ x.key = key ∧ x.inFlight = true
  single : ∀ k k' c c' x x', s.lookup k = some c → s.lookup k' = some c' → s.calls c = some x →
    s.calls c' = some x' → x.key = x'.key → c = c'
  done : ∀ g key v e shared, s.pc g = .done key v e shared →
    ∃ c x, s.served g = some ⟨key, c, true⟩ ∧ s.calls c = some x ∧ x.key = key ∧
      x.result = some (v, e) ∧ .inl g ∈ x.callers ∧ (shared = false → x.callers = [.inl g])
  doneChan : ∀ g key ch, s.pc g = .doneChan key ch → ∃ y, s.channels ch = some y ∧ y.served.key = key
  channel : ∀ ch y, s.channels ch = some y →
    ∃ x, s.calls y.served.call = some x ∧ x.key = y.served.key ∧ y.served.inFlight = true ∧
      .inr ch ∈ x.callers ∧ (x.doing = .returned → y.sent ≠ []) ∧
      (y.sent = [] ∨ ∃ r, y.sent = [r] ∧ x.result = some (r.val, r.err) ∧ (r.shared = false → x.callers = [.inr ch]))
  reported : ∀ c x g, s.calls c = some x → x.reported = some (g, false) → x.callers = [.inl g]
  later : ∀ t, (groupSystem G K V E).step s t → ∀ c x, s.calls c = some x →
    ∃ x', t.calls c = some x' ∧ (∀ r, x.result = some r → x'.result = some r) ∧ x'.doing.rank ≤ x.doing.rank
  progress : ∀ c x r, s.calls c = some x → x.doing ≠ .returned →
    ∃ t x', s.exec c r = some t ∧ t.calls c = some x' ∧ x'.doing.rank < x.doing.rank
  stuck : s.Stuck → (∀ g, (s.pc g).outside = true) ∧ ∀ c x, s.calls c = some x → x.doing = .returned

theorem flight_coherent [DecidableEq G] [DecidableEq K] [Inhabited V] [Inhabited E] {s : State G K V E}
    (h : (groupSystem G K V E).Reachable s) : s.Coherent := by
  have hinv := State.reachable_inv h
  refine ⟨hinv.map, ?_, ?_, ?_, ?_, ?_, ?_, ?_, ?_⟩
  . intro k k' c c' _ _ hk hk' hx hx' hkey
    obtain ⟨_, hy, hkeyy, _⟩ := hinv.map k c hk
    obtain ⟨_, hy', hkeyy', _⟩ := hinv.map k' c' hk'
    rw [hx, Option.some.injEq] at hy
    rw [hx', Option.some.injEq] at hy'
    rw [← hkeyy, ← hy, hkey, hy', hkeyy', hk', Option.some.injEq] at hk
    exact hk.symm
  . intro g _ _ _ _ hg
    have hok := hinv.pcs g
    unfold State.PcOk at hok
    simp only [hg] at hok
    obtain ⟨c, hq, x, hx, hresult, halone⟩ := hok
    obtain ⟨_, hy, hkey, hmem⟩ := hinv.served_call hq
    rw [hx, Option.some.injEq] at hy
    rw [← hy] at hkey hmem
    refine ⟨c, x, hq, hx, hkey, hresult, hmem, ?_⟩
    exact fun hshared => hinv.alone hx (halone hshared).2 hmem
  . intro g _ _ hg
    have hok := hinv.pcs g
    unfold State.PcOk at hok
    simp only [hg] at hok
    exact hok
  . intro ch y hy
    obtain ⟨⟨x, hx, hkey, hfly, hmem⟩, hgotten⟩ := hinv.channel ch y hy
    refine ⟨x, hx, hkey, hfly, hmem, ?_, ?_⟩
    . intro hdoing hsent
      rcases hgotten x hx with hwait | hgot
      . simp [Call.pending, hdoing] at hwait
      . obtain ⟨_, _, _, _, hone⟩ := hgot
        rw [hsent] at hone
        cases hone
    . rcases hgotten x hx with hwait | hgot
      . exact .inl hwait.2
      . obtain ⟨_, _, _, hresult, hone⟩ := hgot
        refine .inr ⟨_, hone, hresult, ?_⟩
        rw [decide_eq_false_iff_not, not_lt, Nat.le_zero]
        exact fun hdups => hinv.alone hx hdups hmem
  . intro c x g hx hreported
    obtain ⟨_, hdups, hmem⟩ := (hinv.calls c x hx).reported g false hreported
    rw [eq_comm, decide_eq_false_iff_not, not_lt, Nat.le_zero] at hdups
    exact hinv.alone hx hdups hmem
  . intro t hstep c x hx
    obtain ⟨x', hx', hgrows⟩ := (hinv.advance hstep).later.calls c x hx
    exact ⟨x', hx', hgrows.result, hgrows.rank⟩
  . exact fun c x r hx hdoing => hinv.exec_progress hx hdoing r
  . exact fun hstuck => ⟨hinv.outside_of_stuck hstuck, fun c x => hinv.returned_of_stuck hstuck⟩

namespace State

variable {G : Type u} {K : Type v} {V : Type w} {E : Type z} [DecidableEq G] [DecidableEq K]

inductive Act (G : Type u) (K : Type v) (V : Type w) (E : Type z) where
  | step (g : G)
  | exec (c : Nat) (r : V × E)
  | call (g : G) (r : Request K)

def act (s : State G K V E) : Act G K V E → Option (State G K V E)
  | .step g => s.step g
  | .exec c r => s.exec c r
  | .call g r => s.call g r

theorem act_step (s : State G K V E) (a : Act G K V E) (t : State G K V E) (h : s.act a = some t)
    : (groupSystem G K V E).step s t := by
  cases a with
  | step g => exact .inl ⟨g, h⟩
  | exec c r => exact .inr (.inl ⟨c, r, h⟩)
  | call g r => exact .inr (.inr ⟨g, r, h⟩)

end State

theorem flight_coherent_late : ∃ s : State (Fin 2) Bool Nat Bool, (groupSystem (Fin 2) Bool Nat Bool).Reachable s ∧
        s.pc 0 = .done true 7 false true ∧ s.pc 1 = .done true 7 false true ∧
        ∃ c x, s.served 1 = some ⟨true, c, true⟩ ∧ s.calls c = some x ∧ x.result = some (7, false) := by
  obtain ⟨s, hrun, hs⟩ := System.exists_run _ _ State.act_step (.new : State (Fin 2) Bool Nat Bool)
    [.call 0 (.do true), .step 0, .exec 0 (7, false), .exec 0 (7, false), .call 1 (.do true), .step 1,
      .exec 0 (7, false), .exec 0 (7, false), .step 0, .step 0, .step 1, .step 1]
    (fun s => s.pc 0 = .done true 7 false true ∧ s.pc 1 = .done true 7 false true) (by decide +kernel)
  rw [decide_eq_true_eq] at hs
  have hreach := System.Reachable.trans (.init rfl) hrun
  obtain ⟨c, x, hserved, hx, _, hresult, _⟩ := (flight_coherent hreach).done 1 _ _ _ _ hs.2
  exact ⟨s, hreach, hs.1, hs.2, c, x, hserved, hx, hresult⟩

end Singleflight

end Sync
