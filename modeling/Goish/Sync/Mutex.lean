import Goish.Data.System
import Goish.Sync.Lemmas.Mutex

/-! In every interleaving the mutex has one owner, its word counts the waiters, and every handoff goes to one of them. -/

open Function Tally

namespace Sync

variable {G : Type u} [DecidableEq G]

def mutexSystem (G : Type u) [DecidableEq G] : System (Mutex.State G) where
  init s := s = .new
  step s t := ∃ g, s.step g = some t ∨ ∃ c, s.call g c = some t

namespace Mutex

def Pc.registered : Pc → Nat
  | .acquire => 1
  | .parked => 1
  | _ => 0

namespace State

variable [Fintype G] {s t : State G}

def inFlight (s : State G) : Nat :=
  total Pc.releasing s.pc + s.sema.credit

theorem reachable_inv (h : (mutexSystem G).Reachable s) : s.Inv := by
  apply h.invariant
  . rintro s rfl
    exact new_inv
  intro s t hinv ⟨g, hstep⟩
  rcases hstep with hstep | hcall
  . exact hinv.step hstep
  . obtain ⟨_, hcall⟩ := hcall
    exact hinv.call hcall

omit [DecidableEq G] in
theorem Inv.registered (h : s.Inv) : total Pc.registered s.pc = total Pc.acquiring s.pc + s.sema.queue.length := by
  rw [← total_eq_length h.parks.nodup h.parks.mem]
  unfold total
  rw [← Finset.sum_add_distrib]
  apply Finset.sum_congr rfl
  intro g _
  cases s.pc g <;> rfl

omit [Fintype G] in
@[simp]
theorem cas_served (s : State G) : (s.cas g old word a b).served = s.served := by
  unfold State.cas
  split <;> rfl

omit [Fintype G] in
@[simp]
theorem goto_served (s : State G) : (s.goto g a).served = s.served :=
  rfl

omit [Fintype G] in
theorem served_step (hstep : s.step g = some t) : t.served = s.served ∨
        ∃ x, t.served = x :: s.served ∧ (s.pc x = .acquire ∨ x ∈ s.sema.queue) ∧ 0 < (t.pc x).owner := by
  cases hg : s.pc g
  all_goals simp only [State.step, hg, reduceCtorEq] at hstep
  case acquire =>
    split at hstep
    . cases hstep
      exact .inr ⟨g, rfl, .inl hg, by simp [goto, Pc.owner]⟩
    . cases hstep
      exact .inl rfl
  case release =>
    cases hq : s.sema.queue with
    | nil =>
      rw [Sema.releaseNext_nil hq] at hstep
      cases hstep
      exact .inl rfl
    | cons x =>
      rw [Sema.releaseNext_cons hq] at hstep
      cases hstep
      exact .inr ⟨x, rfl, .inr List.mem_cons_self, by simp [goto, Pc.owner]⟩
  case unlockHandoff =>
    split at hstep <;>
    . cases hstep
      exact .inl rfl
  all_goals
    cases hstep
    simp

omit [Fintype G] in
theorem served_call (hcall : s.call g c = some t) : t.served = s.served := by
  cases c <;>
  . unfold State.call at hcall
    dsimp only at hcall
    split at hcall
    . cases hcall
      rfl
    . contradiction

theorem Inv.served (h : s.Inv) (hstep : (mutexSystem G).step s t) : t.served = s.served ∨
        ∃ x, t.served = x :: s.served ∧ 0 < (s.pc x).registered ∧ 0 < (t.pc x).owner := by
  obtain ⟨_, hstep⟩ := hstep
  rcases hstep with hstep | hcall
  . rcases served_step hstep with hsame | hserved
    . exact .inl hsame
    obtain ⟨x, hx, hreg, hown⟩ := hserved
    rw [h.parks.mem] at hreg
    refine .inr ⟨x, hx, ?_, hown⟩
    rcases hreg with hacq | hparked
    . simp [hacq, Pc.registered]
    . simp [hparked, Pc.registered]
  . obtain ⟨_, hcall⟩ := hcall
    exact .inl (served_call hcall)

omit [DecidableEq G] in
theorem Inv.not_registered (h : s.Inv) (hbit : s.state % 2 = 0) (g : G) : (s.pc g).registered = 0 := by
  have hclear := h.clear hbit
  have hwaiters := h.waiters
  have hlocked := h.locked
  have hle := le_total Pc.registered s.pc g
  rw [h.registered] at hle
  omega

end State

theorem lock_safe [Fintype G] {s : State G} (h : (mutexSystem G).Reachable s)
    : (∀ g g', 0 < (s.pc g).owner → 0 < (s.pc g').owner → g = g') ∧
        s.state >>> 1 + s.inFlight = total Pc.registered s.pc ∧
        s.handoffs = s.served.length + s.inFlight ∧
        (∀ t, (mutexSystem G).step s t → t.served = s.served ∨
          ∃ g, t.served = g :: s.served ∧ 0 < (s.pc g).registered ∧ 0 < (t.pc g).owner) ∧
        (0 < s.sema.credit → ∀ g, s.pc g ≠ .parked) ∧
        (s.state &&& mLocked = 0 → ∀ g, s.pc g ≠ .acquire ∧ s.pc g ≠ .parked) := by
  have hinv := State.reachable_inv h
  have hlocked := hinv.locked
  have hwaiters := hinv.waiters
  have hhandoffs := hinv.handoffs
  refine ⟨?_, ?_, ?_, fun t => hinv.served, ?_, ?_⟩
  . intro _ _ hg hg'
    apply eq_of_total_le_one (w := Pc.owner) _ hg hg'
    omega
  . rw [hinv.registered, Nat.shiftRight_one]
    unfold State.inFlight
    omega
  . unfold State.inFlight
    omega
  . intro hpos g hg
    rw [← hinv.parks.mem, hinv.parks.credit hpos] at hg
    contradiction
  intro hbit g
  rw [and_locked] at hbit
  have hzero := hinv.not_registered hbit g
  constructor <;>
  . intro hg
    rw [hg] at hzero
    contradiction

theorem lock_safe_handoff : ∃ s : State (Fin 2), (mutexSystem (Fin 2)).Reachable s ∧ s.handoffs = 1 ∧
        s.state >>> 1 + s.inFlight = total Pc.registered s.pc := by
  have h0 : (mutexSystem (Fin 2)).Reachable .new := .init rfl
  have h1 := h0.step ⟨0, .inr ⟨.lock, rfl⟩⟩
  have h2 := h1.step ⟨0, .inl rfl⟩
  have h3 := h2.step ⟨1, .inr ⟨.lock, rfl⟩⟩
  have h4 := h3.step ⟨1, .inl rfl⟩
  have h5 := h4.step ⟨1, .inl rfl⟩
  have h6 := h5.step ⟨1, .inl rfl⟩
  have h7 := h6.step ⟨0, .inr ⟨.unlock, rfl⟩⟩
  have h8 := h7.step ⟨0, .inl rfl⟩
  have h9 := h8.step ⟨0, .inl rfl⟩
  have h10 := h9.step ⟨0, .inl rfl⟩
  exact ⟨_, h10, rfl, (lock_safe h10).2.1⟩

end Mutex

end Sync
