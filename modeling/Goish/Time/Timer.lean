import Goish.Runtime.Sysmon.Deadline
import Goish.Runtime.Sysmon.Lemmas.OneShot
import Goish.Time.Impl.Timer
import Mathlib.Data.List.MinMax

/-! A token is fired or cancelled once, and its goroutine is made ready once. -/

open Function Sysmon Option

namespace Time

open Sysmon.State

def oneShotSystem {G : Type u} {T : Type v} [DecidableEq G] [DecidableEq T] (owner : T → G)
    : System (Timer.State G T) where
  init s := ∃ clock, 0 ≤ clock ∧ s = .new clock
  step s t :=
    (timerSystem owner fun s g => (s.pc g).rearms = false).step s.sys t.sys ∧ t.sent = s.sent ∨
      ∃ g, s.send g = some t

namespace Timer

variable {G : Type u} {T : Type v} [DecidableEq G] [DecidableEq T] {owner : T → G}

structure State.Inv (owner : T → G) (s : State G T) : Prop where
  inv : s.sys.Inv owner
  once : s.sys.Once
  -- An arm sends only after its token has been fired.
  sent : ∀ tok, 0 < s.sent tok → 0 < s.sys.fires tok

namespace State

variable {s t : State G T}

theorem sys_step (hinv : s.sys.Inv owner) (honce : s.sys.Once)
    (hstep : (timerSystem owner fun s g => (s.pc g).rearms = false).step s.sys t.sys)
    : t.sys.Inv owner ∧ t.sys.Once ∧ s.sys.Grows t.sys := by
  rcases hstep with hstep | hrest
  . obtain ⟨g, hstep, hrearm⟩ := hstep
    refine ⟨hinv.step hstep ?_, honce.step hinv hstep hrearm, grows_of_step hstep⟩
    intro _ hg
    have hat := honce.pcs g
    simp [Sysmon.State.At, hg] at hat
  rcases hrest with hsys | hrest
  . obtain ⟨_, hsys⟩ := hsys
    exact ⟨hinv.sysmon_step hsys, honce.sysmon_step hinv hsys, grows_of_sysmon hsys⟩
  rcases hrest with htick | hcall
  . obtain ⟨_, _, ht⟩ := htick
    rw [ht]
    exact ⟨hinv.ghost, ⟨honce.counts, honce.pcs, honce.winner⟩, .of_eq rfl rfl rfl⟩
  . obtain ⟨_, _, hcall⟩ := hcall
    refine ⟨hinv.call hcall, honce.call hinv hcall, ?_⟩
    rw [(call_spec hcall).2.1]
    exact .of_eq rfl rfl rfl

theorem Inv.send (h : s.Inv owner) (hsend : s.send g = some t) : t.Inv owner ∧ s.sys.Grows t.sys := by
  unfold State.send at hsend
  split at hsend
  . next tok hg =>
    rw [some.injEq] at hsend
    have hat := h.once.pcs g
    simp only [Sysmon.State.At, hg] at hat
    have hcounts := h.once.counts tok
    simp only [Sysmon.State.Counts, hat.2] at hcounts
    subst hsend
    refine ⟨⟨?_, ?_, ?_⟩, .of_eq rfl rfl rfl⟩
    . exact h.inv.goto (h.inv.free (by simp [hg, Pc.isParked])) rfl (by simp [Pc.token])
        (by simp [Sysmon.State.Reads, goto])
    . exact h.once.goto h.inv (by simp [hg, Pc.isParked]) (by simp [hg, Pc.target]) (by simp [Pc.won])
        (by simp [Sysmon.State.At, goto])
    intro k hk
    by_cases heq : k = tok
    . dsimp only [goto]
      rw [heq]
      omega
    . dsimp only at hk
      rw [update_of_ne heq] at hk
      exact h.sent k hk
  . contradiction

theorem Inv.step (h : s.Inv owner) (hstep : (oneShotSystem owner).step s t) : t.Inv owner ∧ s.sys.Grows t.sys := by
  rcases hstep with hsys | hsend
  . obtain ⟨hinv, honce, hgrows⟩ := sys_step h.inv h.once hsys.1
    refine ⟨⟨hinv, honce, ?_⟩, hgrows⟩
    intro tok hsent
    rw [hsys.2] at hsent
    exact Nat.lt_of_lt_of_le (h.sent tok hsent) (hgrows.fires tok)
  . obtain ⟨_, hsend⟩ := hsend
    exact h.send hsend

theorem reachable_inv (h : (oneShotSystem owner).Reachable s) : s.Inv owner := by
  apply h.invariant
  . rintro s ⟨clock, _, hs⟩
    rw [hs]
    exact ⟨new_inv clock, new_once clock, by simp [State.new]⟩
  . exact fun s t hinv hstep => (hinv.step hstep).1

section

variable {s t : Sysmon.State G T}

/-- Steps of `sysmon` alone. -/
def Sysmons : Sysmon.State G T → Sysmon.State G T → Prop :=
  Relation.ReflTransGen fun s t => ∃ i, s.sysmon i = some t

theorem goready_heap (s : Sysmon.State G T) (g : G)
    : (s.goready g).heap = s.heap ∧ (s.goready g).token = s.token ∧ (s.goready g).wins = s.wins := by
  unfold goready
  split <;> exact ⟨rfl, rfl, rfl⟩

/-- A goroutine that was parked on the armed token `tok` with the entry `e`, while only `sysmon` takes steps. -/
structure Pending (owner : T → G) (e : TimerEntry G T) (tok : T) (s : Sysmon.State G T) : Prop where
  inv : s.Inv owner
  once : s.Once
  wins : s.wins tok = 0
  queued : (s.token tok).state = .armed → e ∈ s.heap
  pc : s.pc e.g = .parkedTok tok ∨ s.pc e.g = .woken tok

theorem Pending.step (h : Pending owner e tok s) (hc : e.cancel = some tok) (hstep : s.sysmon i = some t)
    : Pending owner e tok t := by
  have hinv := h.inv.sysmon_step hstep
  have honce := h.once.sysmon_step h.inv hstep
  have hpc := h.pc
  unfold sysmon at hstep
  split at hstep
  . cases hstep
    exact ⟨hinv, honce, h.wins, h.queued, hpc⟩
  . split at hstep
    . cases hstep
      exact ⟨hinv, honce, h.wins, h.queued, hpc⟩
    split at hstep
    . contradiction
    next now _ _ _ e' he' =>
    have hget := (least_spec he').1
    cases hstep
    rw [← s.expire_pc now e' (s.heap.eraseIdx i)] at hpc
    rcases s.expire_cases now e' (s.heap.eraseIdx i) with ⟨_, heq⟩ | ⟨k, hk, hnot, heq⟩
    . refine ⟨hinv, honce, ?_, ?_, hpc⟩
      . rw [heq]
        unfold fireEntry fire
        cases e'.cancel with
        | none => exact h.wins
        | some k =>
          dsimp only [elim_some]
          split <;> exact h.wins
      . rw [heq]
        unfold fireEntry
        cases hk : e'.cancel with
        | none => exact fun harmed => mem_eraseIdx hget (by simp [hk]) (h.queued harmed) hc
        | some k =>
          intro harmed
          have hne : tok ≠ k := by
            rintro rfl
            exact (fire_settles s tok).state_ne (by decide) harmed
          dsimp only [elim_some] at harmed
          rw [(fire_settles s k).of_ne hne] at harmed
          exact mem_eraseIdx hget (by simp [hk, hne.symm]) (h.queued harmed) hc
    . refine ⟨hinv, honce, by rw [heq]; exact h.wins, ?_, hpc⟩
      rw [heq]
      intro harmed
      refine mem_eraseIdx hget ?_ (h.queued harmed) hc
      rintro hsame
      rw [hk, some.injEq] at hsame
      exact hnot (hsame ▸ harmed)
  . next now g _ =>
    obtain ⟨hheap, htoken, hwins⟩ := goready_heap s g
    cases hstep
    refine ⟨hinv, honce, by rw [hwins]; exact h.wins, by rw [hheap, htoken]; exact h.queued, ?_⟩
    dsimp only
    by_cases heq : e.g = g
    . subst heq
      rcases hpc with hpc | hpc <;> simp [goready, hpc, goto]
    . rwa [goready_pc s heq]

theorem Pending.run (h : Pending owner e tok s) (hc : e.cancel = some tok) (hrun : Sysmons s t) : Pending owner e tok t := by
  induction hrun with
  | refl => exact h
  | tail _ hstep ih =>
    obtain ⟨_, hstep⟩ := hstep
    exact ih.step hc hstep

omit [DecidableEq G] [DecidableEq T] in
theorem Pending.fired (h : Pending owner e tok s) (hsys : s.sys = .sleep) (he : e ∉ s.heap)
    : s.fires tok = 1 ∧ s.pc e.g = .woken tok := by
  have hcounts := h.once.counts tok
  have hwins := h.wins
  unfold Sysmon.State.Counts at hcounts
  have hfired : (s.token tok).state = .fired := by
    cases hs : (s.token tok).state with
    | armed => exact absurd (h.queued hs) he
    | fired => rfl
    | cancelled =>
      simp only [hs] at hcounts
      omega
  simp only [hfired] at hcounts
  refine ⟨hcounts.1, h.pc.resolve_left fun hpc => ?_⟩
  have hat := h.once.pcs e.g
  simp [Sysmon.State.At, hpc, Sysmon.State.Waker, hfired, hsys] at hat

end

end State

namespace State

def act (owner : T → G) (s : State G T) : Sysmon.State.Act G T ⊕ G → Option (State G T)
  | .inl a =>
    (s.sys.act owner (fun s g => (s.pc g).rearms = false) a).map fun sys => { s with sys := sys }
  | .inr g => s.send g

theorem act_step (owner : T → G) (s : State G T) (a : Sysmon.State.Act G T ⊕ G) (t : State G T)
    (h : s.act owner a = some t) : (oneShotSystem owner).step s t := by
  rcases a with a | g
  . simp only [act, map_eq_some_iff] at h
    obtain ⟨sys, hsys, ht⟩ := h
    rw [← ht]
    exact .inl ⟨Sysmon.State.act_step owner _ s.sys a sys hsys, rfl⟩
  . exact .inr ⟨g, h⟩

end State

end Timer

end Time
