import Goish.Sync.Impl.Mutex
import Goish.Sync.Lemmas.Sema

open List Function Tally Option

namespace Sync.Mutex

namespace Pc

open State

def owner : Pc → Nat
  | .ready => 1
  | .held => 1
  | .unlock => 1
  | .unlockLoad => 1
  | .unlockClear _ => 1
  | .unlockHandoff _ => 1
  | _ => 0

def releasing : Pc → Nat
  | .release => 1
  | _ => 0

def acquiring : Pc → Nat
  | .acquire => 1
  | _ => 0

def Ok : Pc → Prop
  | .slowGrab old => old % 2 = 0
  | .slowWait old => old % 2 = 1
  | .unlockClear old => old = 1
  | .unlockHandoff old => old % 2 = 1 ∧ 1 ≤ old / 2
  | .fatal => False
  | _ => True

end Pc

theorem and_locked (x : Nat) : x &&& mLocked = x % 2 :=
  Nat.and_one_is_mod x

theorem or_locked (h : x % 2 = 0) : x ||| mLocked = x + 1 := by
  have := Nat.two_pow_add_eq_or_of_lt (i := 1) (b := 1) (by decide) (x / 2)
  rw [show 2 ^ 1 * (x / 2) = x by omega] at this
  exact this.symm

theorem handoff_word (x : Nat) : (x >>> 1 - 1) <<< 1 ||| mLocked = 2 * (x / 2 - 1) + 1 := by
  rw [Nat.shiftRight_one, Nat.shiftLeft_eq, or_locked (by omega)]
  omega

namespace State

variable {G : Type u} [Fintype G] [DecidableEq G] {s t : State G}

omit [Fintype G] in
@[simp]
theorem goto_pc (s : State G) : (s.goto g a).pc = update s.pc g a :=
  rfl

structure Inv (s : State G) : Prop where
  locked : s.state % 2 = total Pc.owner s.pc + total Pc.releasing s.pc + s.sema.credit
  waiters : s.state / 2 + total Pc.releasing s.pc + s.sema.credit
    = total Pc.acquiring s.pc + s.sema.queue.length
  clear : s.state % 2 = 0 → s.state = 0
  parks : s.sema.Parks fun g => s.pc g = .parked
  handoffs : s.handoffs = s.served.length + total Pc.releasing s.pc + s.sema.credit
  ok : ∀ g, (s.pc g).Ok

omit [DecidableEq G] in
theorem new_inv : Inv (new : State G) := by
  have hzero : ∀ (w : Pc → Nat), w .idle = 0 → total w (new : State G).pc = 0 :=
    fun w hw => total_eq_zero w _ fun _ => hw
  constructor
  case locked =>
    rw [hzero _ rfl, hzero _ rfl]
    rfl
  case waiters =>
    rw [hzero _ rfl, hzero _ rfl]
    simp [new, Sema.new]
  case clear => exact fun _ => rfl
  case parks => exact Sema.Parks.new (by simp [new])
  case handoffs =>
    rw [hzero _ rfl]
    rfl
  case ok => exact fun _ => trivial

section Move

variable (h : s.Inv)
include h

theorem Inv.set {sema : Sema G} {served : List G} (hg : s.pc g = a) (hok : b.Ok)
    (hlocked : word % 2 + a.owner + a.releasing + s.sema.credit = s.state % 2 + b.owner + b.releasing + sema.credit)
    (hwaiters : word / 2 + b.releasing + sema.credit + a.acquiring + s.sema.queue.length
      = s.state / 2 + a.releasing + s.sema.credit + b.acquiring + sema.queue.length)
    (hclear : word % 2 = 0 → word = 0)
    (hparks : sema.Parks fun x => update s.pc g b x = .parked)
    (hhand : hand + a.releasing + s.sema.credit + s.served.length
      = s.handoffs + b.releasing + sema.credit + served.length)
    : Inv { s.goto g b with state := word, sema := sema, handoffs := hand, served := served } := by
  have hown := total_update Pc.owner s.pc g b
  have hrel := total_update Pc.releasing s.pc g b
  have hacq := total_update Pc.acquiring s.pc g b
  rw [hg] at hown hrel hacq
  have h1 := h.locked
  have h2 := h.waiters
  have h3 := h.handoffs
  constructor
  case locked =>
    dsimp only [goto]
    omega
  case waiters =>
    dsimp only [goto]
    omega
  case clear => exact hclear
  case parks => exact hparks
  case handoffs =>
    dsimp only [goto]
    omega
  case ok => exact forall_update h.ok hok

theorem Inv.move (hg : s.pc g = a) (ha : a ≠ .parked) (hb : b ≠ .parked) (hok : b.Ok)
    (hlocked : word % 2 + a.owner + a.releasing = s.state % 2 + b.owner + b.releasing)
    (hwaiters : word / 2 + b.releasing + a.acquiring = s.state / 2 + a.releasing + b.acquiring)
    (hclear : word % 2 = 0 → word = 0) (hhand : hand + a.releasing = s.handoffs + b.releasing)
    : Inv { s.goto g b with state := word, handoffs := hand } := by
  refine h.set hg hok ?_ ?_ hclear (h.parks.iff (update_eq_iff (by rw [hg]; exact ha) hb)) ?_ <;>
  . dsimp only [goto]
    omega

theorem Inv.goto (hg : s.pc g = a) (ha : a ≠ .parked) (hb : b ≠ .parked) (hok : b.Ok) (hown : a.owner = b.owner)
    (hrel : a.releasing = b.releasing) (hacq : a.acquiring = b.acquiring) : Inv (s.goto g b) := by
  apply h.move hg ha hb hok
  . rw [hown, hrel]
  . rw [hrel, hacq]
  . exact h.clear
  . rw [hrel]

theorem Inv.cas (hg : s.pc g = a) (ha : a ≠ .parked) (hb : b ≠ .parked) (hc : c ≠ .parked) (hok : b.Ok) (hok' : c.Ok)
    (hlocked : s.state = old → word % 2 + a.owner + a.releasing = old % 2 + b.owner + b.releasing)
    (hwaiters : word / 2 + b.releasing + a.acquiring = old / 2 + a.releasing + b.acquiring)
    (hclear : s.state = old → word % 2 = 0 → word = 0) (hrel : a.releasing = b.releasing) (hown' : a.owner = c.owner)
    (hrel' : a.releasing = c.releasing) (hacq' : a.acquiring = c.acquiring) : Inv (s.cas g old word b c) := by
  unfold State.cas
  split
  . next heq =>
    apply h.move hg ha hb hok
    . rw [heq]
      exact hlocked heq
    . rwa [heq]
    . exact hclear heq
    . rw [hrel]
      rfl
  . exact h.goto hg ha hc hok' hown' hrel' hacq'

omit [DecidableEq G] in
theorem Inv.owner_locked (hg : 0 < (s.pc g).owner)
    : s.state % 2 = 1 ∧ total Pc.owner s.pc = 1 ∧ total Pc.releasing s.pc = 0 ∧ s.sema.credit = 0 := by
  have h1 := h.locked
  have h2 := le_total Pc.owner s.pc g
  omega

theorem Inv.take (hg : s.pc g = .acquire) (hpos : 0 < s.sema.credit) : Inv { s.goto g .held with
        sema := { s.sema with credit := s.sema.credit - 1 }
        served := g :: s.served } := by
  apply h.set hg (b := .held) trivial <;> simp only [State.goto, Pc.owner, Pc.releasing, Pc.acquiring, length_cons]
  . omega
  . omega
  . exact h.clear
  . exact (h.parks.take hpos).iff (update_eq_iff (by simp [hg]) (by simp))
  . omega

theorem Inv.park (hg : s.pc g = .acquire) (hzero : ¬ 0 < s.sema.credit)
    : Inv { s.goto g .parked with sema := { s.sema with queue := s.sema.queue ++ [g] } } := by
  apply h.set hg (b := .parked) trivial <;>
    simp only [State.goto, Pc.owner, Pc.releasing, Pc.acquiring, length_append, length_singleton]
  . omega
  . exact h.clear
  . exact (h.parks.park (by simp [hg]) hzero).iff (update_enter_iff s.pc g .parked)

theorem Inv.wake (hg : s.pc g = .release) (hq : s.sema.queue = g' :: rest) : Inv { (s.goto g .idle).goto g' .ready with
        sema := { s.sema with queue := rest }
        served := g' :: s.served } := by
  obtain ⟨_, hpc, hparks⟩ := h.parks.wake_update (g := g) (b := .idle) (c := .ready) hq (by simp [hg]) (by simp) (by simp)
  have hown := total_update Pc.owner s.pc g .idle
  have hrel := total_update Pc.releasing s.pc g .idle
  have hacq := total_update Pc.acquiring s.pc g .idle
  rw [hg] at hown hrel hacq
  have hown' := total_update Pc.owner (update s.pc g .idle) g' .ready
  have hrel' := total_update Pc.releasing (update s.pc g .idle) g' .ready
  have hacq' := total_update Pc.acquiring (update s.pc g .idle) g' .ready
  rw [hpc] at hown' hrel' hacq'
  simp only [Pc.owner, Pc.releasing, Pc.acquiring] at hown hrel hacq hown' hrel' hacq'
  have h1 := h.locked
  have h2 := h.waiters
  have h3 := h.handoffs
  rw [hq, length_cons] at h2
  constructor
  case locked =>
    dsimp only [State.goto]
    omega
  case waiters =>
    dsimp only [State.goto]
    omega
  case clear => exact h.clear
  case parks => exact hparks
  case handoffs =>
    dsimp only [State.goto]
    rw [length_cons]
    omega
  case ok => exact forall_update (forall_update h.ok trivial) trivial

theorem Inv.store (hg : s.pc g = .release) (hq : s.sema.queue = [])
    : Inv { s.goto g .idle with sema := { s.sema with credit := s.sema.credit + 1 } } := by
  apply h.set hg (b := .idle) trivial <;> simp only [State.goto, Pc.owner, Pc.releasing, Pc.acquiring]
  . omega
  . omega
  . exact h.clear
  . exact (h.parks.store hq 1).iff (update_eq_iff (by simp [hg]) (by simp))
  . omega

theorem Inv.acquire (hg : s.pc g = .acquire) (hstep : s.step g = some t) : t.Inv := by
  simp only [step, hg] at hstep
  by_cases hpos : 0 < s.sema.credit
  . rw [Sema.acquire_pos hpos] at hstep
    cases hstep
    exact h.take hg hpos
  . rw [Sema.acquire_zero hpos] at hstep
    cases hstep
    exact h.park hg hpos

theorem Inv.release (hg : s.pc g = .release) (hstep : s.step g = some t) : t.Inv := by
  simp only [step, hg] at hstep
  cases hq : s.sema.queue with
  | nil =>
    rw [Sema.releaseNext_nil hq] at hstep
    cases hstep
    exact h.store hg hq
  | cons =>
    rw [Sema.releaseNext_cons hq] at hstep
    cases hstep
    exact h.wake hg hq

attribute [local simp] Pc.releasing Pc.acquiring Pc.owner Pc.Ok

theorem Inv.step (hstep : s.step g = some t) : t.Inv := by
  have hok := h.ok g
  cases hg : s.pc g
  case acquire => exact h.acquire hg hstep
  case release => exact h.release hg hstep
  all_goals simp only [State.step, hg, reduceCtorEq] at hstep
  case lock | tryLock | unlock =>
    cases hstep
    apply h.cas hg <;> simp [mLocked]
  case slowLoad =>
    simp only [some.injEq, and_locked] at hstep
    rw [← hstep]
    split
    . next heven => apply h.goto hg <;> simp [heven]
    . next hodd =>
      apply h.goto hg <;> simp
      omega
  case slowGrab old =>
    rw [hg] at hok
    have heven : old % 2 = 0 := hok
    simp only [some.injEq, or_locked heven] at hstep
    rw [← hstep]
    apply h.cas hg <;> simp <;> omega
  case slowWait old =>
    rw [hg] at hok
    have hodd : old % 2 = 1 := hok
    cases hstep
    apply h.cas hg <;> simp [mWaiterUnit]
    omega
  case ready =>
    cases hstep
    apply h.goto hg <;> simp
  case unlockLoad =>
    obtain ⟨hbit, _⟩ := h.owner_locked (g := g) (by simp [hg])
    simp only [some.injEq, and_locked, Nat.shiftRight_one] at hstep
    rw [← hstep, if_neg (by omega)]
    split
    all_goals
      apply h.goto hg <;> simp
      omega
  case unlockClear old =>
    rw [hg] at hok
    have hone : old = 1 := hok
    cases hstep
    apply h.cas hg <;> simp [hone]
  case unlockHandoff old =>
    rw [hg] at hok
    obtain ⟨hodd, hpos⟩ : old % 2 = 1 ∧ 1 ≤ old / 2 := hok
    simp only [handoff_word] at hstep
    split at hstep
    . next heq =>
      cases hstep
      apply h.move hg <;> simp <;> omega
    . cases hstep
      apply h.goto hg <;> simp

theorem Inv.call (hcall : s.call g c = some t) : t.Inv := by
  cases c <;>
  . simp only [State.call] at hcall
    split at hcall
    . next hg =>
      cases hcall
      apply h.goto hg <;> simp
    . contradiction

end Move

end State

namespace Pc

def InLock : Pc → Prop
  | .lock => True
  | .slowLoad => True
  | .slowGrab _ => True
  | .slowWait _ => True
  | .acquire => True
  | .parked => True
  | .ready => True
  | _ => False

def InUnlock : Pc → Prop
  | .unlock => True
  | .unlockLoad => True
  | .unlockClear _ => True
  | .unlockHandoff _ => True
  | .release => True
  | _ => False

def Next (a b : Pc) : Prop :=
  (a.InLock → b.InLock ∨ b = .held) ∧
    (a = .tryLock → b = .held ∨ b = .idle) ∧
    (a.InUnlock → b.InUnlock ∨ b = .idle ∨ b = .fatal)

end Pc

namespace State

variable {G : Type u} [DecidableEq G] {s t : State G}

def entry : Call → Pc
  | .lock => .lock
  | .tryLock => .tryLock
  | .unlock => .unlock

theorem call_pc (hcall : s.call g c = some t) : t.pc = update s.pc g (entry c) := by
  cases c <;>
  . unfold call at hcall
    dsimp only at hcall
    split at hcall
    . cases hcall
      rfl
    . contradiction

theorem step_frame (hstep : s.step g = some t) (hne : x ≠ g)
    : t.pc x = s.pc x ∨ x ∈ s.sema.queue ∧ t.pc x = .ready := by
  cases hg : s.pc g
  all_goals simp only [step, hg, reduceCtorEq] at hstep
  case acquire | unlockHandoff =>
    split at hstep <;>
    . cases hstep
      exact .inl (update_of_ne hne _ _)
  case release =>
    cases hq : s.sema.queue with
    | nil =>
      rw [Sema.releaseNext_nil hq] at hstep
      cases hstep
      exact .inl (update_of_ne hne _ _)
    | cons y =>
      rw [Sema.releaseNext_cons hq] at hstep
      cases hstep
      by_cases heq : x = y
      . simp [heq]
      . simp [heq, hne]
  case slowLoad | ready | unlockLoad =>
    cases hstep
    exact .inl (update_of_ne hne _ _)
  all_goals
    simp only [some.injEq, cas] at hstep
    rw [← hstep]
    split <;> exact .inl (update_of_ne hne _ _)

attribute [local simp] Pc.InLock Pc.InUnlock Pc.Next

theorem Inv.step_own [Fintype G] (h : s.Inv) (hstep : s.step g = some t) : (s.pc g).Next (t.pc g) := by
  cases hg : s.pc g
  all_goals simp only [State.step, hg, reduceCtorEq] at hstep
  case acquire | unlockHandoff =>
    split at hstep <;>
    . cases hstep
      simp
  case release =>
    cases hq : s.sema.queue with
    | nil =>
      rw [Sema.releaseNext_nil hq] at hstep
      cases hstep
      simp
    | cons x =>
      obtain ⟨hx, _⟩ := h.parks.wake hq
      have hne : g ≠ x := by
        rintro rfl
        rw [hg] at hx
        contradiction
      rw [Sema.releaseNext_cons hq] at hstep
      cases hstep
      simp [hne]
  case unlockLoad =>
    cases hstep
    simp only [goto_pc, update_self]
    split
    . simp
    . split <;> simp
  case slowLoad =>
    cases hstep
    simp only [goto_pc, update_self]
    split <;> simp
  case ready =>
    cases hstep
    simp
  all_goals
    simp only [some.injEq, State.cas] at hstep
    rw [← hstep]
    split <;> simp

theorem cas_own (s : State G) (ha : a ≠ c) (hb : b ≠ c) : (s.cas g old word a b).pc g ≠ c := by
  unfold cas
  split
  . simp [ha]
  . simp [hb]

theorem step_unparked (hin : (s.pc g).InLock ∨ s.pc g = .tryLock ∨ (s.pc g).InUnlock) (hparked : s.pc g ≠ .parked)
    (hacquire : s.pc g ≠ .acquire) : ∃ t, s.step g = some t ∧ t.pc g ≠ .parked := by
  cases hg : s.pc g with
  | parked => contradiction
  | acquire => contradiction
  | idle | held | fatal => simp [hg] at hin
  | release =>
    cases hq : s.sema.queue with
    | nil =>
      simp only [step, hg, Sema.releaseNext_nil hq]
      exact ⟨_, rfl, by simp⟩
    | cons =>
      simp only [step, hg, Sema.releaseNext_cons hq]
      refine ⟨_, rfl, ?_⟩
      simp only [goto_pc, update_apply]
      split <;> simp
  | unlockHandoff =>
    simp only [step, hg]
    split <;> exact ⟨_, rfl, by simp⟩
  | slowLoad | unlockLoad =>
    simp only [step, hg]
    refine ⟨_, rfl, ?_⟩
    simp [ite_eq_iff]
  | ready =>
    simp only [step, hg]
    exact ⟨_, rfl, by simp⟩
  | _ =>
    simp only [step, hg]
    exact ⟨_, rfl, cas_own s (by simp) (by simp)⟩

end State

end Sync.Mutex
