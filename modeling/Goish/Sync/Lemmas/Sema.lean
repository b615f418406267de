import Goish.Data.Queue
import Goish.Data.Total
import Goish.Sync.Impl.Sema

open List Function Queue Tally

namespace Sync

variable {G : Type u} [DecidableEq G] {s : SemaState G} {a : Sema G} {semaNext : G → Option G}

structure SemaState.Refines (semaNext : G → Option G) (s : SemaState G) (a : Sema G) : Prop where
  credit : s.credit = a.credit
  queue : IsQueue semaNext s.head s.tail a.queue

namespace SemaState.Refines

omit [DecidableEq G] in
theorem new (semaNext : G → Option G) : Refines semaNext SemaState.new Sema.new :=
  ⟨rfl, IsQueue.empty semaNext⟩

theorem acquire (h : Refines semaNext s a) (hg : g ∉ a.queue) : (s.acquire semaNext g).1 = (a.acquire g).1 ∧
        Refines (s.acquire semaNext g).2.2 (s.acquire semaNext g).2.1 (a.acquire g).2 := by
  have hcredit := h.credit
  unfold SemaState.acquire Sema.acquire
  rcases Nat.eq_zero_or_pos a.credit with _ | hpos
  . rw [if_neg (by omega), if_neg (by omega)]
    have hqueue := h.queue
    cases htail : s.tail with
    | none =>
      rw [htail] at hqueue
      exact ⟨rfl, hcredit, hqueue.push_empty g⟩
    | some =>
      rw [htail] at hqueue
      exact ⟨rfl, hcredit, hqueue.push hg⟩
  . rw [if_pos (by omega), if_pos hpos]
    refine ⟨rfl, ?_, h.queue⟩
    dsimp only
    omega

omit [DecidableEq G] in
theorem releaseNext (h : Refines semaNext s a) (left : Nat) : (s.releaseNext semaNext left).1 = (a.releaseNext left).1 ∧
        Refines semaNext (s.releaseNext semaNext left).2 (a.releaseNext left).2 := by
  have hqueue := h.queue
  unfold SemaState.releaseNext SemaState.popHead Sema.releaseNext
  cases hhead : s.head with
  | none =>
    have hl := hqueue.head_eq_none_iff.mp hhead
    rw [hl] at hqueue ⊢
    refine ⟨rfl, ?_, ?_⟩
    . dsimp only
      rw [h.credit]
      exact (Int.natCast_add _ _).symm
    . exact hqueue
  | some =>
    rw [hhead] at hqueue
    obtain ⟨_, hl, hrest⟩ := hqueue.pop
    rw [hl]
    exact ⟨rfl, h.credit, hrest⟩

end SemaState.Refines

namespace Sema

omit [DecidableEq G]

variable {s : Sema G} {parked parked' : G → Prop}

theorem acquire_pos (h : 0 < s.credit) (g : G) : s.acquire g = (true, { s with credit := s.credit - 1 }) :=
  if_pos h

theorem acquire_zero (h : ¬ 0 < s.credit) (g : G) : s.acquire g = (false, { s with queue := s.queue ++ [g] }) :=
  if_neg h

theorem releaseNext_cons (h : s.queue = g :: rest) (left : Nat)
    : s.releaseNext left = (some g, { s with queue := rest }) := by
  unfold releaseNext
  rw [h]

theorem releaseNext_nil (h : s.queue = []) (left : Nat)
    : s.releaseNext left = (none, { s with credit := s.credit + left }) := by
  unfold releaseNext
  rw [h]

structure Parks (s : Sema G) (parked : G → Prop) : Prop where
  mem : ∀ g, g ∈ s.queue ↔ parked g
  nodup : s.queue.Nodup
  credit : 0 < s.credit → s.queue = []

namespace Parks

theorem new (h : ∀ g, ¬ parked g) : Parks Sema.new parked :=
  ⟨fun g => ⟨nofun, fun hg => absurd hg (h g)⟩, nodup_nil, fun _ => rfl⟩

section

variable (h : s.Parks parked)
include h

theorem iff (hiff : ∀ g, parked' g ↔ parked g) : s.Parks parked' :=
  ⟨fun g => (h.mem g).trans (hiff g).symm, h.nodup, h.credit⟩

theorem take (hpos : 0 < s.credit) : Parks { s with credit := s.credit - 1 } parked :=
  ⟨h.mem, h.nodup, fun _ => h.credit hpos⟩

theorem park (hg : ¬ parked g) (hzero : ¬ 0 < s.credit)
    : Parks { s with queue := s.queue ++ [g] } fun x => parked x ∨ x = g := by
  constructor
  case mem =>
    intro x
    rw [mem_append, mem_singleton, h.mem]
  case nodup =>
    rw [nodup_append]
    refine ⟨h.nodup, by simp, ?_⟩
    intro a ha b hb heq
    rw [mem_singleton] at hb
    rw [heq, hb, h.mem] at ha
    exact hg ha
  case credit => exact fun hpos => absurd hpos hzero

theorem wake (hq : s.queue = g :: rest)
    : parked g ∧ s.credit = 0 ∧ Parks { s with queue := rest } fun x => parked x ∧ x ≠ g := by
  have hnodup := h.nodup
  rw [hq, nodup_cons] at hnodup
  have hzero : s.credit = 0 := by
    apply Nat.eq_zero_of_not_pos
    intro hpos
    have := h.credit hpos
    rw [hq] at this
    contradiction
  refine ⟨?_, hzero, ?_, hnodup.2, ?_⟩
  . rw [← h.mem, hq]
    exact mem_cons_self
  . intro x
    rw [← h.mem, hq, mem_cons]
    constructor
    . intro hx
      refine ⟨Or.inr hx, ?_⟩
      intro heq
      exact hnodup.1 (heq ▸ hx)
    . intro ⟨hx, hne⟩
      exact hx.resolve_left hne
  . intro hpos
    dsimp only at hpos
    omega

theorem store (hq : s.queue = []) (n : Nat) : Parks { s with credit := s.credit + n } parked :=
  ⟨h.mem, h.nodup, fun _ => hq⟩

end

theorem wake_update {P : Type v} [DecidableEq G] {pc : G → P} {b c p : P} (h : s.Parks fun y => pc y = p)
    (hq : s.queue = x :: rest) (hg : pc g ≠ p) (hb : b ≠ p) (hc : c ≠ p) : pc x = p ∧ update pc g b x = p ∧
        Parks { s with queue := rest } fun y => update (update pc g b) x c y = p := by
  obtain ⟨hx, _, hparks⟩ := h.wake hq
  refine ⟨hx, (update_eq_iff hg hb x).mpr hx, hparks.iff ?_⟩
  intro y
  rw [update_leave_iff hc, update_eq_iff hg hb]

end Parks

end Sema

end Sync
