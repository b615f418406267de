import Goish.Data.System
import Goish.Data.Total
import Goish.Runtime.Sched.Lemmas.RunQueue

open List Function Option UInt32

namespace Sched

namespace State

variable {n : Nat} {G : Type u} {s : State n G}

def goroutines (s : State n G) : Multiset G :=
  Tally.total P.goroutines s.ps + (s.runq : Multiset G)

def Good (s : State n G) : Prop :=
  ∀ i, ∃ q, (s.ps i).Repr q

theorem new_good : (new : State n G).Good := by
  intro i
  exact ⟨_, P.new_repr⟩

theorem new_goroutines : (new : State n G).goroutines = 0 := by
  unfold goroutines
  rw [Tally.total_eq_zero]
  . rfl
  intro i
  exact P.new_repr.goroutines

theorem setP_self (s : State n G) (i : Fin n) (p : P G) : (s.setP i p).ps i = p :=
  update_self _ _ _

theorem setP_of_ne (s : State n G) (hne : j ≠ i) (p : P G) : (s.setP i p).ps j = s.ps j :=
  update_of_ne hne _ _

theorem Good.setP (h : s.Good) (hp : p.Repr q) : (s.setP i p).Good := by
  intro j
  by_cases heq : j = i
  . rw [heq, setP_self]
    exact ⟨q, hp⟩
  . rw [setP_of_ne s heq]
    exact h j

theorem setP_goroutines (s : State n G) (i : Fin n) (p : P G)
    : (s.setP i p).goroutines + (s.ps i).goroutines = s.goroutines + p.goroutines := by
  unfold goroutines setP
  rw [add_right_comm, Tally.total_update, add_right_comm]

theorem Good.runqput (h : s.Good) (i : Fin n) (g : G) (next : Bool)
    : (s.runqput i g next).Good ∧ (s.runqput i g next).goroutines = g ::ₘ s.goroutines := by
  obtain ⟨q, hq⟩ := h i
  obtain ⟨hbatch, hput⟩ := hq.runqput g next
  have hbag := q.put_bag localRunqSize g next
  have hset := s.setP_goroutines i ((s.ps i).runqput g next).2
  rw [hq.goroutines, hput.goroutines] at hset
  refine ⟨h.setP hput, ?_⟩
  have hglob : (s.runqput i g next).goroutines =
      (s.setP i ((s.ps i).runqput g next).2).goroutines + ((q.put localRunqSize g next).1 : Multiset G) := by
    rw [← P.reduceOption_map_some (q.put localRunqSize g next).1, ← hbatch]
    unfold State.runqput globrunqputBatch goroutines
    rw [← Multiset.coe_add, add_assoc]
  apply add_right_cancel (b := q.bag)
  calc (s.runqput i g next).goroutines + q.bag
    _ = s.goroutines + ((q.put localRunqSize g next).1 + (q.put localRunqSize g next).2.bag) := by
      rw [hglob, add_right_comm, hset, add_right_comm, add_assoc]
    _ = g ::ₘ s.goroutines + q.bag := by
      rw [hbag, Multiset.add_cons, Multiset.cons_add]

theorem Good.runqget (h : s.Good) (i : Fin n) : (s.runqget i).2.Good ∧
        ((s.runqget i).1.toList : Multiset G) + (s.runqget i).2.goroutines = s.goroutines := by
  obtain ⟨q, hq⟩ := h i
  obtain ⟨hresult, hget⟩ := hq.runqget
  have hset := s.setP_goroutines i (s.ps i).runqget.2
  rw [hq.goroutines, hget.goroutines] at hset
  refine ⟨h.setP hget, ?_⟩
  apply add_right_cancel (b := q.bag)
  calc ((s.runqget i).1.toList : Multiset G) + (s.runqget i).2.goroutines + q.bag
    _ = (q.get.1.toList : Multiset G) + (s.goroutines + q.get.2.bag) := by
      rw [← hset, ← hresult, add_assoc]
      rfl
    _ = s.goroutines + q.bag := by
      rw [add_left_comm, q.get_bag]

theorem setP_setP_goroutines (s : State n G) (hne : i ≠ j) (p p' : P G)
    : ((s.setP j p').setP i p).goroutines + ((s.ps i).goroutines + (s.ps j).goroutines) =
        s.goroutines + (p.goroutines + p'.goroutines) := by
  have hset := (s.setP j p').setP_goroutines i p
  rw [s.setP_of_ne hne] at hset
  rw [← add_assoc, hset, add_right_comm, setP_goroutines, add_assoc, add_comm p'.goroutines]

theorem ofNat_succ_sub_one (k : Nat) : ofNat (k + 1) - 1 = ofNat k := by
  rw [ofNat_add]
  exact UInt32.add_sub_cancel _ _

theorem runqsteal_eq {next : Bool} (hgrab : (s.ps j).runqgrab (s.ps i).runq (s.ps i).runqtail next =
      some (ofNat (l ++ [g]).length, target, cells)) (hne : i ≠ j) (hlen : l.length < localRunqSize)
    : s.runqsteal i j next = some (cells (P.slot ((s.ps i).runqtail + ofNat l.length)),
        (s.setP j target).setP i
          { s.ps i with runq := cells, runqtail := (s.ps i).runqtail + ofNat l.length }) := by
  have hpos : ofNat (l ++ [g]).length ≠ 0 := by
    intro heq
    have hzero := congrArg toNat heq
    rw [P.toNat_ofNat_small] at hzero <;> simp at hzero ⊢
    omega
  unfold State.runqsteal
  simp only [hgrab, s.setP_of_ne hne, if_neg hpos]
  rw [length_append, length_singleton, ofNat_succ_sub_one]
  split
  . next hzero => simp [hzero]
  . rfl

theorem runqsteal_nil {next : Bool} (hgrab : (s.ps j).runqgrab (s.ps i).runq (s.ps i).runqtail next =
      some (0, target, (s.ps i).runq)) (hne : i ≠ j)
    : s.runqsteal i j next = some (none, (s.setP j target).setP i (s.ps i)) := by
  unfold State.runqsteal
  simp only [hgrab, s.setP_of_ne hne, if_true]

theorem Good.runqsteal (h : s.Good) (hne : i ≠ j) (hempty : (s.ps i).runqhead = (s.ps i).runqtail) (next : Bool)
    : ∃ r, s.runqsteal i j next = some r ∧ r.2.Good ∧
        (r.1.toList : Multiset G) + r.2.goroutines = s.goroutines := by
  obtain ⟨q, hq⟩ := h i
  obtain ⟨q', hq'⟩ := h j
  have hring : q.ring = [] := hq.ring.runqtail_eq_iff.mp hempty.symm
  obtain ⟨_, hgrab, htarget⟩ := hq'.runqgrab (s.ps i).runq (s.ps i).runqtail next
  have hlength := Local.length_grab hq'.ring.length_le (by decide) next
  have hbag := q'.grab_bag next
  have hset := s.setP_setP_goroutines hne
  rw [hq.goroutines, hq'.goroutines] at hset
  have htarget_bag := htarget.goroutines
  cases hbatch : (q'.grab next).1 using List.reverseRecOn with
  | nil =>
    rw [hbatch] at hgrab hbag
    rw [Multiset.coe_nil, zero_add, ← htarget_bag] at hbag
    refine ⟨_, runqsteal_nil hgrab hne, (h.setP htarget).setP hq, ?_⟩
    apply add_right_cancel (b := q.bag + q'.bag)
    rw [toList_none, Multiset.coe_nil, zero_add, hset, hq.goroutines, hbag]
  | append_singleton l g =>
    rw [hbatch] at hgrab hbag hlength
    have hlen : l.length < localRunqSize := by
      simp only [localRunqSize, length_append, length_singleton] at hlength ⊢
      omega
    obtain ⟨hlast, hkept⟩ := hq.keep hring l g hlen
    refine ⟨_, runqsteal_eq hgrab hne hlen, (h.setP htarget).setP hkept, ?_⟩
    apply add_right_cancel (b := q.bag + q'.bag)
    have hkeep := q.keep_bag (l ++ [g]) hring
    simp only [Local.keep, List.getLast?_concat, dropLast_concat] at hkeep
    rw [hlast, add_assoc, hset, hkept.goroutines, htarget_bag, add_left_comm, ← add_assoc _ _ (q'.grab next).2.bag,
      hkeep, add_assoc q.bag, hbag]

end State

structure History (n : Nat) (G : Type u) where
  state : State n G
  put : Multiset G
  got : Multiset G

def runqSystem (n : Nat) (G : Type u) : System (History n G) where
  init h := h = { state := .new, put := 0, got := 0 }
  step h h' :=
    (∃ i g next, h' = { h with state := h.state.runqput i g next, put := g ::ₘ h.put }) ∨
      (∃ i, h' = { h with state := (h.state.runqget i).2, got := (h.state.runqget i).1.toList + h.got }) ∨
      ∃ i j next r, i ≠ j ∧ (h.state.ps i).runqhead = (h.state.ps i).runqtail ∧
        h.state.runqsteal i j next = some r ∧ h' = { h with state := r.2, got := r.1.toList + h.got }

namespace History

variable {n : Nat} {G : Type u} {h h' : History n G}

def Inv (h : History n G) : Prop :=
  h.state.Good ∧ h.got + h.state.goroutines = h.put

theorem Inv.step (hinv : h.Inv) (hstep : (runqSystem n G).step h h') : h'.Inv := by
  obtain ⟨hgood, hsum⟩ := hinv
  rcases hstep with hput | hrest
  . obtain ⟨i, g, next, heq⟩ := hput
    obtain ⟨hgood', hbag⟩ := hgood.runqput i g next
    rw [heq]
    refine ⟨hgood', ?_⟩
    rw [hbag, Multiset.add_cons, hsum]
  rcases hrest with hget | hsteal
  . obtain ⟨i, heq⟩ := hget
    obtain ⟨hgood', hbag⟩ := hgood.runqget i
    rw [heq]
    refine ⟨hgood', ?_⟩
    rw [add_right_comm, hbag, add_comm, hsum]
  obtain ⟨_, _, next, _, hne, hempty, hr, heq⟩ := hsteal
  obtain ⟨_, hr', hgood', hbag⟩ := hgood.runqsteal hne hempty next
  rw [hr, some.injEq] at hr'
  subst hr'
  rw [heq]
  refine ⟨hgood', ?_⟩
  rw [add_right_comm, hbag, add_comm, hsum]

theorem reachable_inv (hreach : (runqSystem n G).Reachable h) : h.Inv := by
  apply hreach.invariant
  . rintro h rfl
    exact ⟨State.new_good, by simp [State.new_goroutines]⟩
  . exact fun _ _ hinv hstep => hinv.step hstep

end History

theorem runq_conserve {n : Nat} {G : Type u} {h : History n G} (hreach : (runqSystem n G).Reachable h)
    : h.got + h.state.goroutines = h.put ∧
        (∀ i g next, (h.state.runqput i g next).goroutines = g ::ₘ h.state.goroutines) ∧
        (∀ i, ((h.state.runqget i).1.toList : Multiset G) + (h.state.runqget i).2.goroutines =
          h.state.goroutines) ∧
        (∀ i j next, i ≠ j → (h.state.ps i).runqhead = (h.state.ps i).runqtail →
          ∃ r, h.state.runqsteal i j next = some r ∧
            (r.1.toList : Multiset G) + r.2.goroutines = h.state.goroutines) ∧
        (h.put.Nodup → (h.got + h.state.goroutines).Nodup) := by
  obtain ⟨hgood, hsum⟩ := History.reachable_inv hreach
  refine ⟨hsum, fun i g next => (hgood.runqput i g next).2, fun i => (hgood.runqget i).2, ?_, ?_⟩
  . intro i j next hne hempty
    obtain ⟨r, hr, _, hbag⟩ := hgood.runqsteal hne hempty next
    exact ⟨r, hr, hbag⟩
  . intro _
    rwa [hsum]

namespace History

inductive Act (n : Nat) (G : Type u) where
  | put (i : Fin n) (g : G) (next : Bool)
  | get (i : Fin n)
  | steal (i j : Fin n) (next : Bool)

def act (h : History n G) : Act n G → Option (History n G)
  | .put i g next => some { h with state := h.state.runqput i g next, put := g ::ₘ h.put }
  | .get i => some { h with state := (h.state.runqget i).2, got := (h.state.runqget i).1.toList + h.got }
  | .steal i j next =>
    if i ≠ j ∧ (h.state.ps i).runqhead = (h.state.ps i).runqtail then
      match h.state.runqsteal i j next with
      | none => none
      | some r => some { h with state := r.2, got := r.1.toList + h.got }
    else
      none

theorem act_step (h : History n G) (a : Act n G) (h' : History n G) (hact : h.act a = some h')
    : (runqSystem n G).step h h' := by
  cases a with
  | put i g next => exact .inl ⟨i, g, next, (some.inj hact).symm⟩
  | get i => exact .inr (.inl ⟨i, (some.inj hact).symm⟩)
  | steal i j next =>
    simp only [act] at hact
    split at hact
    . next hguard =>
      split at hact
      . contradiction
      . next r hr => exact .inr (.inr ⟨i, j, next, r, hguard.1, hguard.2, hr, (some.inj hact).symm⟩)
    . contradiction

end History

theorem runq_conserve_steal : ∃ h : History 2 Nat, (runqSystem 2 Nat).Reachable h ∧ h.put = {3, 2, 1} ∧ h.got = {2} ∧
        h.got + h.state.goroutines = h.put := by
  obtain ⟨h, hrun, hh⟩ := System.exists_run _ _ History.act_step
    ({ state := .new, put := 0, got := 0 } : History 2 Nat)
    [.put 0 1 false, .put 0 2 false, .put 0 3 false, .steal 1 0 true]
    (fun h => h.put = {3, 2, 1} ∧ h.got = {2})
    (by decide +kernel)
  rw [decide_eq_true_eq] at hh
  have hinit : (runqSystem 2 Nat).Reachable { state := .new, put := 0, got := 0 } := .init rfl
  have hreach := hinit.trans hrun
  exact ⟨h, hreach, hh.1, hh.2, (runq_conserve hreach).1⟩

end Sched
