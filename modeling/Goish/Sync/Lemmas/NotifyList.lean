import Goish.Data.Queue
import Goish.Data.Total
import Goish.Sync.Impl.NotifyList

open List Function Tally Option

namespace Sync.NotifyList

variable {G : Type u} [DecidableEq G]

namespace ListState

open Queue

def Refines (semaNext : G → Option G) (s : ListState G) (l : List G) : Prop :=
  IsQueue semaNext s.head s.tail l

variable {semaNext : G → Option G} {s : ListState G}

theorem Refines.enqueue (h : Refines semaNext s l) (hg : g ∉ l)
    : Refines (s.enqueue semaNext g).2 (s.enqueue semaNext g).1 (l ++ [g]) := by
  unfold Refines ListState.enqueue at *
  cases htail : s.tail with
  | none =>
    rw [htail] at h
    exact h.push_empty g
  | some =>
    rw [htail] at h
    exact h.push hg

theorem wakeAll_eq {l : List G} (h : Links semaNext cur l) (hnodup : l.Nodup) (hfuel : l.length ≤ fuel)
    : (wakeAll semaNext fuel cur).1 = l := by
  induction l generalizing semaNext cur fuel with
  | nil =>
    rw [h.head_eq]
    cases fuel <;> rfl
  | cons g l ih =>
    obtain ⟨rfl, hrest⟩ := h
    rw [nodup_cons] at hnodup
    rcases fuel with _ | fuel
    . simp at hfuel
    have hsame : ∀ x ∈ l, update semaNext g none x = semaNext x := by
      intro x hx
      apply update_of_ne
      rintro rfl
      exact hnodup.1 hx
    exact congrArg (g :: ·) (ih (hrest.congr hsame) hnodup.2 (by simpa using hfuel))

theorem remove_go_eq (l1 : List G) (h : Refines semaNext s (l1 ++ l2))
    (hlinks : Links semaNext cur l2) (hl1 : ∀ x ∈ l1, ¬ decide (notifyTicket x = t) = true)
    (hfuel : l2.length ≤ fuel) : (remove.go s semaNext notifyTicket t fuel l1.getLast? cur).1
          = (l1 ++ l2).find? (fun x => notifyTicket x = t) ∧
        Refines (remove.go s semaNext notifyTicket t fuel l1.getLast? cur).2.2
          (remove.go s semaNext notifyTicket t fuel l1.getLast? cur).2.1
          ((l1 ++ l2).eraseP fun x => notifyTicket x = t) := by
  induction l2 generalizing l1 cur fuel with
  | nil =>
    have hgo : remove.go s semaNext notifyTicket t fuel l1.getLast? cur = (none, s, semaNext) := by
      rw [hlinks.head_eq]
      unfold remove.go
      rfl
    rw [append_nil] at h ⊢
    rw [hgo, List.find?_eq_none.mpr hl1, eraseP_of_forall_not hl1]
    exact ⟨rfl, h⟩
  | cons x _ ih =>
    obtain ⟨hcur, hrest⟩ := hlinks
    rw [hcur]
    rcases fuel with _ | _
    . simp at hfuel
    unfold remove.go
    by_cases heq : notifyTicket x = t
    . have hq := IsQueue.unlink h
      simp only [if_pos heq]
      rw [List.find?_append, List.find?_eq_none.mpr hl1, eraseP_append_right _ hl1]
      cases hprev : l1.getLast? with
      | none =>
        rw [List.getLast?_eq_none_iff] at hprev
        simp only [hprev] at hq ⊢
        simp only [heq, decide_true, List.find?_cons_of_pos, eraseP_cons_of_pos, none_or, true_and]
        exact hq
      | some =>
        have hne : l1 ≠ [] := by
          rintro rfl
          cases hprev
        simp only [hprev, if_neg hne] at hq
        simp only [heq, decide_true, List.find?_cons_of_pos, eraseP_cons_of_pos, none_or, true_and]
        exact hq
    . simp only [if_neg heq]
      have hmore : ∀ y ∈ l1 ++ [x], ¬ decide (notifyTicket y = t) = true := by
        intro y hy
        rw [mem_append, mem_singleton] at hy
        rcases hy with hy | hy
        . exact hl1 y hy
        . rw [hy]
          simpa using heq
      rw [append_cons] at h ⊢
      have hgo := ih (l1 ++ [x]) h hrest hmore (by simpa using hfuel)
      rwa [List.getLast?_concat] at hgo

theorem remove_go_frame (hlinks : Links semaNext cur l) (hx : x ∉ l) (hpre : pre ≠ some x)
    : (remove.go s semaNext notifyTicket t fuel pre cur).2.2 x = semaNext x := by
  induction l generalizing pre cur fuel with
  | nil =>
    rw [hlinks.head_eq]
    unfold remove.go
    rfl
  | cons y _ ih =>
    obtain ⟨rfl, hrest⟩ := hlinks
    rw [mem_cons, not_or] at hx
    unfold remove.go
    split
    . rfl
    . rfl
    next heq =>
    cases heq
    split
    . cases pre with
      | none => exact update_of_ne hx.1 _ _
      | some z =>
        dsimp only
        rw [update_of_ne hx.1, update_of_ne fun heq => hpre (congrArg some heq.symm)]
    . exact ih hrest hx.2 fun heq => hx.1 (Option.some.inj heq).symm

theorem Refines.remove (h : Refines semaNext s l) (hfuel : l.length ≤ fuel)
    : (s.remove semaNext notifyTicket t fuel).1 = l.find? (fun x => notifyTicket x = t) ∧
        Refines (s.remove semaNext notifyTicket t fuel).2.2 (s.remove semaNext notifyTicket t fuel).2.1
          (l.eraseP fun x => notifyTicket x = t) :=
  remove_go_eq [] h h.links nofun hfuel

end ListState

theorem less_of_lt (h : n < m) (hnear : m ≤ n + 2 ^ 31) : less (n % 2 ^ 32) (m % 2 ^ 32) = true := by
  unfold less int32
  rw [decide_eq_true_eq]
  split <;> omega

theorem not_less_of_le (h : m ≤ n) (hnear : n < m + 2 ^ 31) : less (n % 2 ^ 32) (m % 2 ^ 32) = false := by
  unfold less int32
  rw [decide_eq_false_iff_not]
  split <;> omega

theorem Pc.free_spec {p : Pc} (hp : p.free) : p ≠ .parked ∧ p.holds = false := by
  cases p <;> simp_all [Pc.free, Pc.holds]

namespace State

variable {s t : State G}

def Fits (s : State G) (g : G) : Prop :=
  match s.pc g with
  | .ticket t => t = s.number g % 2 ^ 32
  | .wait t => t = s.number g % 2 ^ 32
  | .parked => s.notifyTicket g = s.number g % 2 ^ 32 ∧ s.notified ≤ s.number g
  | .notifyAllLoaded w => ∃ n, s.issued g ≤ n ∧ n ≤ s.handed ∧ w = n % 2 ^ 32
  | .notifyOneLoaded w => ∃ n, s.issued g ≤ n ∧ n ≤ s.handed ∧ w = n % 2 ^ 32
  | .notifyAllLocked => s.issued g ≤ s.handed
  | .notifyOneLocked => s.issued g ≤ s.handed
  | .notifyAll => s.issued g ≤ s.handed
  | .notifyOne => s.issued g ≤ s.handed
  | .notifiedAll => s.issued g ≤ s.notified
  | _ => True

structure Inv (s : State G) : Prop where
  wait : s.wait = s.handed % 2 ^ 32
  notify : s.notify = s.notified % 2 ^ 32
  le : s.notified ≤ s.handed
  number : ∀ x, (s.pc x).holds → s.number x < s.handed
  near : ∀ x, (s.pc x).holds → s.handed ≤ s.number x + 2 ^ 31
  inj : ∀ x y, (s.pc x).holds → (s.pc y).holds → s.number x = s.number y → x = y
  held : ∀ n, s.notified ≤ n → n < s.handed → ∃ x, (s.pc x).holds ∧ s.number x = n
  queue : ∀ x, x ∈ s.queue ↔ s.pc x = .parked
  nodup : s.queue.Nodup
  fits : ∀ x, s.Fits x

omit [DecidableEq G] in
theorem Inv.close (h : s.Inv) : s.handed ≤ s.notified + 2 ^ 31 := by
  rcases lt_or_ge s.notified s.handed with hlt | _
  . obtain ⟨x, hx, hn⟩ := h.held s.notified le_rfl hlt
    rw [← hn]
    exact h.near x hx
  . omega

omit [DecidableEq G] in
theorem Inv.notify_eq_iff (h : s.Inv) : s.notify = s.wait ↔ s.notified = s.handed := by
  have hclose := h.close
  have hle := h.le
  rw [h.wait, h.notify]
  omega

attribute [local simp] Fits

omit [DecidableEq G] in
theorem new_inv : Inv (new : State G) := by
  constructor <;> simp [new, Pc.holds]

omit [DecidableEq G] in
theorem Fits.mono (h : s.Fits x) (hpc : t.pc x = s.pc x)
    (hsame : t.number x = s.number x ∧ t.notifyTicket x = s.notifyTicket x ∧ t.issued x = s.issued x)
    (hhanded : s.handed ≤ t.handed) (hnotified : s.notified ≤ t.notified)
    (hparked : s.pc x = .parked → t.notified ≤ s.number x) : t.Fits x := by
  obtain ⟨hnumber, hticket, hissued⟩ := hsame
  unfold Fits at *
  rw [hpc, hnumber, hticket, hissued]
  cases hs : s.pc x
  any_goals simp only [hs] at h
  case parked => exact ⟨h.1, hparked hs⟩
  case notifyAllLoaded | notifyOneLoaded =>
    obtain ⟨n, h1, h2, h3⟩ := h
    exact ⟨n, h1, le_trans h2 hhanded, h3⟩
  case notifyAll | notifyOne | notifyAllLocked | notifyOneLocked => exact le_trans h hhanded
  case notifiedAll => exact le_trans h hnotified
  case ticket | wait => exact h
  all_goals trivial

omit [DecidableEq G] in
theorem Fits.parked (h : s.Fits x) (hpc : s.pc x = .parked)
    : s.notifyTicket x = s.number x % 2 ^ 32 ∧ s.notified ≤ s.number x := by
  unfold Fits at h
  rwa [hpc] at h

section Moves

variable (h : s.Inv)
include h

theorem Inv.move {issued : G → Nat} (hg : s.pc g = a) (hpark : a ≠ .parked ∧ b ≠ .parked) (hb : b.holds → a.holds)
    (ha : a.holds → b.holds ∨ s.number g < s.notified) (hissued : ∀ x, x ≠ g → issued x = s.issued x)
    (hfits : Fits { s.goto g b with issued := issued } g) : Inv { s.goto g b with issued := issued } := by
  have hholds : ∀ x, (update s.pc g b x).holds → (s.pc x).holds := by
    intro x hx
    by_cases heq : x = g
    . rw [heq, update_self] at hx
      rw [heq, hg]
      exact hb hx
    . rwa [update_of_ne heq] at hx
  refine { h with
    number := fun x hx => h.number x (hholds x hx)
    near := fun x hx => h.near x (hholds x hx)
    inj := fun x y hx hy => h.inj x y (hholds x hx) (hholds y hy)
    held := ?held, queue := ?queue, fits := ?fits }
  case held =>
    intro n hle hlt
    obtain ⟨x, hx, hn⟩ := h.held n hle hlt
    refine ⟨x, ?_, hn⟩
    dsimp only [State.goto]
    by_cases heq : x = g
    . rw [heq] at hx hn
      rw [hg] at hx
      rw [heq, update_self]
      rcases ha hx with hb | _
      . exact hb
      . dsimp only [State.goto] at hle
        omega
    . rwa [update_of_ne heq]
  case queue =>
    intro x
    exact (h.queue x).trans (update_eq_iff (by rw [hg]; exact hpark.1) hpark.2 x).symm
  case fits =>
    intro x
    by_cases heq : x = g
    . rwa [heq]
    . refine (h.fits x).mono (update_of_ne heq _ _) ⟨rfl, rfl, hissued x heq⟩ le_rfl le_rfl ?_
      exact fun hparked => ((h.fits x).parked hparked).2

theorem Inv.goto (hg : s.pc g = a) (hpark : a ≠ .parked ∧ b ≠ .parked) (ha : a.holds = b.holds)
    (hfits : (s.goto g b).Fits g) : Inv (s.goto g b) :=
  h.move hg hpark (fun hb => ha ▸ hb) (fun hb => .inl (ha ▸ hb)) (fun _ _ => rfl) hfits

attribute [local simp] State.goto

theorem Inv.add (hg : s.pc g = .add) (hstep : s.step g = some t)
    (hnear : ∀ x, (s.pc x).holds → s.handed + 1 ≤ s.number x + 2 ^ 31) : t.Inv := by
  simp only [State.step, hg] at hstep
  cases hstep
  -- The other goroutines keep their tickets.
  have hcases : ∀ x, (update s.pc g (.ticket s.wait) x).holds →
      x = g ∧ update s.number g s.handed x = s.handed ∨
        x ≠ g ∧ (s.pc x).holds ∧ update s.number g s.handed x = s.number x := by
    intro x hx
    by_cases heq : x = g
    . exact .inl ⟨heq, by rw [heq, update_self]⟩
    . rw [update_of_ne heq] at hx ⊢
      exact .inr ⟨heq, hx, rfl⟩
  constructor
  case wait =>
    dsimp only
    rw [h.wait]
    omega
  case notify => exact h.notify
  case le => exact Nat.le_succ_of_le h.le
  case number =>
    intro x hx
    dsimp only
    rcases hcases x hx with _ | hold
    . omega
    have := h.number x hold.2.1
    omega
  case near =>
    intro x hx
    dsimp only
    rcases hcases x hx with _ | hold
    . omega
    have := hnear x hold.2.1
    omega
  case inj =>
    intro x y hx hy heq
    dsimp only at heq
    rcases hcases x hx with hnewx | holdx
    . rcases hcases y hy with hnewy | holdy
      . rw [hnewx.1, hnewy.1]
      . have := h.number y holdy.2.1
        omega
    rcases hcases y hy with _ | holdy
    . have := h.number x holdx.2.1
      omega
    . apply h.inj x y holdx.2.1 holdy.2.1
      omega
  case held =>
    intro n hle hlt
    dsimp only [State.goto] at hle hlt ⊢
    rcases lt_or_eq_of_le (Nat.le_of_lt_succ hlt) with hlt | heq
    . obtain ⟨x, hx, hn⟩ := h.held n hle hlt
      have hne : x ≠ g := by
        rintro rfl
        rw [hg] at hx
        contradiction
      refine ⟨x, ?_, ?_⟩
      . rwa [update_of_ne hne]
      . rwa [update_of_ne hne]
    . refine ⟨g, ?_, ?_⟩
      . rw [update_self]
        rfl
      . rw [update_self]
        exact heq.symm
  case queue =>
    intro x
    exact (h.queue x).trans (update_eq_iff (by simp [hg]) (by simp) x).symm
  case nodup => exact h.nodup
  case fits =>
    intro x
    by_cases heq : x = g
    . simp [heq, h.wait]
    . refine (h.fits x).mono (update_of_ne heq _ _) ⟨update_of_ne heq _ _, rfl, rfl⟩ (Nat.le_succ _)
        le_rfl ?_
      exact fun hparked => ((h.fits x).parked hparked).2

omit [DecidableEq G] in
theorem Inv.less_iff (hg : s.pc g = .wait k) : less k s.notify = true ↔ s.number g < s.notified := by
  have hk : k = s.number g % 2 ^ 32 := by
    have hfits := h.fits g
    unfold Fits at hfits
    rwa [hg] at hfits
  have hnumber := h.number g (by simp [hg, Pc.holds])
  have hnear := h.near g (by simp [hg, Pc.holds])
  have hle := h.le
  have hclose := h.close
  rw [hk, h.notify]
  constructor
  . intro hless
    apply lt_of_not_ge
    intro hge
    rw [not_less_of_le hge (by omega)] at hless
    contradiction
  . exact fun hlt => less_of_lt hlt (by omega)

theorem Inv.wait_step (hg : s.pc g = .wait k) (hstep : s.step g = some t) : t.Inv := by
  have hk := h.fits g
  unfold Fits at hk
  simp only [hg] at hk
  simp only [State.step, hg] at hstep
  split at hstep
  . next hless =>
    cases hstep
    refine h.move hg (by simp) (by simp [Pc.holds]) ?_ (fun _ _ => rfl) (by simp)
    exact fun _ => .inr ((h.less_iff hg).mp hless)
  next hnot =>
  cases hstep
  have hge : s.notified ≤ s.number g := by
    rw [h.less_iff hg] at hnot
    exact le_of_not_gt hnot
  have hholds : ∀ x, (update s.pc g .parked x).holds = (s.pc x).holds := by
    intro x
    by_cases heq : x = g
    . rw [heq, update_self, hg]
      rfl
    . rw [update_of_ne heq]
  have hnotin : g ∉ s.queue := by
    rw [h.queue, hg]
    simp
  refine { h with
    number := fun x hx => h.number x ((hholds x).symm.trans hx)
    near := fun x hx => h.near x ((hholds x).symm.trans hx)
    inj := fun x y hx hy => h.inj x y ((hholds x).symm.trans hx) ((hholds y).symm.trans hy)
    held := ?held, queue := ?queue, nodup := ?nodup, fits := ?fits }
  case held =>
    intro n hle hlt
    obtain ⟨x, hx, hn⟩ := h.held n hle hlt
    exact ⟨x, (hholds x).trans hx, hn⟩
  case queue =>
    intro x
    dsimp only [State.goto]
    rw [mem_append, mem_singleton, h.queue, update_enter_iff]
  case nodup =>
    rw [nodup_append]
    refine ⟨h.nodup, by simp, ?_⟩
    intro a ha b hb heq
    rw [mem_singleton] at hb
    rw [heq, hb] at ha
    exact hnotin ha
  case fits =>
    intro x
    by_cases heq : x = g
    . simp [heq, hk, hge]
    . refine (h.fits x).mono (update_of_ne heq _ _) ⟨rfl, update_of_ne heq _ _, rfl⟩ le_rfl
        le_rfl ?_
      exact fun hparked => ((h.fits x).parked hparked).2

theorem Inv.wakeAll (hg : s.pc g = .notifyAllLocked) : (s.wakeAll g).Inv := by
  have hissued := h.fits g
  unfold Fits at hissued
  rw [hg] at hissued
  -- A goroutine of the list goes on, the others stay where they are.
  have hpc : ∀ x, x ≠ g → (s.wakeAll g).pc x = if x ∈ s.queue then .ready else s.pc x := by
    intro x hne
    simp [State.wakeAll, hne]
  have hholds : ∀ x, ((s.wakeAll g).pc x).holds → (s.pc x).holds ∧ x ∉ s.queue ∧ x ≠ g := by
    intro x hx
    by_cases heq : x = g
    . simp [State.wakeAll, heq, Pc.holds] at hx
    rw [hpc x heq] at hx
    split at hx
    . contradiction
    . next hnot => exact ⟨hx, hnot, heq⟩
  constructor
  case wait => exact h.wait
  case notify => exact h.wait
  case le => exact le_rfl
  case number => exact fun x hx => h.number x (hholds x hx).1
  case near => exact fun x hx => h.near x (hholds x hx).1
  case inj => exact fun x y hx hy => h.inj x y (hholds x hx).1 (hholds y hy).1
  case held =>
    intro n hle hlt
    exact absurd hlt (not_lt.mpr hle)
  case queue =>
    intro x
    constructor
    . exact nofun
    intro hx
    obtain ⟨_, hnot, hne⟩ := hholds x (by rw [hx]; rfl)
    rw [hpc x hne, if_neg hnot, ← h.queue] at hx
    contradiction
  case nodup => exact nodup_nil
  case fits =>
    intro x
    by_cases heq : x = g
    . rw [heq]
      simp only [Fits, State.wakeAll, update_self]
      exact hissued
    by_cases hin : x ∈ s.queue
    . unfold Fits
      rw [hpc x heq, if_pos hin]
      trivial
    . refine (h.fits x).mono (by rw [hpc x heq, if_neg hin]) ⟨rfl, rfl, rfl⟩ le_rfl h.le ?_
      intro hparked
      rw [← h.queue] at hparked
      contradiction

omit [DecidableEq G] in
theorem Inv.ticket_iff (hlt : s.notified < s.handed) (hx : x ∈ s.queue)
    : s.notifyTicket x = s.notify ↔ s.number x = s.notified := by
  rw [h.queue] at hx
  obtain ⟨hticket, _⟩ := (h.fits x).parked hx
  have hnumber := h.number x (by rw [hx]; rfl)
  have hclose := h.close
  rw [hticket, h.notify]
  omega

theorem Inv.wakeOne_none (hg : s.pc g = .notifyOneLocked) (hlt : s.notified < s.handed)
    (hnone : ∀ x ∈ s.queue, s.number x ≠ s.notified) : Inv { s.goto g .notifiedOne with
        notify := (s.notify + 1) % 2 ^ 32
        notified := s.notified + 1 } := by
  have hinv := h.goto (b := .notifiedOne) hg (by simp) rfl (by simp)
  refine { hinv with
    notify := ?notify, le := hlt, held := fun n hle hlt => hinv.held n (Nat.le_of_succ_le hle) hlt, fits := ?fits }
  case notify =>
    dsimp only
    rw [h.notify]
    omega
  case fits =>
    intro x
    refine (hinv.fits x).mono rfl ⟨rfl, rfl, rfl⟩ le_rfl (Nat.le_succ _) ?_
    intro hparked
    have hle := ((hinv.fits x).parked hparked).2
    have hne := hnone x ((hinv.queue x).mpr hparked)
    dsimp only [State.goto] at hle ⊢
    omega

theorem Inv.wakeOne_some (hg : s.pc g = .notifyOneLocked) (hlt : s.notified < s.handed) (hq : s.queue = l1 ++ x :: l2)
    (hx : s.number x = s.notified) : Inv { (s.goto g .notifiedOne).goto x .ready with
        queue := l1 ++ l2
        notify := (s.notify + 1) % 2 ^ 32
        notified := s.notified + 1 } := by
  have hinv := h.goto (b := .notifiedOne) hg (by simp) rfl (by simp)
  have hparked : (s.goto g .notifiedOne).pc x = .parked := by
    rw [← hinv.queue]
    simp [hq]
  have hnodup := h.nodup
  rw [hq, nodup_middle, nodup_cons] at hnodup
  have hholds : ∀ y, (update (s.goto g .notifiedOne).pc x .ready y).holds →
      y ≠ x ∧ ((s.goto g .notifiedOne).pc y).holds := by
    intro y hy
    by_cases heq : y = x
    . rw [heq, update_self] at hy
      contradiction
    . rw [update_of_ne heq] at hy
      exact ⟨heq, hy⟩
  constructor
  case wait => exact h.wait
  case notify =>
    dsimp only
    rw [h.notify]
    omega
  case le => exact hlt
  case number => exact fun y hy => hinv.number y (hholds y hy).2
  case near => exact fun y hy => hinv.near y (hholds y hy).2
  case inj => exact fun y z hy hz => hinv.inj y z (hholds y hy).2 (hholds z hz).2
  case held =>
    intro n hle hlt
    obtain ⟨y, hy, hn⟩ := hinv.held n (Nat.le_of_succ_le hle) hlt
    have hne : y ≠ x := by
      rintro rfl
      dsimp only [State.goto] at hn hle
      omega
    exact ⟨y, by dsimp only [State.goto]; rw [update_of_ne hne]; exact hy, hn⟩
  case queue =>
    intro y
    have hy := hinv.queue y
    dsimp only [State.goto] at hy ⊢
    rw [update_leave_iff (by simp), ← hy, hq]
    simp only [mem_append, mem_cons] at hnodup ⊢
    constructor
    . intro hmem
      refine ⟨hmem.imp id .inr, ?_⟩
      rintro rfl
      exact hnodup.1 hmem
    . intro ⟨hmem, hne⟩
      exact hmem.imp id fun hmem => hmem.resolve_left hne
  case nodup => exact hnodup.2
  case fits =>
    intro y
    by_cases hne : y = x
    . simp [hne]
    refine (hinv.fits y).mono (update_of_ne hne _ _) ⟨rfl, rfl, rfl⟩ le_rfl (Nat.le_succ _) ?_
    intro hpc
    have hle := ((hinv.fits y).parked hpc).2
    have hdiff : s.number y ≠ s.notified := by
      intro heq
      apply hne
      apply hinv.inj y x (by rw [hpc]; rfl) (by rw [hparked]; rfl)
      exact heq.trans hx.symm
    dsimp only [State.goto] at hle ⊢
    omega

omit [DecidableEq G] in
theorem Inv.notified_lt (hne : s.notify ≠ s.wait) : s.notified < s.handed := by
  apply lt_of_le_of_ne h.le
  intro heq
  exact hne (h.notify_eq_iff.mpr heq)

theorem Inv.wakeOne_cases (g : G) : s.notified = s.handed ∧ s.wakeOne g = s.goto g .notifiedOne ∨
        s.notified < s.handed ∧ (∀ x ∈ s.queue, s.number x ≠ s.notified) ∧
          s.wakeOne g = { s.goto g .notifiedOne with
            notify := (s.notify + 1) % 2 ^ 32
            notified := s.notified + 1 } ∨
        s.notified < s.handed ∧ ∃ x l1 l2, s.queue = l1 ++ x :: l2 ∧ s.number x = s.notified ∧
          s.wakeOne g = { (s.goto g .notifiedOne).goto x .ready with
            queue := l1 ++ l2
            notify := (s.notify + 1) % 2 ^ 32
            notified := s.notified + 1 } := by
  unfold State.wakeOne
  by_cases heq : s.notify = s.wait
  . rw [if_pos heq]
    exact .inl ⟨h.notify_eq_iff.mp heq, rfl⟩
  have hlt := h.notified_lt heq
  rw [if_neg heq]
  apply Or.inr
  split
  . next hfind =>
    refine .inl ⟨hlt, ?_, rfl⟩
    intro x hx hnumber
    have hnot := List.find?_eq_none.mp hfind x hx
    rw [decide_eq_true_eq, h.ticket_iff hlt hx] at hnot
    exact hnot hnumber
  next x hfind =>
  have hx := mem_of_find?_eq_some hfind
  obtain ⟨hticket, l1, l2, hq, hl1⟩ := List.find?_eq_some_iff_append.mp hfind
  refine .inr ⟨hlt, x, l1, l2, hq, ?_, ?_⟩
  . rwa [decide_eq_true_eq, h.ticket_iff hlt hx] at hticket
  have herase : s.queue.eraseP (fun x => decide (s.notifyTicket x = s.notify)) = l1 ++ l2 := by
    have hnone : ∀ y ∈ l1, ¬decide (s.notifyTicket y = s.notify) = true := by
      simpa using hl1
    rw [hq, eraseP_append_right _ hnone, eraseP_cons, hticket, cond_true]
  rw [herase]
  rfl

theorem Inv.wakeOne (hg : s.pc g = .notifyOneLocked) : (s.wakeOne g).Inv := by
  rcases h.wakeOne_cases g with hdone | hwake
  . rw [hdone.2]
    exact h.goto hg (by simp) rfl (by simp)
  rcases hwake with hnone | hsome
  . obtain ⟨hlt, hnone, heq⟩ := hnone
    rw [heq]
    exact h.wakeOne_none hg hlt hnone
  . obtain ⟨hlt, _, _, _, hq, hx, heq⟩ := hsome
    rw [heq]
    exact h.wakeOne_some hg hlt hq hx

omit [DecidableEq G] in
theorem Inv.fast_path (hw : ∃ n, s.issued g ≤ n ∧ n ≤ s.handed ∧ w = n % 2 ^ 32) (heq : w = s.notify)
    : s.issued g ≤ s.notified := by
  have hclose := h.close
  have hnotify := h.notify
  omega

def Close (s : State G) : Prop :=
  ∀ x, (s.pc x).holds → s.handed + 1 ≤ s.number x + 2 ^ 31

theorem Inv.step (hstep : s.step g = some t) (hclose : s.pc g = .add → s.Close) : t.Inv := by
  have hfits := h.fits g
  unfold Fits at hfits
  cases hg : s.pc g
  case add => exact h.add hg hstep (hclose hg)
  case wait => exact h.wait_step hg hstep
  all_goals simp only [State.step, hg, reduceCtorEq] at hstep
  case ready =>
    cases hstep
    exact h.goto hg (by simp) rfl (by simp)
  case notifyAll | notifyOne =>
    cases hstep
    simp only [hg] at hfits
    refine h.goto hg (by simp) rfl ?_
    simp only [Fits, State.goto, update_self]
    exact ⟨s.handed, hfits, le_rfl, h.wait⟩
  case notifyAllLoaded =>
    simp only [some.injEq] at hstep
    simp only [hg] at hfits
    split at hstep
    . next heq =>
      subst hstep
      refine h.goto hg (by simp) rfl ?_
      simp only [Fits, State.goto, update_self]
      exact h.fast_path hfits heq
    . subst hstep
      refine h.goto hg (by simp) rfl ?_
      obtain ⟨_, h1, h2, _⟩ := hfits
      simp only [Fits, State.goto, update_self]
      exact le_trans h1 h2
  case notifyOneLoaded =>
    simp only [some.injEq] at hstep
    simp only [hg] at hfits
    split at hstep
    . subst hstep
      exact h.goto hg (by simp) rfl (by simp)
    subst hstep
    refine h.goto hg (by simp) rfl ?_
    obtain ⟨_, h1, h2, _⟩ := hfits
    simp only [Fits, State.goto, update_self]
    exact le_trans h1 h2
  case notifyAllLocked =>
    cases hstep
    exact h.wakeAll hg
  case notifyOneLocked =>
    cases hstep
    exact h.wakeOne hg

theorem Inv.notifying (hg : (s.pc g).free) (hb : b = .notifyAll ∨ b = .notifyOne) : (s.notifying g b).Inv := by
  have hfree := Pc.free_spec hg
  refine h.move rfl ⟨hfree.1, ?_⟩ ?_ ?_ (fun x hne => update_of_ne hne _ _) ?_
  . rcases hb with hb | hb
    all_goals simp [hb]
  . rcases hb with hb | hb
    all_goals simp [hb, Pc.holds]
  . simp [hfree.2]
  . rcases hb with hb | hb
    all_goals simp [hb]

theorem Inv.call (hcall : s.call g c = some t) : t.Inv := by
  cases c with
  | wait =>
    unfold State.call at hcall
    split at hcall
    . next k _ hg =>
      cases hcall
      have hfits := h.fits g
      unfold Fits at hfits
      simp only [hg] at hfits
      refine h.goto hg (by simp) rfl ?_
      simp only [Fits, State.goto, update_self]
      exact hfits
    all_goals simp_all
  | add =>
    simp only [State.call, ite_none_right_eq_some, some.injEq] at hcall
    obtain ⟨hfree, hcall⟩ := hcall
    subst hcall
    have hspec := Pc.free_spec hfree
    refine h.goto rfl ⟨hspec.1, by simp⟩ ?_ (by simp)
    rw [hspec.2]
    rfl
  | notifyAll =>
    simp only [State.call, ite_none_right_eq_some, some.injEq] at hcall
    rw [← hcall.2]
    exact h.notifying hcall.1 (.inl rfl)
  | notifyOne =>
    simp only [State.call, ite_none_right_eq_some, some.injEq] at hcall
    rw [← hcall.2]
    exact h.notifying hcall.1 (.inr rfl)

end Moves

end State

end NotifyList

end Sync
