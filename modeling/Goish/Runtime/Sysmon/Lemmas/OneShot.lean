import Goish.Runtime.Sysmon.Lemmas.Sysmon

open List Function Option

namespace Sysmon

open State

variable {G : Type u} {T : Type v}

def Pc.won : Pc G T → Option T
  | .cancelReady tok true _ => some tok
  | .cancelled tok true => some tok
  | _ => none

def Pc.rearms : Pc G T → Bool
  | .rearm _ => true
  | _ => false

namespace State

variable {owner : T → G} {s t : State G T}

def Counts (s : State G T) (tok : T) : Prop :=
  match (s.token tok).state with
  | .armed => s.fires tok = 0 ∧ s.wins tok = 0 ∧ s.readied tok = 0
  | .fired => s.fires tok = 1 ∧ s.wins tok = 0 ∧ s.readied tok ≤ 1
  | .cancelled => s.fires tok = 0 ∧ s.wins tok = 1 ∧ s.readied tok ≤ 1

def Waker (s : State G T) (tok : T) (g : G) : Prop :=
  match (s.token tok).state with
  | .armed => (s.token tok).g = some g ∧ ∃ e ∈ s.heap, e.g = g ∧ e.cancel = some tok
  | .fired => ∃ now, s.sys = .ready now g
  | .cancelled => ∃ y, (s.pc y).target = some g

def At (s : State G T) (g : G) : Prop :=
  match s.pc g with
  | .parkedTok tok => s.readied tok = 0 ∧ s.Waker tok g
  | .woken tok => (s.token tok).state ≠ .armed
  | .returned tok fired => (s.token tok).state ≠ .armed ∧ (fired = true → (s.token tok).state = .fired)
  | .cancelReady tok won x => won = true →
    (s.token tok).state = .cancelled ∧ ∀ y, x = some y → s.pc y = .parkedTok tok
  | .cancelled tok won => won = true → (s.token tok).state = .cancelled
  | .rearmState _ => False
  | _ => True

structure Once (s : State G T) : Prop where
  counts : ∀ tok, s.Counts tok
  pcs : ∀ g, s.At g
  winner : ∀ x y tok, (s.pc x).won = some tok → (s.pc y).won = some tok → x = y

attribute [local simp] Pc.won

theorem At.won (h : s.At g) (hwon : (s.pc g).won = some tok) : (s.token tok).state = .cancelled := by
  unfold At at h
  cases hg : s.pc g with
  | cancelReady _ won =>
    simp only [hg] at h hwon
    cases won with
    | false => simp at hwon
    | true =>
      cases hwon
      exact (h rfl).1
  | cancelled _ won =>
    simp only [hg] at h hwon
    cases won with
    | false => simp at hwon
    | true =>
      cases hwon
      exact h rfl
  | _ => simp [hg] at hwon

attribute [local simp] Pc.target

theorem At.frame (h : s.At g) (hpc : t.pc g = s.pc g)
    (hstate : ∀ tok, (s.token tok).state ≠ .armed → (t.token tok).state = (s.token tok).state)
    (hwaker : ∀ tok, s.pc g = .parkedTok tok → s.Waker tok g →
      t.readied tok = s.readied tok ∧ t.Waker tok g)
    (htarget : ∀ x, (s.pc g).target = some x → t.pc x = s.pc x) : t.At g := by
  unfold At at *
  rw [hpc]
  cases hg : s.pc g
  any_goals simp only [hg] at h ⊢
  case parkedTok tok =>
    obtain ⟨hreadied, hw⟩ := hwaker tok hg h.2
    exact ⟨hreadied.trans h.1, hw⟩
  case woken tok =>
    rwa [hstate tok h]
  case returned tok _ =>
    rwa [hstate tok h.1]
  case cancelReady tok _ _ =>
    intro hwon
    obtain ⟨hc, hy⟩ := h hwon
    rw [hstate tok (by simp [hc])]
    refine ⟨hc, ?_⟩
    intro y hxy
    rw [htarget y (by simp [hg, hwon, hxy])]
    exact hy y hxy
  case cancelled tok _ =>
    intro hwon
    rw [hstate tok (by simp [h hwon])]
    exact h hwon

theorem Waker.mono (h : s.Waker tok x) (htok : t.token tok = s.token tok)
    (hheap : (s.token tok).state = .armed → ∀ e ∈ s.heap, e.cancel = some tok → e ∈ t.heap)
    (hsys : ∀ now, s.sys = .ready now x → t.sys = .ready now x)
    (hpc : ∀ y, (s.pc y).target = some x → (t.pc y).target = some x) : t.Waker tok x := by
  unfold Waker at *
  rw [htok]
  cases hs : (s.token tok).state with
  | armed =>
    simp only [hs] at h ⊢
    obtain ⟨hg, e, he, heg, hc⟩ := h
    exact ⟨hg, e, hheap hs e he hc, heg, hc⟩
  | fired =>
    simp only [hs] at h ⊢
    obtain ⟨now, hnow⟩ := h
    exact ⟨now, hsys now hnow⟩
  | cancelled =>
    simp only [hs] at h ⊢
    obtain ⟨y, hy⟩ := h
    exact ⟨y, hpc y hy⟩

attribute [local simp] At new

theorem new_once (clock : Int64) : Once (new clock : State G T) := by
  constructor
  . simp [Counts]
  . simp
  . simp

theorem target_update [DecidableEq G] (htarget : (s.pc g).target = none) (hy : (s.pc y).target = some x)
    : (update s.pc g p y).target = some x := by
  rw [update_of_ne ?_]
  . exact hy
  . rintro rfl
    rw [htarget] at hy
    cases hy

section Cas

variable [DecidableEq T] (s : State G T) (tok : T)

attribute [local simp] setState

theorem counts_fire (h : ∀ k, s.Counts k) (k : T) : (s.fire tok).2.Counts k := by
  have hk := h k
  unfold Counts at *
  rw [(fire_settles s tok).token, (fire_settles s tok).readied]
  unfold fire
  by_cases harmed : (s.token tok).state = .armed
  . simp only [harmed, and_true]
    by_cases heq : k = tok
    . rw [heq, harmed] at hk
      simp [heq, hk]
    . simpa [heq] using hk
  . simp only [harmed, and_false, if_false]
    exact hk

theorem counts_cancel (h : ∀ k, s.Counts k) (k : T) : (s.cancel tok).2.Counts k := by
  have hk := h k
  unfold Counts at *
  rw [(cancel_settles s tok).token, (cancel_settles s tok).readied]
  unfold cancel
  by_cases harmed : (s.token tok).state = .armed
  . simp only [harmed, and_true]
    by_cases heq : k = tok
    . rw [heq, harmed] at hk
      simp [heq, hk]
    . simpa [heq] using hk
  . simp only [harmed, and_false, if_false]
    exact hk

end Cas

theorem Inv.token_ne (h : s.Inv owner) (hx : s.pc x = .parkedTok k) (hown : owner tok = g) (hne : x ≠ g) : k ≠ tok := by
  rintro rfl
  exact hne ((h.own x k (by simp [hx, Pc.token])).symm.trans hown)

section Once

variable (h : s.Once) (hinv : s.Inv owner)
include h hinv

theorem Once.moves (hparked : (s.pc g).isParked = false) (hcounts : ∀ tok, t.Counts tok) (hat : t.At g)
    (hother : ∀ x, x ≠ g → t.pc x = s.pc x)
    (hstate : ∀ tok, (s.token tok).state ≠ .armed → (t.token tok).state = (s.token tok).state)
    (hwaker : ∀ x tok, x ≠ g → s.pc x = .parkedTok tok → s.Waker tok x →
      t.readied tok = s.readied tok ∧ t.Waker tok x)
    (hwon : ∀ tok, (t.pc g).won = some tok → (s.pc g).won = some tok ∨ (s.token tok).state = .armed)
    : t.Once := by
  have hfree := hinv.free hparked
  refine ⟨hcounts, ?_, ?_⟩
  . intro x
    by_cases hne : x = g
    . rwa [hne]
    refine (h.pcs x).frame (hother x hne) hstate (fun tok => hwaker x tok hne) ?_
    intro y hy
    apply hother
    rintro rfl
    exact hfree.target x hy
  -- A second winner would have found the token armed.
  have hnew : ∀ x tok, x ≠ g → (t.pc x).won = some tok → (t.pc g).won = some tok → x = g := by
    intro x tok hne hx hg
    rw [hother x hne] at hx
    rcases hwon tok hg with hold | harmed
    . exact h.winner x g tok hx hold
    . rw [(h.pcs x).won hx] at harmed
      cases harmed
  intro x y tok hx hy
  by_cases hxg : x = g
  . by_cases hyg : y = g
    . rw [hxg, hyg]
    . rw [hxg] at hx ⊢
      exact (hnew y tok hyg hy hx).symm
  by_cases hyg : y = g
  . rw [hyg] at hy ⊢
    exact hnew x tok hxg hx hy
  . rw [hother x hxg] at hx
    rw [hother y hyg] at hy
    exact h.winner x y tok hx hy

variable [DecidableEq G]

theorem Once.goto {start dur : G → Int64} (hparked : (s.pc g).isParked = false)
    (htarget : (s.pc g).target = none) (hwon : ∀ tok, p.won = some tok → (s.pc g).won = some tok)
    (hat : At { s.goto g p with start := start, dur := dur } g)
    : Once { s.goto g p with start := start, dur := dur } := by
  refine h.moves hinv hparked h.counts hat (fun x hne => update_of_ne hne _ _) (fun _ _ => rfl) ?_ ?_
  . intro _ _ _ _ hw
    exact ⟨rfl, hw.mono rfl (fun _ _ he _ => he) (fun _ hsys => hsys) fun y => target_update htarget⟩
  . intro tok hp
    dsimp only [State.goto] at hp
    rw [update_self] at hp
    exact .inl (hwon tok hp)

attribute [local simp] State.goto Pc.isParked

theorem Once.parkRead_step [DecidableEq T] (hg : s.pc g = .parkRead deadline) (hstep : s.step g = some t) : t.Once := by
  have htarget : (s.pc g).target = none := by simp [hg]
  simp only [step, hg] at hstep
  cases hstep
  refine h.moves hinv (by simp [hg]) h.counts (by simp)
    (fun x hne => update_of_ne hne _ _) (fun _ _ => rfl) ?_ (by simp)
  intro _ _ _ _ hw
  exact ⟨rfl, hw.mono rfl (fun _ e he _ => mem_cons_of_mem _ he) (fun _ hsys => hsys)
    (fun y => target_update htarget)⟩

attribute [local simp] Pc.token

theorem Once.parkTokRead_step [DecidableEq T] (hg : s.pc g = .parkTokRead deadline tok)
    (hstep : s.step g = some t) : t.Once := by
  have htarget : (s.pc g).target = none := by simp [hg]
  have hparked : (s.pc g).isParked = false := by simp [hg]
  have hown := hinv.own g tok (by simp [hg])
  have hcounts := h.counts tok
  simp only [State.step, hg] at hstep
  split at hstep
  . next hnot =>
    cases hstep
    refine h.goto hinv hparked htarget (by simp) ?_
    simpa using hnot
  next harmed =>
  rw [Decidable.not_not] at harmed
  cases hstep
  simp only [Counts, harmed] at hcounts
  have htok : ∀ k, k ≠ tok → update s.token tok { s.token tok with g := some g } k = s.token k :=
    fun k hne => update_of_ne hne _ _
  have hstate : ∀ k, (update s.token tok { s.token tok with g := some g } k).state = (s.token k).state := by
    intro k
    by_cases heq : k = tok
    . simp [heq]
    . rw [htok k heq]
  refine h.moves hinv hparked ?_ ?_ (fun x hne => update_of_ne hne _ _) (fun k _ => hstate k) ?_
    (by simp)
  . intro k
    have hk := h.counts k
    unfold Counts at *
    dsimp only [State.goto, State.push, setG]
    rwa [hstate]
  . simp [State.push, setG, hcounts.2.2, Waker, harmed]
  . intro x k hne hx hw
    have hk := hinv.token_ne hx hown hne
    exact ⟨rfl, hw.mono (htok k hk) (fun _ e he _ => mem_cons_of_mem _ he) (fun _ hsys => hsys)
      (fun y => target_update htarget)⟩

theorem Once.fire_step [DecidableEq T] (hparked : (s.pc g).isParked = false) (htarget : (s.pc g).target = none)
    (hown : owner tok = g) : ((s.fire tok).2.goto g (.returned tok (s.fire tok).1)).Once := by
  refine h.moves hinv hparked (counts_fire s tok h.counts) ?_ ?_ ?_ ?_ (by simp)
  . simp only [At, State.goto, update_self]
    refine ⟨(fire_settles s tok).state_ne (by decide), ?_⟩
    rw [fire_fst, decide_eq_true_eq]
    exact (fire_settles s tok).armed
  . intro x hne
    simp only [State.goto, update_of_ne hne, (fire_frame s tok).1]
  . exact fun k hk => congrArg _ ((fire_settles s tok).settled hk)
  intro x k hne hx hw
  have hk := hinv.token_ne hx hown hne
  simp only [State.goto]
  refine ⟨by rw [(fire_settles s tok).readied], hw.mono ((fire_settles s tok).of_ne hk) ?_ ?_ ?_⟩
  . rw [(fire_frame s tok).2.1]
    exact fun _ _ he _ => he
  . simp
  . rw [(fire_frame s tok).1]
    exact fun y => target_update htarget

theorem Once.cancel_step [DecidableEq T] (hg : s.pc g = .cancel tok) (hstep : s.step g = some t) : t.Once := by
  have htarget : (s.pc g).target = none := by simp [hg]
  have hparked : (s.pc g).isParked = false := by simp [hg]
  simp only [step, hg, some.injEq, cancel_frame, cancel_fst] at hstep
  subst hstep
  refine h.moves hinv hparked (counts_cancel s tok h.counts) ?_ ?_ ?_ ?_ ?_
  . simp only [At, State.goto, update_self, decide_eq_true_eq]
    intro harmed
    refine ⟨(cancel_settles s tok).armed harmed, ?_⟩
    intro x hx
    obtain ⟨e, he, heg, hc⟩ := hinv.token tok x harmed hx
    have hlive : s.Live e := by simp [Live, hc, harmed]
    have hwaits := (hinv.live e he hlive).1
    simp only [Waits, hc, heg] at hwaits
    have hne : x ≠ g := by
      rintro rfl
      rw [hg] at hwaits
      cases hwaits
    rwa [(cancel_frame s tok).1, update_of_ne hne]
  . intro x hne
    simp only [State.goto, update_of_ne hne, (cancel_frame s tok).1]
  . exact fun k hk => congrArg _ ((cancel_settles s tok).settled hk)
  . intro _ k hne _ hw
    simp only [State.goto]
    refine ⟨by rw [(cancel_settles s tok).readied], ?_⟩
    by_cases hboth : k = tok ∧ (s.token tok).state = .armed
    . rw [hboth.1] at hw ⊢
      unfold Waker at hw
      simp only [hboth.2] at hw
      unfold Waker
      simp only [(cancel_settles s tok).armed hboth.2]
      exact ⟨g, by simp [hw.1, hboth.2]⟩
    refine hw.mono ?_ (by rw [(cancel_frame s tok).2.1]; exact fun _ _ he _ => he) (by simp) ?_
    . rw [(cancel_settles s tok).token, if_neg hboth]
    . rw [(cancel_frame s tok).1]
      exact fun y => target_update htarget
  . intro k hk
    simp only [State.goto, update_self] at hk
    apply Or.inr
    by_cases harmed : (s.token tok).state = .armed
    . simp only [harmed, decide_true, Pc.won] at hk
      cases hk
      exact harmed
    . simp [harmed] at hk

theorem Once.wakes (htoken : t.token = s.token) (hheap : t.heap = s.heap) (hcounts : ∀ k, t.Counts k)
    (hx : t.At x) (hparked : (s.pc x).isParked = true)
    (hother : ∀ y, y ≠ x → t.pc y = s.pc y ∧ (s.pc y).target ≠ some x ∨
      t.At y ∧ (s.pc y).isParked = false ∧ (s.pc y).target = some x)
    (hwon : ∀ y, (t.pc y).won = (s.pc y).won)
    (hreadied : ∀ k, s.pc x ≠ .parkedTok k → t.readied k = s.readied k)
    (hsys : ∀ now y, y ≠ x → s.sys = .ready now y → t.sys = .ready now y) : t.Once := by
  refine ⟨hcounts, ?_, ?_⟩
  . intro y
    by_cases hne : y = x
    . rwa [hne]
    rcases hother y hne with hsame | hmoved
    . refine (h.pcs y).frame hsame.1 (fun k _ => by rw [htoken]) ?_ ?_
      . intro k hy hw
        constructor
        . apply hreadied
          intro hxk
          have hxo := hinv.own x k (by simp [hxk])
          have hyo := hinv.own y k (by simp [hy])
          exact hne (hyo.symm.trans hxo)
        refine hw.mono (by rw [htoken]) (by rw [hheap]; exact fun _ _ he _ => he) (fun now => hsys now y hne) ?_
        intro z hz
        have hzx : z ≠ x := by
          intro heq
          cases hpc : s.pc x <;> simp_all
        rcases hother z hzx with hz' | hz'
        . rwa [hz'.1]
        . rw [hz'.2.2, some.injEq] at hz
          exact (hne hz.symm).elim
      . intro z hz
        have hzx : z ≠ x := by
          rintro rfl
          exact hsame.2 hz
        rcases hother z hzx with hz' | hz'
        . exact hz'.1
        . have hzp := (hinv.target y z hz).1.1
          rw [hz'.2.1] at hzp
          cases hzp
    . exact hmoved.1
  . intro y z tok hy hz
    rw [hwon] at hy hz
    exact h.winner y z tok hy hz

omit [DecidableEq G] h hinv in
theorem counts_woken [DecidableEq T] (h : s.Once) (hx : s.At x) (hpc : s.pc x = .parkedTok tok)
    (hstate : (s.token tok).state ≠ .armed) (htoken : t.token = s.token) (hfires : t.fires = s.fires ∧ t.wins = s.wins)
    (hreadied : t.readied = update s.readied tok (s.readied tok + 1)) (k : T) : t.Counts k := by
  have hk := h.counts k
  unfold At at hx
  simp only [hpc] at hx
  unfold Counts at *
  rw [htoken, hfires.1, hfires.2, hreadied]
  by_cases heq : k = tok
  . rw [heq] at hk ⊢
    rw [update_self, hx.1]
    cases hs : (s.token tok).state with
    | armed => exact (hstate hs).elim
    | fired | cancelled =>
      simp only [hs] at hk
      exact ⟨hk.1, hk.2.1, Nat.le_refl _⟩
  . rwa [update_of_ne heq]

theorem Once.cancelReady_step [DecidableEq T] (hg : s.pc g = .cancelReady tok won y)
    (hstep : s.step g = some t) : t.Once := by
  have hat := h.pcs g
  unfold At at hat
  simp only [hg] at hat
  have hparked : (s.pc g).isParked = false := by simp [hg]
  simp only [step, hg] at hstep
  split at hstep
  . next x =>
    obtain ⟨hcancelled, hx⟩ := hat rfl
    have hx := hx x rfl
    have htarget : (s.pc g).target = some x := by simp [hg]
    have hne : x ≠ g := by
      rintro rfl
      rw [hg] at hx
      cases hx
    have hready : (s.goto g (.cancelled tok true)).goready x =
        { (s.goto g (.cancelled tok true)).goto x (.woken tok) with
          readied := update s.readied tok (s.readied tok + 1) } := by
      simp [State.goready, hne, hx]
    rw [some.injEq, hready] at hstep
    subst hstep
    have hpc : ∀ z, update (update s.pc g (.cancelled tok true)) x (.woken tok) z =
        if z = x then .woken tok else if z = g then .cancelled tok true else s.pc z := by
      intro z
      simp only [update_apply]
    refine h.wakes (x := x) hinv rfl rfl ?_ ?_ (by simp [hx]) ?_ ?_ ?_ (fun _ _ _ hsys => hsys)
    . exact counts_woken h (h.pcs x) hx (by simp [hcancelled]) rfl ⟨rfl, rfl⟩ rfl
    . simp [hcancelled]
    . intro z hz
      simp only [State.goto, hpc, if_neg hz]
      by_cases heq : z = g
      . apply Or.inr
        rw [heq]
        refine ⟨?_, hparked, htarget⟩
        simp [hne.symm, hcancelled]
      . refine .inl ⟨by simp [heq], ?_⟩
        intro hzx
        exact heq (hinv.alone z g x hzx htarget)
    . intro z
      simp only [State.goto, hpc]
      by_cases hzx : z = x
      . simp [hzx, hx]
      . by_cases heq : z = g
        . simp [heq, hne.symm, hg]
        . simp [hzx, heq]
    . intro k hk
      have hne : k ≠ tok := by
        rintro rfl
        exact hk hx
      simp [hne]
  . next hnot =>
    cases hstep
    have htarget : (s.pc g).target = none := by
      rw [hg]
      cases won with
      | false => rfl
      | true =>
        cases y with
        | none => rfl
        | some x => exact (hnot x rfl rfl).elim
    refine h.goto hinv hparked htarget ?_ ?_
    . rw [hg]
      cases won <;> simp
    . simp only [At, State.goto, update_self]
      exact fun hwon => (hat hwon).1

omit [DecidableEq G] h hinv in
theorem mem_eraseIdx (he : s.heap[i]? = some e) (hc : e.cancel ≠ some tok) (he' : e' ∈ s.heap)
    (hc' : e'.cancel = some tok) : e' ∈ s.heap.eraseIdx i := by
  rw [← (heap_perm he).mem_iff, mem_cons] at he'
  rcases he' with heq | hrest
  . rw [heq] at hc'
    exact (hc hc').elim
  . exact hrest

omit [DecidableEq G] hinv in
theorem Once.withSys {heap : List (TimerEntry G T)} {sys : SysPc G}
    (hheap : ∀ k, (s.token k).state = .armed → ∀ e ∈ s.heap, e.cancel = some k → e ∈ heap)
    (hsys : ∀ x now, s.sys = .ready now x → sys = .ready now x) : Once { s with heap := heap, sys := sys } := by
  refine ⟨h.counts, ?_, h.winner⟩
  intro x
  refine (h.pcs x).frame rfl (fun _ _ => rfl) ?_ (fun _ _ => rfl)
  exact fun k _ hw => ⟨rfl, hw.mono rfl (hheap k) (hsys x) (fun _ hy => hy)⟩

omit [DecidableEq G] in
theorem Once.expire [DecidableEq T] (hsys : s.sys = .pass now) (he : s.heap[i]? = some e)
    : (s.expire now e (s.heap.eraseIdx i)).Once := by
  have hmem := mem_of_getElem? he
  rcases s.expire_cases now e (s.heap.eraseIdx i) with hboth | hdead
  . obtain ⟨hlive, heq⟩ := hboth
    have hwaits := (hinv.live e hmem hlive).1
    rw [heq]
    unfold fireEntry
    cases hc : e.cancel with
    | none =>
      refine h.withSys ?_ (by simp [hsys])
      exact fun _ _ e' he' hc' => mem_eraseIdx he (by simp [hc]) he' hc'
    | some tok =>
      have harmed : (s.token tok).state = .armed := by
        unfold Live at hlive
        simp only [hc] at hlive
        exact hlive
      unfold Waits at hwaits
      simp only [hc] at hwaits
      dsimp only [elim_some]
      refine ⟨counts_fire s tok h.counts, ?_, ?_⟩
      . intro x
        refine (h.pcs x).frame (by rw [(fire_frame s tok).1]) ?_ ?_ (by simp)
        . exact fun k hk => congrArg _ ((fire_settles s tok).settled hk)
        intro k hx hw
        refine ⟨by rw [(fire_settles s tok).readied], ?_⟩
        by_cases hkt : k = tok
        . -- The goroutine of the entry is the owner of the token.
          rw [hkt] at hx
          have hxo := hinv.own x tok (by simp [hx])
          have heo := hinv.own e.g tok (by simp [hwaits])
          unfold Waker
          rw [hkt]
          simp only [(fire_settles s tok).armed harmed]
          exact ⟨now, by rw [← heo, hxo]⟩
        . refine hw.mono ((fire_settles s tok).of_ne hkt) ?_ (by simp [hsys]) (by simp)
          exact fun _ e' he' hc' => mem_eraseIdx he (by simp [hc, Ne.symm hkt]) he' hc'
      . rw [(fire_frame s tok).1]
        exact h.winner
  . obtain ⟨_, hc, hnot, heq⟩ := hdead
    rw [heq]
    refine h.withSys ?_ (fun _ _ hx => hx)
    intro _ harmed _ he' hc'
    refine mem_eraseIdx he ?_ he' hc'
    intro hk
    rw [hc, some.injEq] at hk
    rw [hk] at hnot
    exact hnot harmed

theorem Once.ready_step [DecidableEq T] (hsys : s.sys = .ready now x) : Once { s.goready x with sys := .pass now } := by
  obtain ⟨⟨hparked, hlive⟩, _⟩ := hinv.ready now x hsys
  have htarget : ∀ y, (s.pc y).target ≠ some x := fun y hy => (hinv.target y x hy).2 now hsys
  have hother : ∀ now' y, y ≠ x → s.sys = .ready now' y → SysPc.pass now = .ready now' y := by
    intro _ _ hne hy
    rw [hsys, SysPc.ready.injEq] at hy
    exact (hne hy.2.symm).elim
  unfold goready
  split
  . next hx =>
    refine h.wakes (x := x) hinv rfl rfl h.counts (by simp) hparked ?_ ?_ (fun _ _ => rfl) hother
    . exact fun y hne => .inl ⟨update_of_ne hne _ _, htarget y⟩
    intro y
    by_cases heq : y = x
    . simp [heq, hx]
    . simp [heq]
  . next tok hx =>
    have hat := h.pcs x
    unfold At at hat
    simp only [hx] at hat
    have hstate : (s.token tok).state ≠ .armed := by
      intro harmed
      have hw := hat.2
      unfold Waker at hw
      simp only [harmed] at hw
      obtain ⟨_, e, he, heg, hc⟩ := hw
      exact hlive e he (by simp [Live, hc, harmed]) heg
    refine h.wakes (x := x) hinv rfl rfl ?_ ?_ hparked ?_ ?_ ?_ hother
    . exact counts_woken h (h.pcs x) hx hstate rfl ⟨rfl, rfl⟩ rfl
    . simpa using hstate
    . exact fun y hne => .inl ⟨update_of_ne hne _ _, htarget y⟩
    . intro y
      by_cases heq : y = x
      . simp [heq, hx]
      . simp [heq]
    intro k hk
    have hne : k ≠ tok := by
      rintro rfl
      exact hk hx
    simp [hne]
  . next hnot hnot' =>
    cases hx : s.pc x <;> simp_all

theorem Once.sysmon_step [DecidableEq T] (hstep : s.sysmon i = some t) : t.Once := by
  unfold sysmon at hstep
  split at hstep
  . next hsys =>
    cases hstep
    exact h.withSys (fun _ _ _ he _ => he) (by simp [hsys])
  . next now hsys =>
    split at hstep
    . cases hstep
      exact h.withSys (fun _ _ _ he _ => he) (by simp [hsys])
    split at hstep
    . contradiction
    next e he =>
    cases hstep
    exact h.expire hinv hsys (least_spec he).1
  . next now x hsys =>
    cases hstep
    exact h.ready_step hinv hsys

theorem Once.step [DecidableEq T] (hstep : s.step g = some t) (hrearm : (s.pc g).rearms = false) : t.Once := by
  have hat := h.pcs g
  unfold At at hat
  cases hg : s.pc g
  case parkRead => exact h.parkRead_step hinv hg hstep
  case parkTokRead => exact h.parkTokRead_step hinv hg hstep
  case cancel => exact h.cancel_step hinv hg hstep
  case cancelReady => exact h.cancelReady_step hinv hg hstep
  all_goals simp only [State.step, hg, reduceCtorEq] at hstep
  case park =>
    split at hstep
    all_goals
      cases hstep
      exact h.goto hinv (by simp [hg]) (by simp [hg]) (by simp)
        (by simp)
  case parkTok _ tok =>
    have hown := hinv.own g tok (by simp [hg])
    split at hstep
    . cases hstep
      exact h.fire_step hinv (by simp [hg]) (by simp [hg]) hown
    . cases hstep
      exact h.goto hinv (by simp [hg]) (by simp [hg]) (by simp)
        (by simp)
  case woken =>
    simp only [hg] at hat
    cases hstep
    refine h.goto hinv (by simp [hg]) (by simp [hg]) (by simp) ?_
    simpa using hat
  case nap tok =>
    have hown := hinv.own g tok (by simp [hg])
    cases hstep
    exact h.fire_step hinv (by simp [hg]) (by simp [hg]) hown
  case rearm => simp [hg, Pc.rearms] at hrearm
  case rearmState => simp only [hg] at hat

theorem Once.call [DecidableEq T] (hcall : s.call owner g c = some t) : t.Once := by
  obtain ⟨_, ht, _⟩ := call_spec hcall
  rw [ht]
  refine h.goto hinv ?_ ?_ ?_ ?_
  iterate 2
    . cases hpc : s.pc g <;> simp_all [Pc.outside]
  all_goals cases c <;> simp [Call.pc]

end Once

structure Grows (s t : State G T) : Prop where
  fires : ∀ k, s.fires k ≤ t.fires k
  wins : ∀ k, s.wins k ≤ t.wins k
  readied : ∀ k, s.readied k ≤ t.readied k

theorem Grows.of_eq (hfires : t.fires = s.fires) (hwins : t.wins = s.wins) (hreadied : t.readied = s.readied)
    : s.Grows t := by
  constructor <;> simp [hfires, hwins, hreadied]

section Grows

variable [DecidableEq G] [DecidableEq T]

omit [DecidableEq G] in
theorem le_update_succ (f : T → Nat) (tok k : T) : f k ≤ update f tok (f tok + 1) k := by
  by_cases heq : k = tok
  all_goals simp [heq]

omit [DecidableEq G] in
theorem fire_grows (s : State G T) (tok : T) : s.Grows (s.fire tok).2 := by
  unfold fire
  split
  . exact ⟨le_update_succ s.fires tok, fun _ => Nat.le_refl _, fun _ => Nat.le_refl _⟩
  . exact .of_eq rfl rfl rfl

omit [DecidableEq G] in
theorem cancel_grows (s : State G T) (tok : T) : s.Grows (s.cancel tok).2 := by
  unfold cancel
  split
  . exact ⟨fun _ => Nat.le_refl _, le_update_succ s.wins tok, fun _ => Nat.le_refl _⟩
  . exact .of_eq rfl rfl rfl

theorem goready_grows (s : State G T) (g : G) : s.Grows (s.goready g) := by
  unfold goready
  split
  . exact .of_eq rfl rfl rfl
  . next tok _ => exact ⟨fun _ => Nat.le_refl _, fun _ => Nat.le_refl _, le_update_succ s.readied tok⟩
  . exact .of_eq rfl rfl rfl

theorem grows_of_step (hstep : s.step g = some t) : s.Grows t := by
  cases hg : s.pc g
  all_goals simp only [step, hg, reduceCtorEq] at hstep
  case park ns | parkTokRead deadline tok =>
    split at hstep
    all_goals
      cases hstep
      exact .of_eq rfl rfl rfl
  case parkRead deadline | woken tok | rearm tok | rearmState tok =>
    cases hstep
    exact .of_eq rfl rfl rfl
  case parkTok _ tok =>
    have hfire := fire_grows s tok
    split at hstep
    . cases hstep
      exact ⟨hfire.fires, hfire.wins, hfire.readied⟩
    . cases hstep
      exact .of_eq rfl rfl rfl
  case nap tok =>
    have hfire := fire_grows s tok
    cases hstep
    exact ⟨hfire.fires, hfire.wins, hfire.readied⟩
  case cancel tok =>
    have hcancel := cancel_grows s tok
    cases hstep
    exact ⟨hcancel.fires, hcancel.wins, hcancel.readied⟩
  case cancelReady tok _ _ =>
    split at hstep
    . next y =>
      have hready := goready_grows (s.goto g (.cancelled tok true)) y
      cases hstep
      exact ⟨hready.fires, hready.wins, hready.readied⟩
    . cases hstep
      exact .of_eq rfl rfl rfl

theorem grows_of_sysmon (hstep : s.sysmon i = some t) : s.Grows t := by
  unfold sysmon at hstep
  split at hstep
  . cases hstep
    exact .of_eq rfl rfl rfl
  . next now _ =>
    split at hstep
    . cases hstep
      exact .of_eq rfl rfl rfl
    split at hstep
    . contradiction
    next e _ =>
    cases hstep
    rcases s.expire_cases now e (s.heap.eraseIdx i) with hlive | hdead
    . rw [hlive.2]
      unfold fireEntry
      cases e.cancel with
      | none => exact .of_eq rfl rfl rfl
      | some tok =>
        have hfire := fire_grows s tok
        exact ⟨hfire.fires, hfire.wins, hfire.readied⟩
    . obtain ⟨_, _, _, heq⟩ := hdead
      rw [heq]
      exact .of_eq rfl rfl rfl
  . next now g _ =>
    have hready := goready_grows s g
    cases hstep
    exact ⟨hready.fires, hready.wins, hready.readied⟩

end Grows

end State

end Sysmon
