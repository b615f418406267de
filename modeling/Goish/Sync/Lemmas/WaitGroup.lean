import Mathlib.Data.BitVec
import Goish.Sync.Impl.WaitGroup
import Goish.Sync.Lemmas.Sema

open Function Tally

namespace Sync.WaitGroup

open State

section Words

variable (x : UInt64)

theorem counter_eq : counter x = (x.toNat / 2 ^ 32 : Nat) := by
  have hlt := x.toNat_lt
  have hshift : (x >>> 32).toNat = x.toNat / 2 ^ 32 := by
    rw [UInt64.toNat_shiftRight]
    exact Nat.shiftRight_eq_div_pow _ _
  unfold counter
  rw [← Int64.toInt_toBitVec, UInt64.toBitVec_toInt64, BitVec.toInt_eq_toNat_cond, UInt64.toNat_toBitVec,
    hshift, if_pos (by omega)]

theorem waiters_eq : waiters x = x.toNat % 2 ^ 32 := by
  have hmask : wgWaiterMask.toNat = 2 ^ 32 - 1 := by decide
  unfold waiters
  rw [UInt64.toNat_toUInt32, UInt64.toNat_and, hmask, Nat.and_two_pow_sub_one_eq_mod, Nat.mod_mod]

theorem counter_nonneg : 0 ≤ counter x := by
  rw [counter_eq]
  omega

theorem eq_zero_of_halves (hcounter : counter x = 0) (hwaiters : waiters x = 0) : x = 0 := by
  rw [counter_eq] at hcounter
  rw [waiters_eq] at hwaiters
  apply UInt64.toNat_inj.mp
  have hzero : (0 : UInt64).toNat = 0 := rfl
  omega

theorem waiters_add_rawDelta (delta : Int64) : waiters (x + rawDelta delta) = waiters x := by
  have hshift : (rawDelta delta).toNat = delta.toUInt64.toNat * 2 ^ 32 % 2 ^ 64 := by
    unfold rawDelta
    rw [UInt64.toNat_shiftLeft, Nat.shiftLeft_eq]
    rfl
  rw [waiters_eq, waiters_eq, UInt64.toNat_add, hshift]
  omega

theorem halves_succ (hroom : waiters x + 1 < 2 ^ 32)
    : counter (x + 1) = counter x ∧ waiters (x + 1) = waiters x + 1 := by
  have hlt := x.toNat_lt
  rw [waiters_eq] at hroom
  have hsucc : (x + 1).toNat = x.toNat + 1 := by
    have hone : (1 : UInt64).toNat = 1 := rfl
    rw [UInt64.toNat_add, hone]
    omega
  rw [counter_eq, counter_eq, waiters_eq, waiters_eq, hsucc]
  omega

theorem counter_zero : counter 0 = 0 := by
  decide

theorem waiters_zero : waiters 0 = 0 := by
  decide

end Words

namespace Pc

@[simp]
def waiting : Pc → Nat
  | .acquire => 1
  | .parked => 1
  | _ => 0

@[simp]
def left : Pc → Nat
  | .release left => left
  | _ => 0

def inWait : Pc → Bool
  | .waitLoad => true
  | .waitCas _ => true
  | .acquire => true
  | .parked => true
  | .ready => true
  | .idle | .add _ | .cas _ | .release _ | .waited | .fatal => false

def Ok : Pc → Prop
  | .cas newState => counter newState = 0 ∧ newState ≠ 0
  | .release left => 0 < left
  | .waitCas state => counter state ≠ 0
  | .fatal => False
  | .idle | .add _ | .waitLoad | .acquire | .parked | .ready | .waited => True

def Released : Pc → Prop
  | .ready => True
  | .waited => True
  | _ => False

end Pc

namespace State

variable {G : Type u} [Fintype G] [DecidableEq G] {s t : State G}

def units (s : State G) : Nat :=
  s.sema.credit + total Pc.left s.pc

structure Inv (s : State G) : Prop where
  count : waiters s.state + s.units = total Pc.waiting s.pc
  cleared : 0 < s.units → s.state = 0
  zero : counter s.state = 0 → s.state ≠ 0 → ∃ g, s.pc g = .cas s.state
  parks : s.sema.Parks fun g => s.pc g = .parked
  ok : ∀ g, (s.pc g).Ok
  saw : ∀ g, (s.pc g).Released → s.sawZero g = true

theorem units_update (s : State G) (hg : s.pc g = a) (b : Pc) : (s.goto g b).units + a.left = s.units + b.left := by
  have hleft := total_update Pc.left s.pc g b
  rw [hg] at hleft
  unfold units goto
  dsimp only
  omega

omit [DecidableEq G] in
theorem new_inv : Inv (new : State G) := by
  have hunits : (new : State G).units = 0 := by simp [units, new, Sema.new, total]
  constructor
  case count =>
    rw [hunits]
    simp [total, new]
    decide
  case cleared => exact fun _ => rfl
  case zero => exact fun _ hne => absurd rfl hne
  case parks => exact Sema.Parks.new (by simp [new])
  case ok => exact fun _ => trivial
  case saw => exact fun _ _ => rfl

section Move

variable (h : s.Inv)
include h

omit [DecidableEq G] in
theorem Inv.saw_look {pc : G → Pc} (hpc : ∀ x, (pc x).Released → (s.pc x).Released ∨ counter word = 0) (x : G)
    (hx : (pc x).Released) : (s.sawZero x || counter word == 0) = true := by
  rcases hpc x hx with hold | hzero
  . simp [h.saw x hold]
  . simp [hzero]

omit [Fintype G] h in
theorem released_update {pc : G → Pc} (hg : pc g = a) (hb : b.Released → a.Released ∨ q) (x : G)
    (hx : (update pc g b x).Released) : (pc x).Released ∨ q := by
  by_cases heq : x = g
  . rw [heq, update_self] at hx
    rw [heq, hg]
    exact hb hx
  . rw [update_of_ne heq] at hx
    exact .inl hx

theorem Inv.evolve {word : UInt64} {sema : Sema G} {saw : G → Bool} (hg : s.pc g = a) (hok : b.Ok)
    (hcount : waiters word + sema.credit + b.left + a.waiting = waiters s.state + s.sema.credit + a.left + b.waiting)
    (hcleared : 0 < sema.credit + total Pc.left (update s.pc g b) → word = 0)
    (hzero : counter word = 0 → word ≠ 0 → b = .cas word ∨ ∃ x, x ≠ g ∧ s.pc x = .cas word)
    (hparks : sema.Parks fun x => update s.pc g b x = .parked)
    (hsaw : ∀ x, (update s.pc g b x).Released → saw x = true)
    : Inv { s.goto g b with state := word, sema := sema, sawZero := saw } := by
  have hwaiting := total_update Pc.waiting s.pc g b
  have hleft := total_update Pc.left s.pc g b
  rw [hg] at hwaiting hleft
  constructor
  case count =>
    have hold := h.count
    unfold units goto at *
    dsimp only at *
    omega
  case cleared => exact hcleared
  case zero =>
    intro hcounter hne
    rcases hzero hcounter hne with heq | hother
    . exact ⟨g, by simp [goto, heq]⟩
    . obtain ⟨x, hx, hcas⟩ := hother
      exact ⟨x, by simp [goto, hx, hcas]⟩
  case parks => exact hparks
  case ok => exact forall_update h.ok hok
  case saw => exact hsaw

theorem Inv.stay {sema : Sema G} {saw : G → Bool} (hg : s.pc g = a) (ha : a ≠ .cas s.state) (hok : b.Ok)
    (hcount : sema.credit + b.left + a.waiting = s.sema.credit + a.left + b.waiting)
    (hle : sema.credit + b.left ≤ s.sema.credit + a.left) (hparks : sema.Parks fun x => update s.pc g b x = .parked)
    (hsaw : ∀ x, (update s.pc g b x).Released → saw x = true)
    : Inv { s.goto g b with sema := sema, sawZero := saw } := by
  refine h.evolve hg hok ?_ ?_ ?_ hparks hsaw
  . dsimp only [State.goto]
    omega
  . intro _
    have hleft := total_update Pc.left s.pc g b
    rw [hg] at hleft
    apply h.cleared
    unfold units
    omega
  . intro hcounter hne
    obtain ⟨x, hx⟩ := h.zero hcounter hne
    refine .inr ⟨x, ?_, hx⟩
    rintro rfl
    rw [hg] at hx
    exact ha hx

theorem Inv.move {word : UInt64} (hg : s.pc g = a) (ha : a ≠ .parked) (hb : b ≠ .parked) (hok : b.Ok)
    (hcount : waiters word + b.left + a.waiting = waiters s.state + a.left + b.waiting)
    (hcleared : 0 < (s.goto g b).units → word = 0)
    (hzero : counter word = 0 → word ≠ 0 → b = .cas word ∨ ∃ x, x ≠ g ∧ s.pc x = .cas word)
    (hsaw : b.Released → a.Released ∨ counter word = 0) : Inv (look { s.goto g b with state := word }) := by
  refine h.evolve hg hok ?_ hcleared hzero (h.parks.iff (update_eq_iff (by rw [hg]; exact ha) hb))
    (h.saw_look (released_update hg hsaw))
  dsimp only [State.goto]
  omega

theorem Inv.goto (hg : s.pc g = a) (ha : a ≠ .parked ∧ a ≠ .cas s.state) (hb : b ≠ .parked) (hok : b.Ok)
    (hwaiting : a.waiting = b.waiting) (hleft : a.left = b.left)
    (hsaw : b.Released → a.Released ∨ counter s.state = 0) : Inv (look (s.goto g b)) := by
  refine h.stay hg ha.2 hok ?_ ?_ (h.parks.iff (update_eq_iff (by rw [hg]; exact ha.1) hb))
    (h.saw_look (released_update hg hsaw))
  all_goals
    dsimp only [State.goto]
    omega

attribute [local simp] Pc.Released

theorem Inv.add (hg : s.pc g = .add delta) (hstep : s.step g = some t)
    (hstart : counter s.state ≠ 0 ∨ rawDelta delta = 0 ∨ ∀ x, (s.pc x).inWait = false) : t.Inv := by
  simp only [step, hg, Option.some.injEq] at hstep
  subst hstep
  have hnonneg := counter_nonneg (s.state + rawDelta delta)
  have hwaiters := waiters_add_rawDelta s.state delta
  -- While there are units the word does not change.
  have hcleared : 0 < s.units → s.state + rawDelta delta = 0 := by
    intro hpos
    have hzero := h.cleared hpos
    rcases hstart with hcounter | hstart
    . rw [hzero] at hcounter
      contradiction
    rcases hstart with hraw | hnone
    . simp [hzero, hraw]
    have hwaiting : 0 < total Pc.waiting s.pc := by
      rw [← h.count]
      omega
    obtain ⟨x, hx⟩ := exists_of_total_pos hwaiting
    have hin := hnone x
    generalize s.pc x = p at hx hin
    cases p <;> simp [Pc.inWait] at hx hin
  have hunits : ∀ b : Pc, b.left = 0 → 0 < (s.goto g b).units → s.state + rawDelta delta = 0 := by
    intro b hb hpos
    have hsame := s.units_update hg b
    rw [hb] at hsame
    apply hcleared
    exact Nat.lt_of_lt_of_eq hpos hsame
  unfold addTo
  rw [if_neg (by omega)]
  split
  . next hreturn =>
    refine h.move hg (by simp) (by simp) trivial ?_ ?_ ?_ ?_
    . rw [hwaiters]
      rfl
    . exact hunits _ rfl
    . intro hcounter hne
      have hno := hreturn.resolve_left (by omega)
      exact absurd (eq_zero_of_halves _ hcounter hno) hne
    . simp
  next hreturn =>
  rw [not_or] at hreturn
  have hcounter : counter (s.state + rawDelta delta) = 0 := by omega
  have hne : s.state + rawDelta delta ≠ 0 := by
    intro heq
    rw [heq] at hreturn
    exact hreturn.2 waiters_zero
  refine h.move hg (by simp) (by simp) ⟨hcounter, hne⟩ ?_ ?_ ?_ ?_
  . rw [hwaiters]
    rfl
  . exact hunits _ rfl
  . exact fun _ _ => .inl rfl
  . simp

attribute [local simp] Pc.Ok

theorem Inv.cas (hg : s.pc g = .cas newState) (hstep : s.step g = some t) : t.Inv := by
  have hok := h.ok g
  rw [hg] at hok
  obtain ⟨hcounter, hne⟩ : counter newState = 0 ∧ newState ≠ 0 := hok
  simp only [step, hg] at hstep
  split at hstep
  . next heq =>
    cases hstep
    have hpos : 0 < waiters newState := by
      apply Nat.pos_of_ne_zero
      intro hzero
      exact hne (eq_zero_of_halves _ hcounter hzero)
    refine h.move hg (by simp) (by simp) hpos ?_ ?_ ?_ ?_
    . rw [heq, waiters_zero]
      dsimp only [Pc.left, Pc.waiting]
      omega
    . exact fun _ => rfl
    . intro _ hne
      exact (hne rfl).elim
    . simp
  . next hother =>
    cases hstep
    apply h.goto hg <;> simp
    exact fun heq => hother heq.symm

theorem Inv.waitCas (hcard : Fintype.card G < 2 ^ 32) (hg : s.pc g = .waitCas old)
    (hstep : s.step g = some t) : t.Inv := by
  have hok := h.ok g
  rw [hg] at hok
  have hcounter : counter old ≠ 0 := hok
  simp only [step, hg] at hstep
  split at hstep
  . next heq =>
    cases hstep
    have hunits : s.units = 0 := by
      apply Nat.eq_zero_of_not_pos
      intro hpos
      rw [← heq, h.cleared hpos] at hcounter
      exact hcounter counter_zero
    -- The goroutine itself is not counted yet.
    have hroom : waiters old + 1 < 2 ^ 32 := by
      have hcount := h.count
      have hmoved := total_update Pc.waiting s.pc g .acquire
      have hle : total Pc.waiting (update s.pc g .acquire) ≤ Fintype.card G := by
        apply total_le_card
        intro x
        cases update s.pc g Pc.acquire x <;> simp
      simp only [hg, Pc.waiting] at hmoved
      rw [heq] at hcount
      omega
    obtain ⟨_, hw⟩ := halves_succ old hroom
    refine h.move hg (by simp) (by simp) trivial ?_ ?_ ?_ ?_
    . rw [heq, hw]
      dsimp only [Pc.left, Pc.waiting]
    . intro _
      have := s.units_update hg .acquire
      simp only [Pc.left] at this
      omega
    . intro _
      omega
    . simp
  . cases hstep
    apply h.goto hg <;> simp

theorem Inv.acquire (hg : s.pc g = .acquire) (hstep : s.step g = some t) : t.Inv := by
  rcases Decidable.em (0 < s.sema.credit) with hpos | hzero
  . simp only [State.step, hg, Sema.acquire_pos hpos] at hstep
    cases hstep
    have hzero : s.state = 0 := h.cleared (Nat.lt_of_lt_of_le hpos (Nat.le_add_right _ _))
    refine h.stay hg (by simp) trivial ?_ ?_ ((h.parks.take hpos).iff (update_eq_iff (by simp [hg]) (by simp))) ?_
    . simp only [Pc.left, Pc.waiting]
      omega
    . simp only [Pc.left]
      omega
    . exact h.saw_look (released_update hg fun _ => .inr (hzero ▸ counter_zero))
  . simp only [State.step, hg, Sema.acquire_zero hzero] at hstep
    cases hstep
    refine h.stay hg (by simp) trivial rfl le_rfl ?_ (h.saw_look (released_update hg fun hr => hr.elim))
    exact (h.parks.park (by simp [hg]) hzero).iff (update_enter_iff s.pc g .parked)

omit [DecidableEq G] in
theorem Inv.release_zero (hg : s.pc g = .release left) : s.state = 0 := by
  have hpos := h.ok g
  have hle := le_total Pc.left s.pc g
  rw [hg] at hpos hle
  apply h.cleared
  exact lt_of_lt_of_le hpos (le_trans hle (Nat.le_add_left _ _))

theorem Inv.wake (hg : s.pc g = .release left) (hq : s.sema.queue = x :: rest) (hb : b ≠ .parked)
    (hok : b.Ok) (hleft : b.left + 1 = left) (hwait : b.waiting = 0)
    : Inv (look { (s.goto g b).goto x .ready with sema := { s.sema with queue := rest } }) := by
  obtain ⟨_, hpc, hparks⟩ := h.parks.wake_update (g := g) (b := b) (c := .ready) hq (by simp [hg]) hb (by simp)
  have hzero := h.release_zero hg
  have hcount := h.count
  have hw := total_update Pc.waiting s.pc g b
  have hl := total_update Pc.left s.pc g b
  have hw' := total_update Pc.waiting (update s.pc g b) x .ready
  have hl' := total_update Pc.left (update s.pc g b) x .ready
  have ha : (Pc.release left).waiting = 0 ∧ (Pc.release left).left = left := ⟨rfl, rfl⟩
  rw [hg, ha.1, hwait] at hw
  rw [hg, ha.2] at hl
  rw [hpc] at hw' hl'
  simp only [Pc.waiting, Pc.left] at hw' hl'
  constructor
  case count =>
    unfold units at *
    dsimp only [look, State.goto]
    omega
  case cleared => exact fun _ => hzero
  case zero => exact fun _ hne => absurd hzero hne
  case parks => exact hparks
  case ok => exact forall_update (forall_update h.ok hok) trivial
  case saw => exact h.saw_look fun _ _ => .inr (hzero ▸ counter_zero)

theorem Inv.release (hg : s.pc g = .release left) (hstep : s.step g = some t) : t.Inv := by
  have hpos : 0 < left := by
    have hok := h.ok g
    rwa [hg] at hok
  cases hq : s.sema.queue with
  | nil =>
    simp only [State.step, hg, Sema.releaseNext_nil hq] at hstep
    cases hstep
    refine h.stay hg (by simp) trivial rfl le_rfl ?_ (h.saw_look (released_update hg fun hr => hr.elim))
    exact (h.parks.store hq left).iff (update_eq_iff (by simp [hg]) (by simp))
  | cons =>
    simp only [State.step, hg, Sema.releaseNext_cons hq, Option.some.injEq] at hstep
    split at hstep
    . next hlast =>
      subst hstep
      apply h.wake hg hq <;> simp
      omega
    . next hmore =>
      subst hstep
      apply h.wake hg hq <;> simp <;> omega

def AddOk (s : State G) (delta : Int64) : Prop :=
  counter s.state ≠ 0 ∨ rawDelta delta = 0 ∨ ∀ x, (s.pc x).inWait = false

theorem Inv.step (hcard : Fintype.card G < 2 ^ 32) (hadd : ∀ delta, s.pc g = .add delta → s.AddOk delta)
    (hstep : s.step g = some t) : t.Inv := by
  cases hg : s.pc g with
  | idle | parked | waited | fatal => simp [State.step, hg] at hstep
  | add delta => exact h.add hg hstep (hadd delta hg)
  | cas => exact h.cas hg hstep
  | release => exact h.release hg hstep
  | waitCas => exact h.waitCas hcard hg hstep
  | acquire => exact h.acquire hg hstep
  | ready =>
    simp only [State.step, hg] at hstep
    cases hstep
    apply h.goto hg <;> simp
  | waitLoad =>
    simp only [State.step, hg, Option.some.injEq] at hstep
    split at hstep
    . next hzero =>
      subst hstep
      apply h.goto hg <;> simp [hzero]
    . next hne =>
      subst hstep
      apply h.goto hg <;> simp [hne]

theorem Inv.start {saw : G → Bool} (hg : s.pc g = .idle ∨ s.pc g = .waited) (hb : b ≠ .parked) (hok : b.Ok)
    (hwaiting : b.waiting = 0) (hleft : b.left = 0) (hsaw : ∀ x, (update s.pc g b x).Released → saw x = true)
    : Inv { s.goto g b with sawZero := saw } := by
  have hout : s.pc g ≠ .parked ∧ s.pc g ≠ .cas s.state ∧ (s.pc g).waiting = 0 ∧ (s.pc g).left = 0 := by
    rcases hg with hg | hg
    all_goals simp [hg]
  obtain ⟨hparked, hcas, hwaiting', hleft'⟩ := hout
  refine h.stay rfl hcas hok ?_ ?_ (h.parks.iff (update_eq_iff hparked hb)) hsaw
  all_goals
    dsimp only [State.goto]
    omega

omit [DecidableEq G] in
theorem Inv.saw_of_ne {pc : G → Pc} {saw : G → Bool} (hg : ¬ (pc g).Released)
    (hpc : ∀ x, x ≠ g → pc x = s.pc x ∧ saw x = s.sawZero x) (x : G) (hx : (pc x).Released) : saw x = true := by
  have hne : x ≠ g := by
    rintro rfl
    exact hg hx
  obtain ⟨h1, h2⟩ := hpc x hne
  rw [h1] at hx
  rw [h2]
  exact h.saw x hx

theorem Inv.call (hcall : s.call g c = some t) : t.Inv := by
  unfold State.call at hcall
  split at hcall
  . next hg =>
    have hne : ∀ b x, x ≠ g → update s.pc g b x = s.pc x := fun b x hx => update_of_ne hx _ _
    cases c with
    | add | done =>
      cases hcall
      refine h.start hg (by simp) trivial rfl rfl ?_
      exact h.saw_of_ne (g := g) (by simp) fun x hx => ⟨hne _ x hx, rfl⟩
    | wait =>
      cases hcall
      refine h.start hg (by simp) trivial rfl rfl ?_
      exact h.saw_of_ne (g := g) (by simp) fun x hx => ⟨hne _ x hx, update_of_ne hx _ _⟩
  . cases hcall

end Move

end State

end Sync.WaitGroup
