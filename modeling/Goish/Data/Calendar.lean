import Mathlib.Tactic.IntervalCases

namespace Calendar

def IsLeap (y : Int) : Prop :=
  y % 4 = 0 ∧ y % 100 ≠ 0 ∨ y % 400 = 0

instance (y : Int) : Decidable (IsLeap y) :=
  inferInstanceAs (Decidable (_ ∨ _))

def marchStart (y : Int) : Int :=
  365 * y + y / 4 - y / 100 + y / 400

def monthOffset (r : Int) : Int :=
  (153 * r + 2) / 5

def monthLength (n : Int) : Int :=
  match n % 12 with
  | 1 => if IsLeap (n / 12) then 29 else 28
  | 3 => 30
  | 5 => 30
  | 8 => 30
  | 10 => 30
  | _ => 31

def monthStart (n : Int) : Int :=
  marchStart ((n - 2) / 12) + monthOffset ((n - 2) % 12) - 719468

-- The first of January 1970 is day zero.
theorem monthStart_epoch : monthStart (12 * 1970) = 0 :=
  rfl

theorem marchStart_succ (y : Int) : marchStart (y + 1) = marchStart y + if IsLeap (y + 1) then 366 else 365 := by
  unfold marchStart
  split
  all_goals next hleap =>
    unfold IsLeap at hleap
    omega

theorem monthStart_march (y : Int) (hr : 0 ≤ r) (hlt : r < 12)
    : monthStart (12 * y + 2 + r) = marchStart y + monthOffset r - 719468 := by
  have hdiv : (12 * y + 2 + r - 2) / 12 = y := by omega
  have hmod : (12 * y + 2 + r - 2) % 12 = r := by omega
  unfold monthStart
  rw [hdiv, hmod]

theorem monthLength_march (y : Int) (hr : 0 ≤ r) (hlt : r < 11)
    : monthLength (12 * y + 2 + r) = monthOffset (r + 1) - monthOffset r := by
  have hmod : (12 * y + 2 + r) % 12 = if r < 10 then r + 2 else r - 10 := by
    split <;> omega
  unfold monthLength monthOffset
  rw [hmod]
  interval_cases r <;> simp

theorem monthLength_february (y : Int) : monthLength (12 * y + 2 + 11) = if IsLeap (y + 1) then 29 else 28 := by
  have hmod : (12 * y + 2 + 11) % 12 = 1 := by omega
  have hdiv : (12 * y + 2 + 11) / 12 = y + 1 := by omega
  unfold monthLength
  rw [hmod, hdiv]
  rfl

theorem marchStart_add_le (y : Int) (q : Nat)
    : marchStart y + 365 * q ≤ marchStart (y + q) ∧ marchStart (y + q) ≤ marchStart y + 366 * q := by
  induction q with
  | zero => simp
  | succ q =>
    have hstep := marchStart_succ (y + q)
    rw [Nat.cast_succ, ← Int.add_assoc, hstep]
    split <;> omega

theorem monthStart_succ (n : Int) : monthStart (n + 1) = monthStart n + monthLength n := by
  obtain ⟨y, r, hr, hlt, rfl⟩ : ∃ y r, 0 ≤ r ∧ r < 12 ∧ n = 12 * y + 2 + r :=
    ⟨(n - 2) / 12, (n - 2) % 12, by omega, by omega, by omega⟩
  rw [monthStart_march y hr hlt]
  by_cases hfeb : r < 11
  . rw [monthLength_march y hr hfeb, Int.add_assoc, monthStart_march y (by omega) (by omega)]
    omega
  have hr11 : r = 11 := by omega
  have hmarch := monthStart_march (r := 0) (y + 1) (by omega) (by omega)
  rw [marchStart_succ] at hmarch
  rw [hr11, monthLength_february, show 12 * y + 2 + 11 + 1 = 12 * (y + 1) + 2 + 0 by omega, hmarch]
  unfold monthOffset
  split <;> omega

theorem monthLength_pos (n : Int) : 28 ≤ monthLength n := by
  unfold monthLength
  split <;> (try split) <;> omega

theorem monthStart_mono (h : n ≤ m) : monthStart n ≤ monthStart m := by
  revert h
  apply monotone_int_of_le_succ
  intro k
  have := monthLength_pos k
  rw [monthStart_succ]
  omega

theorem month_unique (hd : 0 ≤ d ∧ d < monthLength n) (he : 0 ≤ e ∧ e < monthLength m)
    (h : monthStart n + d = monthStart m + e) : n = m := by
  rcases Int.lt_trichotomy n m with _ | heq | _
  . have := monthStart_mono (show n + 1 ≤ m by omega)
    rw [monthStart_succ] at this
    omega
  . exact heq
  . have := monthStart_mono (show m + 1 ≤ n by omega)
    rw [monthStart_succ] at this
    omega

end Calendar
