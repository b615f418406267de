import Goish.Time.Date
import Mathlib.Algebra.BigOperators.Group.Finset.Basic

/-! The dates, and the days of the week and of the year. -/

open Calendar

namespace Time

def Civil.tomorrow (c : Civil) : Civil :=
  if c.day < daysIn c.month c.year then
    { c with day := c.day + 1 }
  else if c.month < 12 then
    { c with month := c.month + 1, day := 1 }
  else
    { c with year := c.year + 1, month := 1, day := 1 }

def Civil.date (c : Civil) : Int × Int × Int :=
  (c.year, c.month, c.day)

structure IsDate (sec : Int) (c : Civil) : Prop where
  month : 1 ≤ c.month ∧ c.month ≤ 12
  day : 1 ≤ c.day ∧ c.day ≤ daysIn c.month c.year
  clock : (0 ≤ c.hour ∧ c.hour < 24) ∧ (0 ≤ c.min ∧ c.min < 60) ∧ (0 ≤ c.sec ∧ c.sec < 60) ∧
    c.hour * 3600 + c.min * 60 + c.sec = sec % 86400
  days : daysFromCivil c.year c.month c.day = sec / 86400
  next : civilFromUnix (sec + 86400) = c.tomorrow

structure InWeek (day year week : Int) : Prop where
  thursday : ∃ monday first, (monday + 4) % 7 = 1 ∧ monday ≤ day ∧ day < monday + 7 ∧
    (first + 4) % 7 = 4 ∧ daysFromCivil year 1 1 ≤ first ∧ first < daysFromCivil year 1 1 + 7 ∧
    monday + 3 = first + 7 * (week - 1) ∧ monday + 3 < daysFromCivil (year + 1) 1 1
  pos : 1 ≤ week

structure OnCalendar (t : Time) : Prop where
  yearDay : t.yearDay = ∑ m ∈ Finset.range (t.civil.month - 1).toNat, daysIn (m + 1) t.civil.year + t.civil.day
  weekday : 0 ≤ t.weekday ∧ t.weekday < 7
  epoch : t.civil.date = (1970, 1, 1) → t.weekday = 4
  next : ∀ u : Time, u.civil.date = t.civil.tomorrow.date → u.weekday = (t.weekday + 1) % 7
  isoWeek : InWeek (t.locSec / 86400) t.isoWeek.1 t.isoWeek.2

theorem isLeap_iff (y : Int) : isLeap y = true ↔ IsLeap y := by
  have htmod := Int.dvd_iff_tmod_eq_zero (a := 25) (b := y)
  unfold isLeap IsLeap
  by_cases h : y.tmod 25 = 0
  . have := htmod.mpr h
    simp only [h, ne_eq, not_true_eq_false, if_false, decide_eq_true_eq]
    omega
  . have := mt htmod.mp h
    simp only [h, ne_eq, not_false_eq_true, if_true, decide_eq_true_eq]
    omega

theorem monthLength_eq (y : Int) (hm : 1 ≤ m) (hle : m ≤ 12) : monthLength (12 * y + (m - 1)) = daysIn m y := by
  have hmod : (12 * y + (m - 1)) % 12 = m - 1 := by omega
  have hdiv : (12 * y + (m - 1)) / 12 = y := by omega
  unfold monthLength daysIn
  rw [hmod, hdiv]
  simp only [isLeap_iff]
  interval_cases m <;> simp

variable {c c' : Civil} {s : Int}

theorem Civil.Reads.days (h : c.Reads s) : monthStart (12 * c.year + (c.month - 1)) + (c.day - 1) = s / 86400 := by
  have := h.eq
  have := h.hour
  have := h.min
  have := h.sec
  omega

theorem Civil.Reads.unique (h : c.Reads s) (h' : c'.Reads s) : c = c' := by
  have hdays := h.days.trans h'.days.symm
  obtain ⟨_, _, _, _, _, heq⟩ := h
  obtain ⟨hmonth', hday', hhour', hmin', hsec', heq'⟩ := h'
  have hsame := month_unique ⟨by omega, by omega⟩ ⟨by omega, by omega⟩ hdays
  rw [hsame] at heq
  cases c
  cases c'
  simp only [Civil.mk.injEq] at *
  omega

theorem Civil.Reads.turn (h : c.Reads s) (hlast : monthLength (12 * c.year + (c.month - 1)) ≤ c.day) {year month : Int}
    (hmonth : 1 ≤ month ∧ month ≤ 12) (hnext : 12 * year + (month - 1) = 12 * c.year + (c.month - 1) + 1)
    : { c with year := year, month := month, day := 1 : Civil }.Reads (s + 86400) := by
  have hday := h.day
  have heq := h.eq
  have hpos := monthLength_pos (12 * year + (month - 1))
  have hsucc := monthStart_succ (12 * c.year + (c.month - 1))
  rw [← hnext] at hsucc
  exact ⟨hmonth, ⟨Int.le_refl _, by dsimp only; omega⟩, h.hour, h.min, h.sec, by dsimp only; omega⟩

theorem Civil.Reads.tomorrow (h : c.Reads s) : c.tomorrow.Reads (s + 86400) := by
  have hmonth := h.month
  have hlen := monthLength_eq c.year hmonth.1 hmonth.2
  unfold Civil.tomorrow
  split
  . have hday := h.day
    have heq := h.eq
    exact ⟨hmonth, ⟨by dsimp only; omega, by dsimp only; omega⟩, h.hour, h.min, h.sec, by dsimp only; omega⟩
  . split
    all_goals exact h.turn (by omega) (by omega) (by omega)

theorem Civil.Reads.daysFromCivil (h : c.Reads s) : Time.daysFromCivil c.year c.month c.day = s / 86400 := by
  have hmonth := h.month
  rw [(daysFromCivil_eq_iff _ _ _).mpr (.inl ⟨by omega, by omega⟩), h.days]

theorem Civil.Reads.day_eq (h : c.Reads s) (h' : c'.Reads s') (heq : c.date = c'.date) : s / 86400 = s' / 86400 := by
  simp only [date, Prod.mk.injEq] at heq
  rw [← h.daysFromCivil, ← h'.daysFromCivil, heq.1, heq.2.1, heq.2.2]

theorem daysFromCivil_first (y : Int) : daysFromCivil y 1 1 = monthStart (12 * y) := by
  have := (daysFromCivil_eq_iff y 1 1).mpr (.inl ⟨by omega, by omega⟩)
  rw [this, Int.sub_self, Int.add_zero, Int.add_zero]

theorem civilFromUnix_isDate (sec : Int) : IsDate sec (civilFromUnix sec) := by
  have h := civilFromUnix_reads sec
  have hdays := h.days
  have hday := h.day
  rw [monthLength_eq _ h.month.1 h.month.2] at hday
  have heq := h.eq
  exact ⟨h.month, hday, ⟨h.hour, h.min, h.sec, by omega⟩, h.daysFromCivil, (civilFromUnix_reads _).unique h.tomorrow⟩

theorem monthStart_sum (y : Int) (k : Nat)
    (hk : k ≤ 12) : monthStart (12 * y + k) = monthStart (12 * y) + ∑ m ∈ Finset.range k, daysIn (m + 1) y := by
  induction k with
  | zero => simp
  | succ k ih =>
    have hlen := monthLength_eq (m := k + 1) y (by omega) (by omega)
    rw [Int.add_sub_cancel] at hlen
    rw [Finset.sum_range_succ, ← Int.add_assoc, ← ih (by omega), ← hlen, ← monthStart_succ, Nat.cast_succ, Int.add_assoc]

theorem year_bounds (h : c.Reads s) : monthStart (12 * c.year) ≤ s / 86400 ∧ s / 86400 < monthStart (12 * (c.year + 1)) := by
  have hdays := h.days
  have hday := h.day
  have hmonth := h.month
  have hlo := monthStart_mono (show 12 * c.year ≤ 12 * c.year + (c.month - 1) by omega)
  have hhi := monthStart_mono (show 12 * c.year + (c.month - 1) + 1 ≤ 12 * (c.year + 1) by omega)
  rw [monthStart_succ] at hhi
  omega

theorem isoWeek_inWeek (t : Time) : InWeek (t.locSec / 86400) t.isoWeek.1 t.isoWeek.2 := by
  unfold isoWeek
  dsimp only
  generalize t.locSec / 86400 = days
  obtain ⟨thu, hthu⟩ : ∃ thu, thu = days + (3 - (days + 3) % 7) := ⟨_, rfl⟩
  rw [← hthu]
  have hbounds := year_bounds (civilFromUnix_reads (thu * 86400))
  rw [Int.mul_ediv_cancel _ (by omega), ← daysFromCivil_first, ← daysFromCivil_first] at hbounds
  generalize (civilFromUnix (thu * 86400)).year = year at *
  rw [Int.tdiv_eq_ediv_of_nonneg (by omega)]
  refine ⟨⟨thu - 3, thu - 7 * ((thu - daysFromCivil year 1 1) / 7), ?_⟩, ?_⟩
  all_goals omega

theorem daysFromCivil_epoch : daysFromCivil 1970 1 1 = 0 :=
  (daysFromCivil_first 1970).trans monthStart_epoch

theorem calendar_exact
    : daysFromCivil 1970 1 1 = 0 ∧ (∀ sec, IsDate sec (civilFromUnix sec)) ∧ ∀ t : Time, t.OnCalendar := by
  refine ⟨daysFromCivil_epoch, civilFromUnix_isDate, ?_⟩
  intro t
  have hreads : t.civil.Reads t.locSec := civilFromUnix_reads t.locSec
  refine ⟨?_, ?_, ?_, ?_, isoWeek_inWeek t⟩
  . have hmonth := hreads.month
    have hsum := monthStart_sum t.civil.year (t.civil.month - 1).toNat (by omega)
    rw [Int.toNat_of_nonneg (by omega)] at hsum
    have hdays := hreads.days
    rw [yearDay, daysFromCivil_first]
    omega
  . unfold weekday
    omega
  . intro h
    simp only [Civil.date, Prod.mk.injEq] at h
    have hday := hreads.daysFromCivil
    rw [h.1, h.2.1, h.2.2, daysFromCivil_epoch] at hday
    unfold weekday
    omega
  . intro u h
    have hday := (civilFromUnix_reads u.locSec).day_eq hreads.tomorrow h
    unfold weekday
    omega

end Time
