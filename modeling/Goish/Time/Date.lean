import Goish.Data.Calendar
import Goish.Time.Impl.Date

/-! `days_from_civil` is right for the months from -9 to 14; `AddDate` is right in UTC. -/

open Calendar Int

namespace Time

theorem tdiv_of_neg (h : a < 0) : a.tdiv b = -(-a / b) := by
  have hneg := Int.neg_tdiv (a := -a) (b := b)
  rw [Int.neg_neg] at hneg
  rw [hneg, Int.tdiv_eq_ediv_of_nonneg (by omega)]

theorem era_eq (y : Int) : (if y ≥ 0 then y else y - 399).tdiv 400 = y / 400 := by
  split
  . next hpos => exact tdiv_eq_ediv_of_nonneg hpos
  . rw [tdiv_of_neg (by omega)]
    omega

theorem daysFromCivil_eq (year month day : Int) : daysFromCivil year month day =
        marchStart (if month ≤ 2 then year - 1 else year) +
          (153 * (if month > 2 then month - 3 else month + 9) + 2).tdiv 5 + day - 1 - 719468 := by
  unfold daysFromCivil marchStart
  dsimp only
  rw [era_eq]
  generalize (if month ≤ 2 then year - 1 else year) = y
  rw [tdiv_eq_ediv_of_nonneg (a := y - y / 400 * 400) (by omega),
    tdiv_eq_ediv_of_nonneg (a := y - y / 400 * 400) (by omega)]
  omega

def MonthOk (year month : Int) : Prop :=
  -9 ≤ month ∧ month ≤ 14 ∨ IsLeap (year - 1) ∧ month ∈ [-21, -19, -17, -16, -14, -12, -11]

theorem tdiv_gt (y : Int) (hq : 0 < q) (hr : 0 ≤ r)
    : marchStart (y + q) + monthOffset r < marchStart y + (153 * (12 * q + r) + 2).tdiv 5 := by
  have hle := (marchStart_add_le y q.toNat).2
  rw [toNat_of_nonneg (by omega)] at hle
  rw [Int.tdiv_eq_ediv_of_nonneg (by omega)]
  unfold monthOffset
  omega

theorem tdiv_lt (y : Int) (hq : q < -1) (hlt : r < 12)
    : marchStart y + (153 * (12 * q + r) + 2).tdiv 5 < marchStart (y + q) + monthOffset r := by
  have hle := (marchStart_add_le (y + q) (-q).toNat).2
  rw [Int.toNat_of_nonneg (by omega), Int.add_assoc, Int.add_right_neg, Int.add_zero] at hle
  rw [tdiv_of_neg (by omega)]
  unfold monthOffset
  omega

theorem tdiv_last_iff (y : Int) (hr : 0 ≤ r) (hlt : r < 12)
    : marchStart y + (153 * (12 * (-1) + r) + 2).tdiv 5 = marchStart (y + -1) + monthOffset r ↔
        IsLeap y ∧ r ∈ [0, 2, 4, 5, 7, 9, 10] := by
  have hsucc := marchStart_succ (y + -1)
  rw [Int.add_assoc, Int.add_left_neg, Int.add_zero] at hsucc
  rw [hsucc]
  unfold monthOffset
  interval_cases r <;> by_cases hleap : IsLeap y <;> simp [hleap] <;> omega

theorem tdiv_eq_iff (y q : Int) (hr : 0 ≤ r) (hlt : r < 12)
    : marchStart y + (153 * (12 * q + r) + 2).tdiv 5 = marchStart (y + q) + monthOffset r ↔
        q = 0 ∨ q = -1 ∧ IsLeap y ∧ r ∈ [0, 2, 4, 5, 7, 9, 10] := by
  rcases lt_trichotomy q 0 with _ | hzero | hpos
  . by_cases hlast : q = -1
    . rw [hlast, tdiv_last_iff y hr hlt]
      simp
    . have hne := tdiv_lt (q := q) y (by omega) hlt
      constructor
      all_goals omega
  . rw [hzero, tdiv_eq_ediv_of_nonneg (by omega)]
    simp [monthOffset]
  . have hne := tdiv_gt y hpos hr
    constructor
    all_goals omega

theorem daysFromCivil_eq_iff (year month day : Int)
    : daysFromCivil year month day = monthStart (12 * year + (month - 1)) + (day - 1) ↔
        MonthOk year month := by
  rw [daysFromCivil_eq]
  obtain ⟨y, mp, hy, hmp⟩ : ∃ y mp, y = (if month ≤ 2 then year - 1 else year) ∧
      mp = (if month > 2 then month - 3 else month + 9) := ⟨_, _, rfl, rfl⟩
  rw [← hy, ← hmp]
  have hmonth : 12 * year + (month - 1) = 12 * (y + mp / 12) + 2 + mp % 12 := by
    split at hy <;> split at hmp <;> omega
  have hiff := tdiv_eq_iff (r := mp % 12) y (mp / 12) (by omega) (by omega)
  rw [hmonth, monthStart_march _ (by omega) (by omega)]
  rw [show 12 * (mp / 12) + mp % 12 = mp by omega] at hiff
  have hok : MonthOk year month ↔ mp / 12 = 0 ∨ mp / 12 = -1 ∧ IsLeap y ∧ mp % 12 ∈ [0, 2, 4, 5, 7, 9, 10] := by
    unfold MonthOk
    simp only [List.mem_cons, List.not_mem_nil, or_false]
    by_cases hle : month ≤ 2
    . rw [if_pos hle] at hy
      rw [hy]
      constructor
      . rintro (_ | ⟨hleap, _⟩)
        . exact .inl (by omega)
        . exact .inr ⟨by omega, hleap, by omega⟩
      . rintro (_ | ⟨_, hleap, _⟩)
        . exact .inl (by omega)
        . exact .inr ⟨hleap, by omega⟩
    . rw [if_pos (by omega)] at hmp
      omega
  rw [hok, ← hiff]
  omega

theorem exists_yearOfEra (hdoe : 0 ≤ doe) (hlt : doe < 146097)
    : ∃ c f g h : Int, (0 ≤ c ∧ c ≤ 3) ∧ (0 ≤ f ∧ f ≤ 24) ∧ (0 ≤ g ∧ g ≤ 3) ∧ 0 ≤ h ∧
        (h ≤ 364 ∨ h = 365 ∧ g = 3 ∧ (f ≤ 23 ∨ c = 3)) ∧ doe = 36524 * c + 1461 * f + 365 * g + h := by
  obtain ⟨c, hc⟩ : ∃ c : Int, c = if doe < 146096 then doe / 36524 else 3 := ⟨_, rfl⟩
  obtain ⟨f, hf⟩ : ∃ f : Int, f = (doe - 36524 * c) / 1461 := ⟨_, rfl⟩
  obtain ⟨r, hr⟩ : ∃ r : Int, r = doe - 36524 * c - 1461 * f := ⟨_, rfl⟩
  obtain ⟨g, hg⟩ : ∃ g : Int, g = if r < 1460 then r / 365 else 3 := ⟨_, rfl⟩
  refine ⟨c, f, g, r - 365 * g, ?_, ?_, ?_, ?_, ?_, ?_⟩
  . split at hc <;> omega
  . split at hc <;> omega
  . split at hg <;> omega
  . split at hg <;> omega
  . split at hc <;> split at hg <;> omega
  . omega

theorem yearOfEra_eq {c f g h doe : Int} (hc : 0 ≤ c ∧ c ≤ 3) (hf : 0 ≤ f ∧ f ≤ 24) (hg : 0 ≤ g ∧ g ≤ 3) (hh : 0 ≤ h)
    (hlast : h ≤ 364 ∨ h = 365 ∧ g = 3 ∧ (f ≤ 23 ∨ c = 3)) (hdoe : doe = 36524 * c + 1461 * f + 365 * g + h)
    : (doe - doe / 1460 + doe / 36524 - doe / 146096) / 365 = 100 * c + 4 * f + g := by
  have hcent : doe / 36524 - doe / 146096 = c := by
    rcases lt_or_eq_of_le (show doe ≤ 146096 by omega) with _ | _
    . have hrest : 1461 * f + 365 * g + h < 36524 := by
        rcases hlast with _ | _
        all_goals omega
      omega
    . have hc3 : c = 3 := by omega
      omega
  omega

theorem marchStart_yearOfEra {c f g : Int} (hc : 0 ≤ c ∧ c ≤ 3) (hf : 0 ≤ f ∧ f ≤ 24) (hg : 0 ≤ g ∧ g ≤ 3)
    : marchStart (100 * c + 4 * f + g) = 36524 * c + 1461 * f + 365 * g := by
  unfold marchStart
  omega

structure Civil.Reads (c : Civil) (secs : Int) : Prop where
  month : 1 ≤ c.month ∧ c.month ≤ 12
  day : 1 ≤ c.day ∧ c.day ≤ monthLength (12 * c.year + (c.month - 1))
  hour : 0 ≤ c.hour ∧ c.hour < 24
  min : 0 ≤ c.min ∧ c.min < 60
  sec : 0 ≤ c.sec ∧ c.sec < 60
  eq : (monthStart (12 * c.year + (c.month - 1)) + (c.day - 1)) * 86400 + c.hour * 3600 + c.min * 60 + c.sec
    = secs

theorem day_le (hdoy : 0 ≤ doy) (hlast : doy ≤ 364 ∨ doy = 365 ∧ IsLeap (y + 1)) (hmp : mp = (5 * doy + 2) / 153)
    : 0 ≤ mp ∧ mp < 12 ∧ 1 ≤ doy - monthOffset mp + 1 ∧
        doy - monthOffset mp + 1 ≤ monthLength (12 * y + 2 + mp) := by
  have hpos : 0 ≤ mp := by omega
  have hlt : mp < 12 := by omega
  have hstart : monthOffset mp ≤ doy := by
    unfold monthOffset
    omega
  refine ⟨hpos, hlt, by omega, ?_⟩
  by_cases hfeb : mp < 11
  . rw [monthLength_march y hpos hfeb]
    unfold monthOffset
    omega
  have hmp11 : mp = 11 := by omega
  have hoff : monthOffset 11 = 337 := by decide
  rw [hmp11, monthLength_february, hoff]
  rcases hlast with _ | h365
  . split <;> omega
  . rw [if_pos h365.2]
    omega

theorem marchStart_era (y era : Int) : marchStart (y + era * 400) = marchStart y + era * 146097 := by
  unfold marchStart
  omega

theorem era_day_eq (z : Int) : (if z ≥ 0 then z else z - 146096).tdiv 146097 = z / 146097 := by
  split
  . next hpos => exact tdiv_eq_ediv_of_nonneg hpos
  . rw [tdiv_of_neg (by omega)]
    omega

theorem civilFromUnix_eq (sec : Int) : ∃ y doy, (0 ≤ doy ∧ (doy ≤ 364 ∨ doy = 365 ∧ IsLeap (y + 1))) ∧
        marchStart y + doy - 719468 = sec / 86400 ∧
        civilFromUnix sec =
          let mp := (5 * doy + 2) / 153
          {
            year := if mp < 10 then y else y + 1
            month := if mp < 10 then mp + 3 else mp - 9
            day := doy - monthOffset mp + 1
            hour := sec % 86400 / 3600
            min := sec % 86400 % 3600 / 60
            sec := sec % 86400 % 60
          } := by
  obtain ⟨z, hz⟩ : ∃ z, z = sec / 86400 + 719468 := ⟨_, rfl⟩
  obtain ⟨doe, hdoe⟩ : ∃ doe, doe = z - z / 146097 * 146097 := ⟨_, rfl⟩
  have hpos : 0 ≤ doe := by omega
  obtain ⟨c, f, g, doy, hc, hf, hg, hdoy, hlast, heq⟩ := exists_yearOfEra hpos (by omega)
  have hyoe := yearOfEra_eq hc hf hg hdoy hlast heq
  have hmarch := marchStart_yearOfEra hc hf hg
  obtain ⟨yoe, hn⟩ : ∃ yoe, yoe = 100 * c + 4 * f + g := ⟨_, rfl⟩
  rw [← hn] at hyoe hmarch
  have hyear := marchStart_era yoe (z / 146097)
  have hrest : doe - (365 * yoe + yoe / 4 - yoe / 100) = doy := by
    unfold marchStart at hmarch
    omega
  have hleap : doy ≤ 364 ∨ doy = 365 ∧ IsLeap (yoe + z / 146097 * 400 + 1) := by
    unfold IsLeap
    omega
  refine ⟨yoe + z / 146097 * 400, doy, ⟨hdoy, hleap⟩, by omega, ?_⟩
  have hsecs : 0 ≤ sec % 86400 := by omega
  unfold civilFromUnix
  dsimp only
  rw [← hz, era_day_eq, ← hdoe]
  simp only [tdiv_eq_ediv_of_nonneg hpos, tdiv_eq_ediv_of_nonneg hsecs,
    tmod_eq_emod_of_nonneg hsecs]
  rw [tdiv_eq_ediv_of_nonneg (a := doe - _ + _ - _) (by omega), hyoe,
    tdiv_eq_ediv_of_nonneg (a := yoe) (by omega), tdiv_eq_ediv_of_nonneg (a := yoe) (by omega), hrest,
    tdiv_eq_ediv_of_nonneg (a := 5 * doy + 2) (by omega),
    tdiv_eq_ediv_of_nonneg (a := 153 * ((5 * doy + 2) / 153) + 2) (by omega),
    tdiv_eq_ediv_of_nonneg (a := sec % 86400 % 3600) (by omega)]
  have hmonth : (if (5 * doy + 2) / 153 < 10 then (5 * doy + 2) / 153 + 3 else (5 * doy + 2) / 153 - 9) ≤ 2 ↔
      ¬(5 * doy + 2) / 153 < 10 := by
    split <;> omega
  simp only [hmonth, ite_not]
  rfl

theorem civilFromUnix_reads (sec : Int) : (civilFromUnix sec).Reads sec := by
  obtain ⟨y, doy, ⟨hdoy, hlast⟩, _, heq⟩ := civilFromUnix_eq sec
  obtain ⟨mp, hmp⟩ : ∃ mp, mp = (5 * doy + 2) / 153 := ⟨_, rfl⟩
  obtain ⟨hpos, hlt, hday, hlen⟩ := day_le hdoy hlast hmp
  rw [← hmp] at heq
  have hmonth : 12 * (civilFromUnix sec).year + ((civilFromUnix sec).month - 1) = 12 * y + 2 + mp := by
    rw [heq]
    dsimp only
    split <;> omega
  have hstart := monthStart_march y hpos hlt
  constructor
  case month =>
    rw [heq]
    dsimp only
    split <;> omega
  case day =>
    rw [hmonth, heq]
    exact ⟨hday, hlen⟩
  case eq =>
    rw [hmonth, hstart, heq]
    dsimp only
    omega
  all_goals
    rw [heq]
    dsimp only
    omega

def instant (t : Time) : Int :=
  t.sec * 1000000000 + t.nsec

def wallInstant (year month day hour min sec nsec offset : Int) : Int :=
  ((monthStart (12 * year + (month - 1)) + (day - 1)) * 86400 + hour * 3600 + min * 60 + sec - offset
    + unixToInternal) * 1000000000 + nsec

def dateSec (year month day hour min sec nsec offset : Int) : Int :=
  daysFromCivil year month day * 86400 + hour * 3600 + min * 60 + sec - offset + nsec / 1000000000
    + unixToInternal

def Fits (x : Int) : Prop :=
  -2 ^ 63 ≤ x ∧ x < 2 ^ 63

instance (x : Int) : Decidable (Fits x) :=
  inferInstanceAs (Decidable (_ ∧ _))

theorem wrap_of_fits (h : Fits x) : wrap x = x := by
  unfold Fits at h
  exact bmod_eq_of_le (by omega) (by omega)

theorem wrap_wrap_add (x y : Int) : wrap (wrap x + y) = wrap (x + y) :=
  bmod_add_bmod

theorem wrap_add_wrap (x y : Int) : wrap (x + wrap y) = wrap (x + y) := by
  rw [add_comm, wrap_wrap_add, add_comm]

theorem wrap_wrap_sub (x y : Int) : wrap (wrap x - y) = wrap (x - y) :=
  wrap_wrap_add x (-y)

theorem date_sec (year month day hour min sec nsec : Int) (loc : Location)
    : (date year month day hour min sec nsec loc).sec =
        wrap (dateSec year month day hour min sec nsec loc.offset) := by
  simp only [date, unix, inLoc, dateSec, wrap_wrap_add, wrap_add_wrap, wrap_wrap_sub]

theorem date_nsec (year month day hour min sec nsec : Int) (loc : Location)
    : (date year month day hour min sec nsec loc).nsec = nsec % 1000000000 := by
  rfl

theorem date_instant {year month day hour min sec nsec : Int} {loc : Location}
    (h : Fits (dateSec year month day hour min sec nsec loc.offset))
    : (date year month day hour min sec nsec loc).instant =
        wallInstant year month day hour min sec nsec loc.offset ↔ MonthOk year month := by
  rw [← daysFromCivil_eq_iff year month day, instant, date_sec, date_nsec, wrap_of_fits h]
  simp only [dateSec, wallInstant]
  omega

theorem dateSec_civil (t : Time) (hnsec : 0 ≤ t.nsec) (hlt : t.nsec < 1000000000)
    : dateSec t.civil.year t.civil.month t.civil.day t.civil.hour t.civil.min t.civil.sec t.nsec 0 =
        t.sec + t.loc.offset := by
  have hreads : t.civil.Reads t.locSec := civilFromUnix_reads t.locSec
  obtain ⟨hmonth, hmonth12⟩ := hreads.month
  have hdays := (daysFromCivil_eq_iff t.civil.year t.civil.month t.civil.day).mpr
    (.inl ⟨by omega, by omega⟩)
  have heq := hreads.eq
  simp only [dateSec, hdays, locSec, unixSec, internalToUnix] at heq ⊢
  omega

theorem date_normal (t : Time)
    : (∀ year month day hour min sec nsec loc, Fits (dateSec year month day hour min sec nsec loc.offset) →
        (date year month day hour min sec nsec loc).loc = loc ∧
          ((date year month day hour min sec nsec loc).instant =
            wallInstant year month day hour min sec nsec loc.offset ↔ MonthOk year month)) ∧
        (∀ years months days, t.civil.Reads t.locSec ∧
          (t.addDate years months days = date (t.civil.year + years) (t.civil.month + months)
            (t.civil.day + days) t.civil.hour t.civil.min t.civil.sec t.nsec t.loc ↔ t.loc = .utc)) ∧
        (0 ≤ t.nsec → t.nsec < 1000000000 → Fits (t.sec + t.loc.offset) →
          ((t.addDate 0 0 0).instant = t.instant ↔ t.loc.offset = 0)) := by
  refine ⟨?_, ?_, ?_⟩
  . intro _ _ _ _ _ _ _ _ hfits
    exact ⟨rfl, date_instant hfits⟩
  . intro _ _ _
    refine ⟨civilFromUnix_reads t.locSec, ?_⟩
    constructor
    . intro heq
      have hloc := congrArg Time.loc heq
      exact hloc.symm
    . intro hloc
      rw [addDate, hloc]
  . intro hnsec hlt hfits
    have hsec := dateSec_civil t hnsec hlt
    rw [instant, instant, addDate, date_sec, date_nsec, add_zero, add_zero, add_zero]
    rw [show Location.utc.offset = 0 from rfl, hsec, wrap_of_fits hfits]
    omega

theorem date_normal_zone : (date 2023 11 31 1 30 0 0 { name := [], offset := 7200, isLocal := false }).instant =
        wallInstant 2023 11 31 1 30 0 0 7200 ∧
      ((date 2023 11 31 1 30 0 0 .utc).addDate 0 0 0).instant = (date 2023 11 31 1 30 0 0 .utc).instant :=
  ⟨((date_normal (date 2023 11 31 1 30 0 0 .utc)).1 2023 11 31 1 30 0 0
      { name := [], offset := 7200, isLocal := false } (by decide)).2.mpr (.inl (by decide)),
    ((date_normal (date 2023 11 31 1 30 0 0 .utc)).2.2 (by decide) (by decide) (by decide)).mpr rfl⟩

theorem date_late : (date 2023 15 1 0 0 0 0 .utc).instant =
        wallInstant 2023 15 1 0 0 0 0 0 + 86400 * 1000000000 ∧
      ((date 2024 1 1 12 0 0 0 { name := [], offset := 7200, isLocal := false }).addDate 0 0 0).instant =
        (date 2024 1 1 12 0 0 0 { name := [], offset := 7200, isLocal := false }).instant + 7200 * 1000000000 := by
  decide +kernel

end Time
