import Mathlib.Tactic.IntervalCases
import Rpcsx.Lib.Gregorian
import Rpcsx.Ps3.CellRtc.Basic

/-!
# The clock keeps the Gregorian calendar

Both directions between ticks and dates, and the day of the week, are compared with the one count of
days of the calendar: the tables and the closed form of `date_time_to_tick` give the number of a
date, the search of `tick_to_date_time` finds the date of a number, and the formula of
`cellRtcGetDayOfWeek` follows the number modulo seven.
-/

namespace Rpcsx.Ps3.CellRtc

open Lib.Gregorian

/-! ## The tables and the closed form -/

theorem isLeapYear_eq (year : Nat) : isLeapYear year = decide (IsLeap year) := by
  rw [Bool.eq_iff_iff, decide_eq_true_iff]
  simp [isLeapYear, IsLeap]

variable {m : Nat}

theorem getD_monthOffsetOf (year : Nat) (hm : m < 12) :
    (monthOffsetOf year).getD m 0 = monthStart (decide (IsLeap year)) m := by
  rw [monthOffsetOf, isLeapYear_eq]
  cases decide (IsLeap year) <;> revert m <;> decide +kernel

theorem getD_daysInMonthOf (year : Nat) (hm : m < 12) :
    (daysInMonthOf year).getD m 0 = monthLength (decide (IsLeap year)) m := by
  rw [daysInMonthOf, isLeapYear_eq]
  cases decide (IsLeap year) <;> revert m <;> decide

theorem daysInPreviousYears_eq {year : Nat} (h : 0 < year) (hlt : year < 0x10000) :
    daysInPreviousYears year = yearStart (year - 1) := by
  obtain ⟨n, rfl⟩ := Nat.exists_eq_succ_of_ne_zero h.ne'
  have hstart := yearStart_eq n
  have h4 : (n + 1 + 3) / 4 = n / 4 + 1 := by omega
  have h100 : (n + 1 + 99) / 100 = n / 100 + 1 := by omega
  have h400 : (n + 1 + 399) / 400 = n / 400 + 1 := by omega
  rw [daysInPreviousYears, Nat.succ_eq_add_one, h4, h100, h400, Nat.add_sub_cancel]
  omega

theorem clampMonth_eq {month : Nat} (h : 0 < month) (hle : month ≤ 12) : clampMonth month = month := by
  rw [clampMonth, if_neg (by omega), if_neg (by omega)]

/-! ## The search for the year -/

variable {d : Nat}

/-- The dividend of `yearWithin400Interval` grows with the day, up to the last day. -/
theorem yearDividend_mono {e : Nat} (h : d ≤ e) : d - d / 1460 + d / 36524 ≤ e - e / 1460 + e / 36524 := by omega

/-- The first and the last day of each year of a cycle, but for the last day of all. -/
theorem yearDividend_bounds : ∀ i < 400, 365 * i ≤ (let d := 365 * i + i / 4 - i / 100; d - d / 1460 + d / 36524) ∧
    (let d := 365 * (i + 1) + (i + 1) / 4 - (i + 1) / 100 - 1; d - d / 1460 + d / 36524) < 365 * (i + 1) := by
  decide +kernel

theorem yearWithin400Interval_eq {i : Nat} (hi : i < 400) (hlow : yearStart i ≤ d) (hhigh : d < yearStart (i + 1)) :
    yearWithin400Interval d = i := by
  have hstart := yearStart_eq i
  have hend := yearStart_eq (i + 1)
  obtain ⟨hfirst, hlast⟩ := yearDividend_bounds i hi
  unfold yearWithin400Interval daysIn4Years daysIn100Years daysIn400Years
  by_cases hd : d = 146096
  · -- the only day that the last correction is for
    subst hd
    omega
  have hlow' := yearDividend_mono (show 365 * i + i / 4 - i / 100 ≤ d by omega)
  have hhigh' := yearDividend_mono (show d ≤ 365 * (i + 1) + (i + 1) / 4 - (i + 1) / 100 - 1 by omega)
  have hcorr : d / 146096 = 0 := by omega
  dsimp only at hfirst hlast
  omega

/-- The calendar repeats after 400 years. -/
theorem yearStart_cycle (q i : Nat) : yearStart (q * 400 + i) = q * daysIn400Years + yearStart i := by
  have h := yearStart_eq (q * 400 + i)
  have h' := yearStart_eq i
  unfold daysIn400Years
  omega

/-- The years of the formula that `tick_to_date_time` subtracts. -/
theorem yearStart_eq_sub (n : Nat) : n * 365 + n / 4 - n / 100 + n / 400 = yearStart n := by
  have h := yearStart_eq n
  omega

/-! ## The search for the month -/

/-- The guess by months of 29 days is never two months ahead. -/
theorem monthOfDay_table : ∀ leap : Bool, ∀ m < 12, ∀ k < monthLength leap m,
    let offset := if leap then monthOffsetLeap else monthOffset
    monthOfDay offset (offset.getD m 0 + k) = m := by decide +kernel

theorem monthOfDay_eq (year : Nat) (hm : m < 12) (hlow : monthStart (decide (IsLeap year)) m ≤ d)
    (hhigh : d < monthStart (decide (IsLeap year)) (m + 1)) : monthOfDay (monthOffsetOf year) d = m := by
  rw [monthStart_succ] at hhigh
  have htable := monthOfDay_table (isLeapYear year) m hm
    (d - monthStart (decide (IsLeap year)) m) (by rw [isLeapYear_eq]; omega)
  change monthOfDay (monthOffsetOf year) ((monthOffsetOf year).getD m 0 + _) = m at htable
  rwa [getD_monthOffsetOf year hm, Nat.add_sub_cancel' hlow] at htable

/-! ## Both directions -/

namespace CellRtcDateTime

def timeOfDay (t : CellRtcDateTime) : Nat :=
  t.microsecond + t.second * 1000000 + t.minute * 60 * 1000000 + t.hour * 60 * 60 * 1000000

structure Valid (t : CellRtcDateTime) : Prop where
  date : IsDate t.year t.month t.day
  year_lt : t.year < 10000
  hour_lt : t.hour < 24
  minute_lt : t.minute < 60
  second_lt : t.second < 60
  microsecond_lt : t.microsecond < 1000000

theorem Valid.timeOfDay_lt {t : CellRtcDateTime} (h : t.Valid) : t.timeOfDay < ticksPerDay := by
  have hh := h.hour_lt
  have hm := h.minute_lt
  have hs := h.second_lt
  have hu := h.microsecond_lt
  unfold timeOfDay ticksPerDay
  omega

end CellRtcDateTime

open CellRtcDateTime

variable {t : CellRtcDateTime}

theorem cellRtcCheckValid_eq_ok : cellRtcCheckValid t = .ok () ↔ t.Valid := by
  unfold cellRtcCheckValid cellRtcGetTickResolution
  constructor
  · intro h
    split_ifs at h with hyear hmonth hday hhour hminute hsecond hmicro
    rw [getD_daysInMonthOf _ (by omega)] at hday
    exact ⟨⟨by omega, by omega, by omega, by omega, by omega⟩, by omega, by omega, by omega, by omega, by omega⟩
  rintro ⟨⟨hyear, hmonth, hmonth', hday, hday'⟩, hyear', hhour, hminute, hsecond, hmicro⟩
  rw [getD_daysInMonthOf _ (by omega), if_neg (by omega), if_neg (by omega), if_neg (by omega),
    if_neg (by omega), if_neg (by omega), if_neg (by omega), if_neg (by omega)]

/-- The years of the clock end long before the numbers of the source wrap around. -/
theorem yearStart_le {n : Nat} (h : n ≤ 10000) : yearStart n ≤ 3652425 := by
  have hn := yearStart_eq n
  omega

/-- The tick of a date, of which only the number of its day matters. -/
theorem dateTimeToTick_eq (hdate : IsDate t.year t.month t.day) (hyear : t.year ≤ 10000)
    (htime : t.timeOfDay < ticksPerDay) :
    dateTimeToTick t = dayNumber t.year t.month t.day * ticksPerDay + t.timeOfDay := by
  have hlt := hdate.dayNumber_lt.trans_le (yearStart_le hyear)
  have hpos := hdate.day_pos
  have hmonth := hdate.month_pos
  have hmonth' := hdate.month_le
  have hdays : (daysInPreviousYears t.year + (monthOffsetOf t.year).getD (clampMonth t.month - 1) 0
      + t.day + 0x100000000 - 1) % 0x100000000 = dayNumber t.year t.month t.day := by
    rw [clampMonth_eq hmonth hmonth', getD_monthOffsetOf _ (by omega), daysInPreviousYears_eq hdate.year_pos (by omega)]
    rw [dayNumber, dayOfYear] at hlt ⊢
    omega
  unfold dateTimeToTick
  dsimp only
  rw [hdays]
  unfold timeOfDay ticksPerDay at *
  omega

/-- The time of day is what is left of a tick, digit by digit. -/
theorem timeOfDay_digits (h : t.Valid) (n : Nat) : let tick := n * ticksPerDay + t.timeOfDay
    tick / ticksPerDay = n ∧ tick / (60 * 60 * 1000000) % 24 = t.hour ∧
      tick / (60 * 1000000) % 60 = t.minute ∧ tick / 1000000 % 60 = t.second ∧
      tick % 1000000 = t.microsecond := by
  have hh := h.hour_lt
  have hm := h.minute_lt
  have hs := h.second_lt
  have hu := h.microsecond_lt
  unfold timeOfDay ticksPerDay
  refine ⟨?_, ?_, ?_, ?_, ?_⟩ <;> omega

/-- The place of a date in its cycle of 400 years. -/
theorem dayNumber_in_cycle {year month day : Nat} (h : IsDate year month day) :
    ∃ q i, i < 400 ∧ year = q * 400 + i + 1 ∧
      dayNumber year month day = q * daysIn400Years + (yearStart i + dayOfYear year month day) ∧
      yearStart i + dayOfYear year month day < yearStart (i + 1) ∧ yearStart (i + 1) ≤ daysIn400Years := by
  have hyear := h.year_pos
  obtain ⟨q, i, hi, hqi⟩ : ∃ q i, i < 400 ∧ year - 1 = q * 400 + i :=
    ⟨(year - 1) / 400, (year - 1) % 400, by omega, by omega⟩
  have hnumber : dayNumber year month day = q * daysIn400Years + (yearStart i + dayOfYear year month day) := by
    rw [dayNumber, hqi, yearStart_cycle, add_assoc]
  have hend : yearStart year = q * daysIn400Years + yearStart (i + 1) := by
    rw [← yearStart_cycle]
    exact congrArg yearStart (by omega)
  have hlt := h.dayNumber_lt
  have hcycle : yearStart (i + 1) ≤ yearStart 400 := strictMono_yearStart.monotone (by omega)
  have hlast := yearStart_eq 400
  exact ⟨q, i, hi, by omega, hnumber, by omega, by unfold daysIn400Years; omega⟩

/-- The date of a tick, found from the year and the month that its day lies in. -/
theorem tickToDateTime_eq (h : t.Valid) :
    tickToDateTime (dayNumber t.year t.month t.day * ticksPerDay + t.timeOfDay) = t := by
  obtain ⟨htick, hhour, hminute, hsecond, hmicro⟩ := timeOfDay_digits h (dayNumber t.year t.month t.day)
  obtain ⟨q, i, hi, hqi, hnumber, hlt, hle⟩ := dayNumber_in_cycle h.date
  have hyear := h.year_lt
  have hmonth := h.date.month_pos
  have hmonth' := h.date.month_le
  have hdays : dayNumber t.year t.month t.day % 0x100000000 = dayNumber t.year t.month t.day := by
    have hend := h.date.dayNumber_lt.trans_le (yearStart_le hyear.le)
    exact Nat.mod_eq_of_lt (by omega)
  have hq : dayNumber t.year t.month t.day / daysIn400Years = q := by
    rw [hnumber, mul_comm, Nat.mul_add_div (by decide), Nat.div_eq_of_lt (by omega), add_zero]
  have hrest : dayNumber t.year t.month t.day - q * daysIn400Years = yearStart i + dayOfYear t.year t.month t.day := by
    rw [hnumber, Nat.add_sub_cancel_left]
  have hwithin : yearWithin400Interval (yearStart i + dayOfYear t.year t.month t.day) = i :=
    yearWithin400Interval_eq hi (Nat.le_add_right _ _) hlt
  have hyears : (q * 400 + i + 1) % 0x10000 = t.year := by omega
  have hmonthOf : monthOfDay (monthOffsetOf t.year) (dayOfYear t.year t.month t.day) = t.month - 1 :=
    monthOfDay_eq t.year (by omega) (Nat.le_add_right _ _) h.date.dayOfYear_lt_month
  have hdayOf : dayOfYear t.year t.month t.day - (monthOffsetOf t.year).getD (t.month - 1) 0 = t.day - 1 := by
    rw [getD_monthOffsetOf _ (by omega), dayOfYear, Nat.add_sub_cancel_left]
  unfold tickToDateTime
  dsimp only
  rw [htick, hhour, hminute, hsecond, hmicro, hdays, hq, hrest, hwithin, yearStart_eq_sub,
    Nat.add_sub_cancel_left, hyears, hmonthOf, hdayOf, Nat.sub_add_cancel hmonth,
    Nat.sub_add_cancel h.date.day_pos]

/-- Every day before the end of year 9999 has a date. -/
theorem exists_date {n : Nat} (h : n < yearStart 9999) :
    ∃ year month day, IsDate year month day ∧ year < 10000 ∧ dayNumber year month day = n := by
  obtain ⟨i, hi, hlow, hhigh⟩ := exists_stretch yearStart rfl h
  have hmonths : n - yearStart i < monthStart (decide (IsLeap (i + 1))) 12 := by
    rw [monthStart_twelve]
    rw [yearStart_succ] at hhigh
    omega
  obtain ⟨m, hm, hmlow, hmhigh⟩ := exists_stretch (monthStart _) rfl hmonths
  refine ⟨i + 1, m + 1, n - yearStart i - monthStart (decide (IsLeap (i + 1))) m + 1,
    ⟨by omega, by omega, by omega, by omega, ?_⟩, by omega, ?_⟩
  · rw [monthStart_succ] at hmhigh
    rw [Nat.add_sub_cancel]
    omega
  rw [dayNumber, dayOfYear, Nat.add_sub_cancel, Nat.add_sub_cancel, Nat.add_sub_cancel]
  omega

/-- Every tick up to the last one of year 9999 is the tick of a valid date. -/
theorem exists_valid {tick : Nat} (h : tick < yearStart 9999 * ticksPerDay) : ∃ t : CellRtcDateTime, t.Valid ∧
      tick = dayNumber t.year t.month t.day * ticksPerDay + t.timeOfDay := by
  obtain ⟨year, month, day, hdate, hyear, hnumber⟩ :=
    exists_date (Nat.div_lt_of_lt_mul (mul_comm _ ticksPerDay ▸ h))
  refine ⟨⟨year, month, day, tick / (60 * 60 * 1000000) % 24, tick / (60 * 1000000) % 60,
    tick / 1000000 % 60, tick % 1000000⟩, ⟨hdate, hyear, ?_, ?_, ?_, ?_⟩, ?_⟩
  · exact Nat.mod_lt _ (by decide)
  · exact Nat.mod_lt _ (by decide)
  · exact Nat.mod_lt _ (by decide)
  · exact Nat.mod_lt _ (by decide)
  rw [hnumber]
  unfold timeOfDay ticksPerDay
  dsimp only
  omega

end Rpcsx.Ps3.CellRtc
