import Rpcsx.Ps3.CellRtc.Calendar

/-!
# Dates in order

The day of the week, the order of the dates and the step from one day to the next, and with them
the whole agreement between the ticks and the dates of the clock.
-/

namespace Rpcsx.Ps3.CellRtc

open Lib.Gregorian CellRtcDateTime

/-- A common year has one day more than whole weeks, so that the formula may count years for
days. -/
theorem weekday_yearStart (month year day : Nat) :
    (((month : Int) * 13 + 8).tdiv 5 + year + (year : Int).tdiv 4 - (year : Int).tdiv 100
      + (year : Int).tdiv 400 + day).tmod 7 = (((month * 13 + 8) / 5 + yearStart year + day) % 7 : Nat) := by
  have hstart := yearStart_eq year
  rw [Int.tdiv_eq_ediv_of_nonneg (by omega), Int.tdiv_eq_ediv_of_nonneg (by omega),
    Int.tdiv_eq_ediv_of_nonneg (by omega), Int.tdiv_eq_ediv_of_nonneg (by omega),
    Int.tmod_eq_emod_of_nonneg (by omega)]
  have hmonth : ((month : Int) * 13 + 8) / 5 = ((month * 13 + 8) / 5 : Nat) := by omega
  rw [hmonth]
  generalize (month * 13 + 8) / 5 = c
  omega

theorem cellRtcGetDayOfWeek_of_le {month : Nat} (h : 0 < month) (h' : month ≤ 2) (year day : Nat) :
    cellRtcGetDayOfWeek (year + 1 : Nat) month day =
      ((((month + 12) * 13 + 8) / 5 + yearStart year + day) % 7 : Nat) := by
  have hearly : (month : Int) = 1 ∨ (month : Int) = 2 := by omega
  unfold cellRtcGetDayOfWeek
  simp only [if_pos hearly, Nat.cast_add, Nat.cast_one, add_sub_cancel_right]
  exact weekday_yearStart (month + 12) year day

theorem cellRtcGetDayOfWeek_of_lt {month : Nat} (h : 2 < month) (year day : Nat) : cellRtcGetDayOfWeek year month day =
      (((month * 13 + 8) / 5 + yearStart year + day) % 7 : Nat) := by
  have hlate : ¬((month : Int) = 1 ∨ (month : Int) = 2) := by omega
  unfold cellRtcGetDayOfWeek
  simp only [if_neg hlate]
  exact weekday_yearStart month year day

/-- The months from March on lie at fixed distances from the end of the year. -/
theorem monthStart_from_end : ∀ leap : Bool, ∀ m < 12, 2 ≤ m →
    (monthStart leap 12 + 6 * monthStart leap m + ((m + 1) * 13 + 8) / 5) % 7 = 0 := by decide +kernel

/-- The day of the week follows the number of the day; the first day of year 1 was a Monday. -/
theorem cellRtcGetDayOfWeek_dayNumber {year month day : Nat} (h : IsDate year month day) :
    cellRtcGetDayOfWeek year month day = ((dayNumber year month day + 1) % 7 : Nat) := by
  obtain ⟨hyear, hmonth, hmonth', hday, -⟩ := h
  obtain ⟨y, rfl⟩ := Nat.exists_eq_succ_of_ne_zero hyear.ne'
  obtain ⟨m, rfl⟩ := Nat.exists_eq_succ_of_ne_zero hmonth.ne'
  rw [Nat.succ_eq_add_one, Nat.succ_eq_add_one] at *
  rw [dayNumber, dayOfYear, Nat.add_sub_cancel, Nat.add_sub_cancel]
  by_cases hearly : m + 1 ≤ 2
  · rw [cellRtcGetDayOfWeek_of_le hmonth hearly]
    congr 1
    obtain rfl | rfl : m = 0 ∨ m = 1 := by omega
    · have hzero : monthStart (decide (IsLeap (y + 1))) 0 = 0 := rfl
      omega
    have hone : monthStart (decide (IsLeap (y + 1))) 1 = 31 := rfl
    omega
  have hend := monthStart_from_end (decide (IsLeap (y + 1))) m (by omega) (by omega)
  rw [monthStart_twelve] at hend
  rw [cellRtcGetDayOfWeek_of_lt (by omega), yearStart_succ]
  congr 1
  generalize ((m + 1) * 13 + 8) / 5 = c at *
  omega

/-! ## The order of the dates -/

namespace CellRtcDateTime

def fields (t : CellRtcDateTime) : List Nat :=
  [t.year, t.month, t.day, t.hour, t.minute, t.second, t.microsecond]

theorem Valid.dateTimeToTick {t : CellRtcDateTime} (h : t.Valid) :
    dateTimeToTick t = dayNumber t.year t.month t.day * ticksPerDay + t.timeOfDay :=
  dateTimeToTick_eq h.date h.year_lt.le h.timeOfDay_lt

/-- A later date, and a later time of the same date, has a greater tick. -/
theorem Valid.dateTimeToTick_lt {t t' : CellRtcDateTime} (h : t.Valid) (h' : t'.Valid)
    (hlt : t.fields < t'.fields) : CellRtc.dateTimeToTick t < CellRtc.dateTimeToTick t' := by
  rw [h.dateTimeToTick, h'.dateTimeToTick]
  simp only [fields, List.cons_lt_cons_iff, List.not_lt_nil, and_false, or_false] at hlt
  by_cases hsame : t.year = t'.year ∧ t.month = t'.month ∧ t.day = t'.day
  · obtain ⟨hyear, hmonth, hday⟩ := hsame
    have hs := h.second_lt
    have hm := h.minute_lt
    have hu := h.microsecond_lt
    rw [hyear, hmonth, hday]
    refine Nat.add_lt_add_left ?_ _
    unfold timeOfDay
    omega
  have hday := h.date.dayNumber_lt_of_lt h'.date (by omega)
  have htime := h.timeOfDay_lt
  unfold ticksPerDay at *
  omega

def nextDay (t : CellRtcDateTime) : CellRtcDateTime :=
  if t.day < monthLength (decide (IsLeap t.year)) (t.month - 1) then { t with day := t.day + 1 }
  else if t.month < 12 then { t with month := t.month + 1, day := 1 }
  else { t with year := t.year + 1, month := 1, day := 1 }

@[simp] theorem timeOfDay_nextDay (t : CellRtcDateTime) : t.nextDay.timeOfDay = t.timeOfDay := by
  unfold nextDay
  split_ifs <;> rfl

theorem Valid.nextDay_date {t : CellRtcDateTime} (h : t.Valid) :
    IsDate t.nextDay.year t.nextDay.month t.nextDay.day ∧ t.nextDay.year ≤ 10000 ∧
      dayNumber t.nextDay.year t.nextDay.month t.nextDay.day = dayNumber t.year t.month t.day + 1 := by
  obtain ⟨⟨hyear, hmonth, hmonth', hday, hday'⟩, hlt, -⟩ := h
  unfold nextDay dayNumber dayOfYear
  split_ifs with hlast hdec
  · dsimp only
    exact ⟨⟨hyear, hmonth, hmonth', by omega, hlast⟩, hlt.le, by omega⟩
  · have hnext := monthStart_succ (decide (IsLeap t.year)) (t.month - 1)
    rw [Nat.sub_add_cancel hmonth] at hnext
    dsimp only
    refine ⟨⟨hyear, by omega, by omega, by omega, monthLength_pos _ _⟩, hlt.le, ?_⟩
    rw [Nat.add_sub_cancel]
    omega
  have hnext := monthStart_succ (decide (IsLeap t.year)) (t.month - 1)
  have hstart := yearStart_succ (t.year - 1)
  rw [Nat.sub_add_cancel hmonth, show t.month = 12 by omega, monthStart_twelve] at hnext
  rw [Nat.sub_add_cancel hyear] at hstart
  have hzero : monthStart (decide (IsLeap (t.year + 1))) (1 - 1) = 0 := rfl
  rw [show t.month = 12 by omega] at hlast hday' ⊢
  dsimp only
  refine ⟨⟨by omega, by omega, by omega, by omega, monthLength_pos _ _⟩, by omega, ?_⟩
  rw [Nat.add_sub_cancel, hzero]
  omega

end CellRtcDateTime

/-! ## Ticks and dates -/

def lastTick : Nat := dateTimeToTick ⟨9999, 12, 31, 23, 59, 59, 999999⟩

theorem lt_of_le_lastTick {tick : Nat} (h : tick ≤ lastTick) : tick < yearStart 9999 * ticksPerDay := by
  have hlast : lastTick < 3652059 * ticksPerDay := by decide
  have hstart := yearStart_eq 9999
  rw [show yearStart 9999 = 3652059 by omega]
  exact h.trans_lt hlast

/-- Ticks and valid dates are in one-to-one correspondence, in order; the days are all equally long
and the days of the week follow them. -/
theorem ticks_and_dates : (∀ t, cellRtcCheckValid t = .ok () → tickToDateTime (dateTimeToTick t) = t) ∧
    (∀ tick ≤ lastTick, dateTimeToTick (tickToDateTime tick) = tick ∧
      cellRtcCheckValid (tickToDateTime tick) = .ok ()) ∧
    (∀ t t', cellRtcCheckValid t = .ok () → cellRtcCheckValid t' = .ok () → t.fields < t'.fields →
      dateTimeToTick t < dateTimeToTick t') ∧ (∀ t, cellRtcCheckValid t = .ok () →
      dateTimeToTick t.nextDay = dateTimeToTick t + 86400000000) ∧ ∀ t, cellRtcCheckValid t = .ok () →
      cellRtcGetDayOfWeek t.year t.month t.day = ((dateTimeToTick t / 86400000000 + 1) % 7 : Nat) := by
  simp only [cellRtcCheckValid_eq_ok]
  refine ⟨?_, ?_, ?_, ?_, ?_⟩
  · intro t h
    rw [h.dateTimeToTick, tickToDateTime_eq h]
  · intro tick htick
    obtain ⟨t, h, rfl⟩ := exists_valid (lt_of_le_lastTick htick)
    rw [tickToDateTime_eq h]
    exact ⟨h.dateTimeToTick, h⟩
  · intro t t' h h' hlt
    exact h.dateTimeToTick_lt h' hlt
  · intro t h
    obtain ⟨hdate, hyear, hnumber⟩ := h.nextDay_date
    rw [dateTimeToTick_eq hdate hyear (t.timeOfDay_nextDay ▸ h.timeOfDay_lt), hnumber,
      timeOfDay_nextDay, h.dateTimeToTick, Nat.succ_mul]
    unfold ticksPerDay
    omega
  intro t h
  have hday := (timeOfDay_digits h (dayNumber t.year t.month t.day)).1
  rw [cellRtcGetDayOfWeek_dayNumber h.date, h.dateTimeToTick]
  unfold ticksPerDay at hday ⊢
  rw [hday]

/-- A leap day, a Thursday, and the day behind it. -/
theorem ticks_and_dates_leap_day : dateTimeToTick ⟨2024, 3, 1, 12, 30, 0, 5⟩ =
        dateTimeToTick ⟨2024, 2, 29, 12, 30, 0, 5⟩ + 86400000000 ∧ cellRtcGetDayOfWeek 2024 2 29 = 4 := by
  have hnext := ticks_and_dates.2.2.2.1 ⟨2024, 2, 29, 12, 30, 0, 5⟩ (by decide)
  have hweek := ticks_and_dates.2.2.2.2 ⟨2024, 2, 29, 12, 30, 0, 5⟩ (by decide)
  exact ⟨hnext, hweek⟩

end Rpcsx.Ps3.CellRtc
