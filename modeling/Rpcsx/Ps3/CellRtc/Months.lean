import Rpcsx.Ps3.CellRtc.Rfc3339

/-!
# Adding months and years

A month is found by counting months from year 0 on; the day is cut to the length of the month. The calls
compute with numbers of 16 bits, pass a date outside of the calendar on, and report success either way.
-/

namespace Rpcsx.Ps3.CellRtc

open Lib.Gregorian CellRtcDateTime

/-- `CELL_RTC_ERROR_INVALID_ARG`, written to a signed variable. -/
def cellRtcErrorInvalidArg : Int := 0x80010604 - 0x100000000

def monthDays (year month : Nat) : Int :=
  if year = 0 ∨ month < 1 ∨ 12 < month then cellRtcErrorInvalidArg else (daysInMonthOf year).getD (month - 1) 0

/-- The end of both calls: the day is cut, and the tick written unless `cellRtcGetTick` refuses the year. -/
def setMonth (tick0 : Nat) (t : CellRtcDateTime) (year month : Nat) : Nat :=
  let day := if monthDays year month < t.day then (monthDays year month % 0x10000).toNat else t.day
  match cellRtcGetTick { t with year, month, day } with
  | .ok tick => tick
  | .error _ => tick0

/-- `cellRtcTickAddMonths`, with what `pTick0` holds afterwards. -/
def cellRtcTickAddMonths (mapped : Bool) (tick0 tick1 : Nat) (add : Int) : Except CellRtcError Unit × Nat :=
  if !mapped then (.error .invalidPointer, tick0)
  else
    let dateTime := tickToDateTime tick1
    let totalMonths := Int.bmod (dateTime.year * 12 + dateTime.month + add - 1) 0x100000000
    let newYear := (totalMonths.tdiv 12 % 0x10000).toNat
    let newMonth := ((totalMonths - newYear * 12 + 1) % 0x10000).toNat
    (.ok (), setMonth tick0 dateTime newYear newMonth)

def cellRtcTickAddYears (mapped : Bool) (tick0 tick1 : Nat) (add : Int) : Except CellRtcError Unit × Nat :=
  if !mapped then (.error .invalidPointer, tick0)
  else
    let dateTime := tickToDateTime tick1
    (.ok (), setMonth tick0 dateTime ((dateTime.year + add) % 0x10000).toNat dateTime.month)

/-- The month `add` months later lies in the years 1 to 9999. -/
def InCalendar (t : CellRtcDateTime) (add : Int) : Prop :=
  12 ≤ 12 * t.year + t.month - 1 + add ∧ 12 * t.year + t.month - 1 + add < 120000

instance (t : CellRtcDateTime) (add : Int) : Decidable (InCalendar t add) := inferInstanceAs (Decidable (_ ∧ _))

structure Shifted (t t' : CellRtcDateTime) (add : Int) : Prop where
  valid : t'.Valid
  month : (12 * t'.year + t'.month : Int) = 12 * t.year + t.month + add
  day : t'.day = min t.day (monthLength (decide (IsLeap t'.year)) (t'.month - 1))
  time : t'.timeOfDay = t.timeOfDay

variable {t : CellRtcDateTime}

/-- A month of the calendar is set, with the day cut to its length. -/
theorem setMonth_eq (h : t.Valid) (tick0 year month : Nat) (hyear : 0 < year) (hyear' : year < 10000) (hmonth : 0 < month)
    (hmonth' : month ≤ 12) : ∃ t' : CellRtcDateTime, t'.Valid ∧ setMonth tick0 t year month = dateTimeToTick t' ∧
      t'.year = year ∧ t'.month = month ∧ t'.day = min t.day (monthLength (decide (IsLeap year)) (month - 1)) ∧
      t'.timeOfDay = t.timeOfDay := by
  have hdays : monthDays year month = monthLength (decide (IsLeap year)) (month - 1) := by
    rw [monthDays, if_neg (by omega), getD_daysInMonthOf _ (by omega)]
  have hpos := monthLength_pos (decide (IsLeap year)) (month - 1)
  have hle := monthLength_le (decide (IsLeap year)) (month - 1)
  have hday := h.date.day_pos
  have hcut : (if monthDays year month < t.day then (monthDays year month % 0x10000).toNat else t.day) =
      min t.day (monthLength (decide (IsLeap year)) (month - 1)) := by
    rw [hdays]
    split_ifs <;> omega
  have hvalid : Valid { t with year, month, day := min t.day (monthLength (decide (IsLeap year)) (month - 1)) } :=
    ⟨⟨hyear, hmonth, hmonth', by dsimp only; omega, min_le_right _ _⟩, hyear', h.hour_lt, h.minute_lt, h.second_lt,
      h.microsecond_lt⟩
  refine ⟨_, hvalid, ?_, rfl, rfl, rfl, rfl⟩
  rw [setMonth, hcut, cellRtcGetTick, if_neg (by dsimp only; omega)]

/-- The numbers of 16 bits are those of the month. -/
theorem cellRtcTickAddMonths_eq {tick : Nat} (tick0 : Nat) {add : Int} (h : InCalendar (tickToDateTime tick) add) :
    ∃ n : Nat, 12 * (tickToDateTime tick).year + (tickToDateTime tick).month - 1 + add = n ∧ 12 ≤ n ∧ n < 120000 ∧
      cellRtcTickAddMonths true tick0 tick add =
        (.ok (), setMonth tick0 (tickToDateTime tick) (n / 12) (n % 12 + 1)) := by
  obtain ⟨hlow, hhigh⟩ := h
  obtain ⟨n, hn⟩ := Int.eq_ofNat_of_zero_le (le_trans (by decide) hlow)
  refine ⟨n, hn, by omega, by omega, ?_⟩
  have htotal : Int.bmod ((tickToDateTime tick).year * 12 + (tickToDateTime tick).month + add - 1) 0x100000000 = n := by
    rw [show ((tickToDateTime tick).year * 12 + (tickToDateTime tick).month + add - 1 : Int) = n by omega]
    exact Int.bmod_eq_of_le (by omega) (by omega)
  have hyear : ((n : Int).tdiv 12 % 0x10000).toNat = n / 12 := by
    rw [Int.tdiv_eq_ediv_of_nonneg (by omega)]
    omega
  have hmonth : (((n : Int) - ((n / 12 : Nat) : Int) * 12 + 1) % 0x10000).toNat = n % 12 + 1 := by omega
  simp only [cellRtcTickAddMonths, Bool.not_true, Bool.false_eq_true, if_false, htotal, hyear, hmonth]

/-- **Adding months** does what the calendar says exactly if the month lies in it: behind its ends no error is
returned. -/
theorem add_months_iff (tick0 : Nat) {tick : Nat} (htick : tick ≤ lastTick) (add : Int) :
    ((InCalendar (tickToDateTime tick) add → ∃ tick', cellRtcTickAddMonths true tick0 tick add = (.ok (), tick') ∧
        Shifted (tickToDateTime tick) (tickToDateTime tick') add) ∧
      (∀ years, add = 12 * years → InCalendar (tickToDateTime tick) add →
        cellRtcTickAddYears true tick0 tick years = cellRtcTickAddMonths true tick0 tick add) ∧
      (¬InCalendar (tickToDateTime tick) add →
        ∃ error, cellRtcTickAddMonths true tick0 tick add = (.error error, tick0))) ↔
    InCalendar (tickToDateTime tick) add := by
  obtain ⟨t, h, rfl⟩ := exists_valid (lt_of_le_lastTick htick)
  have hdate := tickToDateTime_eq h
  constructor
  · rintro ⟨-, -, herror⟩
    by_contra hout
    obtain ⟨error, hcall⟩ := herror hout
    cases hcall
  intro hin
  obtain ⟨n, hn, hlow, hhigh, hcall⟩ := cellRtcTickAddMonths_eq tick0 hin
  rw [hdate] at hin hn hcall ⊢
  have hmonth := h.date.month_pos
  have hmonth' := h.date.month_le
  refine ⟨fun _ => ⟨_, hcall, ?_⟩, fun years hyears _ => ?_, fun hout => absurd hin hout⟩
  · obtain ⟨t', h', htick', hyear, hmonth₁, hday, htime⟩ := setMonth_eq h tick0 (n / 12) (n % 12 + 1)
      (by omega) (by omega) (by omega) (by omega)
    rw [htick', h'.dateTimeToTick, tickToDateTime_eq h']
    exact ⟨h', by omega, by rw [hday, hyear, hmonth₁], htime⟩
  have hyear : ((t.year + years) % 0x10000).toNat = n / 12 := by omega
  have hsame : n % 12 + 1 = t.month := by omega
  rw [hcall, cellRtcTickAddYears, hdate, hsame, ← hyear]
  rfl

/-- The end of January, one month later. -/
theorem add_months_january : ∃ tick',
    cellRtcTickAddMonths true 0 (dateTimeToTick ⟨2024, 1, 31, 12, 0, 0, 0⟩) 1 = (.ok (), tick') ∧
    Shifted ⟨2024, 1, 31, 12, 0, 0, 0⟩ (tickToDateTime tick') 1 :=
  ((add_months_iff 0 (by decide +kernel) 1).mpr (by decide +kernel)).1 (by decide +kernel)

/-- Behind the last month nothing is written, and after 65536 years the same date is. -/
theorem add_months_out_of_calendar :
    cellRtcTickAddMonths true 7 (dateTimeToTick ⟨9999, 12, 31, 0, 0, 0, 0⟩) 1 = (.ok (), 7) ∧
    cellRtcTickAddMonths true 7 (dateTimeToTick ⟨2024, 1, 31, 12, 0, 0, 0⟩) 786432 =
      (.ok (), dateTimeToTick ⟨2024, 1, 31, 12, 0, 0, 0⟩) := by decide +kernel

end Rpcsx.Ps3.CellRtc
