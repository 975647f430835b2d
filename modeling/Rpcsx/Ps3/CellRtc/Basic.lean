import Mathlib.Data.Nat.Basic

/-!
# Ticks and dates

The clock of `cellRtc`: a tick counts microseconds from the first day of year 1 on, a
`CellRtcDateTime` names them by year, month, day and time of day. The unsigned numbers of the source
are natural numbers here, reduced to their width where an operation can leave it.
-/

namespace Rpcsx.Ps3.CellRtc

inductive CellRtcError where
  | invalidPointer | invalidValue | badParse
  | invalidYear | invalidMonth | invalidDay | invalidHour | invalidMinute | invalidSecond
  | invalidMicrosecond
  deriving DecidableEq, Repr

@[ext]
structure CellRtcDateTime where
  year : Nat
  month : Nat
  day : Nat
  hour : Nat
  minute : Nat
  second : Nat
  microsecond : Nat
  deriving DecidableEq, Repr

def cellRtcGetTickResolution : Nat := 1000000

def ticksPerDay : Nat := 86400000000

def daysIn400Years : Nat := 365 * 400 + 97

def daysIn100Years : Nat := 365 * 100 + 24

def daysIn4Years : Nat := 365 * 4 + 1

def daysInMonth : List Nat := [31, 28, 31, 30, 31, 30, 31, 31, 30, 31, 30, 31]

def daysInMonthLeap : List Nat := [31, 29, 31, 30, 31, 30, 31, 31, 30, 31, 30, 31]

def monthOffset : List Nat :=
  [0, 31, 59, 90, 120, 151, 181, 212, 243, 273, 304, 334, 0xFFFF]

def monthOffsetLeap : List Nat :=
  [0, 31, 60, 91, 121, 152, 182, 213, 244, 274, 305, 335, 0xFFFF]

def isLeapYear (year : Nat) : Bool := year % 4 == 0 && (year % 100 != 0 || year % 400 == 0)

def monthOffsetOf (year : Nat) : List Nat := if isLeapYear year then monthOffsetLeap else monthOffset

def daysInMonthOf (year : Nat) : List Nat := if isLeapYear year then daysInMonthLeap else daysInMonth

/-! ## From ticks to dates -/

def yearWithin400Interval (days : Nat) : Nat :=
  (days - days / (daysIn4Years - 1) + days / daysIn100Years - days / (daysIn400Years - 1)) / 365

def monthOfDay (offset : List Nat) (days : Nat) : Nat :=
  let monthApprox := days / 29
  if offset.getD monthApprox 0 > days then monthApprox - 1 else monthApprox

/-- `tick_to_date_time`. The year is a number of 16 bits. -/
def tickToDateTime (tick : Nat) : CellRtcDateTime :=
  let microseconds := tick % 1000000
  let seconds := tick / 1000000 % 60
  let minutes := tick / (60 * 1000000) % 60
  let hours := tick / (60 * 60 * 1000000) % 24
  let daysTmp := tick / ticksPerDay % 0x100000000
  let year400 := daysTmp / daysIn400Years
  let daysTmp := daysTmp - year400 * daysIn400Years
  let yearWithin := yearWithin400Interval daysTmp
  let daysTmp := daysTmp - (yearWithin * 365 + yearWithin / 4 - yearWithin / 100 + yearWithin / 400)
  let years := (year400 * 400 + yearWithin + 1) % 0x10000
  let month := monthOfDay (monthOffsetOf years) daysTmp
  let daysTmp := daysTmp - (monthOffsetOf years).getD month 0
  { year := years, month := month + 1, day := daysTmp + 1, hour := hours, minute := minutes
    second := seconds, microsecond := microseconds }

/-! ## From dates to ticks -/

/-- `days_in_previous_years`, which is negative for year 0 before it becomes unsigned. -/
def daysInPreviousYears (year : Nat) : Nat :=
  (year * 365 + (year + 3) / 4 - (year + 99) / 100 + (year + 399) / 400 + 0x100000000 - 366) %
    0x100000000

def clampMonth (month : Nat) : Nat := if month = 0 then 1 else if 12 < month then 12 else month

def dateTimeToTick (dateTime : CellRtcDateTime) : Nat :=
  let daysInPreviousMonths :=
    (monthOffsetOf dateTime.year).getD (clampMonth dateTime.month - 1) 0
  let days :=
    (daysInPreviousYears dateTime.year + daysInPreviousMonths + dateTime.day + 0x100000000 - 1) %
      0x100000000
  (dateTime.microsecond + dateTime.second * 1000000 + dateTime.minute * 60 * 1000000 +
    dateTime.hour * 60 * 60 * 1000000 + days * ticksPerDay) % 0x10000000000000000

/-! ## Days of the week and valid dates -/

/-- `cellRtcGetDayOfWeek`, with the division of C++. -/
def cellRtcGetDayOfWeek (year month day : Int) : Int :=
  let early := month = 1 ∨ month = 2
  let year := if early then year - 1 else year
  let month := if early then month + 12 else month
  ((month * 13 + 8).tdiv 5 + year + year.tdiv 4 - year.tdiv 100 + year.tdiv 400 + day).tmod 7

def cellRtcCheckValid (time : CellRtcDateTime) : Except CellRtcError Unit :=
  if time.year = 0 ∨ 10000 ≤ time.year then .error .invalidYear
  else if time.month < 1 ∨ 12 < time.month then .error .invalidMonth
  else if time.day = 0 ∨ (daysInMonthOf time.year).getD (time.month - 1) 0 < time.day then
    .error .invalidDay
  else if 24 ≤ time.hour then .error .invalidHour
  else if 60 ≤ time.minute then .error .invalidMinute
  else if 60 ≤ time.second then .error .invalidSecond
  else if cellRtcGetTickResolution ≤ time.microsecond then .error .invalidMicrosecond
  else .ok ()

end Rpcsx.Ps3.CellRtc
