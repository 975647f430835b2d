import Rpcsx.Lib.Digits
import Rpcsx.Ps3.CellRtc.Dates

/-!
# Dates as text

`cellRtcFormatRfc3339` writes a tick as the date and the time of a time zone, with hundredths of a
second, and `cellRtcParseRfc3339` reads such a text back, field by field from fixed positions. Memory
that holds a text is the list of its bytes from the text's address on; behind them zeros are read.
-/

namespace Rpcsx.Ps3.CellRtc

open Lib

def ascii (num : Nat) : UInt8 := digitByte num

def digit (c : UInt8) : Nat := c.toNat - 48

def char (c : Char) : UInt8 := UInt8.ofNat c.toNat

/-! ## The tick of a text -/

/-- `cellRtcTickAddMinutes`. The sum is a number of 64 bits. -/
def cellRtcTickAddMinutes (tick : Nat) (add : Int) : Nat :=
  ((tick + add * 60 * cellRtcGetTickResolution) % 0x10000000000000000).toNat

def cellRtcGetTick (time : CellRtcDateTime) : Except CellRtcError Nat :=
  if 10000 ≤ time.year ∨ time.year = 0 then .error .invalidValue else .ok (dateTimeToTick time)

/-! ## Writing -/

def formatDateTime (t : CellRtcDateTime) : List UInt8 :=
  [ascii (t.year / 1000), ascii (t.year / 100 % 10), ascii (t.year / 10 % 10), ascii (t.year % 10),
    char '-', ascii (t.month / 10), ascii (t.month % 10),
    char '-', ascii (t.day / 10), ascii (t.day % 10),
    char 'T', ascii (t.hour / 10), ascii (t.hour % 10),
    char ':', ascii (t.minute / 10), ascii (t.minute % 10),
    char ':', ascii (t.second / 10), ascii (t.second % 10),
    char '.', ascii (t.microsecond / 100000), ascii (t.microsecond / 10000 % 10)]

def formatTimeZone (timeZone : Int) : List UInt8 :=
  if timeZone = 0 then [char 'Z', 0]
  else
    let sign := if timeZone < 0 then char '-' else char '+'
    let hours := timeZone.natAbs / 60 % 100
    let minutes := timeZone.natAbs % 60
    [sign, ascii (hours / 10), ascii (hours % 10), char ':', ascii (minutes / 10),
      ascii (minutes % 10), 0]

/-- `cellRtcFormatRfc3339`. The pointers are `mapped` if the pages of both have attributes. -/
def cellRtcFormatRfc3339 (mapped : Bool) (utc : Nat) (timeZone : Int) : Except CellRtcError (List UInt8) :=
  if !mapped then .error .invalidPointer
  else
    let dateTime := tickToDateTime (cellRtcTickAddMinutes utc timeZone)
    match cellRtcCheckValid dateTime with
    | .error e => .error e
    | .ok () => .ok (formatDateTime dateTime ++ formatTimeZone timeZone)

/-! ## Reading -/

def readYear (text : List UInt8) : Nat :=
  if isDigit 10 (text.getD 0 0) ∧ isDigit 10 (text.getD 1 0) ∧ isDigit 10 (text.getD 2 0) ∧
      isDigit 10 (text.getD 3 0) then
    digit (text.getD 0 0) * 1000 + digit (text.getD 1 0) * 100 + digit (text.getD 2 0) * 10 +
      digit (text.getD 3 0)
  else 0xFFFF

def readField (text : List UInt8) (pos : Nat) : Nat :=
  if isDigit 10 (text.getD pos 0) ∧ isDigit 10 (text.getD (pos + 1) 0) then
    digit (text.getD pos 0) * 10 + digit (text.getD (pos + 1) 0)
  else 0xFFFF

def readFraction (mul microsecond : Nat) : List UInt8 → Nat × List UInt8
  | [] => (microsecond, [])
  | c :: rest =>
    if isDigit 10 c then
      readFraction (mul / 10) ((microsecond + digit c * mul) % 0x100000000) rest
    else (microsecond, c :: rest)

def readMicrosecond (text : List UInt8) : Nat × List UInt8 :=
  if text.getD 19 0 = char '.' then readFraction 100000 0 (text.drop 20) else (0, text.drop 19)

def readTimeZone (text : List UInt8) : Except CellRtcError Int :=
  let sign := text.getD 0 0
  if sign ≠ char 'Z' ∧ sign ≠ char 'z' ∧ sign ≠ char '+' ∧ sign ≠ char '-' then .error .badParse
  else if sign = char '+' ∨ sign = char '-' then
    if !isDigit 10 (text.getD 1 0) ∨ !isDigit 10 (text.getD 2 0) ∨ text.getD 3 0 ≠ char ':' ∨
        !isDigit 10 (text.getD 4 0) ∨ !isDigit 10 (text.getD 5 0) then .error .badParse
    else
      let hours := digit (text.getD 1 0) * 10 + digit (text.getD 2 0)
      let minutes := digit (text.getD 4 0) * 10 + digit (text.getD 5 0)
      let minutesToAdd : Int := hours * 60 + minutes
      .ok (if sign = char '+' then -minutesToAdd else minutesToAdd)
  else .ok 0

/-- `cellRtcParseRfc3339`, for the tick that `pUtc` holds before. The errors of `cellRtcGetTick` are
not looked at, and leave that tick. -/
def cellRtcParseRfc3339 (mapped : Bool) (utc : Nat) (text : List UInt8) : Except CellRtcError Nat :=
  if !mapped then .error .invalidPointer
  else if text.getD 4 0 ≠ char '-' then .error .invalidYear
  else if text.getD 7 0 ≠ char '-' then .error .invalidMonth
  else if text.getD 10 0 ≠ char 'T' ∧ text.getD 10 0 ≠ char 't' then .error .invalidDay
  else if text.getD 13 0 ≠ char ':' then .error .invalidHour
  else if text.getD 16 0 ≠ char ':' then .error .invalidMinute
  else
    let dateTime : CellRtcDateTime :=
      { year := readYear text, month := readField text 5, day := readField text 8
        hour := readField text 11, minute := readField text 14, second := readField text 17
        microsecond := (readMicrosecond text).1 }
    match readTimeZone (readMicrosecond text).2 with
    | .error e => .error e
    | .ok minutesToAdd =>
      let tick := match cellRtcGetTick dateTime with
        | .ok tick => tick
        | .error _ => utc
      .ok (cellRtcTickAddMinutes tick minutesToAdd)

/-! ## What is written is read -/

variable {n : Nat} {text : List UInt8}

theorem digit_ascii (h : n < 10) : digit (ascii n) = n := by
  rw [digit, ascii, digitByte_toNat h, Nat.add_sub_cancel_left]

theorem isDigit_ascii (h : n < 10) : isDigit 10 (ascii n) = true := isDigit_digitByte le_rfl h

theorem readYear_eq (hn : n < 10000) (h0 : text.getD 0 0 = ascii (n / 1000))
    (h1 : text.getD 1 0 = ascii (n / 100 % 10)) (h2 : text.getD 2 0 = ascii (n / 10 % 10))
    (h3 : text.getD 3 0 = ascii (n % 10)) : readYear text = n := by
  rw [readYear, h0, h1, h2, h3, if_pos ⟨isDigit_ascii (by omega), isDigit_ascii (by omega), isDigit_ascii (by omega),
      isDigit_ascii (by omega)⟩,
    digit_ascii (by omega), digit_ascii (by omega), digit_ascii (by omega), digit_ascii (by omega)]
  omega

theorem readField_eq {pos : Nat} (hn : n < 100) (h0 : text.getD pos 0 = ascii (n / 10))
    (h1 : text.getD (pos + 1) 0 = ascii (n % 10)) : readField text pos = n := by
  rw [readField, h0, h1, if_pos ⟨isDigit_ascii (by omega), isDigit_ascii (by omega)⟩,
    digit_ascii (by omega), digit_ascii (by omega)]
  omega

/-- Two digits of a fraction, and then something else. -/
theorem readFraction_hundredths (hn : n < 1000000) {c : UInt8} (hc : isDigit 10 c = false) (rest : List UInt8) :
    readFraction 100000 0 (ascii (n / 100000) :: ascii (n / 10000 % 10) :: c :: rest) =
      (n / 10000 * 10000, c :: rest) := by
  have hsum : n / 100000 * 100000 + n / 10000 % 10 * (100000 / 10) = n / 10000 * 10000 := by omega
  rw [readFraction, if_pos (isDigit_ascii (by omega)), readFraction,
    if_pos (isDigit_ascii (by omega)), readFraction, if_neg (by rw [hc]; exact Bool.false_ne_true),
    digit_ascii (by omega), digit_ascii (by omega), zero_add,
    Nat.mod_eq_of_lt (show n / 100000 * 100000 < 0x100000000 by omega), hsum,
    Nat.mod_eq_of_lt (show n / 10000 * 10000 < 0x100000000 by omega)]

/-- The text of a time zone starts with its sign, which is not a digit. -/
theorem formatTimeZone_eq_cons (timeZone : Int) :
    ∃ sign rest, formatTimeZone timeZone = sign :: rest ∧ isDigit 10 sign = false := by
  unfold formatTimeZone
  split_ifs
  · exact ⟨_, _, rfl, by decide⟩
  · exact ⟨_, _, rfl, by decide⟩
  · exact ⟨_, _, rfl, by decide⟩

variable {timeZone : Int}

theorem readTimeZone_signed (h : timeZone.natAbs < 6000) (rest : List UInt8) {sign : UInt8}
    (hsign : sign = char '+' ∨ sign = char '-') :
    readTimeZone ([sign, ascii (timeZone.natAbs / 60 % 100 / 10),
        ascii (timeZone.natAbs / 60 % 100 % 10), char ':', ascii (timeZone.natAbs % 60 / 10),
        ascii (timeZone.natAbs % 60 % 10), 0] ++ rest) =
      .ok (if sign = char '+' then -(timeZone.natAbs : Int) else timeZone.natAbs) := by
  have hhours : timeZone.natAbs / 60 % 100 / 10 * 10 + timeZone.natAbs / 60 % 100 % 10 =
      timeZone.natAbs / 60 := by omega
  have hminutes : timeZone.natAbs % 60 / 10 * 10 + timeZone.natAbs % 60 % 10 = timeZone.natAbs % 60 := by omega
  have htotal : ((timeZone.natAbs / 60 : Nat) : Int) * 60 + (timeZone.natAbs % 60 : Nat) = timeZone.natAbs := by omega
  unfold readTimeZone
  simp only [List.cons_append, List.getD_cons_zero, List.getD_cons_succ]
  rw [if_neg (by tauto), if_pos hsign, isDigit_ascii (by omega), isDigit_ascii (by omega),
    isDigit_ascii (by omega), isDigit_ascii (by omega), if_neg (by decide), digit_ascii (by omega),
    digit_ascii (by omega), digit_ascii (by omega), digit_ascii (by omega), hhours, hminutes,
    htotal]

/-- The minutes to add undo the time zone. -/
theorem readTimeZone_format (h : timeZone.natAbs < 6000) (rest : List UInt8) :
    readTimeZone (formatTimeZone timeZone ++ rest) = .ok (-timeZone) := by
  unfold formatTimeZone
  split_ifs with hzero hneg
  · subst hzero
    rfl
  · refine (readTimeZone_signed h rest (.inr rfl)).trans ?_
    rw [if_neg (by decide)]
    exact congrArg _ (by omega)
  refine (readTimeZone_signed h rest (.inl rfl)).trans ?_
  rw [if_pos rfl]
  exact congrArg _ (by omega)

/-! ## Round trip -/

def CellRtcDateTime.toHundredths (t : CellRtcDateTime) : CellRtcDateTime :=
  { t with microsecond := t.microsecond / 10000 * 10000 }

variable {t : CellRtcDateTime}

theorem CellRtcDateTime.Valid.toHundredths (h : t.Valid) : t.toHundredths.Valid :=
  { h with microsecond_lt := (Nat.div_mul_le_self _ _).trans_lt h.microsecond_lt }

theorem CellRtcDateTime.Valid.dateTimeToTick_toHundredths (h : t.Valid) :
    CellRtc.dateTimeToTick t.toHundredths = CellRtc.dateTimeToTick t / 10000 * 10000 := by
  rw [h.toHundredths.dateTimeToTick, h.dateTimeToTick]
  -- all the other terms are multiples of a hundredth of a second
  have hsplit (n u : Nat) : n * ticksPerDay + (u + t.second * 1000000 + t.minute * 60 * 1000000 +
      t.hour * 60 * 60 * 1000000) =
      u + 10000 * (n * 8640000 + t.second * 100 + t.minute * 6000 + t.hour * 360000) := by
    unfold ticksPerDay
    omega
  unfold CellRtcDateTime.toHundredths timeOfDay
  rw [hsplit, hsplit, Nat.add_mul_div_left _ _ (by decide), add_mul, mul_comm 10000]

theorem readMicrosecond_format (h : t.microsecond < 1000000) (timeZone : Int) (rest : List UInt8) :
    readMicrosecond (formatDateTime t ++ formatTimeZone timeZone ++ rest) =
      (t.microsecond / 10000 * 10000, formatTimeZone timeZone ++ rest) := by
  obtain ⟨sign, zone, hzone, hsign⟩ := formatTimeZone_eq_cons timeZone
  rw [hzone]
  exact readFraction_hundredths h hsign (zone ++ rest)

/-- The text of a date is read back to the hundredth of a second. -/
theorem cellRtcParseRfc3339_format (h : t.Valid) (hzone : timeZone.natAbs < 6000) (utc : Nat) (rest : List UInt8) :
    cellRtcParseRfc3339 true utc (formatDateTime t ++ formatTimeZone timeZone ++ rest) =
      .ok (cellRtcTickAddMinutes (dateTimeToTick t / 10000 * 10000) (-timeZone)) := by
  have hyear := h.year_lt
  have hyear' := h.date.year_pos
  have hmonth := h.date.month_le
  have hday := h.date.day_le.trans (Gregorian.monthLength_le _ _)
  have hhour := h.hour_lt
  have hminute := h.minute_lt
  have hsecond := h.second_lt
  have hmicro := readMicrosecond_format h.microsecond_lt timeZone rest
  rw [← h.dateTimeToTick_toHundredths]
  unfold cellRtcParseRfc3339
  rw [hmicro]
  generalize htext : formatDateTime t ++ formatTimeZone timeZone ++ rest = text
  have hfields : (⟨readYear text, readField text 5, readField text 8, readField text 11,
      readField text 14, readField text 17, t.microsecond / 10000 * 10000⟩ : CellRtcDateTime) =
      t.toHundredths := by
    subst htext
    congr 1
    · exact readYear_eq hyear rfl rfl rfl rfl
    · exact readField_eq (by omega) rfl rfl
    · exact readField_eq (by omega) rfl rfl
    · exact readField_eq (by omega) rfl rfl
    · exact readField_eq (by omega) rfl rfl
    · exact readField_eq (by omega) rfl rfl
  have hgetTick : cellRtcGetTick t.toHundredths = .ok (dateTimeToTick t.toHundredths) :=
    if_neg (show ¬(10000 ≤ t.year ∨ t.year = 0) by omega)
  dsimp only
  rw [hfields, hgetTick, readTimeZone_format hzone]
  subst htext
  rfl

/-- The tick that is written at a time zone and then read, to the hundredth of a second. -/
theorem cellRtcTickAddMinutes_neg {utc tick : Nat}
    (htick : (tick : Int) = utc + timeZone * 60 * cellRtcGetTickResolution) (hutc : utc < 2 ^ 64) :
    cellRtcTickAddMinutes (tick / 10000 * 10000) (-timeZone) = utc / 10000 * 10000 := by
  -- a minute is a whole number of hundredths of a second
  have hzone : timeZone * 60 * cellRtcGetTickResolution = timeZone * 6000 * 10000 := by
    unfold cellRtcGetTickResolution
    omega
  have hdiv : (tick : Int) / 10000 = utc / 10000 + timeZone * 6000 := by
    rw [htick, hzone]
    exact Int.add_mul_ediv_right _ _ (by decide)
  have hsum : ((tick / 10000 * 10000 : Nat) : Int) + -timeZone * 60 * cellRtcGetTickResolution =
      (utc / 10000 * 10000 : Nat) := by
    rw [neg_mul, neg_mul, hzone]
    push_cast
    rw [hdiv, add_mul, add_neg_cancel_right]
  have hlt : utc / 10000 * 10000 < 2 ^ 64 := (Nat.div_mul_le_self _ _).trans_lt hutc
  rw [cellRtcTickAddMinutes, hsum, Int.emod_eq_of_lt (Int.natCast_nonneg _) (by exact_mod_cast hlt), Int.toNat_natCast]

/-- A tick whose local date is a valid one is written, and read back to the hundredth of a
second. -/
theorem rfc3339_round_trip (utc : Nat) (hutc : utc < 0x10000000000000000) (timeZone : Int)
    (hzone : |timeZone| < 6000) (hlow : 0 ≤ (utc : Int) + timeZone * 60 * cellRtcGetTickResolution)
    (hhigh : (utc : Int) + timeZone * 60 * cellRtcGetTickResolution ≤ lastTick) :
    ∃ text, cellRtcFormatRfc3339 true utc timeZone = .ok text ∧
      ∀ old rest, cellRtcParseRfc3339 true old (text ++ rest) = .ok (utc / 10000 * 10000) := by
  obtain ⟨tick, htick⟩ := Int.eq_ofNat_of_zero_le hlow
  obtain ⟨t, h, hdate⟩ := exists_valid (lt_of_le_lastTick (show tick ≤ lastTick by omega))
  have hlast : lastTick < 0x10000000000000000 := by decide
  have hlocal : cellRtcTickAddMinutes utc timeZone = tick := by
    rw [cellRtcTickAddMinutes, htick]
    omega
  refine ⟨formatDateTime t ++ formatTimeZone timeZone, ?_, fun old rest => ?_⟩
  · unfold cellRtcFormatRfc3339
    dsimp only
    rw [hlocal, hdate, tickToDateTime_eq h, cellRtcCheckValid_eq_ok.mpr h]
    rfl
  rw [Int.abs_eq_natAbs] at hzone
  rw [cellRtcParseRfc3339_format h (by omega), h.dateTimeToTick, ← hdate, cellRtcTickAddMinutes_neg htick.symm hutc]

theorem rfc3339_round_trip_afternoon : ∃ text, cellRtcFormatRfc3339 true 63865368605678901 (-210) = .ok text ∧
      ∀ old rest, cellRtcParseRfc3339 true old (text ++ rest) = .ok 63865368605670000 :=
  rfc3339_round_trip 63865368605678901 (by decide) (-210) (by decide) (by decide) (by decide)

end Rpcsx.Ps3.CellRtc
