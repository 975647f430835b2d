import Mathlib.Algebra.BigOperators.Intervals
import Mathlib.Algebra.Order.BigOperators.Group.Finset

/-!
# The Gregorian calendar

Years and months as stretches of whole days, from the first day of year 1 on. A year and a month are
counted from zero here: `yearStart n` is the number of days in the first `n` years, and
`monthStart leap m` the number of days in the first `m` months of a year. A day lies in exactly one
stretch, which is all that an algorithm that searches for its date has to find.
-/

namespace Rpcsx.Lib.Gregorian

def IsLeap (year : Nat) : Prop := year % 4 = 0 ∧ (year % 100 ≠ 0 ∨ year % 400 = 0)
  deriving Decidable

def yearLength (year : Nat) : Nat := if IsLeap year then 366 else 365

def monthLength (leap : Bool) : Nat → Nat
  | 1 => if leap then 29 else 28
  | 3 | 5 | 8 | 10 => 30
  | _ => 31

def yearStart (n : Nat) : Nat := ∑ i ∈ Finset.range n, yearLength (i + 1)

def monthStart (leap : Bool) (m : Nat) : Nat := ∑ i ∈ Finset.range m, monthLength leap i

theorem yearStart_succ (n : Nat) : yearStart (n + 1) = yearStart n + yearLength (n + 1) := Finset.sum_range_succ _ n

theorem monthStart_succ (leap : Bool) (m : Nat) : monthStart leap (m + 1) = monthStart leap m + monthLength leap m :=
  Finset.sum_range_succ _ m

theorem yearLength_pos (year : Nat) : 0 < yearLength year := by
  unfold yearLength
  split <;> decide

theorem monthLength_pos (leap : Bool) (m : Nat) : 0 < monthLength leap m := by
  unfold monthLength
  split
  · cases leap <;> decide
  all_goals decide

theorem monthLength_le (leap : Bool) (m : Nat) : monthLength leap m ≤ 31 := by
  unfold monthLength
  split
  · cases leap <;> decide
  all_goals decide

theorem strictMono_yearStart : StrictMono yearStart := strictMono_nat_of_lt_succ fun n => by
    rw [yearStart_succ]
    exact Nat.lt_add_of_pos_right (yearLength_pos _)

theorem strictMono_monthStart (leap : Bool) : StrictMono (monthStart leap) := strictMono_nat_of_lt_succ fun m => by
    rw [monthStart_succ]
    exact Nat.lt_add_of_pos_right (monthLength_pos leap m)

/-- The months of a year make up the year. -/
theorem monthStart_twelve (year : Nat) : monthStart (decide (IsLeap year)) 12 = yearLength year := by
  unfold yearLength
  by_cases h : IsLeap year
  · rw [decide_eq_true h, if_pos h]
    decide
  rw [decide_eq_false h, if_neg h]
  decide

/-- Every fourth year is a leap year, but for the centuries, but for every fourth of them. -/
theorem yearStart_eq (n : Nat) : yearStart n + n / 100 = 365 * n + n / 4 + n / 400 := by
  induction n with
  | zero => rfl
  | succ n ih =>
    rw [yearStart_succ, yearLength]
    by_cases h : IsLeap (n + 1)
    · rw [if_pos h]
      unfold IsLeap at h
      omega
    rw [if_neg h]
    unfold IsLeap at h
    omega

/-! ## Stretches -/

section Stretch

variable {start : Nat → Nat} {i j n : Nat}

/-- Every point before the end of the last stretch lies in one of them. -/
theorem exists_stretch (start : Nat → Nat) (h : start 0 = 0) {k : Nat} (hn : n < start k) :
    ∃ i < k, start i ≤ n ∧ n < start (i + 1) := by
  induction k with
  | zero => exact absurd (h ▸ hn) (Nat.not_lt_zero n)
  | succ k ih =>
    by_cases hk : n < start k
    · obtain ⟨i, hi, hin⟩ := ih hk
      exact ⟨i, by omega, hin⟩
    exact ⟨k, by omega, by omega, hn⟩

end Stretch

/-! ## Dates -/

structure IsDate (year month day : Nat) : Prop where
  year_pos : 0 < year
  month_pos : 0 < month
  month_le : month ≤ 12
  day_pos : 0 < day
  day_le : day ≤ monthLength (decide (IsLeap year)) (month - 1)

def dayOfYear (year month day : Nat) : Nat :=
  monthStart (decide (IsLeap year)) (month - 1) + (day - 1)

def dayNumber (year month day : Nat) : Nat := yearStart (year - 1) + dayOfYear year month day

section Date

variable {year month day year' month' day' : Nat} (h : IsDate year month day)

include h

theorem IsDate.dayOfYear_lt_month :
    dayOfYear year month day < monthStart (decide (IsLeap year)) (month - 1 + 1) := by
  have hday := h.day_le
  have hpos := h.day_pos
  rw [dayOfYear, monthStart_succ]
  omega

theorem IsDate.dayOfYear_lt : dayOfYear year month day < yearLength year := by
  have hmonth := h.month_le
  have hpos := h.month_pos
  rw [← monthStart_twelve]
  exact h.dayOfYear_lt_month.trans_le ((strictMono_monthStart _).monotone (by omega))

theorem IsDate.dayNumber_lt : dayNumber year month day < yearStart year := by
  have hlt := h.dayOfYear_lt
  have hyear : yearStart (year - 1 + 1) = yearStart year := by rw [Nat.sub_add_cancel h.year_pos]
  rw [yearStart_succ, Nat.sub_add_cancel h.year_pos] at hyear
  rw [dayNumber]
  omega

/-- A later year, a later month of a year and a later day of a month come later. -/
theorem IsDate.dayNumber_lt_of_lt (h' : IsDate year' month' day')
    (hlt : year < year' ∨ year = year' ∧ (month < month' ∨ month = month' ∧ day < day')) :
    dayNumber year month day < dayNumber year' month' day' := by
  rcases hlt with hyear | ⟨rfl, hmonth | ⟨rfl, hday⟩⟩
  · have hle : yearStart year ≤ yearStart (year' - 1) := strictMono_yearStart.monotone (by omega)
    exact (h.dayNumber_lt.trans_le hle).trans_le (Nat.le_add_right _ _)
  · have hlt := h.dayOfYear_lt_month
    have hpos := h.month_pos
    have hle : monthStart (decide (IsLeap year)) (month - 1 + 1) ≤ monthStart (decide (IsLeap year)) (month' - 1) :=
      (strictMono_monthStart _).monotone (by omega)
    rw [dayNumber, dayNumber, dayOfYear.eq_def year month' day']
    omega
  have hpos := h.day_pos
  rw [dayNumber, dayNumber, dayOfYear, dayOfYear]
  omega

end Date

end Rpcsx.Lib.Gregorian
