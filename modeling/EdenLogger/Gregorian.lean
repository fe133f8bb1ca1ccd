import Mathlib.Data.Int.Notation
import Mathlib.Data.Nat.Notation
import Mathlib.Tactic.IntervalCases

/-!
# Days of the Gregorian calendar

Days are counted in the proleptic calendar, in years of either sign. A later
date always has a larger day number, so a day number determines its date.
-/

namespace EdenLogger.Gregorian

/-- Every fourth year, but only every fourth century. -/
def isLeapYear (year : ℤ) : Bool :=
  decide (year % 4 = 0) && (decide (year % 100 ≠ 0) || decide (year % 400 = 0))

/-- Length of a month. -/
def daysInMonth (year : ℤ) : ℕ → ℕ
  | 2 => if isLeapYear year then 29 else 28
  | 4 | 6 | 9 | 11 => 30
  | _ => 31

/-- A month has at most 31 days. -/
theorem daysInMonth_le (year : ℤ) (month : ℕ) : daysInMonth year month ≤ 31 := by
  unfold daysInMonth
  split
  · split <;> omega
  all_goals omega

/-- Length of the year's first months. -/
def daysBeforeMonth (year : ℤ) : ℕ → ℕ
  | 0 | 1 => 0
  | month + 2 => daysBeforeMonth year (month + 1) + daysInMonth year (month + 1)

/-- Days of all years before this one, from year 1. -/
def daysBeforeYear (year : ℤ) : ℤ :=
  365 * (year - 1) + (year - 1) / 4 - (year - 1) / 100 + (year - 1) / 400

/-- Days since the start of 1970. -/
def daysSinceEpoch (year : ℤ) (month day : ℕ) : ℤ :=
  daysBeforeYear year + daysBeforeMonth year month + day - 719163

/-- Later months begin after the end of earlier ones. -/
theorem daysBeforeMonth_lt (year : ℤ) {month later : ℕ} (h : month < later) (hpos : 1 ≤ month) :
    daysBeforeMonth year month + daysInMonth year month ≤ daysBeforeMonth year later := by
  induction later, h using Nat.le_induction with
  | base =>
    obtain ⟨month, rfl⟩ := Nat.exists_eq_add_of_le' hpos
    exact le_refl _
  | succ later hle ih =>
    obtain ⟨later, rfl⟩ := Nat.exists_eq_add_of_le' (hpos.trans (Nat.le_of_succ_le hle))
    rw [daysBeforeMonth]
    omega

/-- The months of a year fill it. -/
theorem daysBeforeMonth_end (year : ℤ) :
    daysBeforeMonth year 13 = if isLeapYear year then 366 else 365 := by
  simp only [daysBeforeMonth, daysInMonth]
  split <;> rfl

/-- A year is as long as the gap to the next. -/
theorem daysBeforeYear_succ (year : ℤ) :
    daysBeforeYear (year + 1) = daysBeforeYear year + daysBeforeMonth year 13 := by
  rw [daysBeforeMonth_end]
  unfold daysBeforeYear isLeapYear
  split
  · rename_i h
    simp only [Bool.and_eq_true, Bool.or_eq_true, decide_eq_true_eq] at h
    omega
  · rename_i h
    simp only [Bool.and_eq_true, Bool.or_eq_true, decide_eq_true_eq] at h
    omega

/-- Later years have more days before them. -/
theorem daysBeforeYear_mono {year later : ℤ} (h : year ≤ later) :
    daysBeforeYear year ≤ daysBeforeYear later := by
  unfold daysBeforeYear
  omega

/-- A date of the calendar. -/
structure ValidDate (year : ℤ) (month day : ℕ) : Prop where
  month_pos : 1 ≤ month
  month_le : month ≤ 12
  day_pos : 1 ≤ day
  day_le : day ≤ daysInMonth year month

/-- A date lies inside its year. -/
theorem ValidDate.within {year : ℤ} {month day : ℕ} (h : ValidDate year month day) :
    1 ≤ daysBeforeMonth year month + day ∧
      daysBeforeMonth year month + day ≤ daysBeforeMonth year 13 := by
  have hlt : month < 13 := Nat.lt_of_le_of_lt h.month_le (by decide)
  have hmonth := daysBeforeMonth_lt year hlt h.month_pos
  have hpos := h.day_pos
  have hle := h.day_le
  omega

/-- Order of dates, by year, month and day. -/
def Earlier (year : ℤ) (month day : ℕ) (year' : ℤ) (month' day' : ℕ) : Prop :=
  year < year' ∨ year = year' ∧ (month < month' ∨ month = month' ∧ day < day')

/-- A later date has a larger day number. -/
theorem daysSinceEpoch_lt {year year' : ℤ} {month day month' day' : ℕ}
    (h : ValidDate year month day) (h' : ValidDate year' month' day')
    (hearlier : Earlier year month day year' month' day') :
    daysSinceEpoch year month day < daysSinceEpoch year' month' day' := by
  unfold daysSinceEpoch
  rcases hearlier with hyear | ⟨rfl, hmonth | ⟨rfl, hday⟩⟩
  · have hend := h.within.2
    have hstart := h'.within.1
    have hnext := daysBeforeYear_succ year
    have hle := daysBeforeYear_mono (Int.add_one_le_of_lt hyear)
    omega
  · have hnext := daysBeforeMonth_lt year hmonth h.month_pos
    have hend := h.day_le
    have hstart := h'.day_pos
    omega
  · omega

/-- A day number determines its date. -/
theorem daysSinceEpoch_inj {year year' : ℤ} {month day month' day' : ℕ}
    (h : ValidDate year month day) (h' : ValidDate year' month' day')
    (heq : daysSinceEpoch year month day = daysSinceEpoch year' month' day') :
    year = year' ∧ month = month' ∧ day = day' := by
  by_contra hne
  have hsplit : Earlier year month day year' month' day' ∨
      Earlier year' month' day' year month day := by
    unfold Earlier
    omega
  rcases hsplit with hlt | hlt
  · have := daysSinceEpoch_lt h h' hlt
    omega
  · have := daysSinceEpoch_lt h' h hlt
    omega

example : daysSinceEpoch 1970 1 1 = 0 ∧ daysSinceEpoch 2000 3 1 = 11017 := by decide

end EdenLogger.Gregorian
