import Mathlib.Data.Int.Init
import Mathlib.Data.Int.Order.Basic
import Mathlib.Data.Fin.Basic

/-!
# The proleptic Gregorian calendar

Dates that exist, the date after a date, and the numbers of the days counted from
1970-01-01 in both directions.
-/

namespace NetRider.Lib

/-- Every fourth year, of the full centuries only every fourth. -/
def leap (year : Int) : Bool := year % 4 = 0 ∧ (year % 100 = 0 → year % 400 = 0)

/-- The days of a month, the months counted from 0. -/
def monthLength (isLeap : Bool) (month : Nat) : Nat :=
  match month with
  | 1 => if isLeap then 29 else 28
  | 3 | 5 | 8 | 10 => 30
  | _ => 31

/-- The days of a year before a month. -/
def daysBeforeMonth (isLeap : Bool) : Nat → Nat
  | 0 => 0
  | month + 1 => daysBeforeMonth isLeap month + monthLength isLeap month

/-- The days of a year. -/
def yearLength (isLeap : Bool) : Nat := daysBeforeMonth isLeap 12

/-- A date of the calendar, the month counted from 0 and the day from 1. -/
@[ext]
structure CivilDate where
  year : Int
  month : Nat
  day : Nat
  month_lt : month < 12
  day_pos : 0 < day
  day_le : day ≤ monthLength (leap year) month
deriving DecidableEq

theorem monthLength_pos (isLeap : Bool) (month : Nat) : 0 < monthLength isLeap month := by
  unfold monthLength
  split <;> [split; skip; skip; skip; skip; skip] <;> decide

namespace CivilDate

/-- The first day of a month. -/
def firstOfMonth (year : Int) (month : Nat) (inYear : month < 12) : CivilDate where
  year := year
  month := month
  day := 1
  month_lt := inYear
  day_pos := Nat.one_pos
  day_le := monthLength_pos _ _

/-- The first day of a year. -/
def newYear (year : Int) : CivilDate := firstOfMonth year 0 (by decide)

/-- The first day of a month when the months are counted on from the start of year 0. -/
def monthStart (months : Int) : CivilDate :=
  firstOfMonth (months / 12) (months % 12).toNat (by omega)

/-- The date after a date. -/
def next (date : CivilDate) : CivilDate :=
  if more : date.day < monthLength (leap date.year) date.month then
    { date with
      day := date.day + 1
      day_pos := Nat.succ_pos _
      day_le := more }
  else if inYear : date.month + 1 < 12 then firstOfMonth date.year (date.month + 1) inYear
  else newYear (date.year + 1)

end CivilDate

/-- The number of a date when 1970-01-01 has the number 0 and every date has one more than the
date before it. -/
inductive UnixDay : Int → CivilDate → Prop
  | epoch : UnixDay 0 (CivilDate.newYear 1970)
  | after {n : Int} {date : CivilDate} : UnixDay n date → UnixDay (n + 1) date.next
  | before {n : Int} {date : CivilDate} : UnixDay (n + 1) date.next → UnixDay n date

/-! ## Counting days -/

/-- The days from 1970-01-01 to a new year. -/
def daysBeforeYear (year : Int) : Int :=
  365 * (year - 1970) + (year - 1) / 4 - (year - 1) / 100 + (year - 1) / 400 - 477

/-- Each year begins one year's length after the year before it. -/
theorem daysBeforeYear_succ (year : Int) :
    daysBeforeYear (year + 1) = daysBeforeYear year + yearLength (leap year) := by
  have fourth : year / 4 = (year - 1) / 4 + if year % 4 = 0 then 1 else 0 := by split <;> omega
  have century : year / 100 = (year - 1) / 100 + if year % 100 = 0 then 1 else 0 := by
    split <;> omega
  have fourCenturies : year / 400 = (year - 1) / 400 + if year % 400 = 0 then 1 else 0 := by
    split <;> omega
  have leapCases : (leap year = true) ↔ year % 4 = 0 ∧ (year % 100 = 0 → year % 400 = 0) :=
    decide_eq_true_iff
  cases isLeap : leap year with
  | true =>
    have length : (yearLength true : Int) = 366 := rfl
    rw [isLeap, eq_self, true_iff] at leapCases
    simp only [daysBeforeYear, length, Int.add_sub_cancel, fourth, century, fourCenturies]
    split_ifs <;> omega
  | false =>
    have length : (yearLength false : Int) = 365 := rfl
    rw [isLeap, Bool.false_eq_true, false_iff] at leapCases
    simp only [daysBeforeYear, length, Int.add_sub_cancel, fourth, century, fourCenturies]
    split_ifs <;> omega

theorem daysBeforeMonth_mono (isLeap : Bool) {month later : Nat} (order : month ≤ later) :
    daysBeforeMonth isLeap month ≤ daysBeforeMonth isLeap later := by
  induction order with
  | refl => exact Nat.le_refl _
  | step order ih => exact Nat.le_trans ih (Nat.le_add_right _ _)

theorem yearLength_ge (isLeap : Bool) : 365 ≤ yearLength isLeap := by
  cases isLeap <;> decide

theorem daysBeforeYear_mono {year later : Int} (order : year ≤ later) :
    daysBeforeYear year ≤ daysBeforeYear later := by
  induction later, order using Int.leInduction with
  | base => exact Int.le_refl _
  | succ later order ih =>
    have longer := yearLength_ge (leap later)
    rw [daysBeforeYear_succ]
    omega

namespace CivilDate

variable {date other : CivilDate} {n : Int}

/-- The days of the year before a date. -/
def yearDay (date : CivilDate) : Nat :=
  daysBeforeMonth (leap date.year) date.month + (date.day - 1)

/-- The number of a date, in closed form. -/
def number (date : CivilDate) : Int := daysBeforeYear date.year + date.yearDay

theorem yearDay_lt (date : CivilDate) : date.yearDay < yearLength (leap date.year) := by
  have upTo := daysBeforeMonth_mono (leap date.year) date.month_lt
  have inMonth := date.day_le
  have counted := date.day_pos
  rw [daysBeforeMonth] at upTo
  unfold yearDay yearLength
  omega

theorem number_newYear (year : Int) : (newYear year).number = daysBeforeYear year := by
  simp [number, yearDay, newYear, firstOfMonth, daysBeforeMonth]

theorem number_firstOfMonth (year : Int) (month : Nat) (inYear : month < 12) :
    (firstOfMonth year month inYear).number =
      daysBeforeYear year + daysBeforeMonth (leap year) month := by
  simp [number, yearDay, firstOfMonth]

/-- The closed form counts on by one. -/
theorem number_next (date : CivilDate) : date.next.number = date.number + 1 := by
  have counted := date.day_pos
  unfold next
  split
  case isTrue more =>
    simp only [number, yearDay]
    omega
  case isFalse last =>
    have inMonth := date.day_le
    split
    case isTrue inYear =>
      rw [number_firstOfMonth, daysBeforeMonth]
      simp only [number, yearDay]
      omega
    case isFalse december =>
      have twelfth : date.month + 1 = 12 := by have := date.month_lt; omega
      rw [number_newYear, daysBeforeYear_succ, yearLength, ← twelfth, daysBeforeMonth]
      simp only [number, yearDay]
      omega

theorem year_le (order : date.number ≤ other.number) : date.year ≤ other.year := by
  by_contra later
  have jump := daysBeforeYear_mono (show other.year + 1 ≤ date.year by omega)
  have within := other.yearDay_lt
  rw [daysBeforeYear_succ] at jump
  unfold number at order
  omega

theorem month_le (sameYear : date.year = other.year) (order : date.yearDay ≤ other.yearDay) :
    date.month ≤ other.month := by
  by_contra later
  have jump := daysBeforeMonth_mono (leap date.year) (show other.month + 1 ≤ date.month by omega)
  have inMonth := other.day_le
  have counted := other.day_pos
  rw [daysBeforeMonth] at jump
  unfold yearDay at order
  rw [← sameYear] at order inMonth
  omega

/-- A date is told by its number. -/
theorem number_injective (same : date.number = other.number) : date = other := by
  have sameYear : date.year = other.year :=
    Int.le_antisymm (year_le same.le) (year_le same.ge)
  have sameDay : date.yearDay = other.yearDay := by
    unfold number at same
    rw [sameYear] at same
    omega
  have sameMonth : date.month = other.month :=
    Nat.le_antisymm (month_le sameYear sameDay.le) (month_le sameYear.symm sameDay.ge)
  have counted := date.day_pos
  have otherCounted := other.day_pos
  unfold yearDay at sameDay
  rw [sameYear, sameMonth] at sameDay
  exact CivilDate.ext sameYear sameMonth (by omega)

theorem number_sub_day (sameYear : date.year = other.year)
    (sameMonth : date.month = other.month) :
    date.number - date.day = other.number - other.day := by
  have counted := date.day_pos
  have otherCounted := other.day_pos
  unfold number yearDay
  rw [sameYear, sameMonth]
  omega

/-- Dates are in the order of the year, the month and the day. -/
theorem lexicographic_of_le (order : date.number ≤ other.number) :
    date.year < other.year ∨ date.year = other.year ∧
      (date.month < other.month ∨ date.month = other.month ∧ date.day ≤ other.day) := by
  have year := year_le order
  by_cases sameYear : date.year = other.year
  · have days : date.yearDay ≤ other.yearDay := by
      unfold number at order
      rw [sameYear] at order
      omega
    have month := month_le sameYear days
    by_cases sameMonth : date.month = other.month
    · have difference := number_sub_day sameYear sameMonth
      omega
    · omega
  · omega

theorem number_le_iff : date.number ≤ other.number ↔
    date.year < other.year ∨ date.year = other.year ∧
      (date.month < other.month ∨ date.month = other.month ∧ date.day ≤ other.day) := by
  refine ⟨lexicographic_of_le, fun order => ?_⟩
  by_contra behind
  have back := lexicographic_of_le (show other.number ≤ date.number by omega)
  have same : date = other := CivilDate.ext (by omega) (by omega) (by omega)
  rw [same] at behind
  omega

/-- The last day of a month. -/
def lastOfMonth (year : Int) (month : Nat) (inYear : month < 12) : CivilDate where
  year := year
  month := month
  day := monthLength (leap year) month
  month_lt := inYear
  day_pos := monthLength_pos _ _
  day_le := Nat.le_refl _

/-- Every date has a date before it. -/
theorem exists_next_eq (date : CivilDate) : ∃ earlier : CivilDate, earlier.next = date := by
  have counted := date.day_pos
  have inMonth := date.day_le
  by_cases first : date.day = 1
  · by_cases january : date.month = 0
    · refine ⟨lastOfMonth (date.year - 1) 11 (by decide), CivilDate.ext ?_ ?_ ?_⟩ <;>
        simp [next, lastOfMonth, newYear, firstOfMonth, first, january]
    · have inYear := date.month_lt
      have back : date.month - 1 + 1 = date.month := by omega
      refine ⟨lastOfMonth date.year (date.month - 1) (by omega), CivilDate.ext ?_ ?_ ?_⟩ <;>
        simp [next, lastOfMonth, firstOfMonth, first, back, inYear]
  · refine ⟨{ date with day := date.day - 1, day_pos := by omega, day_le := by omega }, ?_⟩
    have more : date.day - 1 < monthLength (leap date.year) date.month := by omega
    have back : date.day - 1 + 1 = date.day := by omega
    apply CivilDate.ext <;> simp [next, more, back]

end CivilDate

/-- Every number is the number of a date. -/
theorem exists_unixDay (n : Int) : ∃ date, UnixDay n date := by
  induction n using Int.induction_on with
  | zero => exact ⟨_, .epoch⟩
  | succ n ih =>
    obtain ⟨date, numbered⟩ := ih
    exact ⟨_, numbered.after⟩
  | pred n ih =>
    obtain ⟨date, numbered⟩ := ih
    obtain ⟨earlier, rfl⟩ := date.exists_next_eq
    exact ⟨earlier, .before (by rwa [Int.sub_add_cancel])⟩

theorem UnixDay.number_eq {n : Int} {date : CivilDate} (numbered : UnixDay n date) :
    date.number = n := by
  induction numbered with
  | epoch => rw [CivilDate.number_newYear]; decide
  | after _ ih => rw [CivilDate.number_next, ih]
  | before _ ih => rw [CivilDate.number_next] at ih; omega

/-- **The calendar's count is the closed form.** -/
theorem unixDay_iff {n : Int} {date : CivilDate} : UnixDay n date ↔ date.number = n := by
  constructor
  · exact UnixDay.number_eq
  · intro same
    obtain ⟨counted, numbered⟩ := exists_unixDay n
    rwa [CivilDate.number_injective (same.trans numbered.number_eq.symm)]

end NetRider.Lib
