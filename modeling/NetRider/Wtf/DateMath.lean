import Mathlib
import NetRider.Lib.Gregorian

/-!
# Dates and milliseconds

The conversions of `DateMath.cpp` between milliseconds, days and the fields of a date. A `double`
is an exact rational number and an `int` an integer; integers are divided as C divides them,
toward zero.
-/

namespace NetRider.Wtf.DateMath

open NetRider.Lib

/-! ## Doubles -/

def floor (x : ℚ) : ℚ := ⌊x⌋

/-- The conversion to an integer type, which cuts the fraction off. -/
def truncate (x : ℚ) : Int := if x < 0 then ⌈x⌉ else ⌊x⌋

def fmod (x y : ℚ) : ℚ := x - y * truncate (x / y)

def hoursPerDay : ℚ := 24
def minutesPerHour : ℚ := 60
def secondsPerMinute : ℚ := 60
def msPerSecond : ℚ := 1000
def secondsPerHour : ℚ := secondsPerMinute * minutesPerHour
def secondsPerDay : ℚ := secondsPerHour * hoursPerDay
def msPerDay : ℚ := msPerSecond * secondsPerDay

/-! ## Years -/

def isLeapYear (year : Int) : Bool :=
  if year.tmod 4 ≠ 0 then false
  else if year.tmod 400 = 0 then true
  else if year.tmod 100 = 0 then false
  else true

def daysInYear (year : Int) : Int := 365 + if isLeapYear year then 1 else 0

def leapDaysBefore1971By4Rule : Int := (1970 : Int).tdiv 4
def excludedLeapDaysBefore1971By100Rule : Int := (1970 : Int).tdiv 100
def leapDaysBefore1971By400Rule : Int := (1970 : Int).tdiv 400

def daysFrom1970ToYear (year : Int) : ℚ :=
  let yearMinusOne : ℚ := year - 1
  let yearsToAddBy4Rule := floor (yearMinusOne / 4) - leapDaysBefore1971By4Rule
  let yearsToExcludeBy100Rule := floor (yearMinusOne / 100) - excludedLeapDaysBefore1971By100Rule
  let yearsToAddBy400Rule := floor (yearMinusOne / 400) - leapDaysBefore1971By400Rule
  365 * (year - 1970) + yearsToAddBy4Rule - yearsToExcludeBy100Rule + yearsToAddBy400Rule

def msToDays (ms : ℚ) : ℚ := floor (ms / msPerDay)

/-- The mean length of a year gives a first guess, off by at most one. -/
def msToYear (ms : ℚ) : Int :=
  let approxYear := truncate (floor (ms / (msPerDay * (365.2425 : ℚ))) + 1970)
  let msFromApproxYearTo1970 := msPerDay * daysFrom1970ToYear approxYear
  if msFromApproxYearTo1970 > ms then approxYear - 1
  else if msFromApproxYearTo1970 + msPerDay * daysInYear approxYear ≤ ms then approxYear + 1
  else approxYear

/-- `dayInYear` of milliseconds. -/
def dayInYear (ms : ℚ) (year : Int) : Int := truncate (msToDays ms - daysFrom1970ToYear year)

/-! ## Months -/

def firstDayOfMonth (leapYear : Bool) : List Int :=
  if leapYear then [0, 31, 60, 91, 121, 152, 182, 213, 244, 274, 305, 335]
  else [0, 31, 59, 90, 120, 151, 181, 212, 243, 273, 304, 334]

def monthFromDayInYear (dayInYear : Int) (leapYear : Bool) : Int :=
  let d := dayInYear
  let step := 31
  if d < step then 0 else
  let step := step + if leapYear then 29 else 28
  if d < step then 1 else
  let step := step + 31
  if d < step then 2 else
  let step := step + 30
  if d < step then 3 else
  let step := step + 31
  if d < step then 4 else
  let step := step + 30
  if d < step then 5 else
  let step := step + 31
  if d < step then 6 else
  let step := step + 31
  if d < step then 7 else
  let step := step + 30
  if d < step then 8 else
  let step := step + 31
  if d < step then 9 else
  let step := step + 30
  if d < step then 10 else 11

/-- `checkMonth`: the answer, then the starts of this month and of the next. -/
def checkMonth (dayInYear startDayOfNextMonth daysInThisMonth : Int) : Bool × Int × Int :=
  (dayInYear ≤ startDayOfNextMonth + daysInThisMonth, startDayOfNextMonth,
    startDayOfNextMonth + daysInThisMonth)

/-- The months after January, looked at in turn; the last one is not checked. -/
def checkMonths (d next : Int) : List Int → Int
  | [] => d - next
  | daysInThisMonth :: later =>
    let check := checkMonth d next daysInThisMonth
    if check.1 then d - check.2.1 else checkMonths d check.2.2 later

def dayInMonthFromDayInYear (dayInYear : Int) (leapYear : Bool) : Int :=
  let next := 30
  if dayInYear ≤ next then dayInYear + 1
  else
    let daysInFeb := if leapYear then 29 else 28
    checkMonths dayInYear next [daysInFeb, 31, 30, 31, 30, 31, 31, 30, 31, 30]

/-- `dayInYear` of a date. -/
def dayInYearOfDate (year month day : Int) : Int :=
  (firstDayOfMonth (isLeapYear year)).getD month.toNat 0 + day - 1

def dateToDaysFrom1970 (year month day : Int) : ℚ :=
  let year := year + month.tdiv 12
  let month := month.tmod 12
  let (year, month) := if month < 0 then (year - 1, month + 12) else (year, month)
  floor (daysFrom1970ToYear year) + dayInYearOfDate year month day

/-! ## In integers -/

theorem floor_intCast (n : Int) : floor (n : ℚ) = n := by
  rw [floor, Int.floor_intCast]

theorem floor_div (n : Int) (d : Nat) : floor ((n : ℚ) / d) = ((n / d : Int) : ℚ) := by
  rw [floor, Rat.floor_intCast_div_natCast]

@[simp] theorem truncate_intCast (n : Int) : truncate (n : ℚ) = n := by
  simp [truncate]

theorem msPerDay_eq : msPerDay = (86400000 : Nat) := by
  norm_num [msPerDay, secondsPerDay, secondsPerHour, msPerSecond, secondsPerMinute,
    minutesPerHour, hoursPerDay]

theorem isLeapYear_eq (year : Int) : isLeapYear year = leap year := by
  have byFour : year.tmod 4 = 0 ↔ year % 4 = 0 := by
    rw [← Int.dvd_iff_tmod_eq_zero, Int.dvd_iff_emod_eq_zero]
  have byHundred : year.tmod 100 = 0 ↔ year % 100 = 0 := by
    rw [← Int.dvd_iff_tmod_eq_zero, Int.dvd_iff_emod_eq_zero]
  have byFourHundred : year.tmod 400 = 0 ↔ year % 400 = 0 := by
    rw [← Int.dvd_iff_tmod_eq_zero, Int.dvd_iff_emod_eq_zero]
  have leapCases := decide_eq_true_iff
    (p := year % 4 = 0 ∧ (year % 100 = 0 → year % 400 = 0))
  apply Bool.eq_iff_iff.mpr
  simp only [isLeapYear, leap, ne_eq, byFour, byHundred, byFourHundred, leapCases]
  split_ifs with fourth fourCenturies century <;>
    simp only [false_iff, true_iff] <;> omega

theorem daysInYear_eq (year : Int) : daysInYear year = yearLength (leap year) := by
  rw [daysInYear, isLeapYear_eq]
  cases leap year <;> rfl

theorem daysFrom1970ToYear_eq (year : Int) : daysFrom1970ToYear year = daysBeforeYear year := by
  have part (d : Nat) : floor (((year : ℚ) - 1) / d) = (((year - 1) / d : Int) : ℚ) := by
    rw [← floor_div]
    push_cast
    rfl
  have four := part 4
  have hundred := part 100
  have fourHundred := part 400
  push_cast at four hundred fourHundred
  have constants : leapDaysBefore1971By4Rule = 492 ∧ excludedLeapDaysBefore1971By100Rule = 19 ∧
      leapDaysBefore1971By400Rule = 4 := by decide
  simp only [daysFrom1970ToYear, four, hundred, fourHundred, constants, daysBeforeYear]
  push_cast
  ring

theorem msToDays_eq (ms : Int) : msToDays ms = ((ms / 86400000 : Int) : ℚ) := by
  rw [msToDays, msPerDay_eq, floor_div]
  rfl

theorem dayInYear_eq (ms year : Int) :
    dayInYear ms year = ms / 86400000 - daysBeforeYear year := by
  rw [dayInYear, msToDays_eq, daysFrom1970ToYear_eq, ← Int.cast_sub, truncate_intCast]

/-! ## The year -/

/-- The first guess of `msToYear`. -/
def approxYear (ms : Int) : Int := ms / 31556952000 + 1970

theorem msToYear_eq (ms : Int) :
    msToYear ms =
      if 86400000 * daysBeforeYear (approxYear ms) > ms then approxYear ms - 1
      else if 86400000 * daysBeforeYear (approxYear ms + 1) ≤ ms then approxYear ms + 1
      else approxYear ms := by
  have meanYear : msPerDay * (365.2425 : ℚ) = (31556952000 : Nat) := by
    rw [msPerDay_eq]
    norm_num
  have guess : truncate (floor ((ms : ℚ) / (msPerDay * (365.2425 : ℚ))) + 1970) =
      approxYear ms := by
    rw [meanYear, floor_div, ← truncate_intCast (approxYear ms)]
    congr 1
    simp [approxYear]
  have start : msPerDay * daysFrom1970ToYear (approxYear ms) =
      ((86400000 * daysBeforeYear (approxYear ms) : Int) : ℚ) := by
    rw [msPerDay_eq, daysFrom1970ToYear_eq]
    push_cast
    rfl
  have finish : ((86400000 * daysBeforeYear (approxYear ms) : Int) : ℚ) +
      msPerDay * daysInYear (approxYear ms) =
      ((86400000 * daysBeforeYear (approxYear ms + 1) : Int) : ℚ) := by
    rw [msPerDay_eq, daysInYear_eq, daysBeforeYear_succ]
    push_cast
    ring
  simp only [msToYear, guess, start, finish, gt_iff_lt, Int.cast_lt, Int.cast_le]

/-- The guess is at most one year too late. -/
theorem daysBeforeYear_guess_le (ms : Int) :
    86400000 * daysBeforeYear (approxYear ms - 1) ≤ ms := by
  unfold daysBeforeYear approxYear
  omega

/-- The guess is at most one year too early. -/
theorem lt_daysBeforeYear_guess (ms : Int) :
    ms < 86400000 * daysBeforeYear (approxYear ms + 2) := by
  unfold daysBeforeYear approxYear
  omega

/-- **`msToYear` gives the year whose days hold the instant.** -/
theorem msToYear_spec (ms : Int) :
    86400000 * daysBeforeYear (msToYear ms) ≤ ms ∧
      ms < 86400000 * daysBeforeYear (msToYear ms + 1) := by
  have notLater := daysBeforeYear_guess_le ms
  have notEarlier := lt_daysBeforeYear_guess ms
  rw [msToYear_eq]
  split
  case isTrue late => exact ⟨notLater, by rwa [Int.sub_add_cancel]⟩
  case isFalse begun =>
    split
    case isTrue early => exact ⟨early, by rwa [Int.add_assoc]⟩
    case isFalse within => exact ⟨by omega, by omega⟩

/-! ## Months -/

variable {isLeap : Bool} {month day : Nat}

/-- The chain of thresholds finds the month. -/
theorem monthFromDayInYear_eq (inYear : month < 12) (inMonth : day < monthLength isLeap month) :
    monthFromDayInYear (daysBeforeMonth isLeap month + day : Nat) isLeap = month := by
  interval_cases month <;> cases isLeap <;>
    simp [monthLength, daysBeforeMonth] at inMonth ⊢ <;> unfold monthFromDayInYear <;> simp <;>
    omega

theorem checkMonths_cons (d next daysInThisMonth : Int) (later : List Int) :
    checkMonths d next (daysInThisMonth :: later) =
      if d ≤ next + daysInThisMonth then d - next
      else checkMonths d (next + daysInThisMonth) later := by
  simp [checkMonths, checkMonth]

/-- A day behind the months `before` and in the month after them. -/
theorem checkMonths_within {d daysInThisMonth : Int} {before : List Int} (later : List Int)
    (lengths : ∀ length ∈ before, 0 ≤ length) (next : Int) (begun : next + before.sum < d)
    (within : d ≤ next + before.sum + daysInThisMonth) :
    checkMonths d next (before ++ daysInThisMonth :: later) = d - (next + before.sum) := by
  induction before generalizing next with
  | nil =>
    rw [List.sum_nil, Int.add_zero] at within ⊢
    rw [List.nil_append, checkMonths_cons, if_pos within]
  | cons length before ih =>
    rw [List.forall_mem_cons] at lengths
    have rest := List.sum_nonneg lengths.2
    rw [List.sum_cons, ← Int.add_assoc] at begun within ⊢
    rw [List.cons_append, checkMonths_cons, if_neg (by omega), ih lengths.2 _ begun within]

/-- A day behind every month that is checked. -/
theorem checkMonths_past {d : Int} {months : List Int} (lengths : ∀ length ∈ months, 0 ≤ length)
    (next : Int) (past : next + months.sum < d) :
    checkMonths d next months = d - (next + months.sum) := by
  induction months generalizing next with
  | nil => rw [List.sum_nil, Int.add_zero, checkMonths]
  | cons length months ih =>
    rw [List.forall_mem_cons] at lengths
    have rest := List.sum_nonneg lengths.2
    rw [List.sum_cons, ← Int.add_assoc] at past ⊢
    rw [checkMonths_cons, if_neg (by omega), ih lengths.2 _ past]

/-- The running thresholds find the day of the month. -/
theorem dayInMonthFromDayInYear_eq (inYear : month < 12)
    (inMonth : day < monthLength isLeap month) :
    dayInMonthFromDayInYear (daysBeforeMonth isLeap month + day : Nat) isLeap = day + 1 := by
  -- the months that are checked, with the ones of the first `month - 1` in front
  let checked : List Int := [if isLeap then 29 else 28, 31, 30, 31, 30, 31, 31, 30, 31, 30]
  have lengths : ∀ length ∈ checked, 0 ≤ length := by cases isLeap <;> decide
  have sums : ∀ index < 11, 31 + (checked.take index).sum = daysBeforeMonth isLeap (index + 1) := by
    cases isLeap <;> decide
  have each : ∀ index < 10, checked[index]? = some (monthLength isLeap (index + 1) : Int) := by
    cases isLeap <;> decide
  cases month with
  | zero =>
    have january : day < 31 := inMonth
    rw [dayInMonthFromDayInYear, daysBeforeMonth, Nat.zero_add, if_pos (by omega)]
  | succ index =>
    have begun := sums index (by omega)
    have started : 31 ≤ daysBeforeMonth isLeap (index + 1) :=
      daysBeforeMonth_mono isLeap (show 1 ≤ index + 1 by omega)
    have counted : dayInMonthFromDayInYear (daysBeforeMonth isLeap (index + 1) + day : Nat) isLeap
        = checkMonths (daysBeforeMonth isLeap (index + 1) + day : Nat) 30 checked := by
      rw [dayInMonthFromDayInYear, if_neg (by push_cast; omega)]
    have within : ∀ length ∈ checked.take index, 0 ≤ length :=
      fun length kept => lengths length (List.mem_of_mem_take kept)
    rw [counted]
    by_cases last : index = 10
    · have all : checked.take index = checked := by rw [last]; rfl
      rw [all] at begun
      rw [checkMonths_past lengths _ (by push_cast; omega)]
      push_cast
      omega
    · have split := List.take_append_drop index checked
      rw [List.drop_eq_getElem_cons (show index < 10 by omega)] at split
      have month := each index (by omega)
      rw [List.getElem?_eq_getElem (show index < 10 by omega), Option.some.injEq] at month
      rw [month] at split
      rw [← split, checkMonths_within _ within _ (by push_cast; omega) (by push_cast; omega)]
      push_cast
      omega

/-- The table holds the days before each month. -/
theorem firstDayOfMonth_eq (inYear : month < 12) :
    (firstDayOfMonth isLeap).getD month 0 = daysBeforeMonth isLeap month := by
  interval_cases month <;> cases isLeap <;> rfl

/-- **Whole years are carried out of the month**, also where the month is negative. -/
theorem dateToDaysFrom1970_eq (year month day : Int) :
    dateToDaysFrom1970 year month day =
      (((CivilDate.monthStart (12 * year + month)).number + (day - 1) : Int) : ℚ) := by
  have quotient := Int.tdiv_eq_ediv (a := month) (b := 12)
  have remainder := Int.tmod_eq_emod (a := month) (b := 12)
  have carried : (if month.tmod 12 < 0 then (year + month.tdiv 12 - 1, month.tmod 12 + 12)
      else (year + month.tdiv 12, month.tmod 12)) =
      ((12 * year + month) / 12, (12 * year + month) % 12) := by
    rw [quotient, remainder]
    split_ifs <;> simp only [Prod.mk.injEq, Int.sign] <;> omega
  have inYear : ((12 * year + month) % 12).toNat < 12 := by omega
  simp only [dateToDaysFrom1970, carried, dayInYearOfDate, isLeapYear_eq, firstDayOfMonth_eq inYear,
    daysFrom1970ToYear_eq, floor_intCast, CivilDate.monthStart, CivilDate.number_firstOfMonth]
  push_cast
  ring

/-! ## The civil date of an instant -/

/-- The day of the year, the month and the day of the month that the code gives an instant. -/
def yearDayOf (ms : Int) : Int := dayInYear ms (msToYear ms)

def monthOf (ms : Int) : Int := monthFromDayInYear (yearDayOf ms) (isLeapYear (msToYear ms))

def monthDayOf (ms : Int) : Int :=
  dayInMonthFromDayInYear (yearDayOf ms) (isLeapYear (msToYear ms))

/-- They are those of a date. -/
structure FieldsOf (ms : Int) (date : CivilDate) : Prop where
  year : msToYear ms = date.year
  yearDay : yearDayOf ms = date.yearDay
  month : monthOf ms = date.month
  monthDay : monthDayOf ms = date.day

theorem fieldsOf_date {ms : Int} {date : CivilDate} (numbered : date.number = ms / 86400000) :
    FieldsOf ms date := by
  have inYear := date.yearDay_lt
  have inMonth := date.day_le
  have counted := date.day_pos
  have year : msToYear ms = date.year := by
    have bounds := msToYear_spec ms
    unfold CivilDate.number at numbered
    apply Int.le_antisymm
    · by_contra later
      have jump := daysBeforeYear_mono (show date.year + 1 ≤ msToYear ms by omega)
      rw [daysBeforeYear_succ] at jump
      omega
    · by_contra earlier
      have jump := daysBeforeYear_mono (show msToYear ms + 1 ≤ date.year by omega)
      omega
  have yearDay : yearDayOf ms = date.yearDay := by
    rw [yearDayOf, dayInYear_eq, year, ← numbered, CivilDate.number]
    omega
  refine ⟨year, yearDay, ?_, ?_⟩
  · rw [monthOf, yearDay, year, isLeapYear_eq, CivilDate.yearDay,
      monthFromDayInYear_eq date.month_lt (by omega)]
  · rw [monthDayOf, yearDay, year, isLeapYear_eq, CivilDate.yearDay,
      dayInMonthFromDayInYear_eq date.month_lt (by omega)]
    omega

theorem dateToDaysFrom1970_date (date : CivilDate) :
    dateToDaysFrom1970 date.year date.month date.day = (date.number : ℚ) := by
  have inYear := date.month_lt
  have counted := date.day_pos
  have start : CivilDate.monthStart (12 * date.year + date.month) =
      CivilDate.firstOfMonth date.year date.month inYear := by
    apply CivilDate.ext <;> simp only [CivilDate.monthStart, CivilDate.firstOfMonth] <;> omega
  rw [dateToDaysFrom1970_eq, start, CivilDate.number_firstOfMonth, CivilDate.number,
    CivilDate.yearDay]
  congr 1
  omega

/-- The years of the instants a script can name fit into an `int`. -/
theorem msToYear_range {ms : Int} (range : |ms| ≤ 8640000000000000) :
    -271821 ≤ msToYear ms ∧ msToYear ms ≤ 275760 := by
  have bounds := msToYear_spec ms
  have inside := abs_le.mp range
  unfold daysBeforeYear at bounds
  omega

end NetRider.Wtf.DateMath
