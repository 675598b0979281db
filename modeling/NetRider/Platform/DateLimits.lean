import NetRider.Platform.DateText

/-!
# Dates within the limits

What the setters of the milliseconds since the epoch give, and when they keep to the limits of
the parsers.
-/

namespace NetRider.Platform.DateComponents

open NetRider.Lib NetRider.Wtf NetRider.Wtf.DateMath

variable {this value : DateComponents} {ms : Int} {date : CivilDate}

/-! ## Whole numbers of milliseconds -/

theorem round_intCast (n : Int) : round (n : ℚ) = n := by
  have up : ⌊(n : ℚ) + 1 / 2⌋ = n := by
    rw [Int.floor_eq_iff]
    constructor <;> norm_num
  have down : ⌊-(n : ℚ) + 1 / 2⌋ = -n := by
    rw [Int.floor_eq_iff]
    push_cast
    constructor <;> norm_num
  rw [round, up, down]
  split <;> simp

theorem truncate_div (n : Int) (d : Nat) : truncate ((n : ℚ) / d) = n.tdiv d := by
  by_cases negative : n < 0
  · rcases Nat.eq_zero_or_pos d with rfl | positive
    · simp [truncate]
    · have below : (n : ℚ) / d < 0 := by
        apply div_neg_of_neg_of_pos <;> exact_mod_cast ‹_›
      have up : (n : ℚ) / d = -(((-n : Int) : ℚ) / d) := by push_cast; ring
      rw [truncate, if_pos below, up, Int.ceil_neg, Rat.floor_intCast_div_natCast,
        ← Int.tdiv_eq_ediv_of_nonneg (by omega), Int.neg_tdiv, Int.neg_neg]
  · have above : ¬ (n : ℚ) / d < 0 := by
      rw [not_lt]
      exact div_nonneg (by exact_mod_cast not_lt.mp negative) (Nat.cast_nonneg d)
    rw [truncate, if_neg above, Rat.floor_intCast_div_natCast,
      ← Int.tdiv_eq_ediv_of_nonneg (by omega)]

theorem fmod_intCast (n : Int) (d : Nat) : fmod n d = ((n.tmod d : Int) : ℚ) := by
  rw [fmod, truncate_div, Int.tmod_def]
  push_cast
  rfl

theorem positiveFmod_intCast (n : Int) (d : Nat) (positive : 0 < d) :
    positiveFmod n d = ((n % d : Int) : ℚ) := by
  have sign := Int.tmod_eq_emod (a := n) (b := d)
  have least := Int.emod_nonneg n (show (d : Int) ≠ 0 by omega)
  have most := Int.emod_lt_of_pos n (show (0 : Int) < d by omega)
  rw [Int.natAbs_natCast] at sign
  rw [positiveFmod, fmod_intCast]
  split at sign
  · have nonneg : ¬ ((n.tmod d : Int) : ℚ) < 0 := by
      rw [not_lt]
      exact_mod_cast (show 0 ≤ n.tmod d by omega)
    rw [if_neg nonneg, sign]
    simp
  · have negative : ((n.tmod d : Int) : ℚ) < 0 := by
      exact_mod_cast (show n.tmod d < 0 by omega)
    rw [if_pos negative, sign]
    push_cast
    ring

/-! ## The date -/

theorem isLeapYear_leap (year : Int) : isLeapYear year = leap year := DateMath.isLeapYear_eq year

theorem maxDayOfMonth_eq (year : Int) {month : Nat} (inYear : month < 12) :
    maxDayOfMonth year month = monthLength (leap year) month := by
  rw [maxDayOfMonth, isLeapYear_leap]
  cases leap year <;> interval_cases month <;> rfl

/-- The setters give the date of the instant. -/
theorem dateInternal_eq (number : date.number = ms / 86400000) :
    this.setMillisecondsSinceEpochForDateInternal ms =
      { this with year := date.year, month := date.month, monthDay := date.day } := by
  have fields := fieldsOf_date number
  have year := fields.year
  have month := fields.month
  have monthDay := fields.monthDay
  unfold monthOf yearDayOf at month
  unfold monthDayOf yearDayOf at monthDay
  rw [DateMath.isLeapYear_eq] at month monthDay
  rw [year] at month monthDay
  simp only [setMillisecondsSinceEpochForDateInternal, isLeapYear_leap, year, month, monthDay]

/-! ## The time -/

/-- The setters give the time of the day. -/
theorem midnightInternal_eq {t : Int} (nonneg : 0 ≤ t) :
    this.setMillisecondsSinceMidnightInternal t =
      { this with
        millisecond := t % 1000
        second := t / 1000 % 60
        minute := t / 60000 % 60
        hour := t / 3600000 } := by
  have seconds : floor ((t : ℚ) / msPerSecond) = ((t / 1000 : Int) : ℚ) := floor_div t 1000
  have minutes : floor (((t / 1000 : Int) : ℚ) / secondsPerMinute) = ((t / 60000 : Int) : ℚ) := by
    rw [show t / 60000 = t / 1000 / 60 by omega]
    exact floor_div (t / 1000) 60
  have milliseconds : fmod (t : ℚ) msPerSecond = ((t.tmod 1000 : Int) : ℚ) := fmod_intCast t 1000
  have second : fmod ((t / 1000 : Int) : ℚ) secondsPerMinute =
      (((t / 1000).tmod 60 : Int) : ℚ) := fmod_intCast _ 60
  have minute : fmod ((t / 60000 : Int) : ℚ) minutesPerHour =
      (((t / 60000).tmod 60 : Int) : ℚ) := fmod_intCast _ 60
  have hour : truncate (((t / 60000 : Int) : ℚ) / minutesPerHour) = (t / 60000).tdiv 60 :=
    truncate_div _ 60
  simp only [setMillisecondsSinceMidnightInternal, seconds, minutes, milliseconds, second, minute,
    hour, truncate_intCast]
  rw [Int.tmod_eq_emod_of_nonneg nonneg, Int.tmod_eq_emod_of_nonneg (by omega),
    Int.tmod_eq_emod_of_nonneg (by omega), Int.tdiv_eq_ediv_of_nonneg (by omega),
    show t / 60000 / 60 = t / 3600000 by omega]

/-! ## Weeks -/

/-- Zeller's congruence agrees with the count of the days; 1970-01-01 was a Thursday. -/
theorem dayOfWeek_newYear {year : Int} (least : minimumYear ≤ year) :
    dayOfWeek year 0 1 = (daysBeforeYear year + 4) % 7 := by
  unfold minimumYear at least
  have high : (year - 1).tdiv 100 = (year - 1) / 100 := Int.tdiv_eq_ediv_of_nonneg (by omega)
  have low : (year - 1).tmod 100 = (year - 1) % 100 := Int.tmod_eq_emod_of_nonneg (by omega)
  have lowFourth : ((year - 1) % 100).tdiv 4 = (year - 1) % 100 / 4 :=
    Int.tdiv_eq_ediv_of_nonneg (by omega)
  have highFourth : ((year - 1) / 100).tdiv 4 = (year - 1) / 100 / 4 :=
    Int.tdiv_eq_ediv_of_nonneg (by omega)
  have months : (13 * ((0 : Int) + 2 + 12)).tdiv 5 = 36 := by decide
  have early : (0 : Int) + 2 ≤ 3 := by decide
  simp only [dayOfWeek, if_pos early, high, low, lowFourth, highFourth, months]
  have fourth : (year - 1) / 4 = 25 * ((year - 1) / 100) + (year - 1) % 100 / 4 := by omega
  have century : (year - 1) / 400 = (year - 1) / 100 / 4 := by omega
  have parts : year = 100 * ((year - 1) / 100) + (year - 1) % 100 + 1 := by omega
  rw [Int.tmod_eq_emod_of_nonneg (by omega), daysBeforeYear, fourth, century]
  omega

/-- The day number of the Monday of a year's first week. -/
def firstMonday (year : Int) : Int := daysBeforeYear year + offsetTo1stWeekStart year

theorem firstMonday_spec {year : Int} (least : minimumYear ≤ year) :
    firstMonday year % 7 = 4 ∧ -3 ≤ offsetTo1stWeekStart year ∧ offsetTo1stWeekStart year ≤ 3 := by
  unfold firstMonday offsetTo1stWeekStart
  rw [dayOfWeek_newYear least]
  dsimp only
  split <;> omega

/-- The weeks of a year. -/
def weeksInYear (year : Int) : Int := maxWeekNumberInYear { year := year }

theorem maxWeekNumberInYear_eq (c : DateComponents) :
    c.maxWeekNumberInYear = weeksInYear c.year := rfl

/-- The weeks of a year lead up to the first week of the next. -/
theorem firstMonday_succ {year : Int} (least : minimumYear ≤ year) :
    firstMonday (year + 1) = firstMonday year + 7 * weeksInYear year := by
  unfold minimumYear at least
  unfold firstMonday offsetTo1stWeekStart weeksInYear maxWeekNumberInYear
  rw [dayOfWeek_newYear (show minimumYear ≤ year + 1 by unfold minimumYear; omega),
    dayOfWeek_newYear least, daysBeforeYear_succ, isLeapYear_leap]
  have common : (yearLength false : Int) = 365 := rfl
  have longer : (yearLength true : Int) = 366 := rfl
  dsimp only
  unfold thursday wednesday maximumWeekNumber
  cases leap year
  · rw [common]
    split_ifs <;> simp only [and_false, or_false] at * <;> omega
  · rw [longer]
    split_ifs <;> simp only [and_true] at * <;> omega

theorem weeksInYear_ge (year : Int) : 52 ≤ weeksInYear year := by
  unfold weeksInYear maxWeekNumberInYear maximumWeekNumber
  dsimp only
  split <;> omega

/-! ## What the setters give -/

/-- The fields of a date, whatever the type. -/
def withDate (this : DateComponents) (date : CivilDate) (type : ComponentsType) :
    DateComponents :=
  { this with year := date.year, month := date.month, monthDay := date.day, type := type }

/-- The fields of the time `t` milliseconds after midnight. -/
def withTime (this : DateComponents) (t : Int) : DateComponents :=
  { this with
    millisecond := t % 1000
    second := t / 1000 % 60
    minute := t / 60000 % 60
    hour := t / 3600000 }

theorem setForDate_eq (number : date.number = ms / 86400000) :
    this.setMillisecondsSinceEpochForDate ms =
      if withinHTMLDateLimits date.year date.month date.day then some (this.withDate date .date)
      else none := by
  rw [setMillisecondsSinceEpochForDate, round_intCast, dateInternal_eq number]
  rfl

theorem setForMonth_eq (number : date.number = ms / 86400000) :
    this.setMillisecondsSinceEpochForMonth ms =
      if withinHTMLMonthLimits date.year date.month then
        some (this.withDate date .month)
      else none := by
  rw [setMillisecondsSinceEpochForMonth, round_intCast, dateInternal_eq number]
  rfl

theorem setForDateTime_eq (number : date.number = ms / 86400000) :
    this.setMillisecondsSinceEpochForDateTime ms =
      if withinHTMLDateTimeLimits date.year date.month date.day (ms % 86400000 / 3600000)
          (ms % 86400000 / 60000 % 60) (ms % 86400000 / 1000 % 60) (ms % 86400000 % 1000) then
        some ((this.withTime (ms % 86400000)).withDate date .dateTime)
      else none := by
  have day : positiveFmod (ms : ℚ) msPerDay = ((ms % 86400000 : Int) : ℚ) := by
    rw [msPerDay_eq]
    exact positiveFmod_intCast ms 86400000 (by decide)
  rw [setMillisecondsSinceEpochForDateTime, round_intCast]
  simp only [day, midnightInternal_eq (Int.emod_nonneg ms (show (86400000 : Int) ≠ 0 by decide)),
    dateInternal_eq number]
  rfl

/-- A value lies in the week of an instant when its first day is the Monday of that week. -/
theorem setForWeek_some (number : date.number = ms / 86400000)
    (set : this.setMillisecondsSinceEpochForWeek ms = some value) :
    ValidWeek value ∧ value.type = .week ∧
      firstMonday value.year + 7 * (value.week - 1) =
        ms / 86400000 - (ms / 86400000 + 3) % 7 := by
  have year : msToYear (ms : ℚ) = date.year := (fieldsOf_date number).year
  have inYear : dayInYear (ms : ℚ) date.year = ms / 86400000 - daysBeforeYear date.year :=
    dayInYear_eq ms date.year
  have within := date.yearDay_lt
  have succ := daysBeforeYear_succ date.year
  unfold CivilDate.number at number
  rw [setMillisecondsSinceEpochForWeek, round_intCast] at set
  simp only [year, inYear, maxWeekNumberInYear_eq] at set
  split at set
  · cases set
  case isFalse limits =>
    have least : minimumYear ≤ date.year := by omega
    have most : date.year ≤ maximumYear := by omega
    have first := firstMonday_spec least
    have weeks := firstMonday_succ least
    have enough := weeksInYear_ge date.year
    have count : firstMonday date.year =
      daysBeforeYear date.year + offsetTo1stWeekStart date.year := rfl
    split at set
    case isTrue before =>
      split at set
      · cases set
      case isFalse later =>
        obtain rfl := Option.some.inj set
        -- the last week of the year before ends where the first week begins
        have lastWeeks := firstMonday_succ (show minimumYear ≤ date.year - 1 by omega)
        have lastEnough := weeksInYear_ge (date.year - 1)
        rw [Int.sub_add_cancel] at lastWeeks
        refine ⟨⟨?_, ?_, ?_, Int.le_refl _, ?_⟩, rfl, ?_⟩ <;>
          dsimp only [minimumWeekNumber] <;> omega
    case isFalse behind =>
      have quotient := Int.tdiv_eq_ediv_of_nonneg (b := 7) (show
        0 ≤ ms / 86400000 - daysBeforeYear date.year - offsetTo1stWeekStart date.year by omega)
      rw [quotient] at set
      by_cases beyond : weeksInYear date.year <
        (ms / 86400000 - daysBeforeYear date.year - offsetTo1stWeekStart date.year) / 7 + 1
      · simp only [gt_iff_lt, if_pos beyond] at set
        split at set
        · cases set
        case isFalse inside =>
          obtain rfl := Option.some.inj set
          -- the days behind the last week are the first days of the next year's first week
          have next := firstMonday_spec (show minimumYear ≤ date.year + 1 by omega)
          have nextEnough := weeksInYear_ge (date.year + 1)
          have nextCount : firstMonday (date.year + 1) =
            daysBeforeYear (date.year + 1) + offsetTo1stWeekStart (date.year + 1) := rfl
          refine ⟨⟨?_, ?_, ?_, ?_, ?_⟩, rfl, ?_⟩ <;>
            dsimp only [maxWeekNumberInYear_eq, minimumWeekNumber] <;> omega
      · simp only [gt_iff_lt, if_neg beyond] at set
        split at set
        · cases set
        case isFalse inside =>
          obtain rfl := Option.some.inj set
          refine ⟨⟨?_, ?_, ?_, ?_, ?_⟩, rfl, ?_⟩ <;>
            dsimp only [maxWeekNumberInYear_eq, minimumWeekNumber] <;> omega

/-! ## The limits of the parsers -/

/-- From 0001-01 to 275760-09. -/
def MonthWithin (c : DateComponents) : Prop :=
  minimumYear ≤ c.year ∧
    (c.year < maximumYear ∨ c.year = maximumYear ∧ c.month ≤ maximumMonthInMaximumYear)

/-- From 0001-01-01 to 275760-09-13. -/
def DateWithin (c : DateComponents) : Prop :=
  minimumYear ≤ c.year ∧
    (c.year < maximumYear ∨ c.year = maximumYear ∧ (c.month < maximumMonthInMaximumYear ∨
      c.month = maximumMonthInMaximumYear ∧ c.monthDay ≤ maximumDayInMaximumMonth))

/-- From the start of 0001-01-01 to the start of 275760-09-13. -/
def DateTimeWithin (c : DateComponents) : Prop :=
  minimumYear ≤ c.year ∧
    (c.year < maximumYear ∨ c.year = maximumYear ∧ (c.month < maximumMonthInMaximumYear ∨
      c.month = maximumMonthInMaximumYear ∧ (c.monthDay < maximumDayInMaximumMonth ∨
        c.monthDay = maximumDayInMaximumMonth ∧
          c.hour = 0 ∧ c.minute = 0 ∧ c.second = 0 ∧ c.millisecond = 0)))

/-- From a week of 0001 to 275760-W37. -/
def WeekWithin (c : DateComponents) : Prop :=
  minimumYear ≤ c.year ∧
    (c.year < maximumYear ∨ c.year = maximumYear ∧ c.week ≤ maximumWeekInMaximumYear)

/-- A parser reads the whole of a text. -/
def Accepts (parse : DateComponents → List UChar → Nat → Option (DateComponents × Nat))
    (text : List UChar) : Prop :=
  ∀ this, ∃ value, parse this text 0 = some (value, text.length)

/-- The value that a setter gives, if it gives one, is within limits, begins at `start` and is
written as a text that its parser reads. -/
def Kept (set : Option DateComponents) (Within : DateComponents → Prop) (start : Int)
    (parse : DateComponents → List UChar → Nat → Option (DateComponents × Nat)) : Prop :=
  ∀ value, set = some value → Within value ∧ value.millisecondsSinceEpoch = some (start : ℚ) ∧
    ∀ format, Accepts parse (value.toString format)

/-- The four setters keep the limits at an instant of a date. -/
structure LimitsKept (this : DateComponents) (ms : Int) (date : CivilDate) : Prop where
  forDate : Kept (this.setMillisecondsSinceEpochForDate ms) DateWithin
    (86400000 * (ms / 86400000)) parseDate
  forDateTime : Kept (this.setMillisecondsSinceEpochForDateTime ms) DateTimeWithin ms parseDateTime
  forMonth : Kept (this.setMillisecondsSinceEpochForMonth ms) MonthWithin
    (86400000 * (CivilDate.firstOfMonth date.year date.month date.month_lt).number) parseMonth
  forWeek : Kept (this.setMillisecondsSinceEpochForWeek ms) WeekWithin
    (86400000 * (ms / 86400000 - (ms / 86400000 + 3) % 7)) parseWeek

/-- The dates behind the limits that a check lets through: it looks at a later field although an
earlier one is too large. -/
def SlipsThrough (date : CivilDate) : Prop :=
  maximumYear < date.year ∧
      (date.month ≤ maximumMonthInMaximumYear ∨ date.day ≤ maximumDayInMaximumMonth) ∨
    date.year = maximumYear ∧
      maximumMonthInMaximumYear < date.month ∧ date.day ≤ maximumDayInMaximumMonth

theorem accepts_of_reads
    {parse : DateComponents → List UChar → Nat → Option (DateComponents × Nat)} {text : List UChar}
    (reads : Reads text 0 text [] → ∀ this, ∃ value, parse this text 0 =
      some (value, 0 + text.length)) : Accepts parse text := by
  intro this
  obtain ⟨value, parsed⟩ := reads (reads_self text) this
  exact ⟨value, by rw [parsed, Nat.zero_add]⟩

/-! ## Each setter -/

theorem validMonth_of_within (date : CivilDate) (year : value.year = date.year)
    (month : value.month = date.month) (within : MonthWithin value) : ValidMonth value := by
  have inYear := date.month_lt
  unfold MonthWithin at within
  refine ⟨by omega, by omega, by omega, by omega, withinHTMLMonthLimits_iff.mpr (by omega)⟩

theorem validDate_of_within (date : CivilDate) (year : value.year = date.year)
    (month : value.month = date.month) (day : value.monthDay = date.day)
    (within : DateWithin value) : ValidDate value := by
  have counted := date.day_pos
  have inMonth := date.day_le
  unfold DateWithin at within
  have months : MonthWithin value := by
    unfold MonthWithin
    omega
  refine ⟨validMonth_of_within date year month months, by omega, ?_,
    withinHTMLDateLimits_iff.mpr (by omega)⟩
  rw [year, month, maxDayOfMonth_eq _ date.month_lt]
  omega

theorem kept_date (number : date.number = ms / 86400000) :
    Kept (this.setMillisecondsSinceEpochForDate ms) DateWithin (86400000 * (ms / 86400000))
      parseDate ↔
    (withinHTMLDateLimits date.year date.month date.day →
      DateWithin (this.withDate date .date)) := by
  rw [setForDate_eq number]
  constructor
  · intro kept passes
    exact (kept _ (if_pos passes)).1
  · intro within value set
    split at set
    case isFalse => cases set
    case isTrue passes =>
      obtain rfl := Option.some.inj set
      refine ⟨within passes, ?_, fun format => accepts_of_reads fun reads this => ?_⟩
      · have days := dateToDaysFrom1970_date date
        simp only [millisecondsSinceEpoch, withDate, days, msPerDay_eq, number]
        push_cast
        rw [mul_comm]
      · exact ⟨_, parseDate_text (validDate_of_within date rfl rfl rfl (within passes)) reads⟩

theorem kept_month (number : date.number = ms / 86400000) :
    Kept (this.setMillisecondsSinceEpochForMonth ms) MonthWithin
      (86400000 * (CivilDate.firstOfMonth date.year date.month date.month_lt).number) parseMonth ↔
    (withinHTMLMonthLimits date.year date.month →
      MonthWithin (this.withDate date .month)) := by
  rw [setForMonth_eq number]
  constructor
  · intro kept passes
    exact (kept _ (if_pos passes)).1
  · intro within value set
    split at set
    case isFalse => cases set
    case isTrue passes =>
      obtain rfl := Option.some.inj set
      refine ⟨within passes, ?_, fun format => accepts_of_reads fun reads this => ?_⟩
      · have days := dateToDaysFrom1970_date
          (CivilDate.firstOfMonth date.year date.month date.month_lt)
        simp only [millisecondsSinceEpoch, withDate, msPerDay_eq]
        rw [show (1 : Int) = ((1 : Nat) : Int) from rfl]
        refine congrArg some ?_
        push_cast
        rw [mul_comm, ← days]
        rfl
      · have valid := validMonth_of_within date rfl rfl (within passes)
        exact ⟨_, parseMonth_text valid reads⟩

/-- The value of an instant with its time. -/
def dateTimeAt (this : DateComponents) (ms : Int) (date : CivilDate) : DateComponents :=
  (this.withTime (ms % 86400000)).withDate date .dateTime

theorem dateTimeAt_within (within : DateTimeWithin (this.dateTimeAt ms date)) :
    ValidDateTime (this.dateTimeAt ms date) := by
  have dates : DateWithin (this.dateTimeAt ms date) := by
    unfold DateTimeWithin at within
    unfold DateWithin
    omega
  have limits : withinHTMLDateTimeLimits (this.dateTimeAt ms date).year
      (this.dateTimeAt ms date).month (this.dateTimeAt ms date).monthDay
      (this.dateTimeAt ms date).hour (this.dateTimeAt ms date).minute
      (this.dateTimeAt ms date).second (this.dateTimeAt ms date).millisecond := by
    unfold DateTimeWithin at within
    exact withinHTMLDateTimeLimits_iff.mpr (by omega)
  refine ⟨validDate_of_within date rfl rfl rfl dates, ?_, limits⟩
  constructor <;> dsimp only [dateTimeAt, withTime, withDate] <;> omega

theorem kept_dateTime (number : date.number = ms / 86400000) :
    Kept (this.setMillisecondsSinceEpochForDateTime ms) DateTimeWithin ms parseDateTime ↔
    (withinHTMLDateTimeLimits date.year date.month date.day (ms % 86400000 / 3600000)
        (ms % 86400000 / 60000 % 60) (ms % 86400000 / 1000 % 60) (ms % 86400000 % 1000) →
      DateTimeWithin (this.dateTimeAt ms date)) := by
  rw [setForDateTime_eq number]
  constructor
  · intro kept passes
    exact (kept _ (if_pos passes)).1
  · intro within value set
    split at set
    case isFalse => cases set
    case isTrue passes =>
      obtain rfl := Option.some.inj set
      refine ⟨within passes, ?_, fun format => accepts_of_reads fun reads this => ?_⟩
      · have days := dateToDaysFrom1970_date date
        have time : (((ms % 86400000 / 3600000 * 60 + ms % 86400000 / 60000 % 60) * 60 +
            ms % 86400000 / 1000 % 60) * 1000 + ms % 86400000 % 1000 : Int) = ms % 86400000 := by
          omega
        have whole : date.number * 86400000 + ms % 86400000 = ms := by omega
        simp only [millisecondsSinceEpoch, millisecondsSinceEpochForTime, withDate, withTime, days,
          msPerDay_eq, minutesPerHour, secondsPerMinute, msPerSecond]
        refine congrArg some ?_
        exact_mod_cast (show _ = ms by rw [time]; exact whole)
      · exact ⟨_, parseDateTime_text (dateTimeAt_within (within passes)) reads⟩

/-- The weeks keep to their limits at every instant. -/
theorem kept_week (number : date.number = ms / 86400000) :
    Kept (this.setMillisecondsSinceEpochForWeek ms) WeekWithin
      (86400000 * (ms / 86400000 - (ms / 86400000 + 3) % 7)) parseWeek := by
  intro value set
  obtain ⟨valid, type, monday⟩ := setForWeek_some number set
  refine ⟨⟨valid.year_ge, ?_⟩, ?_, fun format => accepts_of_reads fun reads this => ?_⟩
  · have most := valid.year_le
    have limits := valid.limits
    omega
  · have newYear := dateToDaysFrom1970_date (CivilDate.newYear value.year)
    have year : dateToDaysFrom1970 value.year 0 1 = (daysBeforeYear value.year : ℚ) := by
      rw [← CivilDate.number_newYear, ← newYear]
      rfl
    unfold firstMonday at monday
    simp only [millisecondsSinceEpoch, type, year, msPerDay_eq, ← monday]
    refine congrArg some ?_
    push_cast
    ring
  · rw [toString, type] at reads ⊢
    exact ⟨_, parseWeek_text valid reads⟩

/-- **The setters keep the limits exactly where no check lets a later date through.** The date of
an instant is the one its day has in the calendar. -/
theorem limitsKept_iff (this : DateComponents) (ms : Int) :
    ∃ date, UnixDay (ms / 86400000) date ∧ (LimitsKept this ms date ↔ ¬ SlipsThrough date) := by
  obtain ⟨date, numbered⟩ := exists_unixDay (ms / 86400000)
  have number := numbered.number_eq
  refine ⟨date, numbered, ?_⟩
  have fields : LimitsKept this ms date ↔
      (withinHTMLDateLimits date.year date.month date.day →
        DateWithin (this.withDate date .date)) ∧
      (withinHTMLDateTimeLimits date.year date.month date.day (ms % 86400000 / 3600000)
          (ms % 86400000 / 60000 % 60) (ms % 86400000 / 1000 % 60) (ms % 86400000 % 1000) →
        DateTimeWithin (this.dateTimeAt ms date)) ∧
      (withinHTMLMonthLimits date.year date.month → MonthWithin (this.withDate date .month)) := by
    rw [← kept_date number, ← kept_dateTime number, ← kept_month number]
    exact ⟨fun kept => ⟨kept.forDate, kept.forDateTime, kept.forMonth⟩,
      fun kept => ⟨kept.1, kept.2.1, kept.2.2, kept_week number⟩⟩
  rw [fields, withinHTMLDateLimits_iff, withinHTMLDateTimeLimits_iff, withinHTMLMonthLimits_iff]
  unfold SlipsThrough DateWithin DateTimeWithin MonthWithin dateTimeAt withDate withTime
  dsimp only
  unfold minimumYear maximumYear maximumMonthInMaximumYear maximumDayInMaximumMonth
  constructor
  · rintro ⟨dates, -, months⟩ (⟨past, early⟩ | ⟨last, past, early⟩) <;> omega
  · intro inside
    refine ⟨?_, ?_, ?_⟩ <;> omega

/-- October 1st of the last year passes for a date, since it is before the 13th. -/
theorem setters_past_limits :
    ¬ ∀ (this : DateComponents) (ms : Int) (date : CivilDate), UnixDay (ms / 86400000) date →
      LimitsKept this ms date := by
  intro all
  let october := CivilDate.firstOfMonth 275760 9 (by decide)
  have number : october.number = 8640001555200000 / 86400000 := by decide
  have kept := (all {} 8640001555200000 october (unixDay_iff.mpr number)).forDate
  have within := (kept_date number).mp kept (by decide)
  revert within
  unfold DateWithin
  decide

end NetRider.Platform.DateComponents
