import Mathlib
import NetRider.Platform.TimeZones

/-!
# Dates and times read back

What the parsers accept, and when the text of what they read is read back as the same value.
-/

namespace NetRider.Platform.DateComponents

open NetRider.Lib NetRider.Wtf NetRider.Wtf.DateMath

variable {src rest : List UChar} {start finish index : Nat} {this value : DateComponents}
  {date : CivilDate}

/-! ## What the parsers give -/

theorem parseYear_some (parsed : this.parseYear src start = some (value, finish)) :
    minimumYear ≤ value.year ∧ value.year ≤ maximumYear ∧
      value = { this with year := value.year } := by
  obtain ⟨-, year, -, least, most, rfl, -⟩ := parseYear_iff.mp parsed
  exact ⟨least, most, rfl⟩

theorem parseMonth_some (parsed : this.parseMonth src start = some (value, finish)) :
    ValidMonth value ∧
      value = { this with year := value.year, month := value.month, type := .month } := by
  obtain ⟨read, index, year, -, month, -, positive, most, limits, rfl, -⟩ :=
    parseMonth_iff.mp parsed
  obtain ⟨yearLeast, yearMost, same⟩ := parseYear_some year
  refine ⟨⟨yearLeast, yearMost, by dsimp only; omega, by dsimp only; omega, limits⟩, ?_⟩
  rw [same]

theorem parseDate_some (parsed : this.parseDate src start = some (value, finish)) :
    ValidDate value ∧ value = { this with
      year := value.year, month := value.month, monthDay := value.monthDay, type := .date } := by
  obtain ⟨read, index, month, -, day, -, positive, most, limits, rfl, -⟩ :=
    parseDate_iff.mp parsed
  obtain ⟨valid, same⟩ := parseMonth_some month
  have months : ValidMonth { read with monthDay := (day : Int), type := .date } :=
    ⟨valid.year_ge, valid.year_le, valid.month_ge, valid.month_le, valid.limits⟩
  refine ⟨⟨months, by dsimp only; omega, most, limits⟩, ?_⟩
  rw [same]

theorem parseWeek_some (parsed : this.parseWeek src start = some (value, finish)) :
    ValidWeek value ∧
      value = { this with year := value.year, week := value.week, type := .week } := by
  obtain ⟨read, index, year, -, -, week, -, least, most, limits, rfl, -⟩ :=
    parseWeek_iff.mp parsed
  obtain ⟨yearLeast, yearMost, same⟩ := parseYear_some year
  refine ⟨⟨yearLeast, yearMost, least, most, limits⟩, ?_⟩
  rw [same]

/-! ## Times -/

/-- A text of two numbers and a colon, one after another. -/
theorem Reads.join {text more : List UChar} (reads : Reads src index text rest)
    {behind : List UChar} (next : Reads src (index + text.length) more behind) :
    Reads src index (text ++ more) behind := by
  rw [Reads, ← List.drop_drop, reads, List.drop_left] at next
  rw [Reads, reads, next, List.append_assoc]

theorem toInt_lt {length n : Nat} (read : toInt src start length = some n) : n < 10 ^ length := by
  obtain ⟨digits, rest, rfl, -, -, rfl⟩ := toInt_some read
  exact numeral_lt digits

theorem parseFraction_lt (src : List UChar) (index : Nat) : (parseFraction src index).1 ≤ 999 := by
  have digits (start length : Nat) : (toInt src start length).getD 0 < 10 ^ length := by
    cases read : toInt src start length with
    | none => exact Nat.pow_pos (by decide)
    | some n => exact toInt_lt read
  have one := digits (index + 1) 1
  have two := digits (index + 1) 2
  have three := digits (index + 1) 3
  unfold parseFraction
  dsimp only
  split_ifs <;> dsimp only <;> omega

/-- The text of a time whose seconds are no seconds: two digits that denote 60 or more. -/
def SecondsTooLarge (src : List UChar) (start : Nat) : Prop :=
  ∃ (hour minute second : Nat) (rest : List UChar), hour ≤ 23 ∧ minute ≤ 59 ∧ 60 ≤ second ∧
    second ≤ 99 ∧ Reads src start (formatNumber 2 hour ++ ascii ":" ++ formatNumber 2 minute ++
      ascii ":" ++ formatNumber 2 second) rest

theorem parseSeconds_cases (src : List UChar) (index : Nat) :
    ((parseSeconds src index).1 ≤ 59 ∧ (parseSeconds src index).2.1 ≤ 999) ∨
      ∃ second, src[index]? = some 0x3A ∧ toInt src (index + 1) 2 = some second ∧ 60 ≤ second ∧
        parseSeconds src index = (second, 0, index) := by
  unfold parseSeconds
  split
  case isFalse => exact .inl ⟨Nat.zero_le _, Nat.zero_le _⟩
  case isTrue colon =>
    cases read : toInt src (index + 1) 2 with
    | none => exact .inl ⟨Nat.zero_le _, Nat.zero_le _⟩
    | some second =>
      dsimp only
      split
      case isTrue small => exact .inl ⟨small, parseFraction_lt _ _⟩
      case isFalse large => exact .inr ⟨second, colon.2, rfl, by omega, rfl⟩

theorem reads_two {n : Nat} (read : toInt src index 2 = some n) :
    ∃ rest, Reads src index (formatNumber 2 n) rest :=
  ((toInt_iff (by decide) (by decide)).mp read).2

/-- A time has valid fields, unless its seconds are too large; then the parser stops in front of
them. -/
theorem parseTime_some (parsed : this.parseTime src start = some (value, finish)) :
    value = { this with
      hour := value.hour, minute := value.minute, second := value.second,
      millisecond := value.millisecond, type := .time } ∧
    (ValidTime value ∨ SecondsTooLarge src start ∧ src[finish]? = some 0x3A ∧
      60 ≤ value.second) := by
  obtain ⟨hour, minute, second, millisecond, hourRead, hourLe, colon, minuteRead, minuteLe, seconds,
    rfl⟩ := parseTime_iff.mp parsed
  refine ⟨rfl, ?_⟩
  rcases parseSeconds_cases src (start + 5) with ⟨secondLe, millisecondLe⟩ |
    ⟨large, nextColon, secondRead, secondGe, stopped⟩
  · rw [seconds] at secondLe millisecondLe
    dsimp only at secondLe millisecondLe
    left
    constructor <;> dsimp only <;> omega
  · rw [seconds, Prod.mk.injEq, Prod.mk.injEq] at stopped
    obtain ⟨rfl, rfl, rfl⟩ := stopped
    right
    refine ⟨⟨hour, minute, second, ?_⟩, nextColon, by dsimp only; omega⟩
    obtain ⟨behindHour, hourText⟩ := reads_two hourRead
    obtain ⟨behindMinute, minuteText⟩ := reads_two minuteRead
    obtain ⟨behindSecond, secondText⟩ := reads_two secondRead
    have colonText : Reads src (start + 2) (ascii ":") _ := reads_of_getElem? colon
    have nextColonText : Reads src (start + 5) (ascii ":") _ := reads_of_getElem? nextColon
    have lengthHour := length_two hour (by omega) (by omega)
    have lengthMinute := length_two minute (by omega) (by omega)
    have lengthColon : (ascii ":").length = 1 := rfl
    have below := toInt_lt secondRead
    have first := hourText.join (by rw [lengthHour]; exact colonText)
    have whole := first.join (by rw [List.length_append, lengthHour, lengthColon]; exact minuteText)
    have behind := whole.join (by
      rw [List.length_append, List.length_append, lengthHour, lengthColon, lengthMinute]
      exact nextColonText)
    refine ⟨behindSecond, hourLe, minuteLe, secondGe, by omega, behind.join ?_⟩
    simp only [List.length_append, lengthHour, lengthColon, lengthMinute]
    exact secondText

/-! ## Moved dates -/

theorem exists_hasDate (valid : ValidDate value) : ∃ date, HasDate value date := by
  obtain ⟨month, monthEq⟩ := Int.eq_ofNat_of_zero_le valid.month_ge
  have inYear : month < 12 := by
    have := valid.month_le
    omega
  have inMonth := valid.day_le
  have counted := valid.day_ge
  rw [monthEq, maxDayOfMonth_eq _ inYear] at inMonth
  refine ⟨⟨value.year, month, value.monthDay.toNat, inYear, by omega, by omega⟩, rfl, monthEq, ?_⟩
  dsimp only
  omega

/-- The last date of the limits. -/
def lastDate : CivilDate := ⟨275760, 8, 13, by decide, by decide, by decide⟩

/-- From 0001-01-01 to 275760-09-13. -/
def InLimits (date : CivilDate) : Prop :=
  minimumYear ≤ date.year ∧ date.number ≤ lastDate.number

/-- What the parser of a date checks. -/
theorem validDate_iff (dated : HasDate value date) : ValidDate value ↔ InLimits date := by
  have year := dated.year
  have month := dated.month
  have monthDay := dated.monthDay
  have inYear := date.month_lt
  have inMonth := date.day_le
  have counted := date.day_pos
  unfold InLimits
  rw [CivilDate.number_le_iff]
  dsimp only [lastDate]
  constructor
  · intro valid
    have limits := withinHTMLMonthLimits_iff.mp valid.limits
    have dateLimits := withinHTMLDateLimits_iff.mp valid.dateLimits
    have most := valid.year_le
    unfold maximumYear maximumMonthInMaximumYear at *
    unfold maximumDayInMaximumMonth at dateLimits
    omega
  · rintro ⟨least, order⟩
    refine ⟨⟨by omega, ?_, by omega, by omega, withinHTMLMonthLimits_iff.mpr ?_⟩, by omega, ?_,
      withinHTMLDateLimits_iff.mpr ?_⟩
    · unfold maximumYear
      omega
    · unfold maximumYear maximumMonthInMaximumYear
      omega
    · rw [year, month, maxDayOfMonth_eq _ inYear]
      omega
    · unfold maximumYear maximumMonthInMaximumYear maximumDayInMaximumMonth
      omega

/-- A day behind the last date is still in the last month. -/
theorem month_of_number_le {later : CivilDate} (near : later.number ≤ lastDate.number + 1) :
    later.year < maximumYear ∨ later.year = maximumYear ∧ later.month ≤ 8 := by
  have tomorrow : lastDate.next.number = lastDate.number + 1 := CivilDate.number_next _
  rw [← tomorrow, CivilDate.number_le_iff] at near
  have next : lastDate.next.year = 275760 ∧ lastDate.next.month = 8 := by decide
  unfold maximumYear
  omega

/-- A date and a time that pass the last check of the parser are valid when they lie at most a day
behind the limits. -/
theorem validDateTime_of_near (later : CivilDate) (dated : HasDate value later)
    (near : later.number ≤ lastDate.number + 1) (time : ValidTime value)
    (limits : withinHTMLDateTimeLimits value.year value.month value.monthDay value.hour
      value.minute value.second value.millisecond) : ValidDateTime value := by
  have last := month_of_number_le near
  have inYear := later.month_lt
  have inMonth := later.day_le
  have counted := later.day_pos
  have checked := withinHTMLDateTimeLimits_iff.mp limits
  have year := dated.year
  have month := dated.month
  have day := dated.monthDay
  have months : ValidMonth value := by
    refine ⟨checked.1, by omega, by omega, by omega, withinHTMLMonthLimits_iff.mpr ?_⟩
    unfold maximumMonthInMaximumYear
    omega
  refine ⟨⟨months, by omega, ?_, withinHTMLDateLimits_iff.mpr (by omega)⟩, time, limits⟩
  rw [year, month, maxDayOfMonth_eq _ inYear]
  omega

theorem parseTimeZone_utc (utc : src[start]? = some 0x5A) :
    this.parseTimeZone src start = some (this, start + 1) :=
  parseTimeZone_iff.mpr (.inl ⟨utc, rfl, rfl⟩)

/-- A time zone moves the value by less than a day. -/
theorem parseTimeZone_some {moved : DateComponents} (dated : HasDate this date)
    (hour_ge : 0 ≤ this.hour) (hour_le : this.hour ≤ 23) (minute_ge : 0 ≤ this.minute)
    (minute_le : this.minute ≤ 59)
    (parsed : this.parseTimeZone src start = some (moved, finish)) :
    ∃ offset later, MovedBy this date offset moved later ∧ -1440 < offset ∧ offset < 1440 := by
  rcases parseTimeZone_iff.mp parsed with ⟨-, rfl, -⟩ |
    ⟨minus, hour, minute, -, -, hourLe, -, -, minuteLe, added, -⟩
  · exact ⟨0, date, movedBy_sameDay dated (by omega) hour_ge hour_le minute_ge minute_le,
      by decide, by decide⟩
  · obtain ⟨later, movedBy⟩ := addMinute_some dated hour_ge hour_le added
    refine ⟨_, later, movedBy, ?_, ?_⟩ <;> split <;> omega

/-! ## The round trip -/

/-- The parser of a type. -/
def parse : ComponentsType → DateComponents → List UChar → Nat → Option (DateComponents × Nat)
  | .invalid => fun _ _ _ => none
  | .date => parseDate
  | .dateTime => parseDateTime
  | .dateTimeLocal => parseDateTimeLocal
  | .month => parseMonth
  | .time => parseTime
  | .week => parseWeek

/-- The value read at a place of a text is written as a text that is read whole, as the same
value. -/
def RoundTrips (type : ComponentsType) (this : DateComponents) (src : List UChar) (start : Nat) :
    Prop :=
  ∀ value finish, parse type this src start = some (value, finish) → ∀ format,
    parse type this (value.toString format) 0 = some (value, (value.toString format).length)

theorem roundTrips_date (this : DateComponents) (src : List UChar) (start : Nat) :
    RoundTrips .date this src start := by
  intro value finish parsed format
  obtain ⟨valid, same⟩ := parseDate_some parsed
  have written : value.toString format = value.toStringForDate := by
    rw [toString, show value.type = .date by rw [same]]
  have again : this.parseDate value.toStringForDate 0 = _ := parseDate_text valid (reads_self _)
  rw [written, parse, again, Nat.zero_add, ← same]

theorem roundTrips_month (this : DateComponents) (src : List UChar) (start : Nat) :
    RoundTrips .month this src start := by
  intro value finish parsed format
  obtain ⟨valid, same⟩ := parseMonth_some parsed
  have written : value.toString format = value.toStringForMonth := by
    rw [toString, show value.type = .month by rw [same]]
  have again : this.parseMonth value.toStringForMonth 0 = _ := parseMonth_text valid (reads_self _)
  rw [written, parse, again, Nat.zero_add, ← same]

theorem roundTrips_week (this : DateComponents) (src : List UChar) (start : Nat) :
    RoundTrips .week this src start := by
  intro value finish parsed format
  obtain ⟨valid, same⟩ := parseWeek_some parsed
  have written : value.toString format =
      formatNumber 4 value.year ++ ascii "-W" ++ formatNumber 2 value.week := by
    rw [toString, show value.type = .week by rw [same]]
  have again : this.parseWeek
    (formatNumber 4 value.year ++ ascii "-W" ++ formatNumber 2 value.week) 0 = _ :=
      parseWeek_text valid (reads_self _)
  rw [written, parse, again, Nat.zero_add, ← same]

theorem stopsTime_nil : StopsTime [] := fun _ none => nomatch none

/-- The value is taken over whole when the week is no other. -/
theorem withDateTime_eq {type : ComponentsType} (week : value.week = this.week)
    (sameType : value.type = type) : this.withDateTime value type = value := by
  rw [withDateTime, ← week, ← sameType]

theorem parseDateTime_written (valid : ValidDateTime value) (type : value.type = .dateTime)
    (week : value.week = this.week) (format : SecondFormat) :
    this.parseDateTime (value.toString format) 0 =
      some (value, (value.toString format).length) := by
  have written : value.toString format = value.toStringForDate ++ ascii "T" ++
      value.toStringForTime format ++ ascii "Z" := by
    rw [toString, type]
  rw [written, parseDateTime_text valid (reads_self _), Nat.zero_add, withDateTime_eq week type]

theorem parseDateTimeLocal_written (valid : ValidDateTime value)
    (type : value.type = .dateTimeLocal) (week : value.week = this.week) (format : SecondFormat) :
    this.parseDateTimeLocal (value.toString format) 0 =
      some (value, (value.toString format).length) := by
  have written : value.toString format =
      value.toStringForDate ++ ascii "T" ++ value.toStringForTime format := by
    rw [toString, type]
  rw [written, parseDateTimeLocal_text valid (reads_self _) stopsTime_nil, Nat.zero_add,
    withDateTime_eq week type]

theorem roundTrips_dateTime (this : DateComponents) (src : List UChar) (start : Nat) :
    RoundTrips .dateTime this src start := by
  intro value finish parsed format
  obtain ⟨read, index, timed, zone, moved, date, -, time, zoned, limits, rfl⟩ :=
    parseDateTime_iff.mp parsed
  obtain ⟨dateValid, dateSame⟩ := parseDate_some date
  obtain ⟨timeSame, timeValid⟩ := parseTime_some time
  -- a colon is left in front of seconds that are too large, and is no time zone
  have valid : ValidTime timed := by
    rcases timeValid with valid | ⟨-, colon, -⟩
    · exact valid
    · rcases parseTimeZone_iff.mp zoned with ⟨utc, -⟩ | ⟨minus, -, -, sign, -⟩
      · rw [colon] at utc
        cases utc
      · rw [colon] at sign
        cases minus <;> cases sign
  obtain ⟨civil, dated⟩ := exists_hasDate dateValid
  have near := ((validDate_iff dated).mp dateValid).2
  have datedTime : HasDate timed civil := by
    rw [timeSame]
    exact ⟨dated.year, dated.month, dated.monthDay⟩
  obtain ⟨offset, later, movedBy, least, most⟩ := parseTimeZone_some datedTime valid.hour_ge
    valid.hour_le valid.minute_ge valid.minute_le zoned
  have minutes := movedBy.minutes
  have fields := movedBy.fields
  unfold minuteNumber at minutes
  have hours := movedBy.hour_ge
  have hour_le := valid.hour_le
  have minute_le := valid.minute_le
  have minute_ge := movedBy.minute_ge
  have movedValid : ValidDateTime { moved with type := .dateTime } := by
    refine validDateTime_of_near later ?_ (by omega) ?_ limits
    · rw [fields]
      exact ⟨rfl, rfl, rfl⟩
    · rw [fields]
      exact ⟨movedBy.hour_ge, movedBy.hour_le, movedBy.minute_ge, movedBy.minute_le,
        valid.second_ge, valid.second_le, valid.millisecond_ge, valid.millisecond_le⟩
  have week : moved.week = this.week := by
    rw [fields, timeSame, dateSame]
  exact parseDateTime_written movedValid rfl week format

/-! ## Seconds that are too large -/

/-- The parser stops in front of the seconds, but keeps them. -/
theorem parseTime_tooLarge (tooLarge : SecondsTooLarge src start) :
    ∃ (hour minute second : Nat), hour ≤ 23 ∧ minute ≤ 59 ∧ 60 ≤ second ∧ second ≤ 99 ∧
      this.parseTime src start = some ({ this with
        hour := hour, minute := minute, second := second, millisecond := 0, type := .time },
        start + 5) := by
  obtain ⟨hour, minute, second, rest, hourLe, minuteLe, secondGe, secondLe, reads⟩ := tooLarge
  have lengthHour := length_two hour (by omega) (by omega)
  have lengthMinute := length_two minute (by omega) (by omega)
  have lengthSecond := length_two second (by omega) (by omega)
  have lengthColon : (ascii ":").length = 1 := rfl
  have inside := reads.length_le (by simp [ascii])
  have colon := reads.append.append.append.advance.head
  have nextColon := reads.append.advance.head
  have hourRead := toInt_two reads.append.append.append.append (by omega) (by omega)
  have minuteRead := toInt_two reads.append.append.advance (by omega) (by omega)
  have secondRead := toInt_two reads.advance (by omega) (by omega)
  simp only [List.length_append, lengthHour, lengthMinute, lengthSecond, lengthColon,
    Int.toNat_natCast] at inside colon nextColon hourRead minuteRead secondRead
  refine ⟨hour, minute, second, hourLe, minuteLe, secondGe, secondLe,
    parseTime_iff.mpr ⟨hour, minute, second, 0, hourRead, hourLe, colon, minuteRead, minuteLe, ?_,
      rfl⟩⟩
  have large : ¬ second ≤ 59 := by omega
  rw [parseSeconds, if_pos ⟨by omega, nextColon⟩, show start + 5 + 1 = start + 6 from rfl,
    secondRead]
  simp only [if_neg large]

/-- Seconds are written when they are not zero. -/
theorem toStringForTime_seconds (fraction : value.millisecond = 0) (whole : value.second ≠ 0) :
    value.toStringForTime .none = formatNumber 2 value.hour ++ ascii ":" ++
      formatNumber 2 value.minute ++ ascii ":" ++ formatNumber 2 value.second := by
  simp [toStringForTime, fraction, whole]

theorem roundTrips_time_iff (this : DateComponents) (src : List UChar) (start : Nat) :
    RoundTrips .time this src start ↔ ¬ SecondsTooLarge src start := by
  constructor
  · intro trips tooLarge
    obtain ⟨hour, minute, second, hourLe, minuteLe, secondGe, secondLe, parsed⟩ :=
      @parseTime_tooLarge src start this tooLarge
    have again := trips _ _ parsed .none
    have text := @toStringForTime_seconds { this with
      hour := hour, minute := minute, second := second, millisecond := 0, type := .time } rfl
      (show (second : Int) ≠ 0 by omega)
    -- the text has the same seconds, and the parser stops in front of them again
    rw [parse, toString, text] at again
    obtain ⟨_, _, _, -, -, -, -, stopped⟩ := @parseTime_tooLarge _ 0 this
      ⟨hour, minute, second, [], hourLe, minuteLe, secondGe, secondLe, reads_self _⟩
    have finish := congrArg Prod.snd (Option.some.inj (stopped.symm.trans again))
    simp only [List.length_append, length_two hour (by omega) (by omega),
      length_two minute (by omega) (by omega), length_two second (by omega) (by omega)] at finish
    omega
  · intro small value finish parsed format
    obtain ⟨same, valid⟩ := parseTime_some parsed
    have valid := valid.resolve_right fun large => small large.1
    have written : value.toString format = value.toStringForTime format := by
      rw [toString, show value.type = .time by rw [same]]
    have again : this.parseTime (value.toStringForTime format) 0 = _ :=
      parseTime_text valid (reads_self _) stopsTime_nil
    rw [written, parse, again, Nat.zero_add, ← same]

/-! ## The text of a date -/

/-- At least four digits of a year and two each of a month and a day, of a date that exists. -/
def DateTextAt (src : List UChar) (start finish : Nat) (date : CivilDate) : Prop :=
  ∃ (digits : List (Fin 10)) (rest : List UChar), 4 ≤ digits.length ∧
    (numeral digits : Int) = date.year ∧
    Reads src start (digits.map digitChar ++ ascii "-" ++ formatNumber 2 (date.month + 1) ++
      ascii "-" ++ formatNumber 2 date.day) rest ∧
    finish = start + digits.length + 6

theorem hasDate_withDate (this : DateComponents) (date : CivilDate) (type : ComponentsType) :
    HasDate (this.withDate date type) date := ⟨rfl, rfl, rfl⟩

theorem length_dash : (ascii "-").length = 1 := rfl

theorem length_letter : (ascii "T").length = 1 := rfl

theorem length_colon : (ascii ":").length = 1 := rfl

/-- The text that a date was read from. -/
theorem dateTextAt_of_parseDate (parsed : this.parseDate src start = some (value, finish)) :
    ∃ date, DateTextAt src start finish date ∧ InLimits date ∧
      value = this.withDate date .date := by
  obtain ⟨valid, same⟩ := parseDate_some parsed
  obtain ⟨date, dated⟩ := exists_hasDate valid
  refine ⟨date, ?_, (validDate_iff dated).mp valid, ?_⟩
  · obtain ⟨read, index, monthParsed, nextDash, day, dayRead, -, -, -, rfl, rfl⟩ :=
      parseDate_iff.mp parsed
    obtain ⟨yearly, yearEnd, yearParsed, dash, month, monthRead, -, monthLe, -, rfl, rfl⟩ :=
      parseMonth_iff.mp monthParsed
    obtain ⟨enough, year, yearRead, -, -, rfl, rfl⟩ := parseYear_iff.mp yearParsed
    obtain ⟨digits, behindYear, counted, -, yearText, rfl⟩ := toInt_some yearRead
    obtain ⟨behindMonth, monthText⟩ := reads_two monthRead
    obtain ⟨behindDay, dayText⟩ := reads_two dayRead
    have dashText : Reads src (start + countDigits src start) (ascii "-") _ :=
      reads_of_getElem? dash
    have nextDashText : Reads src (start + countDigits src start + 3) (ascii "-") _ :=
      reads_of_getElem? nextDash
    have lengthMonth := length_two month (by omega) (by omega)
    have monthEq : (date.month : Int) + 1 = month := by
      have := dated.month
      dsimp only at this
      omega
    have dayEq : (date.day : Int) = day := dated.monthDay.symm
    rw [← counted] at enough dashText nextDashText monthText dayText ⊢
    refine ⟨digits, behindDay, enough, dated.year, ?_, by omega⟩
    rw [monthEq, dayEq]
    have first := yearText.join (by rw [List.length_map]; exact dashText)
    have second := first.join (by
      rw [List.length_append, List.length_map, length_dash]
      exact monthText)
    have third := second.join (by
      rw [List.length_append, List.length_append, List.length_map, length_dash, lengthMonth]
      exact nextDashText)
    refine third.join ?_
    simp only [List.length_append, List.length_map, length_dash, lengthMonth]
    exact dayText
  · rw [same, withDate, dated.year, dated.month, dated.monthDay]

/-- A date within the limits is read from its text. -/
theorem parseDate_of_textAt (text : DateTextAt src start finish date) (inside : InLimits date) :
    this.parseDate src start = some (this.withDate date .date, finish) := by
  obtain ⟨digits, rest, enough, year, reads, rfl⟩ := text
  have valid := (validDate_iff (hasDate_withDate this date .date)).mpr inside
  have inYear := date.month_lt
  have inMonth := valid.day_le
  have most := maxDayOfMonth_le (this.withDate date .date).year (this.withDate date .date).month
  have counted := date.day_pos
  dsimp only [withDate] at inMonth most
  have least := inside.1
  have yearMost := valid.year_le
  dsimp only [withDate, maximumYear] at yearMost
  have lengthMonth := length_two (date.month + 1) (by omega) (by omega)
  have yearText := reads.append.append.append.append
  have dash := reads.append.append.append.advance.head
  have monthText := reads.append.append.advance
  have nextDash := reads.append.advance.head
  have dayText := reads.advance
  simp only [List.length_append, List.length_map, length_dash,
    lengthMonth] at dash monthText nextDash dayText
  have stops := countDigits_digits yearText (by rintro c ⟨⟩; rfl)
  have nonempty : digits ≠ [] := List.length_pos_iff.mp (by omega)
  have yearRead := toInt_digits yearText nonempty (by unfold intMax; omega)
  rw [← stops] at yearRead
  have monthRead := toInt_two monthText (by omega) (by omega)
  have dayRead := toInt_two dayText (by omega) (by omega)
  have yearParsed : this.parseYear src start =
      some ({ this with year := date.year }, start + digits.length) := by
    refine parseYear_iff.mpr ⟨by omega, _, yearRead, by omega, ?_, by rw [year], by rw [stops]⟩
    unfold maximumYear
    omega
  have monthBack : (((date.month : Int) + 1).toNat : Int) - 1 = date.month := by omega
  have dayBack : ((date.day : Int).toNat : Int) = date.day := by omega
  have monthParsed : this.parseMonth src start = some ({ this with
      year := date.year, month := date.month, type := .month }, start + digits.length + 3) := by
    refine parseMonth_iff.mpr ⟨_, _, yearParsed, dash, _, monthRead, by omega, by omega, ?_, ?_,
      rfl⟩
    · rw [monthBack]
      exact valid.limits
    · rw [monthBack]
  refine parseDate_iff.mpr ⟨_, _, monthParsed, nextDash, _, dayRead, by omega, ?_, ?_, ?_, rfl⟩
  · rw [dayBack]
    exact inMonth
  · rw [dayBack]
    exact valid.dateLimits
  · rw [dayBack]
    rfl

/-! ## Local dates and times -/

/-- The text of a date before the last one, with a time whose seconds are too large. -/
def LocalSecondsTooLarge (src : List UChar) (start : Nat) : Prop :=
  ∃ date index, DateTextAt src start index date ∧ minimumYear ≤ date.year ∧
    date.number < lastDate.number ∧ src[index]? = some 0x54 ∧ SecondsTooLarge src (index + 1)

/-- With seconds behind it, a time is within the limits on the dates before the last. -/
theorem withinHTMLDateTimeLimits_seconds {hour minute second millisecond : Int}
    (inside : InLimits date) (some : second ≠ 0) :
    withinHTMLDateTimeLimits date.year date.month date.day hour minute second millisecond = true ↔
      date.number < lastDate.number := by
  have least := inside.1
  have lexicographic := CivilDate.number_le_iff.mp inside.2
  have before : date.number < lastDate.number ↔ ¬ lastDate.number ≤ date.number := by omega
  rw [withinHTMLDateTimeLimits_iff, before, CivilDate.number_le_iff]
  dsimp only [lastDate] at lexicographic ⊢
  unfold maximumYear maximumMonthInMaximumYear maximumDayInMaximumMonth
  omega

/-- Such a text is taken, up to the seconds. -/
theorem parseDateTimeLocal_tooLarge {date : CivilDate} (text : DateTextAt src start index date)
    (least : minimumYear ≤ date.year) (before : date.number < lastDate.number)
    (time : src[index]? = some 0x54) (tooLarge : SecondsTooLarge src (index + 1)) :
    ∃ (hour minute second : Nat), hour ≤ 23 ∧ minute ≤ 59 ∧ 60 ≤ second ∧ second ≤ 99 ∧
      this.parseDateTimeLocal src start = some ({ this.withDate date .dateTimeLocal with
        hour := hour, minute := minute, second := second, millisecond := 0 }, index + 6) := by
  have inside : InLimits date := ⟨least, by omega⟩
  obtain ⟨hour, minute, second, hourLe, minuteLe, secondGe, secondLe, timed⟩ :=
    @parseTime_tooLarge _ _ (this.withDate date .date) tooLarge
  have some : (second : Int) ≠ 0 := by omega
  exact ⟨hour, minute, second, hourLe, minuteLe, secondGe, secondLe,
    parseDateTimeLocal_iff.mpr ⟨_, _, _, parseDate_of_textAt text inside, time, timed,
      (withinHTMLDateTimeLimits_seconds inside some).mpr before, rfl⟩⟩

/-- A date is written as such a text. -/
theorem dateTextAt_written (dated : HasDate value date) (inside : InLimits date)
    (reads : Reads src start value.toStringForDate rest) :
    DateTextAt src start (start + value.toStringForDate.length) date := by
  have least := inside.1
  have valid := (validDate_iff dated).mpr inside
  have monthLe := valid.month_le
  have monthGe := valid.month_ge
  have dayGe := valid.day_ge
  have dayLe := Int.le_trans valid.day_le (maxDayOfMonth_le _ _)
  unfold minimumYear at least
  obtain ⟨year, yearEq⟩ := Int.eq_ofNat_of_zero_le (show 0 ≤ value.year by
    have := dated.year
    omega)
  have yearText := formatNumber_natCast 4 year
  have long := length_paddedDigits 4 year
  rw [toStringForDate, toStringForMonth, yearEq, yearText] at reads ⊢
  refine ⟨paddedDigits 4 year, rest, by omega, ?_, ?_, ?_⟩
  · rw [numeral_paddedDigits, ← dated.year, yearEq]
  · rw [← dated.month, ← dated.monthDay]
    exact reads
  · simp only [List.length_append, List.length_map, length_dash,
      length_two (value.month + 1) (by omega) (by omega),
      length_two value.monthDay (by omega) (by omega)]
    omega

theorem roundTrips_dateTimeLocal_iff (this : DateComponents) (src : List UChar) (start : Nat) :
    RoundTrips .dateTimeLocal this src start ↔ ¬ LocalSecondsTooLarge src start := by
  constructor
  · rintro trips ⟨date, index, text, least, before, time, tooLarge⟩
    obtain ⟨hour, minute, second, hourLe, minuteLe, secondGe, secondLe, parsed⟩ :=
      @parseDateTimeLocal_tooLarge _ _ _ this _ text least before time tooLarge
    have again := trips _ _ parsed .none
    have inside : InLimits date := ⟨least, by omega⟩
    generalize valueEq : ({ this.withDate date .dateTimeLocal with
      hour := hour, minute := minute, second := second, millisecond := 0 } : DateComponents) =
      value at again
    have dated : HasDate value date := by
      rw [← valueEq]
      exact ⟨rfl, rfl, rfl⟩
    have written : value.toString .none = value.toStringForDate ++ ascii "T" ++
        (formatNumber 2 hour ++ ascii ":" ++ formatNumber 2 minute ++ ascii ":" ++
          formatNumber 2 second) := by
      have seconds := @toStringForTime_seconds value (by rw [← valueEq])
        (by rw [← valueEq]; dsimp only; omega)
      rw [toString, seconds, ← valueEq]
      rfl
    -- the date is read whole, and then the parser stops in front of the seconds again
    have reads := reads_self (value.toString .none)
    rw [written] at reads
    have timeText := reads.advance
    rw [List.length_append, length_letter, ← Nat.add_assoc] at timeText
    obtain ⟨_, _, _, -, -, -, -, stopped⟩ := @parseDateTimeLocal_tooLarge _ _ _ this date
      (dateTextAt_written dated inside reads.append.append) least before
      reads.append.advance.head ⟨hour, minute, second, _, hourLe, minuteLe, secondGe, secondLe,
        timeText⟩
    rw [parse, written] at again
    have finish := congrArg Prod.snd (Option.some.inj (stopped.symm.trans again))
    simp only [List.length_append, length_two hour (by omega) (by omega),
      length_two minute (by omega) (by omega), length_two second (by omega) (by omega),
      length_letter, length_colon] at finish
    omega
  · intro small value finish parsed format
    obtain ⟨read, index, timed, dateParsed, time, timeParsed, limits, rfl⟩ :=
      parseDateTimeLocal_iff.mp parsed
    obtain ⟨dateValid, dateSame⟩ := parseDate_some dateParsed
    obtain ⟨timeSame, timeValid⟩ := parseTime_some timeParsed
    obtain ⟨date, text, inside, readSame⟩ := dateTextAt_of_parseDate dateParsed
    have dated : HasDate timed date := by
      rw [timeSame, readSame]
      exact ⟨rfl, rfl, rfl⟩
    have week : timed.week = this.week := by
      rw [timeSame, dateSame]
    have valid : ValidTime timed := by
      refine timeValid.resolve_right fun late => small ?_
      obtain ⟨tooLarge, _, secondGe⟩ := late
      rw [dated.year, dated.month, dated.monthDay,
        withinHTMLDateTimeLimits_seconds inside (by omega)] at limits
      exact ⟨date, index, text, inside.1, limits, time, tooLarge⟩
    have both : ValidDateTime { timed with type := .dateTimeLocal } := by
      refine validDateTime_of_near date ⟨dated.year, dated.month, dated.monthDay⟩ ?_ ?_ limits
      · have near := inside.2
        omega
      · exact ⟨valid.hour_ge, valid.hour_le, valid.minute_ge, valid.minute_le,
          valid.second_ge, valid.second_le, valid.millisecond_ge, valid.millisecond_le⟩
    exact parseDateTimeLocal_written both rfl week format

/-! ## Offsets -/

/-- A text of a date, a time and an offset, with the numbers its digits denote. -/
structure ZonedText where
  year : List (Fin 10)
  month : Fin 100
  day : Fin 100
  hour : Fin 100
  minute : Fin 100
  /-- The optional seconds with the digits of their fraction. -/
  seconds : Option (Fin 100 × List (Fin 10))
  minus : Bool
  zoneHour : Fin 100
  zoneMinute : Fin 100

namespace ZonedText

variable {zoned : ZonedText} {moved : DateComponents} {behind : Nat}

def dateText (zoned : ZonedText) : List UChar :=
  zoned.year.map digitChar ++ ascii "-" ++ formatNumber 2 zoned.month ++ ascii "-" ++
    formatNumber 2 zoned.day

def fractionText (fraction : List (Fin 10)) : List UChar :=
  if fraction = [] then [] else ascii "." ++ fraction.map digitChar

def secondsText : Option (Fin 100 × List (Fin 10)) → List UChar
  | none => []
  | some (second, fraction) => ascii ":" ++ formatNumber 2 second ++ fractionText fraction

def timeText (zoned : ZonedText) : List UChar :=
  formatNumber 2 zoned.hour ++ ascii ":" ++ formatNumber 2 zoned.minute ++
    secondsText zoned.seconds

def sign (minus : Bool) : UChar := if minus then 0x2D else 0x2B

def zoneText (zoned : ZonedText) : List UChar :=
  [sign zoned.minus] ++ formatNumber 2 zoned.zoneHour ++ ascii ":" ++
    formatNumber 2 zoned.zoneMinute

def text (zoned : ZonedText) : List UChar :=
  zoned.dateText ++ ascii "T" ++ zoned.timeText ++ zoned.zoneText

/-- The text names a date. -/
def Names (zoned : ZonedText) (date : CivilDate) : Prop :=
  date.year = numeral zoned.year ∧ date.month + 1 = (zoned.month : Nat) ∧
    date.day = (zoned.day : Nat)

/-- The thousandths that the digits of a fraction begin with. -/
def thousandths (fraction : List (Fin 10)) : Nat := numeral ((fraction ++ [0, 0, 0]).take 3)

/-- The milliseconds of the seconds. -/
def timeOfMinute : Option (Fin 100 × List (Fin 10)) → Int
  | none => 0
  | some (second, fraction) => second * 1000 + thousandths fraction

/-- The milliseconds of the local time since midnight. -/
def timeOfDay (zoned : ZonedText) : Int :=
  (zoned.hour * 60 + zoned.minute) * 60000 + timeOfMinute zoned.seconds

/-- The milliseconds of the offset. -/
def offset (zoned : ZonedText) : Int :=
  (if zoned.minus then -1 else 1) * (zoned.zoneHour * 60 + zoned.zoneMinute) * 60000

theorem digitChar_injective : Function.Injective digitChar := by
  intro d e same
  have value := congrArg (fun c => c.toNat - 0x30) same
  simp only [digitChar_value] at value
  exact Fin.ext value

/-- Digits that are read are read as their number. -/
theorem toInt_of_reads {digits : List (Fin 10)} {n : Nat}
    (reads : Reads src start (digits.map digitChar) rest)
    (read : toInt src start digits.length = some n) : n = numeral digits := by
  obtain ⟨others, behind, lengths, -, text, rfl⟩ := toInt_some read
  have same := reads.symm.trans text
  have digitsSame := (List.append_inj same (by rw [List.length_map, List.length_map, lengths])).1
  rw [List.map_injective_iff.mpr digitChar_injective digitsSame]

theorem parseFraction_digits {fraction : List (Fin 10)}
    (reads : Reads src index (ascii "." ++ fraction.map digitChar) rest) (some : fraction ≠ [])
    (stops : StopsTime rest) :
    parseFraction src index = (thousandths fraction, index + 1 + fraction.length) := by
  have digits := reads.advance
  rw [show (ascii ".").length = 1 from rfl] at digits
  have counted := countDigits_digits digits fun c first => (stops c first).2.2
  have dot : src[index]? = Option.some 0x2E := reads.append.head
  have read (part more : List (Fin 10)) (split : fraction = part ++ more) (nonempty : part ≠ [])
      (few : part.length ≤ 3) : toInt src (index + 1) part.length = numeral part := by
    have text : Reads src (index + 1) (part.map digitChar) (more.map digitChar ++ rest) := by
      rw [Reads, digits, split, List.map_append, List.append_assoc]
    have small := numeral_lt part
    have power : 10 ^ part.length ≤ 10 ^ 3 := Nat.pow_le_pow_right (by decide) few
    exact toInt_digits text nonempty (by unfold intMax; omega)
  rw [parseFraction, if_pos dot, counted]
  rcases fraction with _ | ⟨a, _ | ⟨b, _ | ⟨c, more⟩⟩⟩
  · exact absurd rfl some
  · have one := read [a] [] rfl (by simp) (by simp)
    simp only [List.length_singleton] at one ⊢
    simp [one, thousandths, numeral]
    omega
  · have two := read [a, b] [] rfl (by simp) (by simp)
    simp only [List.length_cons, List.length_nil] at two ⊢
    simp [two, thousandths, numeral]
  · have three := read [a, b, c] more rfl (by simp) (by simp)
    simp only [List.length_cons, List.length_nil] at three ⊢
    simp [three, thousandths, numeral]

theorem parseSeconds_none (stops : StopsTime rest) (reads : Reads src index [] rest) :
    parseSeconds src index = (0, 0, index) := by
  have noColon : src[index]? ≠ some 0x3A := by
    rw [reads.getElem?]
    intro colon
    exact (stops _ colon).1 rfl
  rw [parseSeconds, if_neg fun both => noColon both.2]

/-- The seconds of a text are read, unless they are too large. -/
theorem parseSeconds_some {second : Fin 100} {fraction : List (Fin 10)}
    (reads : Reads src index (secondsText (some (second, fraction))) rest)
    (stops : StopsTime rest) :
    parseSeconds src index =
      if (second : Nat) ≤ 59 then
        ((second : Nat), thousandths fraction,
          index + (secondsText (some (second, fraction))).length)
      else ((second : Nat), 0, index) := by
  have small : (second : Int) ≤ 99 := by omega
  have lengthSecond := length_two (second : Int) (by omega) small
  have secondRead := toInt_two reads.append.advance (by omega) small
  have inside := reads.length_le (by simp [secondsText, ascii])
  simp only [secondsText, List.length_append, lengthSecond, length_colon] at inside ⊢
  rw [length_colon] at secondRead
  rw [parseSeconds, if_pos ⟨by omega, reads.append.append.head⟩, secondRead]
  simp only [Int.toNat_natCast]
  split
  case isFalse => rfl
  case isTrue =>
    have behind := reads.advance
    simp only [List.length_append, lengthSecond, length_colon] at behind
    unfold fractionText at behind ⊢
    split at behind
    case isTrue none =>
      have noDot : src[index + 3]? ≠ some 0x2E := by
        rw [behind.getElem?]
        intro dot
        exact (stops _ dot).2.1 rfl
      simp [parseFraction_none noDot, none, thousandths, numeral]
    case isFalse some =>
      rw [parseFraction_digits behind some stops, if_neg some, List.length_append,
        List.length_map, show (ascii ".").length = 1 from rfl]
      simp only [Prod.mk.injEq, true_and]
      omega

/-- Behind seconds that are too large there is no offset. -/
theorem parseSeconds_written {second millisecond : Nat}
    (seconds : Option (Fin 100 × List (Fin 10)))
    (reads : Reads src index (secondsText seconds) rest) (stops : StopsTime rest)
    (noColon : src[finish]? ≠ some 0x3A)
    (parsed : parseSeconds src index = (second, millisecond, finish)) :
    finish = index + (secondsText seconds).length ∧
      (1000 * second + millisecond : Int) = timeOfMinute seconds := by
  cases seconds with
  | none =>
    rw [parseSeconds_none stops reads, Prod.mk.injEq, Prod.mk.injEq] at parsed
    obtain ⟨rfl, rfl, rfl⟩ := parsed
    exact ⟨rfl, rfl⟩
  | some both =>
    obtain ⟨read, fraction⟩ := both
    rw [parseSeconds_some reads stops] at parsed
    split at parsed
    case isTrue =>
      rw [Prod.mk.injEq, Prod.mk.injEq] at parsed
      obtain ⟨rfl, rfl, rfl⟩ := parsed
      refine ⟨rfl, ?_⟩
      rw [timeOfMinute]
      omega
    case isFalse =>
      rw [Prod.mk.injEq, Prod.mk.injEq] at parsed
      obtain ⟨-, -, rfl⟩ := parsed
      exact absurd reads.append.append.head noColon

/-- The date that a text names is read. -/
theorem parseDate_written (reads : Reads src start zoned.dateText rest)
    (parsed : this.parseDate src start = some (value, finish)) :
    ∃ date, zoned.Names date ∧ InLimits date ∧ value = this.withDate date .date ∧
      finish = start + zoned.dateText.length := by
  obtain ⟨date, ⟨digits, behind, enough, year, text, rfl⟩, inside, same⟩ :=
    dateTextAt_of_parseDate parsed
  have valid := (validDate_iff (hasDate_withDate this date .date)).mpr inside
  have dayLe := Int.le_trans valid.day_le (maxDayOfMonth_le _ _)
  have inYear := date.month_lt
  have yearLe := valid.year_le
  dsimp only [withDate, maximumYear] at dayLe yearLe
  -- the digits end at the same dash
  have counted := countDigits_digits text.append.append.append.append (by rintro c ⟨⟩; rfl)
  have alsoCounted := countDigits_digits reads.append.append.append.append (by rintro c ⟨⟩; rfl)
  have yearRead := toInt_digits text.append.append.append.append
    (List.length_pos_iff.mp (by omega)) (by unfold intMax; omega)
  have lengths : digits.length = zoned.year.length := by rw [← counted, alsoCounted]
  rw [lengths] at yearRead
  have yearSame := toInt_of_reads reads.append.append.append.append yearRead
  have monthRead := toInt_two text.append.append.advance (by omega) (by omega)
  have alsoMonthRead := toInt_two reads.append.append.advance (by omega) (by omega)
  have lengthMonth := length_two (date.month + 1) (by omega) (by omega)
  have alsoLengthMonth := length_two (zoned.month : Int) (by omega) (by omega)
  have alsoLengthDay := length_two (zoned.day : Int) (by omega) (by omega)
  have dayRead := toInt_two text.advance (by omega) (by omega)
  have alsoDayRead := toInt_two reads.advance (by omega) (by omega)
  simp only [List.length_append, List.length_map, length_dash, lengthMonth, alsoLengthMonth,
    lengths] at monthRead alsoMonthRead dayRead alsoDayRead
  rw [alsoMonthRead, Option.some.injEq] at monthRead
  rw [alsoDayRead, Option.some.injEq] at dayRead
  refine ⟨date, ⟨by omega, by omega, by omega⟩, inside, same, ?_⟩
  simp only [dateText, List.length_append, List.length_map, length_dash, alsoLengthMonth,
    alsoLengthDay, lengths]
  omega

theorem sign_injective {minus other : Bool} (same : sign minus = sign other) : minus = other := by
  revert same
  cases minus <;> cases other <;> decide

theorem stopsTime_zone (zoned : ZonedText) (rest : List UChar) :
    StopsTime (zoned.zoneText ++ rest) := by
  rintro c ⟨⟩
  cases zoned.minus <;> decide

/-- The time that a text names is read, up to the sign of the offset. -/
theorem parseTime_written (reads : Reads src start zoned.timeText (zoned.zoneText ++ rest))
    (noColon : src[finish]? ≠ some 0x3A)
    (parsed : this.parseTime src start = some (value, finish)) :
    finish = start + zoned.timeText.length ∧ 0 ≤ value.hour ∧ value.hour ≤ 23 ∧
      60000 * (60 * value.hour + value.minute) + 1000 * value.second + value.millisecond =
        zoned.timeOfDay := by
  obtain ⟨hour, minute, second, millisecond, hourRead, hourLe, colon, minuteRead, minuteLe, seconds,
    rfl⟩ := parseTime_iff.mp parsed
  have lengthHour := length_two (zoned.hour : Int) (by omega) (by omega)
  have lengthMinute := length_two (zoned.minute : Int) (by omega) (by omega)
  rw [timeText] at reads
  have hourText := toInt_two reads.append.append.append (by omega) (by omega)
  have minuteText := toInt_two reads.append.advance (by omega) (by omega)
  have secondsReads := reads.advance
  simp only [List.length_append, lengthHour, lengthMinute, length_colon] at minuteText secondsReads
  rw [hourText, Option.some.injEq] at hourRead
  rw [minuteText, Option.some.injEq] at minuteRead
  obtain ⟨rfl, rest⟩ := parseSeconds_written zoned.seconds secondsReads
    (stopsTime_zone zoned rest) noColon seconds
  refine ⟨?_, Int.natCast_nonneg _, Int.ofNat_le.mpr hourLe, ?_⟩
  · simp only [timeText, List.length_append, lengthHour, lengthMinute, length_colon]
    omega
  · rw [timeOfDay, ← rest]
    dsimp only
    omega

/-- **The offset is taken from the local time.** -/
def OffsetTaken (this : DateComponents) (src : List UChar) (start : Nat) : Prop :=
  ∀ (zoned : ZonedText) (rest : List UChar) (value : DateComponents) (finish : Nat),
    Reads src start zoned.text rest → this.parseDateTime src start = some (value, finish) →
      finish = start + zoned.text.length ∧ ∃ date, zoned.Names date ∧
        value.millisecondsSinceEpoch =
          some ((86400000 * date.number + zoned.timeOfDay - zoned.offset : Int) : ℚ)

/-- The digits of the offset are read. -/
theorem parseTimeZone_written (reads : Reads src start zoned.zoneText rest)
    (parsed : this.parseTimeZone src start = some (value, finish)) :
    finish = start + zoned.zoneText.length ∧
      ∃ minutes : Int, 60000 * minutes = -zoned.offset ∧ this.addMinute minutes = some value := by
  have lengthHour := length_two (zoned.zoneHour : Int) (by omega) (by omega)
  have lengthMinute := length_two (zoned.zoneMinute : Int) (by omega) (by omega)
  have signText : src[start]? = some (sign zoned.minus) := reads.append.append.append.head
  rw [zoneText] at reads
  have hourText := toInt_two reads.append.append.advance (by omega) (by omega)
  have minuteText := toInt_two reads.advance (by omega) (by omega)
  simp only [List.length_append, lengthHour, length_colon,
    List.length_singleton] at hourText minuteText
  rcases parseTimeZone_iff.mp parsed with ⟨utc, -⟩ |
    ⟨minus, hour, minute, signRead, hourRead, -, -, minuteRead, -, added, rfl⟩
  · rw [signText, Option.some.injEq] at utc
    cases minus : zoned.minus <;> rw [minus] at utc <;> cases utc
  · have same : zoned.minus = minus :=
      sign_injective (Option.some.inj (signText.symm.trans signRead))
    rw [hourText, Option.some.injEq] at hourRead
    rw [minuteText, Option.some.injEq] at minuteRead
    refine ⟨?_, _, ?_, added⟩
    · simp only [zoneText, List.length_append, lengthHour, lengthMinute, length_colon,
        List.length_singleton]
    · rw [offset, same]
      split <;> omega

theorem offsetTaken (this : DateComponents) (src : List UChar) (start : Nat) :
    OffsetTaken this src start := by
  intro zoned rest value finish reads parsed
  obtain ⟨read, index, timed, zone, moved, dateParsed, -, timeParsed, zoneParsed, -, rfl⟩ :=
    parseDateTime_iff.mp parsed
  obtain ⟨date, names, inside, readSame, rfl⟩ :=
    parseDate_written reads.append.append.append dateParsed
  have timeReads := reads.append.advance
  have zoneReads := reads.advance
  rw [List.length_append, length_letter, ← Nat.add_assoc] at timeReads
  have noColon : src[zone]? ≠ some 0x3A := by
    intro colon
    rcases parseTimeZone_iff.mp zoneParsed with ⟨utc, -⟩ | ⟨minus, -, -, signRead, -⟩
    · rw [colon] at utc
      cases utc
    · rw [colon] at signRead
      cases minus <;> cases signRead
  obtain ⟨rfl, hour_ge, hour_le, timeOfDay⟩ := parseTime_written timeReads noColon timeParsed
  rw [List.length_append, List.length_append, length_letter, ← Nat.add_assoc,
    ← Nat.add_assoc] at zoneReads
  obtain ⟨rfl, minutes, offset, added⟩ := parseTimeZone_written zoneReads zoneParsed
  have dated : HasDate timed date := by
    rw [(parseTime_some timeParsed).1, readSame]
    exact ⟨rfl, rfl, rfl⟩
  obtain ⟨later, movedBy⟩ := addMinute_some dated hour_ge hour_le added
  have movedMinutes := movedBy.minutes
  have fields := movedBy.fields
  unfold minuteNumber at movedMinutes
  refine ⟨?_, date, names, ?_⟩
  · rw [text, List.length_append, List.length_append, List.length_append, length_letter]
    omega
  · have days := dateToDaysFrom1970_date later
    have whole : later.number * 86400000 +
        (((moved.hour * 60 + moved.minute) * 60 + timed.second) * 1000 + timed.millisecond) =
        86400000 * date.number + zoned.timeOfDay - zoned.offset := by
      omega
    have value : { moved with type := .dateTime }.millisecondsSinceEpoch =
        some ((later.number * 86400000 + (((moved.hour * 60 + moved.minute) * 60 +
          timed.second) * 1000 + timed.millisecond) : Int) : ℚ) := by
      rw [fields]
      simp only [millisecondsSinceEpoch, millisecondsSinceEpochForTime, days, msPerDay_eq,
        minutesPerHour, secondsPerMinute, msPerSecond]
      push_cast
      rfl
    rw [value, whole]

end ZonedText

/-! ## Both halves -/

/-- The texts whose seconds are too large, as far as a parser takes them. -/
def SecondsSlip : ComponentsType → List UChar → Nat → Prop
  | .time => SecondsTooLarge
  | .dateTimeLocal => LocalSecondsTooLarge
  | _ => fun _ _ => False

/-- **What is read is written and read back, except behind seconds that are too large**; an offset
is always taken from the local time. -/
theorem parsers_roundTrip_iff (type : ComponentsType) (this : DateComponents) (src : List UChar)
    (start : Nat) :
    (RoundTrips type this src start ∧ ZonedText.OffsetTaken this src start) ↔
      ¬ SecondsSlip type src start := by
  rw [and_iff_left (ZonedText.offsetTaken this src start)]
  cases type with
  | invalid => simp [RoundTrips, parse, SecondsSlip]
  | date => simp [roundTrips_date, SecondsSlip]
  | dateTime => simp [roundTrips_dateTime, SecondsSlip]
  | dateTimeLocal => exact roundTrips_dateTimeLocal_iff this src start
  | month => simp [roundTrips_month, SecondsSlip]
  | time => exact roundTrips_time_iff this src start
  | week => simp [roundTrips_week, SecondsSlip]

/-- `12:34:75` is taken as a time up to its last colon, with 75 seconds; written again, it is not
read whole. -/
theorem time_not_read_back :
    ¬ ∀ (type : ComponentsType) (this : DateComponents) (src : List UChar) (start : Nat),
      RoundTrips type this src start := by
  intro all
  have slips : SecondsTooLarge (ascii "12:34:75") 0 :=
    ⟨12, 34, 75, [], by decide, by decide, by decide, by decide, by
      simp [Reads, formatNumber, digitsOf]
      decide⟩
  exact (roundTrips_time_iff {} _ 0).mp (all .time {} _ 0) slips

end NetRider.Platform.DateComponents
