import NetRider.Lib.DecimalDigits
import NetRider.Wtf.DateMath
import NetRider.Wtf.Strings

/-!
# Date components

The dates and times of HTML form fields, set from milliseconds, parsed and written. Doubles are
exact rationals, so none is infinite or NaN. A function that answers `false` leaves fields nobody
may look at; here it has no result.
-/

namespace NetRider.Platform

open NetRider.Lib NetRider.Wtf NetRider.Wtf.DateMath

/-- `DateComponents::Type` -/
inductive ComponentsType
  | invalid | date | dateTime | dateTimeLocal | month | time | week
deriving DecidableEq

inductive SecondFormat
  | none | second | millisecond
deriving DecidableEq

/-- Months are counted from 0. -/
@[ext]
structure DateComponents where
  millisecond : Int := 0
  second : Int := 0
  minute : Int := 0
  hour : Int := 0
  monthDay : Int := 0
  month : Int := 0
  year : Int := 0
  week : Int := 0
  type : ComponentsType := .invalid
deriving DecidableEq

namespace DateComponents

def minimumYear : Int := 1
def maximumYear : Int := 275760
def minimumWeekNumber : Int := 1
def maximumWeekNumber : Int := 53
def maximumMonthInMaximumYear : Int := 8
def maximumDayInMaximumMonth : Int := 13
def maximumWeekInMaximumYear : Int := 37

def daysInMonth : List Int := [31, 28, 31, 30, 31, 30, 31, 31, 30, 31, 30, 31]

def isLeapYear (year : Int) : Bool :=
  if year.tmod 4 ≠ 0 then false
  else if year.tmod 400 = 0 then true
  else if year.tmod 100 = 0 then false
  else true

def maxDayOfMonth (year month : Int) : Int :=
  if month ≠ 1 then daysInMonth.getD month.toNat 0
  else if isLeapYear year then 29 else 28

/-- Zeller's congruence; Sunday is 0. -/
def dayOfWeek (year month day : Int) : Int :=
  let shiftedMonth := month + 2
  let early := shiftedMonth ≤ 3
  let shiftedMonth := if early then shiftedMonth + 12 else shiftedMonth
  let year := if early then year - 1 else year
  let highYear := year.tdiv 100
  let lowYear := year.tmod 100
  (day + (13 * shiftedMonth).tdiv 5 + lowYear + lowYear.tdiv 4 + highYear.tdiv 4 +
    5 * highYear + 6).tmod 7

def wednesday : Int := 3
def thursday : Int := 4

def maxWeekNumberInYear (this : DateComponents) : Int :=
  let day := dayOfWeek this.year 0 1
  if day = thursday ∨ (day = wednesday ∧ isLeapYear this.year) then maximumWeekNumber
  else maximumWeekNumber - 1

/-! ## The limits -/

/-- `withinHTMLDateLimits(int year, int month)` -/
def withinHTMLMonthLimits (year month : Int) : Bool :=
  if year < minimumYear then false
  else if year < maximumYear then true
  else month ≤ maximumMonthInMaximumYear

/-- `withinHTMLDateLimits(int year, int month, int monthDay)` -/
def withinHTMLDateLimits (year month monthDay : Int) : Bool :=
  if year < minimumYear then false
  else if year < maximumYear then true
  else if month < maximumMonthInMaximumYear then true
  else monthDay ≤ maximumDayInMaximumMonth

/-- `withinHTMLDateLimits` of a date and a time -/
def withinHTMLDateTimeLimits (year month monthDay hour minute second millisecond : Int) : Bool :=
  if year < minimumYear then false
  else if year < maximumYear then true
  else if month < maximumMonthInMaximumYear then true
  else if monthDay < maximumDayInMaximumMonth then true
  else if monthDay > maximumDayInMaximumMonth then false
  else hour = 0 ∧ minute = 0 ∧ second = 0 ∧ millisecond = 0

/-! ## Values from milliseconds -/

/-- `round` of the C library. -/
def round (x : ℚ) : ℚ := if x < 0 then -⌊-x + 1 / 2⌋ else ⌊x + 1 / 2⌋

def positiveFmod (value divider : ℚ) : ℚ :=
  let remainder := fmod value divider
  if remainder < 0 then remainder + divider else remainder

def setMillisecondsSinceMidnightInternal (this : DateComponents) (msInDay : ℚ) :
    DateComponents :=
  let seconds := floor (msInDay / msPerSecond)
  let minutes := floor (seconds / secondsPerMinute)
  { this with
    millisecond := truncate (fmod msInDay msPerSecond)
    second := truncate (fmod seconds secondsPerMinute)
    minute := truncate (fmod minutes minutesPerHour)
    hour := truncate (minutes / minutesPerHour) }

def setMillisecondsSinceEpochForDateInternal (this : DateComponents) (ms : ℚ) :
    DateComponents :=
  let year := msToYear ms
  let yearDay := dayInYear ms year
  { this with
    year := year
    month := monthFromDayInYear yearDay (isLeapYear year)
    monthDay := dayInMonthFromDayInYear yearDay (isLeapYear year) }

def setMillisecondsSinceEpochForDate (this : DateComponents) (ms : ℚ) : Option DateComponents :=
  let this := this.setMillisecondsSinceEpochForDateInternal (round ms)
  if withinHTMLDateLimits this.year this.month this.monthDay then
    some { this with type := .date }
  else none

def setMillisecondsSinceEpochForDateTime (this : DateComponents) (ms : ℚ) :
    Option DateComponents :=
  let ms := round ms
  let this := this.setMillisecondsSinceMidnightInternal (positiveFmod ms msPerDay)
  let this := this.setMillisecondsSinceEpochForDateInternal ms
  if withinHTMLDateTimeLimits this.year this.month this.monthDay this.hour this.minute
      this.second this.millisecond then
    some { this with type := .dateTime }
  else none

def setMillisecondsSinceEpochForMonth (this : DateComponents) (ms : ℚ) : Option DateComponents :=
  let this := this.setMillisecondsSinceEpochForDateInternal (round ms)
  if withinHTMLMonthLimits this.year this.month then some { this with type := .month } else none

/-- From January 1st to the Monday of the first week. -/
def offsetTo1stWeekStart (year : Int) : Int :=
  let offset := 1 - dayOfWeek year 0 1
  if offset ≤ -4 then offset + 7 else offset

def setMillisecondsSinceEpochForWeek (this : DateComponents) (ms : ℚ) : Option DateComponents :=
  let ms := round ms
  let this := { this with year := msToYear ms }
  if this.year < minimumYear ∨ this.year > maximumYear then none
  else
    let yearDay := dayInYear ms this.year
    let offset := offsetTo1stWeekStart this.year
    if yearDay < offset then
      -- the day belongs to the last week of the year before
      let this := { this with year := this.year - 1 }
      if this.year ≤ minimumYear then none
      else some { this with week := this.maxWeekNumberInYear, type := .week }
    else
      let this := { this with week := (yearDay - offset).tdiv 7 + 1 }
      let this :=
        if this.week > this.maxWeekNumberInYear then { this with year := this.year + 1, week := 1 }
        else this
      if this.year > maximumYear ∨
          (this.year = maximumYear ∧ this.week > maximumWeekInMaximumYear) then none
      else some { this with type := .week }

/-! ## Values in milliseconds -/

def millisecondsSinceEpochForTime (this : DateComponents) : ℚ :=
  ((this.hour * minutesPerHour + this.minute) * secondsPerMinute + this.second) * msPerSecond +
    this.millisecond

/-- The value that is not a number is no value. -/
def millisecondsSinceEpoch (this : DateComponents) : Option ℚ :=
  match this.type with
  | .date => some (dateToDaysFrom1970 this.year this.month this.monthDay * msPerDay)
  | .dateTime | .dateTimeLocal =>
    some (dateToDaysFrom1970 this.year this.month this.monthDay * msPerDay +
      this.millisecondsSinceEpochForTime)
  | .month => some (dateToDaysFrom1970 this.year this.month 1 * msPerDay)
  | .time => some this.millisecondsSinceEpochForTime
  | .week =>
    some ((dateToDaysFrom1970 this.year 0 1 + offsetTo1stWeekStart this.year +
      (this.week - 1) * 7) * msPerDay)
  | .invalid => none

/-! ## Text -/

def digitChar (d : Fin 10) : UChar := UInt16.ofNat (0x30 + d)

/-- The conversion `%0wd` of `String::format`. -/
def formatNumber (width : Nat) (n : Int) : List UChar :=
  let digits := (digitsOf n.natAbs).map digitChar
  let sign := if n < 0 then [0x2D] else []
  sign ++ List.replicate (width - sign.length - digits.length) 0x30 ++ digits

def toStringForTime (this : DateComponents) (format : SecondFormat) : List UChar :=
  let effectiveFormat :=
    if this.millisecond ≠ 0 then .millisecond
    else if format = .none ∧ this.second ≠ 0 then .second
    else format
  let minutes := formatNumber 2 this.hour ++ ascii ":" ++ formatNumber 2 this.minute
  match effectiveFormat with
  | .none => minutes
  | .second => minutes ++ ascii ":" ++ formatNumber 2 this.second
  | .millisecond =>
    minutes ++ ascii ":" ++ formatNumber 2 this.second ++ ascii "." ++
      formatNumber 3 this.millisecond

/-- `"%04d-%02d"` -/
def toStringForMonth (this : DateComponents) : List UChar :=
  formatNumber 4 this.year ++ ascii "-" ++ formatNumber 2 (this.month + 1)

/-- `"%04d-%02d-%02d"` -/
def toStringForDate (this : DateComponents) : List UChar :=
  this.toStringForMonth ++ ascii "-" ++ formatNumber 2 this.monthDay

def toString (this : DateComponents) (format : SecondFormat) : List UChar :=
  match this.type with
  | .date => this.toStringForDate
  | .dateTime => this.toStringForDate ++ ascii "T" ++ this.toStringForTime format ++ ascii "Z"
  | .dateTimeLocal => this.toStringForDate ++ ascii "T" ++ this.toStringForTime format
  | .month => this.toStringForMonth
  | .time => this.toStringForTime format
  | .week => formatNumber 4 this.year ++ ascii "-W" ++ formatNumber 2 this.week
  | .invalid => ascii "(Invalid DateComponents)"

/-! ## Parsing

A parser reads `src` from `start` on and gives the index behind what it read. -/

def countDigits (src : List UChar) (start : Nat) : Nat :=
  ((src.drop start).takeWhile isASCIIDigit).length

def intMax : Nat := 2147483647

/-- The loop of `toInt`. -/
def toIntLoop : List UChar → Nat → Option Nat
  | [], value => some value
  | current :: rest, value =>
    if isASCIIDigit current then
      let digit := current.toNat - 0x30
      if value > (intMax - digit) / 10 then none else toIntLoop rest (value * 10 + digit)
    else none

def toInt (src : List UChar) (parseStart parseLength : Nat) : Option Nat :=
  if parseStart + parseLength > src.length ∨ parseLength = 0 then none
  else toIntLoop ((src.drop parseStart).take parseLength) 0

def parseYear (this : DateComponents) (src : List UChar) (start : Nat) :
    Option (DateComponents × Nat) := do
  let digitsLength := countDigits src start
  if digitsLength < 4 then none
  let year ← toInt src start digitsLength
  if year < minimumYear ∨ year > maximumYear then none
  some ({ this with year := year }, start + digitsLength)

def parseMonth (this : DateComponents) (src : List UChar) (start : Nat) :
    Option (DateComponents × Nat) := do
  let (this, index) ← this.parseYear src start
  if src[index]? ≠ some 0x2D then none
  let index := index + 1
  let month ← toInt src index 2
  if month < 1 ∨ month > 12 then none
  let month : Int := month - 1
  if ¬ withinHTMLMonthLimits this.year month then none
  some ({ this with month := month, type := .month }, index + 2)

def parseDate (this : DateComponents) (src : List UChar) (start : Nat) :
    Option (DateComponents × Nat) := do
  let (this, index) ← this.parseMonth src start
  if index + 2 ≥ src.length then none
  if src[index]? ≠ some 0x2D then none
  let index := index + 1
  let day ← toInt src index 2
  if day < 1 ∨ day > maxDayOfMonth this.year this.month then none
  if ¬ withinHTMLDateLimits this.year this.month day then none
  some ({ this with monthDay := day, type := .date }, index + 2)

def parseWeek (this : DateComponents) (src : List UChar) (start : Nat) :
    Option (DateComponents × Nat) := do
  let (this, index) ← this.parseYear src start
  if index + 3 ≥ src.length then none
  if src[index]? ≠ some 0x2D then none
  let index := index + 1
  if src[index]? ≠ some 0x57 then none
  let index := index + 1
  let week ← toInt src index 2
  if week < minimumWeekNumber ∨ week > this.maxWeekNumberInYear then none
  if this.year = maximumYear ∧ week > maximumWeekInMaximumYear then none
  some ({ this with week := week, type := .week }, index + 2)

/-- The optional fraction of a second: the milliseconds and the index behind it. -/
def parseFraction (src : List UChar) (index : Nat) : Nat × Nat :=
  if src[index]? = some 0x2E then
    let digitsLength := countDigits src (index + 1)
    if digitsLength > 0 then
      let index := index + 1
      let millisecond :=
        if digitsLength = 1 then (toInt src index 1).getD 0 * 100
        else if digitsLength = 2 then (toInt src index 2).getD 0 * 10
        else (toInt src index 3).getD 0
      (millisecond, index + digitsLength)
    else (0, index)
  else (0, index)

/-- The optional seconds: the second, the milliseconds and the index behind them. Two digits that
are no second stay in the second, but are not read. -/
def parseSeconds (src : List UChar) (index : Nat) : Nat × Nat × Nat :=
  if index + 2 < src.length ∧ src[index]? = some 0x3A then
    match toInt src (index + 1) 2 with
    | none => (0, 0, index)
    | some second =>
      if second ≤ 59 then (second, parseFraction src (index + 3)) else (second, 0, index)
  else (0, 0, index)

def parseTime (this : DateComponents) (src : List UChar) (start : Nat) :
    Option (DateComponents × Nat) := do
  let hour ← toInt src start 2
  if hour > 23 then none
  let index := start + 2
  if src[index]? ≠ some 0x3A then none
  let index := index + 1
  let minute ← toInt src index 2
  if minute > 59 then none
  let (second, millisecond, index) := parseSeconds src (index + 2)
  some ({ this with
    hour := hour, minute := minute, second := second, millisecond := millisecond,
    type := .time }, index)

def parseDateTimeLocal (this : DateComponents) (src : List UChar) (start : Nat) :
    Option (DateComponents × Nat) := do
  let (this, index) ← this.parseDate src start
  if src[index]? ≠ some 0x54 then none
  let (this, index) ← this.parseTime src (index + 1)
  if ¬ withinHTMLDateTimeLimits this.year this.month this.monthDay this.hour this.minute
      this.second this.millisecond then none
  some ({ this with type := .dateTimeLocal }, index)

/-! ## Time zones -/

/-- The loop of `addDay` for a later date; the result is the year, the month and the day. -/
def laterDay : Nat → Int → Int → Int → Int → Int × Int × Int
  | 0, year, month, day, _ => (year, month, day)
  | dayDiff + 1, year, month, day, maxDay =>
    let day := day + 1
    if day > maxDay then
      let month := month + 1
      if month ≥ 12 then laterDay dayDiff (year + 1) 0 1 (maxDayOfMonth (year + 1) 0)
      else laterDay dayDiff year month 1 (maxDayOfMonth year month)
    else laterDay dayDiff year month day maxDay

/-- The loop of `addDay` for an earlier date. -/
def earlierDay : Nat → Int → Int → Int → Int × Int × Int
  | 0, year, month, day => (year, month, day)
  | dayDiff + 1, year, month, day =>
    let day := day - 1
    if day < 1 then
      let month := month - 1
      if month < 0 then earlierDay dayDiff (year - 1) 11 (maxDayOfMonth (year - 1) 11)
      else earlierDay dayDiff year month (maxDayOfMonth year month)
    else earlierDay dayDiff year month day

def addDay (this : DateComponents) (dayDiff : Int) : Option DateComponents :=
  let day := this.monthDay + dayDiff
  let (year, month, day) :=
    if day > maxDayOfMonth this.year this.month then
      laterDay dayDiff.toNat this.year this.month this.monthDay
        (maxDayOfMonth this.year this.month)
    else if day < 1 then
      earlierDay (-dayDiff).toNat this.year this.month this.monthDay
    else (this.year, this.month, day)
  if withinHTMLDateLimits year month day then
    some { this with year := year, month := month, monthDay := day }
  else none

/-- The hours of `addMinute`, with what the minutes carry. -/
def addHour (this : DateComponents) (carry minute : Int) : Option DateComponents :=
  let hour := this.hour + carry
  let carryDays (carry hour : Int) : Option DateComponents := do
    let this ← this.addDay carry
    if ¬ withinHTMLDateTimeLimits this.year this.month this.monthDay hour minute this.second
        this.millisecond then none
    some { this with minute := minute, hour := hour }
  if hour > 23 then carryDays (hour.tdiv 24) (hour.tmod 24)
  else if hour < 0 then
    let carry := (23 - hour).tdiv 24
    carryDays (-carry) (hour + carry * 24)
  else if withinHTMLDateTimeLimits this.year this.month this.monthDay hour minute this.second
      this.millisecond then
    some { this with minute := minute, hour := hour }
  else none

def addMinute (this : DateComponents) (minute : Int) : Option DateComponents :=
  let minute := minute + this.minute
  if minute > 59 then this.addHour (minute.tdiv 60) (minute.tmod 60)
  else if minute < 0 then
    let carry := (59 - minute).tdiv 60
    this.addHour (-carry) (minute + carry * 60)
  else if withinHTMLDateTimeLimits this.year this.month this.monthDay this.hour minute
      this.second this.millisecond then
    some { this with minute := minute }
  else none

def parseTimeZone (this : DateComponents) (src : List UChar) (start : Nat) :
    Option (DateComponents × Nat) := do
  if src[start]? = some 0x5A then some (this, start + 1)
  else
    let minus ←
      if src[start]? = some 0x2B then some false
      else if src[start]? = some 0x2D then some true
      else none
    let index := start + 1
    let hour ← toInt src index 2
    if hour > 23 then none
    let index := index + 2
    if src[index]? ≠ some 0x3A then none
    let index := index + 1
    let minute ← toInt src index 2
    if minute > 59 then none
    let offset : Int := if minus then -hour * 60 + -minute else hour * 60 + minute
    let this ← this.addMinute (-offset)
    some (this, index + 2)

def parseDateTime (this : DateComponents) (src : List UChar) (start : Nat) :
    Option (DateComponents × Nat) := do
  let (this, index) ← this.parseDate src start
  if src[index]? ≠ some 0x54 then none
  let (this, index) ← this.parseTime src (index + 1)
  let (this, index) ← this.parseTimeZone src index
  if ¬ withinHTMLDateTimeLimits this.year this.month this.monthDay this.hour this.minute
      this.second this.millisecond then none
  some ({ this with type := .dateTime }, index)

end DateComponents

end NetRider.Platform
