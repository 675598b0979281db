import NetRider.Platform.DateComponents

/-!
# The text of dates and times

What each parser reads where a text is written as `toString` writes it.
-/

namespace NetRider.Platform.DateComponents

open NetRider.Lib NetRider.Wtf

variable {src text more rest : List UChar} {index start finish width n : Nat} {c : UChar}
  {digits : List (Fin 10)} {this that : DateComponents}

/-! ## Places in a text -/

/-- The source goes on with `text` and then with `rest`. -/
def Reads (src : List UChar) (index : Nat) (text rest : List UChar) : Prop :=
  src.drop index = text ++ rest

theorem reads_self (src : List UChar) : Reads src 0 src [] := by
  rw [Reads, List.drop_zero, List.append_nil]

theorem Reads.append (reads : Reads src index (text ++ more) rest) :
    Reads src index text (more ++ rest) := by
  rw [Reads, reads, List.append_assoc]

theorem Reads.advance (reads : Reads src index (text ++ more) rest) :
    Reads src (index + text.length) more rest := by
  rw [Reads, ← List.drop_drop, reads, List.append_assoc, List.drop_left]

theorem Reads.after (reads : Reads src index text rest) :
    Reads src (index + text.length) rest [] := by
  rw [Reads, ← List.drop_drop, reads, List.drop_left, List.append_nil]

theorem Reads.head (reads : Reads src index (c :: text) rest) : src[index]? = some c := by
  rw [← Nat.add_zero index, ← List.getElem?_drop, reads]
  rfl

theorem Reads.length_le (reads : Reads src index text rest) (nonempty : text ≠ []) :
    index + text.length + rest.length = src.length := by
  have lengths := congrArg List.length reads
  have positive := List.length_pos_iff.mpr nonempty
  rw [List.length_drop, List.length_append] at lengths
  omega

theorem reads_of_getElem? (here : src[index]? = some c) :
    Reads src index [c] (src.drop (index + 1)) := by
  obtain ⟨inside, rfl⟩ := List.getElem?_eq_some_iff.mp here
  exact List.drop_eq_getElem_cons inside

/-! ## Digits -/

theorem digitChar_isDigit (d : Fin 10) : isASCIIDigit (digitChar d) = true := by
  revert d; decide

theorem digitChar_value (d : Fin 10) : (digitChar d).toNat - 0x30 = d := by
  revert d; decide

theorem exists_digit (digit : isASCIIDigit c = true) : ∃ d, c = digitChar d := by
  have bounds : 0x30 ≤ c.toNat ∧ c.toNat ≤ 0x39 := by
    simpa [isASCIIDigit, UInt16.le_iff_toNat_le] using digit
  refine ⟨⟨c.toNat - 0x30, by omega⟩, ?_⟩
  apply UInt16.toNat_inj.mp
  simp only [digitChar, UInt16.toNat_ofNat']
  omega

/-- A number read on from `value`. -/
def readOn (value : Nat) (digits : List (Fin 10)) : Nat :=
  digits.foldl (fun n d => n * 10 + d) value

theorem le_readOn (value : Nat) (digits : List (Fin 10)) : value ≤ readOn value digits := by
  induction digits generalizing value with
  | nil => exact Nat.le_refl _
  | cons d digits ih => exact Nat.le_trans (by omega) (ih (value * 10 + d))

theorem toIntLoop_digits {value : Nat} (fits : readOn value digits ≤ intMax) :
    toIntLoop (digits.map digitChar) value = some (readOn value digits) := by
  induction digits generalizing value with
  | nil => rfl
  | cons d digits ih =>
    have next : value * 10 + d ≤ intMax := Nat.le_trans (le_readOn _ digits) fits
    rw [List.map_cons, toIntLoop, if_pos (digitChar_isDigit d)]
    simp only [digitChar_value]
    rw [if_neg (by omega), ih fits]
    rfl

theorem toIntLoop_some {value result : Nat} (read : toIntLoop text value = some result) :
    ∃ digits : List (Fin 10), text = digits.map digitChar ∧ result = readOn value digits := by
  induction text generalizing value with
  | nil => exact ⟨[], rfl, (Option.some.inj read).symm⟩
  | cons c text ih =>
    rw [toIntLoop] at read
    split at read
    case isFalse => cases read
    case isTrue digit =>
      obtain ⟨d, rfl⟩ := exists_digit digit
      simp only [digitChar_value] at read
      split at read
      · cases read
      · obtain ⟨digits, rfl, rfl⟩ := ih read
        exact ⟨d :: digits, rfl, rfl⟩

/-- Digits are read as the number they denote. -/
theorem toInt_digits (reads : Reads src start (digits.map digitChar) rest)
    (nonempty : digits ≠ []) (fits : numeral digits ≤ intMax) :
    toInt src start digits.length = some (numeral digits) := by
  have lengths := reads.length_le (by simpa using nonempty)
  rw [List.length_map] at lengths
  have positive := List.length_pos_iff.mpr nonempty
  rw [toInt, if_neg (by omega), reads, List.take_left' (List.length_map ..)]
  exact toIntLoop_digits fits

/-- What is read is digits, and the number they denote. -/
theorem toInt_some {length : Nat} (read : toInt src start length = some n) :
    ∃ (digits : List (Fin 10)) (rest : List UChar), digits.length = length ∧ 0 < length ∧
      Reads src start (digits.map digitChar) rest ∧ n = numeral digits := by
  rw [toInt] at read
  split at read
  · cases read
  case isFalse inside =>
    obtain ⟨digits, text, rfl⟩ := toIntLoop_some read
    have lengths := congrArg List.length text
    rw [List.length_take, List.length_drop, List.length_map] at lengths
    refine ⟨digits, src.drop (start + length), by omega, by omega, ?_, rfl⟩
    rw [Reads, ← text, ← List.drop_drop, List.take_append_drop]

theorem countDigits_digits (reads : Reads src start (digits.map digitChar) rest)
    (stops : ∀ c ∈ rest.head?, isASCIIDigit c = false) :
    countDigits src start = digits.length := by
  have all : ∀ c ∈ digits.map digitChar, isASCIIDigit c = true := by
    intro c member
    obtain ⟨d, -, rfl⟩ := List.mem_map.mp member
    exact digitChar_isDigit d
  have none : rest.takeWhile isASCIIDigit = [] := by
    cases rest with
    | nil => rfl
    | cons c rest => rw [List.takeWhile_cons_of_neg (by simp [stops c rfl])]
  rw [countDigits, reads, List.takeWhile_append_of_pos all, none, List.append_nil,
    List.length_map]

/-! ## Numbers -/

/-- The digits of a number that is written in a width. -/
def paddedDigits (width n : Nat) : List (Fin 10) :=
  List.replicate (width - (digitsOf n).length) 0 ++ digitsOf n

theorem formatNumber_natCast (width n : Nat) :
    formatNumber width n = (paddedDigits width n).map digitChar := by
  have zero : digitChar 0 = 0x30 := rfl
  have nonneg : ¬ (n : Int) < 0 := by omega
  simp [formatNumber, nonneg, paddedDigits, zero, List.map_replicate]

theorem numeral_paddedDigits (width n : Nat) : numeral (paddedDigits width n) = n := by
  rw [paddedDigits, numeral_append, numeral_zeros, numeral_digitsOf, Nat.zero_mul, Nat.zero_add]

theorem length_paddedDigits (width n : Nat) :
    (paddedDigits width n).length = max width (digitsOf n).length := by
  rw [paddedDigits, List.length_append, List.length_replicate]
  omega

theorem length_paddedDigits_of_lt (small : n < 10 ^ width) (positive : 0 < width) :
    (paddedDigits width n).length = width := by
  rw [length_paddedDigits]
  by_cases zero : n = 0
  · subst zero
    have one : (digitsOf 0).length = 1 := by rw [digitsOf]; rfl
    omega
  · have short := length_digitsOf_le small zero
    omega

theorem paddedDigits_ne_nil (width n : Nat) : paddedDigits width n ≠ [] := by
  simp [paddedDigits, digitsOf_ne_nil]

/-- Digits are the padded digits of the number they denote. -/
theorem paddedDigits_numeral (digits : List (Fin 10)) (nonempty : digits ≠ []) :
    paddedDigits digits.length (numeral digits) = digits := by
  have positive := List.length_pos_iff.mpr nonempty
  apply numeral_injective (length_paddedDigits_of_lt (numeral_lt digits) positive)
  rw [numeral_paddedDigits]

/-- A number of a fixed width is read back, and nothing else is read. -/
theorem toInt_iff (positive : 0 < width) (fits : 10 ^ width ≤ intMax) :
    toInt src start width = some n ↔
      n < 10 ^ width ∧ ∃ rest, Reads src start (formatNumber width n) rest := by
  constructor
  · intro read
    obtain ⟨digits, rest, rfl, -, reads, rfl⟩ := toInt_some read
    have nonempty : digits ≠ [] := List.length_pos_iff.mp positive
    refine ⟨numeral_lt digits, rest, ?_⟩
    rwa [formatNumber_natCast, paddedDigits_numeral digits nonempty]
  · rintro ⟨small, rest, reads⟩
    rw [formatNumber_natCast] at reads
    have read := toInt_digits reads (paddedDigits_ne_nil width n)
      (by rw [numeral_paddedDigits]; omega)
    rwa [length_paddedDigits_of_lt small positive, numeral_paddedDigits] at read

/-! ## What the parsers check -/

theorem toInt_inside {length n : Nat} (read : toInt src start length = some n) :
    start + length ≤ src.length := by
  rw [toInt] at read
  split at read
  · cases read
  · omega

theorem parseYear_iff : this.parseYear src start = some (that, finish) ↔
    4 ≤ countDigits src start ∧ ∃ year, toInt src start (countDigits src start) = some year ∧
      minimumYear ≤ year ∧ year ≤ maximumYear ∧
      that = { this with year := year } ∧ finish = start + countDigits src start := by
  simp [parseYear, Option.bind_eq_some_iff]
  grind

theorem parseMonth_iff : this.parseMonth src start = some (that, finish) ↔
    ∃ read index, this.parseYear src start = some (read, index) ∧ src[index]? = some 0x2D ∧
      ∃ month, toInt src (index + 1) 2 = some month ∧ 1 ≤ month ∧ month ≤ 12 ∧
        withinHTMLMonthLimits read.year (month - 1) ∧
        that = { read with month := month - 1, type := .month } ∧ finish = index + 3 := by
  simp [parseMonth, Option.bind_eq_some_iff]
  grind

theorem parseDate_iff : this.parseDate src start = some (that, finish) ↔
    ∃ read index, this.parseMonth src start = some (read, index) ∧ src[index]? = some 0x2D ∧
      ∃ day, toInt src (index + 1) 2 = some day ∧ 1 ≤ day ∧
        day ≤ maxDayOfMonth read.year read.month ∧
        withinHTMLDateLimits read.year read.month day ∧
        that = { read with monthDay := day, type := .date } ∧ finish = index + 3 := by
  simp [parseDate, Option.bind_eq_some_iff]
  constructor
  · rintro ⟨read, index, month, -, dash, day, number, ⟨positive, upper⟩, limits, rfl, rfl⟩
    exact ⟨read, index, month, dash, day, number, by omega, upper, limits, rfl, rfl⟩
  · rintro ⟨read, index, month, dash, day, number, positive, upper, limits, rfl, rfl⟩
    have inside := toInt_inside number
    exact ⟨read, index, month, by omega, dash, day, number, ⟨by omega, upper⟩, limits, rfl, rfl⟩

theorem parseWeek_iff : this.parseWeek src start = some (that, finish) ↔
    ∃ read index, this.parseYear src start = some (read, index) ∧ src[index]? = some 0x2D ∧
      src[index + 1]? = some 0x57 ∧
      ∃ week, toInt src (index + 2) 2 = some week ∧ minimumWeekNumber ≤ week ∧
        week ≤ read.maxWeekNumberInYear ∧
        ¬ (read.year = maximumYear ∧ maximumWeekInMaximumYear < week) ∧
        that = { read with week := week, type := .week } ∧ finish = index + 4 := by
  simp [parseWeek, Option.bind_eq_some_iff]
  constructor
  · rintro ⟨read, index, year, -, dash, w, week, number, ⟨least, most⟩, last, rfl, rfl⟩
    exact ⟨read, index, year, dash, w, week, number, least, most, last, rfl, rfl⟩
  · rintro ⟨read, index, year, dash, w, week, number, least, most, last, rfl, rfl⟩
    have inside := toInt_inside number
    exact ⟨read, index, year, by omega, dash, w, week, number, ⟨least, most⟩, last, rfl, rfl⟩

theorem parseTime_iff : this.parseTime src start = some (that, finish) ↔
    ∃ hour minute second millisecond, toInt src start 2 = some hour ∧ hour ≤ 23 ∧
      src[start + 2]? = some 0x3A ∧ toInt src (start + 3) 2 = some minute ∧ minute ≤ 59 ∧
      parseSeconds src (start + 5) = (second, millisecond, finish) ∧
      that = { this with
        hour := hour, minute := minute, second := second, millisecond := millisecond,
        type := .time } := by
  simp [parseTime, Option.bind_eq_some_iff]
  grind 

theorem parseDateTimeLocal_iff : this.parseDateTimeLocal src start = some (that, finish) ↔
    ∃ read index timed, this.parseDate src start = some (read, index) ∧
      src[index]? = some 0x54 ∧ read.parseTime src (index + 1) = some (timed, finish) ∧
      withinHTMLDateTimeLimits timed.year timed.month timed.monthDay timed.hour timed.minute
        timed.second timed.millisecond ∧
      that = { timed with type := .dateTimeLocal } := by
  simp [parseDateTimeLocal, Option.bind_eq_some_iff]
  grind 

theorem parseDateTime_iff : this.parseDateTime src start = some (that, finish) ↔
    ∃ read index timed zone moved, this.parseDate src start = some (read, index) ∧
      src[index]? = some 0x54 ∧ read.parseTime src (index + 1) = some (timed, zone) ∧
      timed.parseTimeZone src zone = some (moved, finish) ∧
      withinHTMLDateTimeLimits moved.year moved.month moved.monthDay moved.hour moved.minute
        moved.second moved.millisecond ∧
      that = { moved with type := .dateTime } := by
  simp [parseDateTime, Option.bind_eq_some_iff]
  grind 
theorem parseTimeZone_iff : this.parseTimeZone src start = some (that, finish) ↔
    (src[start]? = some 0x5A ∧ that = this ∧ finish = start + 1) ∨
      ∃ (minus : Bool) (hour minute : Nat),
        src[start]? = some (if minus then 0x2D else 0x2B) ∧
        toInt src (start + 1) 2 = some hour ∧ hour ≤ 23 ∧ src[start + 3]? = some 0x3A ∧
        toInt src (start + 4) 2 = some minute ∧ minute ≤ 59 ∧
        this.addMinute (if minus then hour * 60 + minute else -(hour * 60 + minute)) = some that ∧
        finish = start + 6 := by
  by_cases utc : src[start]? = some 0x5A
  · simp [parseTimeZone, utc, eq_comm]
  by_cases plus : src[start]? = some 0x2B
  · simp [parseTimeZone, plus, Option.bind_eq_some_iff]
    grind
  · simp [parseTimeZone, utc, plus, Option.bind_eq_some_iff]
    grind

/-! ## The limits -/

theorem withinHTMLMonthLimits_iff {year month : Int} : withinHTMLMonthLimits year month = true ↔
    minimumYear ≤ year ∧ (year < maximumYear ∨ month ≤ maximumMonthInMaximumYear) := by
  unfold withinHTMLMonthLimits minimumYear maximumYear
  grind

theorem withinHTMLDateLimits_iff {year month day : Int} :
    withinHTMLDateLimits year month day = true ↔
      minimumYear ≤ year ∧ (year < maximumYear ∨ month < maximumMonthInMaximumYear ∨
        day ≤ maximumDayInMaximumMonth) := by
  unfold withinHTMLDateLimits minimumYear maximumYear
  grind

theorem withinHTMLDateTimeLimits_iff {year month day hour minute second millisecond : Int} :
    withinHTMLDateTimeLimits year month day hour minute second millisecond = true ↔
      minimumYear ≤ year ∧ (year < maximumYear ∨ month < maximumMonthInMaximumYear ∨
        day < maximumDayInMaximumMonth ∨ day = maximumDayInMaximumMonth ∧
          hour = 0 ∧ minute = 0 ∧ second = 0 ∧ millisecond = 0) := by
  unfold withinHTMLDateTimeLimits minimumYear maximumYear
  grind

/-! ## Reading what is written -/

theorem length_formatNumber (width : Nat) {value : Int} (nonneg : 0 ≤ value)
    (small : value < 10 ^ width) (positive : 0 < width) :
    (formatNumber width value).length = width := by
  obtain ⟨n, rfl⟩ := Int.eq_ofNat_of_zero_le nonneg
  rw [formatNumber_natCast, List.length_map]
  exact length_paddedDigits_of_lt (by exact_mod_cast small) positive

theorem length_two (value : Int) (nonneg : 0 ≤ value) (small : value ≤ 99) :
    (formatNumber 2 value).length = 2 :=
  length_formatNumber 2 nonneg (by omega) (by decide)

theorem toInt_two {value : Int} (reads : Reads src start (formatNumber 2 value) rest)
    (nonneg : 0 ≤ value) (small : value ≤ 99) : toInt src start 2 = some value.toNat := by
  obtain ⟨n, rfl⟩ := Int.eq_ofNat_of_zero_le nonneg
  exact (toInt_iff (by decide) (by decide)).mpr ⟨by omega, rest, reads⟩

/-- A year is read up to the character behind it. -/
theorem parseYear_text {year : Int} (reads : Reads src start (formatNumber 4 year) rest)
    (least : minimumYear ≤ year) (most : year ≤ maximumYear)
    (stops : ∀ c ∈ rest.head?, isASCIIDigit c = false) :
    this.parseYear src start =
      some ({ this with year := year }, start + (formatNumber 4 year).length) := by
  unfold minimumYear at least
  unfold maximumYear at most
  obtain ⟨n, rfl⟩ := Int.eq_ofNat_of_zero_le (show 0 ≤ year by omega)
  have written := formatNumber_natCast 4 n
  rw [written] at reads ⊢
  have counted := countDigits_digits reads stops
  have long := length_paddedDigits 4 n
  have read := toInt_digits reads (paddedDigits_ne_nil 4 n)
    (by rw [numeral_paddedDigits, intMax]; omega)
  rw [numeral_paddedDigits, ← counted] at read
  rw [List.length_map, ← counted]
  refine parseYear_iff.mpr ⟨by omega, n, read, ?_, ?_, rfl, rfl⟩
  · unfold minimumYear; omega
  · unfold maximumYear; omega

/-- The fields of a month, as the parser takes them. -/
structure ValidMonth (c : DateComponents) : Prop where
  year_ge : minimumYear ≤ c.year
  year_le : c.year ≤ maximumYear
  month_ge : 0 ≤ c.month
  month_le : c.month ≤ 11
  limits : withinHTMLMonthLimits c.year c.month

/-- The fields of a date. -/
structure ValidDate (c : DateComponents) : Prop extends ValidMonth c where
  day_ge : 1 ≤ c.monthDay
  day_le : c.monthDay ≤ maxDayOfMonth c.year c.month
  dateLimits : withinHTMLDateLimits c.year c.month c.monthDay

/-- The fields of a week. -/
structure ValidWeek (c : DateComponents) : Prop where
  year_ge : minimumYear ≤ c.year
  year_le : c.year ≤ maximumYear
  week_ge : minimumWeekNumber ≤ c.week
  week_le : c.week ≤ c.maxWeekNumberInYear
  limits : ¬ (c.year = maximumYear ∧ maximumWeekInMaximumYear < c.week)

/-- The fields of a time. -/
structure ValidTime (c : DateComponents) : Prop where
  hour_ge : 0 ≤ c.hour
  hour_le : c.hour ≤ 23
  minute_ge : 0 ≤ c.minute
  minute_le : c.minute ≤ 59
  second_ge : 0 ≤ c.second
  second_le : c.second ≤ 59
  millisecond_ge : 0 ≤ c.millisecond
  millisecond_le : c.millisecond ≤ 999

variable {value : DateComponents}

theorem maxDayOfMonth_le (year month : Int) : maxDayOfMonth year month ≤ 31 := by
  have table : ∀ days ∈ daysInMonth, days ≤ 31 := by decide
  unfold maxDayOfMonth
  split
  · rw [List.getD_eq_getElem?_getD]
    cases found : daysInMonth[month.toNat]? with
    | none => decide
    | some days => exact table days (List.mem_of_getElem? found)
  · split <;> decide

theorem maxWeekNumberInYear_le (c : DateComponents) : c.maxWeekNumberInYear ≤ 53 := by
  unfold maxWeekNumberInYear maximumWeekNumber
  dsimp only
  split <;> omega

theorem parseMonth_text (valid : ValidMonth value)
    (reads : Reads src start value.toStringForMonth rest) :
    this.parseMonth src start =
      some ({ this with year := value.year, month := value.month, type := .month },
        start + value.toStringForMonth.length) := by
  have nonneg := valid.month_ge
  have small := valid.month_le
  have written := reads.append.append
  have dash := reads.append.advance
  have digits := reads.advance
  have year : this.parseYear src start = _ :=
    parseYear_text written valid.year_ge valid.year_le (by rintro c ⟨⟩; rfl)
  have month := toInt_two digits (by omega) (by omega)
  have lengthTwo := length_two (value.month + 1) (by omega) (by omega)
  have lengthDash : (ascii "-").length = 1 := rfl
  have back : ((value.month + 1).toNat : Int) - 1 = value.month := by omega
  simp only [toStringForMonth, List.length_append, lengthTwo, lengthDash,
    ← Nat.add_assoc] at month ⊢
  refine parseMonth_iff.mpr ⟨_, _, year, dash.head, _, month, by omega, by omega, ?_, ?_, rfl⟩
  · rw [back]
    exact valid.limits
  · rw [back]

theorem parseDate_text (valid : ValidDate value)
    (reads : Reads src start value.toStringForDate rest) :
    this.parseDate src start =
      some ({ this with
        year := value.year, month := value.month, monthDay := value.monthDay, type := .date },
        start + value.toStringForDate.length) := by
  have nonneg := valid.day_ge
  have small := Int.le_trans valid.day_le (maxDayOfMonth_le _ _)
  have month : this.parseMonth src start = _ :=
    parseMonth_text valid.toValidMonth reads.append.append
  have dash := reads.append.advance
  have day := toInt_two reads.advance (by omega) (by omega)
  have lengthTwo := length_two value.monthDay (by omega) (by omega)
  have lengthDash : (ascii "-").length = 1 := rfl
  have back : (value.monthDay.toNat : Int) = value.monthDay := by omega
  simp only [toStringForDate, List.length_append, lengthTwo, lengthDash, ← Nat.add_assoc] at day ⊢
  refine parseDate_iff.mpr ⟨_, _, month, dash.head, _, day, by omega, ?_, ?_, ?_, rfl⟩
  · rw [back]
    exact valid.day_le
  · rw [back]
    exact valid.dateLimits
  · rw [back]

theorem parseWeek_text (valid : ValidWeek value)
    (reads : Reads src start
      (formatNumber 4 value.year ++ ascii "-W" ++ formatNumber 2 value.week) rest) :
    this.parseWeek src start =
      some ({ this with year := value.year, week := value.week, type := .week },
        start + (formatNumber 4 value.year ++ ascii "-W" ++ formatNumber 2 value.week).length) := by
  have nonneg := valid.week_ge
  have small := Int.le_trans valid.week_le (maxWeekNumberInYear_le _)
  unfold minimumWeekNumber at nonneg
  have year : this.parseYear src start = _ :=
    parseYear_text reads.append.append valid.year_ge valid.year_le (by rintro c ⟨⟩; rfl)
  have dash := reads.append.advance
  have week := toInt_two reads.advance (by omega) (by omega)
  have lengthTwo := length_two value.week (by omega) (by omega)
  have lengthDash : (ascii "-W").length = 2 := rfl
  have back : (value.week.toNat : Int) = value.week := by omega
  simp only [List.length_append, lengthTwo, lengthDash, ← Nat.add_assoc] at week ⊢
  have letter := (@Reads.advance src [0x2D] [0x57] _ _ dash).head
  refine parseWeek_iff.mpr ⟨_, _, year, dash.head, letter, _, week, ?_, ?_, ?_, ?_, rfl⟩
  · rw [back]
    exact valid.week_ge
  · rw [back]
    exact valid.week_le
  · rw [back]
    exact valid.limits
  · rw [back]

/-! ## Times -/

/-- What may stand behind a time. -/
def StopsTime (rest : List UChar) : Prop :=
  ∀ c ∈ rest.head?, c ≠ 0x3A ∧ c ≠ 0x2E ∧ isASCIIDigit c = false

theorem Reads.getElem? (reads : Reads src index text rest) :
    src[index]? = (text ++ rest).head? := by
  rw [← Nat.add_zero index, ← List.getElem?_drop, reads, List.head?_eq_getElem?]

theorem parseFraction_none (other : src[index]? ≠ some 0x2E) :
    parseFraction src index = (0, index) := by
  rw [parseFraction, if_neg other]

theorem parseFraction_text {millisecond : Int}
    (reads : Reads src index (ascii "." ++ formatNumber 3 millisecond) rest)
    (nonneg : 0 ≤ millisecond) (small : millisecond ≤ 999) (stops : StopsTime rest) :
    parseFraction src index = (millisecond.toNat, index + 4) := by
  obtain ⟨n, rfl⟩ := Int.eq_ofNat_of_zero_le nonneg
  have digits := reads.advance
  rw [formatNumber_natCast] at digits
  have three : (paddedDigits 3 n).length = 3 := length_paddedDigits_of_lt (by omega) (by decide)
  have counted := countDigits_digits digits fun c first => (stops c first).2.2
  have read := toInt_digits digits (paddedDigits_ne_nil 3 n)
    (by rw [numeral_paddedDigits, intMax]; omega)
  rw [three] at counted read
  rw [numeral_paddedDigits] at read
  have dot : (ascii ".").length = 1 := rfl
  rw [dot] at counted read
  have here : src[index]? = some 0x2E := reads.append.head
  simp [parseFraction, here, counted, read]

/-- The seconds that `toStringForTime` writes behind the minutes. -/
def secondsText (value : DateComponents) (format : SecondFormat) : List UChar :=
  if value.millisecond ≠ 0 ∨ format = .millisecond then
    ascii ":" ++ formatNumber 2 value.second ++ (ascii "." ++ formatNumber 3 value.millisecond)
  else if value.second ≠ 0 ∨ format = .second then
    ascii ":" ++ formatNumber 2 value.second
  else []

/-- The hours and the minutes. -/
def minutesText (value : DateComponents) : List UChar :=
  formatNumber 2 value.hour ++ ascii ":" ++ formatNumber 2 value.minute

theorem toStringForTime_eq (value : DateComponents) (format : SecondFormat) :
    value.toStringForTime format = minutesText value ++ secondsText value format := by
  by_cases fraction : value.millisecond = 0 <;> by_cases whole : value.second = 0 <;>
    cases format <;> simp [toStringForTime, minutesText, secondsText, fraction, whole]

theorem parseSeconds_text {format : SecondFormat} (valid : ValidTime value)
    (reads : Reads src index (secondsText value format) rest) (stops : StopsTime rest) :
    parseSeconds src index = (value.second.toNat, value.millisecond.toNat,
      index + (secondsText value format).length) := by
  have secondNonneg := valid.second_ge
  have secondSmall := valid.second_le
  have small : value.second.toNat ≤ 59 := by omega
  have lengthTwo := length_two value.second (by omega) (by omega)
  have lengthColon : (ascii ":").length = 1 := rfl
  unfold secondsText at reads ⊢
  split at reads
  case isTrue fraction =>
    have lengthThree := length_formatNumber 3 valid.millisecond_ge
      (by have := valid.millisecond_le; omega) (by decide)
    have lengthDot : (ascii ".").length = 1 := rfl
    have inside := reads.length_le (by rw [List.append_assoc]; exact List.cons_ne_nil _ _)
    have second := toInt_two reads.append.advance (by omega) (by omega)
    have milliseconds := parseFraction_text reads.advance valid.millisecond_ge
      valid.millisecond_le stops
    simp only [List.length_append, lengthTwo, lengthColon, lengthThree, lengthDot,
      ← Nat.add_assoc] at second milliseconds inside
    rw [parseSeconds, if_pos ⟨by omega, reads.append.append.head⟩, second]
    simp only [if_pos small, if_pos fraction, milliseconds, List.length_append, lengthTwo,
      lengthColon, lengthThree, lengthDot]
  case isFalse noFraction =>
    have zero : value.millisecond = 0 := by
      by_contra nonzero
      exact noFraction (.inl nonzero)
    split at reads
    case isTrue whole =>
      have inside := reads.length_le (List.cons_ne_nil _ _)
      have second := toInt_two reads.advance (by omega) (by omega)
      have noDot : src[index + 3]? ≠ some 0x2E := by
        have here := reads.after.getElem?
        rw [List.length_append, lengthTwo, lengthColon, List.append_nil] at here
        rw [here]
        intro dot
        exact (stops _ dot).2.1 rfl
      rw [List.length_append, lengthTwo, lengthColon] at inside
      rw [parseSeconds, if_pos ⟨by omega, reads.append.head⟩, ← lengthColon, second]
      simp only [if_pos small, if_neg noFraction, if_pos whole, parseFraction_none noDot,
        List.length_append, lengthTwo, lengthColon]
      rw [zero]
      rfl
    case isFalse noSecond =>
      have whole : value.second = 0 := by
        by_contra nonzero
        exact noSecond (.inl nonzero)
      have noColon : src[index]? ≠ some 0x3A := by
        rw [reads.getElem?]
        intro colon
        exact (stops _ colon).1 rfl
      rw [parseSeconds, if_neg fun both => noColon both.2, if_neg noFraction, if_neg noSecond,
        zero, whole]
      rfl

theorem parseTime_text {format : SecondFormat} (valid : ValidTime value)
    (reads : Reads src start (value.toStringForTime format) rest) (stops : StopsTime rest) :
    this.parseTime src start =
      some ({ this with
        hour := value.hour, minute := value.minute, second := value.second,
        millisecond := value.millisecond, type := .time },
        start + (value.toStringForTime format).length) := by
  have hourNonneg := valid.hour_ge
  have hourSmall := valid.hour_le
  have minuteNonneg := valid.minute_ge
  have minuteSmall := valid.minute_le
  have secondNonneg := valid.second_ge
  have millisecondNonneg := valid.millisecond_ge
  rw [toStringForTime_eq] at reads ⊢
  have lengthHour := length_two value.hour (by omega) (by omega)
  have lengthMinute := length_two value.minute (by omega) (by omega)
  have lengthColon : (ascii ":").length = 1 := rfl
  have lengthMinutes : (minutesText value).length = 5 := by
    simp only [minutesText, List.length_append, lengthHour, lengthMinute, lengthColon]
  have seconds := parseSeconds_text valid reads.advance stops
  have minutes := reads.append
  rw [minutesText] at minutes
  have hour := toInt_two minutes.append.append (by omega) (by omega)
  have colon := minutes.append.advance.head
  have minute := toInt_two minutes.advance (by omega) (by omega)
  rw [lengthMinutes] at seconds
  simp only [List.length_append, lengthHour, lengthColon] at colon minute
  refine parseTime_iff.mpr ⟨_, _, value.second.toNat, value.millisecond.toNat, hour, by omega,
    colon, minute, by omega, ?_, ?_⟩
  · rw [seconds, List.length_append, lengthMinutes, ← Nat.add_assoc]
  · apply DateComponents.ext <;> simp only [] <;> omega

/-! ## Dates with times -/

/-- The fields of a date and a time together. -/
structure ValidDateTime (c : DateComponents) : Prop extends ValidDate c, ValidTime c where
  dateTimeLimits : withinHTMLDateTimeLimits c.year c.month c.monthDay c.hour c.minute c.second
    c.millisecond

/-- All fields of a date and a time are taken over. -/
def withDateTime (this value : DateComponents) (type : ComponentsType) : DateComponents :=
  { this with
    year := value.year, month := value.month, monthDay := value.monthDay,
    hour := value.hour, minute := value.minute, second := value.second,
    millisecond := value.millisecond, type := type }

theorem parseDateTimeLocal_text {format : SecondFormat} (valid : ValidDateTime value)
    (reads : Reads src start
      (value.toStringForDate ++ ascii "T" ++ value.toStringForTime format) rest)
    (stops : StopsTime rest) :
    this.parseDateTimeLocal src start = some (this.withDateTime value .dateTimeLocal,
      start + (value.toStringForDate ++ ascii "T" ++ value.toStringForTime format).length) := by
  have date : this.parseDate src start = _ :=
    parseDate_text valid.toValidDate reads.append.append
  have lengthT : (ascii "T").length = 1 := rfl
  have time := reads.advance
  rw [List.length_append, lengthT, ← Nat.add_assoc] at time
  rw [List.length_append, List.length_append, lengthT, ← Nat.add_assoc, ← Nat.add_assoc]
  exact parseDateTimeLocal_iff.mpr ⟨_, _, _, date, reads.append.advance.head,
    parseTime_text valid.toValidTime time stops, valid.dateTimeLimits, rfl⟩

theorem parseDateTime_text {format : SecondFormat} (valid : ValidDateTime value)
    (reads : Reads src start
      (value.toStringForDate ++ ascii "T" ++ value.toStringForTime format ++ ascii "Z") rest) :
    this.parseDateTime src start = some (this.withDateTime value .dateTime,
      start + (value.toStringForDate ++ ascii "T" ++ value.toStringForTime format ++
        ascii "Z").length) := by
  have date : this.parseDate src start = _ :=
    parseDate_text valid.toValidDate reads.append.append.append
  have lengthT : (ascii "T").length = 1 := rfl
  have lengthZ : (ascii "Z").length = 1 := rfl
  have time := reads.append.advance
  have zone := reads.advance.head
  simp only [List.length_append, lengthT, ← Nat.add_assoc] at time zone
  refine parseDateTime_iff.mpr ⟨_, _, _, _, _, date, reads.append.append.advance.head,
    parseTime_text valid.toValidTime time ?_, parseTimeZone_iff.mpr (.inl ⟨?_, rfl, ?_⟩), ?_, rfl⟩
  · rintro c ⟨⟩
    decide
  · exact zone
  · simp only [List.length_append, lengthT, lengthZ, ← Nat.add_assoc]
  · exact valid.dateTimeLimits

end NetRider.Platform.DateComponents
