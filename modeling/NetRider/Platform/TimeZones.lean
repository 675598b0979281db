import NetRider.Platform.DateLimits

/-!
# Time zones

Moving a date and a time by an offset carries minutes into hours and hours into days.
-/

namespace NetRider.Platform.DateComponents

open NetRider.Lib NetRider.Wtf NetRider.Wtf.DateMath

variable {this moved : DateComponents} {date : CivilDate}

/-! ## Days -/

/-- A result of the loops of `addDay`. -/
def fieldsOf (date : CivilDate) : Int × Int × Int := (date.year, date.month, date.day)

/-- One turn of the loop goes on to the next date. -/
theorem laterDay_next (days : Nat) (date : CivilDate) :
    laterDay (days + 1) date.year date.month date.day (maxDayOfMonth date.year date.month) =
      laterDay days date.next.year date.next.month date.next.day
        (maxDayOfMonth date.next.year date.next.month) := by
  have inYear := date.month_lt
  have inMonth := date.day_le
  have most := maxDayOfMonth_eq date.year inYear
  rw [laterDay, CivilDate.next]
  dsimp only
  by_cases more : date.day < monthLength (leap date.year) date.month
  · rw [dif_pos more, if_neg (by omega)]
    push_cast
    rfl
  · rw [dif_neg more, if_pos (by omega)]
    by_cases later : date.month + 1 < 12
    · rw [dif_pos later, if_neg (by omega)]
      simp only [CivilDate.firstOfMonth, Nat.cast_add, Nat.cast_one]
    · rw [dif_neg later, if_pos (by omega)]
      rfl

theorem laterDay_eq (days : Nat) (date : CivilDate) :
    ∃ later : CivilDate, later.number = date.number + days ∧
      laterDay days date.year date.month date.day (maxDayOfMonth date.year date.month) =
        fieldsOf later := by
  induction days generalizing date with
  | zero => exact ⟨date, by simp, rfl⟩
  | succ days ih =>
    obtain ⟨later, number, fields⟩ := ih date.next
    rw [CivilDate.number_next] at number
    exact ⟨later, by omega, (laterDay_next days date).trans fields⟩

/-- One turn of the loop goes back to the date before. -/
theorem earlierDay_next (days : Nat) (date : CivilDate) :
    earlierDay (days + 1) date.next.year date.next.month date.next.day =
      earlierDay days date.year date.month date.day := by
  have inYear := date.month_lt
  have inMonth := date.day_le
  have counted := date.day_pos
  have most := maxDayOfMonth_eq date.year inYear
  rw [earlierDay, CivilDate.next]
  by_cases more : date.day < monthLength (leap date.year) date.month
  · simp only [dif_pos more]
    rw [if_neg (by push_cast; omega)]
    push_cast
    rw [Int.add_sub_cancel]
  · have last : monthLength (leap date.year) date.month = date.day := by omega
    rw [last] at most
    simp only [dif_neg more]
    by_cases later : date.month + 1 < 12
    · simp only [dif_pos later, CivilDate.firstOfMonth]
      rw [if_pos (by decide), if_neg (by omega)]
      push_cast
      rw [Int.add_sub_cancel, most]
    · have december : (date.month : Int) = 11 := by omega
      rw [december] at most ⊢
      simp only [dif_neg later, CivilDate.newYear, CivilDate.firstOfMonth]
      rw [if_pos (by decide), if_pos (by decide), Int.add_sub_cancel, most]

theorem earlierDay_eq (days : Nat) (date : CivilDate) :
    ∃ earlier : CivilDate, earlier.number = date.number - days ∧
      earlierDay days date.year date.month date.day = fieldsOf earlier := by
  induction days generalizing date with
  | zero => exact ⟨date, by simp, rfl⟩
  | succ days ih =>
    obtain ⟨yesterday, rfl⟩ := date.exists_next_eq
    obtain ⟨earlier, number, fields⟩ := ih yesterday
    rw [CivilDate.number_next]
    exact ⟨earlier, by omega, (earlierDay_next days yesterday).trans fields⟩

/-- The date fields are those of a date. -/
structure HasDate (c : DateComponents) (date : CivilDate) : Prop where
  year : c.year = date.year
  month : c.month = date.month
  monthDay : c.monthDay = date.day

/-- `addDay` moves the date and nothing else, and checks the limits. -/
theorem addDay_some {dayDiff : Int} (dated : HasDate this date)
    (added : this.addDay dayDiff = some moved) :
    ∃ later : CivilDate, later.number = date.number + dayDiff ∧
      moved = { this with year := later.year, month := later.month, monthDay := later.day } ∧
      withinHTMLDateLimits later.year later.month later.day := by
  have inMonth := date.day_le
  have most := maxDayOfMonth_eq date.year date.month_lt
  -- the three ways to the same date
  have found : ∃ later : CivilDate, later.number = date.number + dayDiff ∧
      (if date.day + dayDiff > maxDayOfMonth date.year date.month then
        laterDay dayDiff.toNat date.year date.month date.day
          (maxDayOfMonth date.year date.month)
      else if date.day + dayDiff < 1 then
        earlierDay (-dayDiff).toNat date.year date.month date.day
      else (date.year, (date.month : Int), date.day + dayDiff)) = fieldsOf later := by
    split
    case isTrue past =>
      obtain ⟨later, number, fields⟩ := laterDay_eq dayDiff.toNat date
      exact ⟨later, by omega, fields⟩
    case isFalse inside =>
      split
      case isTrue before =>
        obtain ⟨earlier, number, fields⟩ := earlierDay_eq (-dayDiff).toNat date
        exact ⟨earlier, by omega, fields⟩
      case isFalse within =>
        refine ⟨{ date with
          day := (date.day + dayDiff).toNat
          day_pos := by omega
          day_le := by omega }, ?_, ?_⟩
        · have counted := date.day_pos
          simp only [CivilDate.number, CivilDate.yearDay]
          omega
        · simp only [fieldsOf, Prod.mk.injEq, true_and]
          omega
  obtain ⟨later, number, fields⟩ := found
  rw [addDay, dated.year, dated.month, dated.monthDay] at added
  simp only [fields, fieldsOf] at added
  split at added
  · exact ⟨later, number, (Option.some.inj added).symm, ‹_›⟩
  · cases added

/-! ## Minutes -/

/-- The minute that the fields name, counted from the start of 1970-01-01. -/
def minuteNumber (c : DateComponents) (date : CivilDate) : Int :=
  1440 * date.number + 60 * c.hour + c.minute

/-- `that` is `this` moved by an offset: to the date and the minute that are so much later. -/
structure MovedBy (this : DateComponents) (date : CivilDate) (offset : Int)
    (that : DateComponents) (later : CivilDate) : Prop where
  minutes : that.minuteNumber later = this.minuteNumber date + offset
  hour_ge : 0 ≤ that.hour
  hour_le : that.hour ≤ 23
  minute_ge : 0 ≤ that.minute
  minute_le : that.minute ≤ 59
  fields : that = { this with
    year := later.year, month := later.month, monthDay := later.day,
    hour := that.hour, minute := that.minute }

/-- The offset stays within the day. -/
theorem movedBy_sameDay {hour minute offset : Int} (dated : HasDate this date)
    (same : 60 * hour + minute = 60 * this.hour + this.minute + offset)
    (hour_ge : 0 ≤ hour) (hour_le : hour ≤ 23) (minute_ge : 0 ≤ minute) (minute_le : minute ≤ 59) :
    MovedBy this date offset { this with minute := minute, hour := hour } date where
  minutes := by
    simp only [minuteNumber]
    omega
  hour_ge := hour_ge
  hour_le := hour_le
  minute_ge := minute_ge
  minute_le := minute_le
  fields := by rw [← dated.year, ← dated.month, ← dated.monthDay]

theorem addHour_some {carry minute offset : Int} (dated : HasDate this date)
    (minute_ge : 0 ≤ minute) (minute_le : minute ≤ 59)
    (carried : 60 * carry + minute = this.minute + offset)
    (added : this.addHour carry minute = some moved) :
    ∃ later, MovedBy this date offset moved later := by
  unfold addHour at added
  have quotient (n : Int) (nonneg : 0 ≤ n) : n.tdiv 24 = n / 24 :=
    Int.tdiv_eq_ediv_of_nonneg nonneg
  have remainder (n : Int) (nonneg : 0 ≤ n) : n.tmod 24 = n % 24 :=
    Int.tmod_eq_emod_of_nonneg nonneg
  -- the day is moved by what the hours carry
  have days {carryDays hour : Int} {later : DateComponents}
      (hours : 24 * carryDays + hour = this.hour + carry) (hour_ge : 0 ≤ hour) (hour_le : hour ≤ 23)
      (day : this.addDay carryDays = some later)
      (same : { later with minute := minute, hour := hour } = moved) :
      ∃ later, MovedBy this date offset moved later := by
    obtain ⟨date', number, rfl, -⟩ := addDay_some dated day
    subst same
    refine ⟨date', ?_, hour_ge, hour_le, minute_ge, minute_le, rfl⟩
    simp only [minuteNumber]
    omega
  simp only at added
  split at added
  case isTrue past =>
    rw [quotient _ (by omega), remainder _ (by omega), Option.bind_eq_bind,
      Option.bind_eq_some_iff] at added
    obtain ⟨later, day, rest⟩ := added
    split at rest
    · cases rest
    · exact days (by omega) (by omega) (by omega) day (Option.some.inj rest)
  case isFalse notPast =>
    split at added
    case isTrue before =>
      rw [quotient _ (by omega), Option.bind_eq_bind, Option.bind_eq_some_iff] at added
      obtain ⟨later, day, rest⟩ := added
      split at rest
      · cases rest
      · exact days (by omega) (by omega) (by omega) day (Option.some.inj rest)
    case isFalse within =>
      split at added
      case isFalse => cases added
      case isTrue limits =>
        obtain rfl := Option.some.inj added
        exact ⟨date, movedBy_sameDay dated (by omega) (by omega) (by omega) minute_ge minute_le⟩

/-- **An offset is carried from the minutes to the date.** -/
theorem addMinute_some {offset : Int} (dated : HasDate this date) (hour_ge : 0 ≤ this.hour)
    (hour_le : this.hour ≤ 23) (added : this.addMinute offset = some moved) :
    ∃ later, MovedBy this date offset moved later := by
  unfold addMinute at added
  simp only at added
  split at added
  case isTrue past =>
    rw [Int.tdiv_eq_ediv_of_nonneg (by omega), Int.tmod_eq_emod_of_nonneg (by omega)] at added
    exact addHour_some dated (by omega) (by omega) (by omega) added
  case isFalse notPast =>
    split at added
    case isTrue before =>
      rw [Int.tdiv_eq_ediv_of_nonneg (by omega)] at added
      exact addHour_some dated (by omega) (by omega) (by omega) added
    case isFalse within =>
      split at added
      case isFalse => cases added
      case isTrue limits =>
        obtain rfl := Option.some.inj added
        exact ⟨date, movedBy_sameDay dated (by omega) hour_ge hour_le (by omega) (by omega)⟩

end NetRider.Platform.DateComponents
