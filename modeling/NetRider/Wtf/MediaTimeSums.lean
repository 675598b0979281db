import NetRider.Wtf.MediaTime

/-!
# Sums of media times

`+` and `-` bring both times to a common scale first. `setTimeScale` settles on a smaller scale
when the value would not fit, so the two times need not end on the same one. Scales are positive
here; `none` still stands for undefined arithmetic.
-/

namespace NetRider.Wtf

/-! ## Checked arithmetic -/

/-- `lhs ^ rhs` is not negative. -/
def signsMatch (lhs rhs : Int) : Prop := 0 ≤ lhs ↔ 0 ≤ rhs

instance (lhs rhs : Int) : Decidable (signsMatch lhs rhs) :=
  inferInstanceAs (Decidable (_ ↔ _))

/-- `none` for an overflow that is reported. -/
def safeAdd (lhs rhs : Int) : Option Int :=
  if signsMatch lhs rhs then
    if 0 ≤ lhs then
      if 9223372036854775807 - rhs < lhs then none else some (lhs + rhs)
    else if rhs < -(lhs - -9223372036854775808) then none
    else some (lhs + rhs)
  else some (lhs + rhs)

/-- With a negative `lhs` the test refuses the least value of `int64_t`, too. -/
def safeSub (lhs rhs : Int) : Option Int :=
  if signsMatch lhs rhs then some (lhs - rhs)
  else if 0 ≤ lhs then
    if lhs > 9223372036854775807 + rhs then none else some (lhs - rhs)
  else if rhs > 9223372036854775807 + lhs then none
  else some (lhs - rhs)

/-- For a result between `min` and `max`. -/
def safeMultiply (min max lhs rhs : Int) : Option Int :=
  if signsMatch lhs rhs then
    if 0 ≤ lhs then
      if lhs ≠ 0 ∧ max.tdiv lhs < rhs then none else some (lhs * rhs)
    else if lhs = min ∨ rhs = min then none
    else if max.tdiv (-lhs) < -rhs then none
    else some (lhs * rhs)
  else if lhs < 0 then
    if rhs ≠ 0 ∧ lhs < min.tdiv rhs then none else some (lhs * rhs)
  else if lhs ≠ 0 ∧ rhs < min.tdiv lhs then none
  else some (lhs * rhs)

def greatestCommonDivisor (a b : Int) : Int :=
  if b = 0 then a else greatestCommonDivisor b (a.tmod b)
termination_by b.natAbs
decreasing_by
  rw [Int.natAbs_tmod]
  exact Nat.mod_lt _ (by omega)

def leastCommonMultiple (a b : Int) : Option Int :=
  safeMultiply (-2147483648) 2147483647 a (b.tdiv (greatestCommonDivisor a b))

def maximumTimeScale : Int := 2147483647

theorem safeMultiply_zero {min max : Int} (large : 0 ≤ max) (lhs : Int) :
    safeMultiply min max lhs 0 = some 0 := by
  by_cases sign : 0 ≤ lhs
  · have below : ¬ max.tdiv lhs < 0 := not_lt.mpr (Int.tdiv_nonneg large sign)
    simp only [safeMultiply, signsMatch, sign, le_refl, if_true, below, and_false, if_false,
      mul_zero]
  · simp [safeMultiply, signsMatch, sign, not_le.mp sign]

theorem natAbs_half {n : Int} (nonzero : n ≠ 0) : (n.tdiv 2).natAbs < n.natAbs := by
  rw [Int.natAbs_tdiv]
  exact Nat.div_lt_self (Int.natAbs_pos.mpr nonzero) (by decide)

theorem half_pos {n : Int} (positive : 0 < n) (several : n ≠ 1) : 0 < n.tdiv 2 := by
  rw [Int.tdiv_eq_ediv_of_nonneg positive.le]
  omega

/-- The loop of `setTimeScale`: the scale that it settles on, and the whole part there. -/
def settle (wholePart timeScale : Int) : Int × Int :=
  match _fits : safeMultiply (-9223372036854775808) 9223372036854775807 wholePart timeScale with
  | some newWholePart => (timeScale, newWholePart)
  | none => settle wholePart (timeScale.tdiv 2)
termination_by timeScale.natAbs
decreasing_by
  have nonzero : timeScale ≠ 0 := by
    rintro rfl
    exact absurd (_fits.symm.trans (safeMultiply_zero (by decide) wholePart)) (by simp)
  exact natAbs_half nonzero

namespace MediaTime

def invalidTime : MediaTime := ⟨-1, 1, 0, by decide, by decide⟩
def positiveInfiniteTime : MediaTime := ⟨0, 1, 5, by decide, by decide⟩
def negativeInfiniteTime : MediaTime := ⟨-1, 1, 9, by decide, by decide⟩
def indefiniteTime : MediaTime := ⟨0, 1, 17, by decide, by decide⟩

/-- The value and the scale, if they are what their types hold. -/
def assign (t : MediaTime) (timeValue timeScale : Int) : Option MediaTime :=
  if fits : InInt64 timeValue ∧ InInt32 timeScale then
    some ⟨timeValue, timeScale, t.timeFlags, fits.1, fits.2⟩
  else none

def setTimeScale (t : MediaTime) (timeScale : Int) : Option MediaTime :=
  if timeScale = t.timeScale then some t
  else do
    let wholePart ← quotient t.timeValue t.timeScale
    let settled := settle wholePart (min maximumTimeScale timeScale)
    let remainder ← remainder t.timeValue t.timeScale
    let scaled ← product remainder settled.1
    let part ← quotient scaled t.timeScale
    t.assign (settled.2 + part) settled.1

/-- The loop of `+` and `-`, with `safeAdd` or `safeSub` for `safe`. -/
def combineLoop (safe : Int → Int → Option Int) (commonTimeScale : Int)
    (positive : 0 < commonTimeScale) (a b : MediaTime) : Option MediaTime :=
  match safe a.timeValue b.timeValue with
  | some timeValue => a.assign timeValue a.timeScale
  | none =>
    if single : commonTimeScale = 1 then
      some (if a.timeValue > 0 then positiveInfiniteTime else negativeInfiniteTime)
    else do
      let a ← a.setTimeScale (commonTimeScale.tdiv 2)
      let b ← b.setTimeScale (commonTimeScale.tdiv 2)
      combineLoop safe (commonTimeScale.tdiv 2) (half_pos positive single) a b
termination_by commonTimeScale.natAbs
decreasing_by exact natAbs_half positive.ne'

def commonTimeScale (t rhs : MediaTime) : Int :=
  match leastCommonMultiple t.timeScale rhs.timeScale with
  | some common => if common > maximumTimeScale then maximumTimeScale else common
  | none => maximumTimeScale

/-- The common end of `+` and `-`. -/
def combine (safe : Int → Int → Option Int) (t rhs : MediaTime) : Option MediaTime := do
  let a ← t.setTimeScale (commonTimeScale t rhs)
  let b ← rhs.setTimeScale (commonTimeScale t rhs)
  if positive : 0 < commonTimeScale t rhs then
    combineLoop safe (commonTimeScale t rhs) positive a b
  else none

/-- `operator+`. -/
def add (t rhs : MediaTime) : Option MediaTime :=
  if rhs.isInvalid || t.isInvalid then some invalidTime
  else if rhs.isIndefinite || t.isIndefinite then some indefiniteTime
  else if t.isPositiveInfinite && rhs.isNegativeInfinite then some invalidTime
  else if t.isNegativeInfinite && rhs.isPositiveInfinite then some invalidTime
  else if t.isPositiveInfinite || rhs.isPositiveInfinite then some positiveInfiniteTime
  else if t.isNegativeInfinite || rhs.isNegativeInfinite then some negativeInfiniteTime
  else combine safeAdd t rhs

/-- `operator-`. -/
def sub (t rhs : MediaTime) : Option MediaTime :=
  if rhs.isInvalid || t.isInvalid then some invalidTime
  else if rhs.isIndefinite || t.isIndefinite then some indefiniteTime
  else if t.isPositiveInfinite && rhs.isPositiveInfinite then some invalidTime
  else if t.isNegativeInfinite && rhs.isNegativeInfinite then some invalidTime
  else if t.isPositiveInfinite || rhs.isNegativeInfinite then some positiveInfiniteTime
  else if t.isNegativeInfinite || rhs.isPositiveInfinite then some negativeInfiniteTime
  else combine safeSub t rhs

end MediaTime

/-! ## What the checks say -/

section

variable {lhs rhs : Int}

theorem safeAdd_eq (fits : InInt64 lhs) (fits' : InInt64 rhs) :
    safeAdd lhs rhs = int64 (lhs + rhs) := by
  unfold safeAdd int64
  split_ifs <;> simp only [InInt64, signsMatch] at * <;> first | rfl | (exfalso; omega)

theorem safeSub_eq (fits : InInt64 lhs) (fits' : InInt64 rhs) :
    safeSub lhs rhs =
      if -9223372036854775808 < lhs - rhs then int64 (lhs - rhs) else none := by
  unfold safeSub int64
  split_ifs <;> simp only [InInt64, signsMatch] at * <;> first | rfl | (exfalso; omega)

theorem safeMultiply_eq {min max : Int} (small : min ≤ 0) (large : 0 ≤ max) (nonneg : 0 ≤ rhs) :
    safeMultiply min max lhs rhs =
      if min ≤ lhs * rhs ∧ lhs * rhs ≤ max then some (lhs * rhs) else none := by
  by_cases sign : 0 ≤ lhs
  · have above : min ≤ lhs * rhs := small.trans (mul_nonneg sign nonneg)
    have exceeds : (lhs ≠ 0 ∧ max.tdiv lhs < rhs) ↔ max < lhs * rhs := by
      rcases sign.eq_or_lt with zero | positive
      · simp [← zero, large]
      · rw [Int.tdiv_eq_ediv_of_nonneg large, Int.ediv_lt_iff_lt_mul positive, mul_comm rhs]
        exact and_iff_right positive.ne'
    have same : signsMatch lhs rhs := iff_of_true sign nonneg
    simp only [safeMultiply, same, sign, if_true, exceeds, above, true_and, ← not_lt, ite_not]
  · have below : lhs * rhs ≤ max :=
      (mul_nonpos_of_nonpos_of_nonneg (not_le.mp sign).le nonneg).trans large
    have exceeds : (rhs ≠ 0 ∧ lhs < min.tdiv rhs) ↔ lhs * rhs < min := by
      rcases nonneg.eq_or_lt with zero | positive
      · simp [← zero, small]
      · have mirrored : min.tdiv rhs = -(-min / rhs) := by
          rw [← Int.tdiv_eq_ediv_of_nonneg (neg_nonneg.mpr small), Int.neg_tdiv, neg_neg]
        rw [mirrored, lt_neg, Int.ediv_lt_iff_lt_mul positive, neg_mul, neg_lt_neg_iff]
        exact and_iff_right positive.ne'
    have other : ¬ signsMatch lhs rhs := fun same => sign (same.mpr nonneg)
    simp only [safeMultiply, other, not_le.mp sign, if_true, if_false, exceeds, below, and_true,
      ← not_lt, ite_not]

theorem greatestCommonDivisor_eq (a b : Int) (nonneg : 0 ≤ a) (nonneg' : 0 ≤ b) :
    greatestCommonDivisor a b = Int.gcd a b := by
  fun_induction greatestCommonDivisor a b with
  | case1 a => rw [Int.gcd_zero_right, Int.natAbs_of_nonneg nonneg]
  | case2 a b nonzero ih =>
    rw [ih nonneg' (Int.tmod_nonneg b nonneg), Int.tmod_eq_emod_of_nonneg nonneg, Int.gcd_comm,
      Int.gcd_emod]

/-- The least common multiple, if it is an `int32_t`. -/
theorem leastCommonMultiple_eq {a b : Int} (positive : 0 < a) (positive' : 0 < b) :
    leastCommonMultiple a b =
      if (Int.lcm a b : Int) ≤ 2147483647 then some (Int.lcm a b : Int) else none := by
  have divides : (Int.gcd a b : Int) ∣ b := Int.gcd_dvd_right ..
  have value : a * b.tdiv (Int.gcd a b) = Int.lcm a b := by
    have nonzero : (Int.gcd a b : Int) ≠ 0 := by
      rw [Int.natCast_ne_zero, Ne, Int.gcd_eq_zero_iff]
      exact fun both => positive.ne' both.1
    have both : (Int.gcd a b : Int) * Int.lcm a b = a * b := by
      rw [← Int.natCast_mul, Int.gcd_mul_lcm, Int.natCast_mul, Int.natAbs_of_nonneg positive.le,
        Int.natAbs_of_nonneg positive'.le]
    apply mul_left_cancel₀ nonzero
    rw [both, mul_left_comm, Int.mul_tdiv_cancel' divides]
  rw [leastCommonMultiple, greatestCommonDivisor_eq a b positive.le positive'.le,
    safeMultiply_eq (by decide) (by decide) (Int.tdiv_nonneg positive'.le (by positivity)), value]
  have nonneg : (0 : Int) ≤ Int.lcm a b := Int.natCast_nonneg _
  simp [show (-2147483648 : Int) ≤ Int.lcm a b by omega]

/-- The loop ends on a scale on which the whole part fits. -/
theorem settle_spec {wholePart timeScale : Int} (positive : 0 < timeScale)
    (fits : InInt64 wholePart) :
    0 < (settle wholePart timeScale).1 ∧ (settle wholePart timeScale).1 ≤ timeScale ∧
      (settle wholePart timeScale).2 = wholePart * (settle wholePart timeScale).1 := by
  fun_induction settle wholePart timeScale with
  | case1 timeScale newWholePart product =>
    rw [safeMultiply_eq (by decide) (by decide) positive.le] at product
    split_ifs at product
    exact ⟨positive, le_rfl, (Option.some.inj product).symm⟩
  | case2 timeScale product ih =>
    rw [safeMultiply_eq (by decide) (by decide) positive.le] at product
    have several : timeScale ≠ 1 := by
      rintro rfl
      rw [mul_one] at product
      exact Option.some_ne_none _ ((if_pos fits).symm.trans product)
    have smaller := natAbs_half positive.ne'
    obtain ⟨above, below, value⟩ := ih (half_pos positive several)
    exact ⟨above, by omega, value⟩

theorem settle_of_overflow {wholePart timeScale : Int} (nonneg : 0 ≤ timeScale)
    (overflow : ¬ InInt64 (wholePart * timeScale)) :
    settle wholePart timeScale = settle wholePart (timeScale.tdiv 2) := by
  have product := (@safeMultiply_eq wholePart timeScale (-9223372036854775808)
    9223372036854775807 (by decide) (by decide) nonneg).trans (if_neg overflow)
  rw [settle]
  split
  · rename_i newWholePart found
    exact absurd (found.symm.trans product) (Option.some_ne_none _)
  · rfl

theorem settle_of_fits {wholePart timeScale : Int} (nonneg : 0 ≤ timeScale)
    (fits : InInt64 (wholePart * timeScale)) :
    settle wholePart timeScale = (timeScale, wholePart * timeScale) := by
  have product := (@safeMultiply_eq wholePart timeScale (-9223372036854775808)
    9223372036854775807 (by decide) (by decide) nonneg).trans (if_pos fits)
  rw [settle]
  split
  · rename_i newWholePart found
    rw [Option.some.inj (found.symm.trans product)]
  · rename_i missing
    exact absurd (missing.symm.trans product) (Option.some_ne_none _).symm

/-! ## Rescaling -/

/-- A value is cut off once, not part by part. -/
theorem tdiv_mul_parts {s c : Int} (positive : 0 < s) (nonneg : 0 ≤ c) (v : Int) :
    v.tdiv s * c + (v.tmod s * c).tdiv s = (v * c).tdiv s := by
  have upward (v : Int) (sign : 0 ≤ v) :
      v.tdiv s * c + (v.tmod s * c).tdiv s = (v * c).tdiv s := by
    have split : v * c = v.tdiv s * c * s + v.tmod s * c := by
      have parts := Int.tdiv_mul_add_tmod v s
      calc v * c = (v.tdiv s * s + v.tmod s) * c := by rw [parts]
        _ = v.tdiv s * c * s + v.tmod s * c := by ring
    have rest : 0 ≤ v.tmod s * c := mul_nonneg (Int.tmod_nonneg s sign) nonneg
    rw [Int.tdiv_eq_ediv_of_nonneg rest, Int.tdiv_eq_ediv_of_nonneg (mul_nonneg sign nonneg), split,
      Int.add_comm (_ * s), Int.add_mul_ediv_right _ _ positive.ne', add_comm]
  rcases le_total 0 v with sign | sign
  · exact upward v sign
  · have mirrored := upward (-v) (neg_nonneg.mpr sign)
    simp only [Int.neg_tdiv, Int.neg_tmod, neg_mul] at mirrored
    omega

/-- What is cut off is less than one unit. -/
theorem tdiv_error {s : Int} (positive : 0 < s) (v : Int) : |(v.tdiv s : ℚ) - v / s| < 1 := by
  have scale : (0 : ℚ) < s := by exact_mod_cast positive
  have parts : (v.tdiv s : ℚ) * s + v.tmod s = v := by exact_mod_cast Int.tdiv_mul_add_tmod v s
  have apart : (v.tdiv s : ℚ) - v / s = -(v.tmod s / s) := by
    rw [← parts]
    field_simp
    ring
  have less : (v.tmod s : ℚ) < s := by exact_mod_cast Int.tmod_lt_of_pos v positive
  have more : -(s : ℚ) < v.tmod s := by exact_mod_cast Int.lt_tmod_of_pos v positive
  rw [apart, abs_neg, abs_div, abs_of_pos scale, div_lt_one scale, abs_lt]
  exact ⟨more, less⟩

end

namespace MediaTime

variable {t rhs : MediaTime} {timeScale : Int}

/-- The scale on which `setTimeScale` settles. -/
def settledScale (t : MediaTime) (timeScale : Int) : Int :=
  (settle (t.timeValue.tdiv t.timeScale) timeScale).1

/-- The value on that scale, rounded toward zero. -/
def rescaledValue (t : MediaTime) (timeScale : Int) : Int :=
  (t.timeValue * t.settledScale timeScale).tdiv t.timeScale

theorem whole_mul_fits {v s : Int} (fits : InInt64 v) (positive : 0 < s) :
    InInt64 (v.tdiv s * s) := by
  have parts := Int.tdiv_mul_add_tmod v s
  unfold InInt64 at fits ⊢
  rcases le_total 0 v with sign | sign
  · have rest := Int.tmod_nonneg s sign
    have whole := mul_nonneg (Int.tdiv_nonneg sign positive.le) positive.le
    omega
  · have rest := tmod_nonpos sign s
    have whole := mul_nonpos_of_nonpos_of_nonneg (tdiv_nonpos sign positive) positive.le
    omega

theorem wholeFits (positive : 0 < t.timeScale) : InInt64 (t.timeValue.tdiv t.timeScale) := by
  have whole := quotient_defined t.valueFits positive
  by_contra beyond
  rw [quotient, if_neg positive.ne', int64, if_neg beyond] at whole
  exact Option.some_ne_none _ whole.symm

theorem settledScale_self (positive : 0 < t.timeScale) :
    t.settledScale t.timeScale = t.timeScale := by
  rw [settledScale, settle_of_fits positive.le (whole_mul_fits t.valueFits positive)]

theorem rescaledValue_self (positive : 0 < t.timeScale) :
    t.rescaledValue t.timeScale = t.timeValue := by
  rw [rescaledValue, settledScale_self positive, Int.mul_tdiv_cancel _ positive.ne']

theorem settledScale_pos (positive : 0 < t.timeScale) (target : 0 < timeScale) :
    0 < t.settledScale timeScale :=
  (settle_spec target (wholeFits positive)).1

theorem settledScale_le (positive : 0 < t.timeScale) (target : 0 < timeScale) :
    t.settledScale timeScale ≤ timeScale :=
  (settle_spec target (wholeFits positive)).2.1

theorem settledScale_fits (positive : 0 < t.timeScale) (target : 0 < timeScale)
    (small : timeScale ≤ maximumTimeScale) : InInt32 (t.settledScale timeScale) := by
  have above := settledScale_pos positive target
  have below := (settledScale_le positive target).trans small
  exact ⟨by omega, below⟩

theorem setTimeScale_eq (positive : 0 < t.timeScale) (target : 0 < timeScale)
    (small : timeScale ≤ maximumTimeScale) :
    t.setTimeScale timeScale = t.assign (t.rescaledValue timeScale) (t.settledScale timeScale) := by
  unfold setTimeScale
  split_ifs with same
  · subst same
    rw [rescaledValue_self positive, settledScale_self positive, assign,
      dif_pos ⟨t.valueFits, t.scaleFits⟩]
  · have scaled := @product_defined t.timeValue t.timeScale (t.settledScale timeScale) positive
      t.scaleFits (settledScale_fits positive target small)
    have scaledFits : InInt64 (t.timeValue.tmod t.timeScale * t.settledScale timeScale) := by
      by_contra beyond
      rw [product, int64, if_neg beyond] at scaled
      exact Option.some_ne_none _ scaled.symm
    have value := (settle_spec target (wholeFits positive)).2.2
    simp only [Option.bind_eq_bind, quotient_defined t.valueFits positive, Option.bind_some,
      remainder_defined t.valueFits positive, min_eq_right small]
    rw [← settledScale, scaled, Option.bind_some, quotient_defined scaledFits positive,
      Option.bind_some, value, ← settledScale,
      tdiv_mul_parts positive (settledScale_pos positive target).le]
    rfl

/-- The rescaled value is off by less than one unit. -/
theorem rescaledValue_error (positive : 0 < t.timeScale) (timeScale : Int) :
    |(t.rescaledValue timeScale : ℚ) - t.ratio * t.settledScale timeScale| < 1 := by
  have cut := tdiv_error positive (t.timeValue * t.settledScale timeScale)
  rwa [Int.cast_mul, mul_div_right_comm] at cut

/-- What lies between zero and a value that fits, fits. -/
theorem between_fits {x y : Int} (fits : InInt64 y) (between : 0 ≤ x ∧ x ≤ y ∨ y ≤ x ∧ x ≤ 0) :
    InInt64 x := by
  unfold InInt64 at fits ⊢
  omega

theorem whole_between {s : Int} (positive : 0 < s) (v : Int) :
    0 ≤ v.tdiv s * s ∧ v.tdiv s * s ≤ v ∨ v ≤ v.tdiv s * s ∧ v.tdiv s * s ≤ 0 := by
  have parts := Int.tdiv_mul_add_tmod v s
  rcases le_total 0 v with sign | sign
  · have rest := Int.tmod_nonneg s sign
    exact .inl ⟨mul_nonneg (Int.tdiv_nonneg sign positive.le) positive.le, by omega⟩
  · have rest := tmod_nonpos sign s
    exact .inr ⟨by omega, mul_nonpos_of_nonpos_of_nonneg (tdiv_nonpos sign positive) positive.le⟩

theorem between_mul {x y c : Int} (nonneg : 0 ≤ c)
    (between : 0 ≤ x ∧ x ≤ y ∨ y ≤ x ∧ x ≤ 0) :
    0 ≤ x * c ∧ x * c ≤ y * c ∨ y * c ≤ x * c ∧ x * c ≤ 0 := by
  rcases between with ⟨sign, below⟩ | ⟨above, sign⟩
  · exact .inl ⟨mul_nonneg sign nonneg, mul_le_mul_of_nonneg_right below nonneg⟩
  · exact .inr ⟨mul_le_mul_of_nonneg_right above nonneg,
      mul_nonpos_of_nonpos_of_nonneg sign nonneg⟩

/-- Half of a value is well inside. -/
theorem halved_bounds {v c half : Int} (fits : InInt64 v) (positive : 0 < half)
    (small : 2 * half ≤ c) :
    -4611686018427387904 ≤ (v * half).tdiv c ∧ (v * half).tdiv c < 4611686018427387904 := by
  have scale : 0 < c := by omega
  unfold InInt64 at fits
  rcases le_total 0 v with sign | sign
  · have above := Int.tdiv_nonneg (mul_nonneg sign positive.le) scale.le
    refine ⟨by omega, ?_⟩
    rw [Int.tdiv_eq_ediv_of_nonneg (mul_nonneg sign positive.le), Int.ediv_lt_iff_lt_mul scale]
    nlinarith
  · have below := tdiv_nonpos (mul_nonpos_of_nonpos_of_nonneg sign positive.le) scale
    refine ⟨?_, by omega⟩
    have mirrored : (-v * half).tdiv c < 4611686018427387904 + 1 := by
      have nonneg := mul_nonneg (neg_nonneg.mpr sign) positive.le
      rw [Int.tdiv_eq_ediv_of_nonneg nonneg, Int.ediv_lt_iff_lt_mul scale]
      nlinarith
    rw [neg_mul, Int.neg_tdiv] at mirrored
    omega

/-! ## Sums -/

/-- The smallest scale on which both times are whole. -/
def leastCommonScale (t rhs : MediaTime) : Int := Int.lcm t.timeScale rhs.timeScale

/-- Defined, and off by less than two of its own units if it is finite. -/
def Accurate (outcome : Option MediaTime) (number : ℚ) : Prop :=
  ∃ result, outcome = some result ∧
    (result.IsFinite → |result.ratio - number| < 2 / result.timeScale)

def Exact (outcome : Option MediaTime) (number : ℚ) : Prop :=
  ∃ result, outcome = some result ∧ result.IsFinite ∧ result.ratio = number

/-- On the least common scale nothing overflows; `sign` is the sign of `rhs`. -/
def Fits (t rhs : MediaTime) (sign : Int) : Prop :=
  leastCommonScale t rhs ≤ maximumTimeScale ∧
    InInt64 (t.timeValue * (leastCommonScale t rhs / t.timeScale)) ∧
    InInt64 (rhs.timeValue * (leastCommonScale t rhs / rhs.timeScale)) ∧
    InInt64 (t.timeValue * (leastCommonScale t rhs / t.timeScale) +
      sign * (rhs.timeValue * (leastCommonScale t rhs / rhs.timeScale)))

/-- Both times are rescaled to one scale without overflow, and rounded once: the first sum fits,
or nothing was rounded before it. -/
structure Together (safe : Int → Int → Option Int) (t rhs : MediaTime) : Prop where
  scale : t.settledScale (commonTimeScale t rhs) = rhs.settledScale (commonTimeScale t rhs)
  fits : InInt64 (t.rescaledValue (commonTimeScale t rhs))
  fits' : InInt64 (rhs.rescaledValue (commonTimeScale t rhs))
  once : safe (t.rescaledValue (commonTimeScale t rhs))
      (rhs.rescaledValue (commonTimeScale t rhs)) ≠ none ∨
    t.settledScale (commonTimeScale t rhs) = leastCommonScale t rhs

/-- What is used of `safeAdd` and `safeSub`: they add or subtract, and refuse nothing but an
overflow, except that a difference may not be the least value of `int64_t`. -/
structure Combines (safe : Int → Int → Option Int) (sign : Int) : Prop where
  unit : sign = 1 ∨ sign = -1
  value : ∀ {x y z : Int}, InInt64 x → InInt64 y → safe x y = some z →
    z = x + sign * y ∧ InInt64 z
  inner : ∀ {x y : Int}, InInt64 x → InInt64 y → InInt64 (x + sign * y) →
    (sign = -1 → x + sign * y ≠ -9223372036854775808) → safe x y = some (x + sign * y)

theorem safeAdd_combines : Combines safeAdd 1 := by
  refine ⟨.inl rfl, ?_, ?_⟩
  · intro x y z fits fits' sum
    rw [safeAdd_eq fits fits', int64] at sum
    split_ifs at sum with inside
    have value := Option.some.inj sum
    exact ⟨by omega, value ▸ inside⟩
  · intro x y fits fits' inside _
    rw [one_mul] at inside ⊢
    rw [safeAdd_eq fits fits', int64, if_pos inside]

theorem safeSub_combines : Combines safeSub (-1) := by
  refine ⟨.inr rfl, ?_, ?_⟩
  · intro x y z fits fits' difference
    rw [safeSub_eq fits fits', int64] at difference
    split_ifs at difference with above inside
    have value := Option.some.inj difference
    exact ⟨by omega, value ▸ inside⟩
  · intro x y fits fits' inside other
    rw [neg_one_mul, ← sub_eq_add_neg] at inside other ⊢
    have above := lt_of_le_of_ne inside.1 (other rfl).symm
    rw [safeSub_eq fits fits', int64, if_pos above, if_pos inside]

theorem leastCommonScale_pos (positive : 0 < t.timeScale) (positive' : 0 < rhs.timeScale) :
    0 < leastCommonScale t rhs := by
  have nonzero : Int.lcm t.timeScale rhs.timeScale ≠ 0 := by
    rw [Ne, Int.lcm_eq_zero_iff]
    omega
  exact Int.natCast_pos.mpr (Nat.pos_of_ne_zero nonzero)

theorem commonTimeScale_eq (positive : 0 < t.timeScale) (positive' : 0 < rhs.timeScale) :
    commonTimeScale t rhs = min (leastCommonScale t rhs) maximumTimeScale := by
  rw [commonTimeScale, leastCommonMultiple_eq positive positive', ← leastCommonScale]
  split_ifs with small
  · exact (if_neg (not_lt.mpr small)).trans (min_eq_left small).symm
  · exact (min_eq_right (not_le.mp small).le).symm

theorem commonTimeScale_pos (positive : 0 < t.timeScale) (positive' : 0 < rhs.timeScale) :
    0 < commonTimeScale t rhs := by
  rw [commonTimeScale_eq positive positive']
  exact lt_min (leastCommonScale_pos positive positive') (by decide)

theorem commonTimeScale_le (positive : 0 < t.timeScale) (positive' : 0 < rhs.timeScale) :
    commonTimeScale t rhs ≤ maximumTimeScale := by
  rw [commonTimeScale_eq positive positive']
  exact min_le_right ..

theorem assign_eq {timeValue timeScale : Int} (fits : InInt64 timeValue)
    (fits' : InInt32 timeScale) (t : MediaTime) :
    t.assign timeValue timeScale = some ⟨timeValue, timeScale, t.timeFlags, fits, fits'⟩ :=
  dif_pos ⟨fits, fits'⟩

/-- Two rescaled values, each off by less than one unit. -/
theorem combined_error {x y scale number number' sign : ℚ} (positive : 0 < scale)
    (unit : |sign| = 1) (error : |x - number * scale| < 1) (error' : |y - number' * scale| < 1) :
    |(x + sign * y) / scale - (number + sign * number')| < 2 / scale := by
  have apart : (x + sign * y) / scale - (number + sign * number') =
      (x - number * scale + sign * (y - number' * scale)) / scale := by
    field_simp
    ring
  rw [apart, abs_div, abs_of_pos positive, div_lt_div_iff_of_pos_right positive]
  calc |x - number * scale + sign * (y - number' * scale)|
      ≤ |x - number * scale| + |sign * (y - number' * scale)| := abs_add_le ..
    _ = |x - number * scale| + |y - number' * scale| := by rw [abs_mul, unit, one_mul]
    _ < 1 + 1 := add_lt_add error error'
    _ = 2 := by norm_num

section

variable {safe : Int → Int → Option Int} {sign : Int}

theorem Combines.abs_unit (combines : Combines safe sign) : |(sign : ℚ)| = 1 := by
  rcases combines.unit with rfl | rfl <;> simp

/-- The sum of two values on one scale. -/
theorem combineLoop_sum (combines : Combines safe sign) {a b : MediaTime}
    {common timeValue : Int} (positive : 0 < common)
    (sum : safe a.timeValue b.timeValue = some timeValue) :
    ∃ fits : InInt64 timeValue, combineLoop safe common positive a b =
      some ⟨timeValue, a.timeScale, a.timeFlags, fits, a.scaleFits⟩ := by
  obtain ⟨-, fits⟩ := combines.value a.valueFits b.valueFits sum
  refine ⟨fits, ?_⟩
  rw [combineLoop, sum]
  exact assign_eq fits a.scaleFits a

theorem combine_settled (positive : 0 < t.timeScale) (positive' : 0 < rhs.timeScale)
    (fits : InInt64 (t.rescaledValue (commonTimeScale t rhs)))
    (fits' : InInt64 (rhs.rescaledValue (commonTimeScale t rhs))) :
    ∃ a b : MediaTime, combine safe t rhs =
        combineLoop safe (commonTimeScale t rhs) (commonTimeScale_pos positive positive') a b ∧
      a.timeValue = t.rescaledValue (commonTimeScale t rhs) ∧
      a.timeScale = t.settledScale (commonTimeScale t rhs) ∧ a.timeFlags = t.timeFlags ∧
      b.timeValue = rhs.rescaledValue (commonTimeScale t rhs) ∧
      b.timeScale = rhs.settledScale (commonTimeScale t rhs) := by
  have target := commonTimeScale_pos positive positive'
  have small := commonTimeScale_le positive positive'
  refine ⟨⟨_, _, t.timeFlags, fits, settledScale_fits positive target small⟩,
    ⟨_, _, rhs.timeFlags, fits', settledScale_fits positive' target small⟩, ?_, rfl, rfl, rfl, rfl,
    rfl⟩
  rw [combine, setTimeScale_eq positive target small, setTimeScale_eq positive' target small,
    assign_eq fits (settledScale_fits positive target small),
    assign_eq fits' (settledScale_fits positive' target small)]
  exact dif_pos target

theorem finite_of_flags {result : MediaTime} (finite : t.IsFinite)
    (same : result.timeFlags = t.timeFlags) : result.IsFinite := by
  unfold IsFinite marks isNegativeInfinite isIndefinite isPositiveInfinite isInvalid isValid at *
  rwa [same]

/-- On half of its scale a time is well inside, and off by less than one unit. -/
theorem setTimeScale_half {a : MediaTime} (positive : 0 < a.timeScale) (several : a.timeScale ≠ 1) :
    ∃ halved : MediaTime, a.setTimeScale (a.timeScale.tdiv 2) = some halved ∧
      halved.timeScale = a.timeScale.tdiv 2 ∧ halved.timeFlags = a.timeFlags ∧
      -4611686018427387904 ≤ halved.timeValue ∧ halved.timeValue < 4611686018427387904 ∧
      |(halved.timeValue : ℚ) - a.ratio * halved.timeScale| < 1 := by
  have half := half_pos positive several
  have twice : 2 * a.timeScale.tdiv 2 ≤ a.timeScale := by
    rw [Int.tdiv_eq_ediv_of_nonneg positive.le]
    omega
  have small : a.timeScale.tdiv 2 ≤ maximumTimeScale := by
    have := a.scaleFits.2
    unfold maximumTimeScale
    omega
  have settled : a.settledScale (a.timeScale.tdiv 2) = a.timeScale.tdiv 2 := by
    have wholeFits : InInt64 (a.timeValue.tdiv a.timeScale * a.timeScale.tdiv 2) := by
      apply between_fits (whole_mul_fits a.valueFits positive)
      rcases le_total 0 a.timeValue with nonneg | negative
      · have whole := Int.tdiv_nonneg nonneg positive.le
        exact .inl ⟨by positivity, mul_le_mul_of_nonneg_left (by omega) whole⟩
      · have whole := tdiv_nonpos negative positive
        exact .inr ⟨mul_le_mul_of_nonpos_left (by omega) whole,
          mul_nonpos_of_nonpos_of_nonneg whole half.le⟩
    rw [settledScale, settle_of_fits half.le wholeFits]
  have value : a.rescaledValue (a.timeScale.tdiv 2) =
      (a.timeValue * a.timeScale.tdiv 2).tdiv a.timeScale := by
    rw [rescaledValue, settled]
  obtain ⟨above, below⟩ := halved_bounds a.valueFits half twice
  rw [← value] at above below
  have error := rescaledValue_error positive (a.timeScale.tdiv 2)
  have fits : InInt64 (a.rescaledValue (a.timeScale.tdiv 2)) := ⟨by omega, by omega⟩
  refine ⟨⟨_, _, a.timeFlags, fits, settledScale_fits positive half small⟩, ?_, settled, rfl, above,
    below, error⟩
  rw [setTimeScale_eq positive half small]
  exact assign_eq fits (settledScale_fits positive half small) a

/-- Two exact values on one scale whose sum overflows are halved once. -/
theorem combineLoop_overflow (combines : Combines safe sign) {a b : MediaTime} {common : Int}
    (positive : 0 < common) (scale : a.timeScale = common) (scale' : b.timeScale = common)
    (overflow : safe a.timeValue b.timeValue = none) :
    Accurate (combineLoop safe common positive a b) (a.ratio + sign * b.ratio) := by
  rw [combineLoop, overflow]
  dsimp only
  split_ifs with single above
  · exact ⟨_, rfl, fun finite => absurd (finite _ (List.mem_of_getElem? (i := 2) rfl)) (by decide)⟩
  · exact ⟨_, rfl, fun finite => absurd (finite _ (List.mem_of_getElem? (i := 0) rfl)) (by decide)⟩
  · obtain ⟨x, halved, xScale, xFlags, xAbove, xBelow, xError⟩ :=
      setTimeScale_half (scale ▸ positive) (scale ▸ single)
    obtain ⟨y, halved', yScale, yFlags, yAbove, yBelow, yError⟩ :=
      setTimeScale_half (scale' ▸ positive) (scale' ▸ single)
    rw [scale] at halved xScale
    rw [scale'] at halved' yScale
    have sum : safe x.timeValue y.timeValue = some (x.timeValue + sign * y.timeValue) := by
      rcases combines.unit with rfl | rfl <;>
        exact combines.inner x.valueFits y.valueFits (by unfold InInt64; omega) (by omega)
    obtain ⟨fits, result⟩ := combineLoop_sum combines (half_pos positive single) sum
    rw [halved, halved']
    refine ⟨_, result, fun _ => ?_⟩
    have half : (0 : ℚ) < x.timeScale := by
      rw [xScale]
      exact_mod_cast half_pos positive single
    rw [yScale, ← xScale] at yError
    have error := combined_error half combines.abs_unit xError yError
    simpa only [ratio, Int.cast_add, Int.cast_mul] using error

/-- A multiple of the scale on which the value fits is the scale that is settled on. -/
theorem settled_of_fits (positive : 0 < t.timeScale) {common : Int}
    (multiple : t.timeScale ∣ common) (above : 0 < common)
    (fits : InInt64 (t.timeValue * (common / t.timeScale))) :
    t.settledScale common = common ∧
      t.rescaledValue common = t.timeValue * (common / t.timeScale) := by
  have product : t.timeScale * (common / t.timeScale) = common := Int.mul_ediv_cancel' multiple
  have factor : 0 ≤ common / t.timeScale := Int.ediv_nonneg above.le positive.le
  have between := between_mul factor (whole_between positive t.timeValue)
  rw [mul_assoc, product] at between
  have settled : t.settledScale common = common := by
    rw [settledScale, settle_of_fits above.le (between_fits fits between)]
  refine ⟨settled, ?_⟩
  rw [rescaledValue, settled, Int.mul_tdiv_assoc _ multiple, Int.tdiv_eq_ediv_of_dvd multiple]

/-- Nothing is lost on a scale that is a multiple. -/
theorem ratio_settled (positive : 0 < t.timeScale) {common : Int} {a : MediaTime}
    (multiple : t.timeScale ∣ t.settledScale common) (value : a.timeValue = t.rescaledValue common)
    (scale : a.timeScale = t.settledScale common) (above : 0 < t.settledScale common) :
    a.ratio = t.ratio := by
  obtain ⟨factor, settled⟩ := multiple
  have whole : t.rescaledValue common = t.timeValue * factor := by
    rw [rescaledValue, settled, mul_left_comm, Int.mul_tdiv_cancel_left _ positive.ne']
  have nonzero : (factor : ℚ) ≠ 0 := by
    rintro zero
    rw [settled, Int.cast_eq_zero.mp zero, mul_zero] at above
    exact lt_irrefl 0 above
  rw [ratio, ratio, value, scale, whole, settled, Int.cast_mul, Int.cast_mul,
    mul_div_mul_right _ _ nonzero]

/-- **Accurate sums.** Two finite times that are rescaled together. -/
theorem combine_accurate (combines : Combines safe sign)
    (positive : 0 < t.timeScale) (positive' : 0 < rhs.timeScale)
    (together : Together safe t rhs) :
    Accurate (combine safe t rhs) (t.ratio + sign * rhs.ratio) := by
  obtain ⟨a, b, result, aValue, aScale, aFlags, bValue, bScale⟩ :=
    @combine_settled t rhs safe positive positive' together.fits together.fits'
  have target := commonTimeScale_pos positive positive'
  have half : (0 : ℚ) < a.timeScale := by
    rw [aScale]
    exact_mod_cast settledScale_pos positive target
  have error := rescaledValue_error positive (commonTimeScale t rhs)
  have error' := rescaledValue_error positive' (commonTimeScale t rhs)
  rw [← aValue, ← aScale] at error
  rw [← bValue, ← together.scale, ← aScale] at error'
  rw [result]
  cases sum : safe a.timeValue b.timeValue with
  | some timeValue =>
    obtain ⟨fits, loop⟩ := combineLoop_sum combines target sum
    obtain ⟨value, -⟩ := combines.value a.valueFits b.valueFits sum
    refine ⟨_, loop, fun _ => ?_⟩
    have bound := combined_error half combines.abs_unit error error'
    simpa only [ratio, value, Int.cast_add, Int.cast_mul] using bound
  | none =>
    have exact : t.settledScale (commonTimeScale t rhs) = leastCommonScale t rhs := by
      refine together.once.resolve_left fun accepted => ?_
      rw [← aValue, ← bValue] at accepted
      exact accepted sum
    have common : commonTimeScale t rhs = leastCommonScale t rhs := by
      refine le_antisymm ?_ ?_
      · rw [commonTimeScale_eq positive positive']
        exact min_le_left ..
      · rw [← exact]
        exact settledScale_le positive target
    have ratio_a := ratio_settled positive (exact.symm ▸ Int.dvd_lcm_left ..) aValue aScale
      (settledScale_pos positive target)
    have ratio_b := ratio_settled positive' (together.scale ▸ exact.symm ▸ Int.dvd_lcm_right ..)
      bValue bScale (settledScale_pos positive' target)
    rw [← ratio_a, ← ratio_b]
    exact combineLoop_overflow combines target (aScale.trans (exact.trans common.symm))
      (bScale.trans (together.scale.symm.trans (exact.trans common.symm))) sum

/-- **Exact sums.** Two finite times with whole values on their least common scale. -/
theorem combine_exact (combines : Combines safe sign) (finite : t.IsFinite)
    (positive : 0 < t.timeScale) (positive' : 0 < rhs.timeScale) (fits : Fits t rhs sign)
    (other : sign = -1 → t.rescaledValue (commonTimeScale t rhs) +
      sign * rhs.rescaledValue (commonTimeScale t rhs) ≠ -9223372036854775808) :
    Exact (combine safe t rhs) (t.ratio + sign * rhs.ratio) := by
  have common : commonTimeScale t rhs = leastCommonScale t rhs := by
    rw [commonTimeScale_eq positive positive', min_eq_left fits.1]
  have divides : t.timeScale ∣ leastCommonScale t rhs := Int.dvd_lcm_left ..
  have divides' : rhs.timeScale ∣ leastCommonScale t rhs := Int.dvd_lcm_right ..
  obtain ⟨-, first, second, whole⟩ := fits
  rw [← common] at divides divides' first second whole
  have target := commonTimeScale_pos positive positive'
  obtain ⟨settled, value⟩ := settled_of_fits positive divides target first
  obtain ⟨settled', value'⟩ := settled_of_fits positive' divides' target second
  rw [← value] at first whole
  rw [← value'] at second whole
  have accepted := combines.inner first second whole other
  obtain ⟨a, b, result, aValue, aScale, aFlags, bValue, bScale⟩ :=
    @combine_settled t rhs safe positive positive' first second
  have ratio_a := ratio_settled positive (settled.symm ▸ divides) aValue aScale
    (settledScale_pos positive target)
  have ratio_b := ratio_settled positive' (settled'.symm ▸ divides') bValue bScale
    (settledScale_pos positive' target)
  have same : b.timeScale = a.timeScale := by rw [bScale, settled', aScale, settled]
  rw [← aValue, ← bValue] at accepted
  obtain ⟨fits, loop⟩ := combineLoop_sum combines target accepted
  refine ⟨_, result.trans loop, finite_of_flags finite aFlags, ?_⟩
  rw [← ratio_a, ← ratio_b, ratio, ratio, ratio, same]
  push_cast
  ring

end

theorem IsFinite.flags (finite : t.IsFinite) : t.isNegativeInfinite = false ∧
    t.isIndefinite = false ∧ t.isPositiveInfinite = false ∧ t.isInvalid = false := by
  simpa [IsFinite, marks] using finite

theorem add_eq (finite : t.IsFinite) (finite' : rhs.IsFinite) :
    t.add rhs = combine safeAdd t rhs := by
  obtain ⟨a, b, c, d⟩ := finite.flags
  obtain ⟨a', b', c', d'⟩ := finite'.flags
  simp [add, a, b, c, d, a', b', c', d']

theorem sub_eq (finite : t.IsFinite) (finite' : rhs.IsFinite) :
    t.sub rhs = combine safeSub t rhs := by
  obtain ⟨a, b, c, d⟩ := finite.flags
  obtain ⟨a', b', c', d'⟩ := finite'.flags
  simp [sub, a, b, c, d, a', b', c', d']

/-- The sum is accurate, and exact where nothing overflows. -/
def AddsRightly (t rhs : MediaTime) : Prop :=
  Accurate (t.add rhs) (t.ratio + rhs.ratio) ∧
    (Fits t rhs 1 → Exact (t.add rhs) (t.ratio + rhs.ratio))

def SubtractsRightly (t rhs : MediaTime) : Prop :=
  Accurate (t.sub rhs) (t.ratio - rhs.ratio) ∧
    (Fits t rhs (-1) → Exact (t.sub rhs) (t.ratio - rhs.ratio))

/-- **Sums of media times.** Sums of finite times that are rescaled together are right, and so are
differences that are not the least value of `int64_t`. -/
theorem sums_right_together (finite : t.IsFinite) (finite' : rhs.IsFinite)
    (positive : 0 < t.timeScale) (positive' : 0 < rhs.timeScale) :
    (Together safeAdd t rhs → AddsRightly t rhs) ∧
    (Together safeSub t rhs →
      t.rescaledValue (commonTimeScale t rhs) - rhs.rescaledValue (commonTimeScale t rhs) ≠
        -9223372036854775808 →
      SubtractsRightly t rhs) := by
  have plus : t.ratio + ((1 : Int) : ℚ) * rhs.ratio = t.ratio + rhs.ratio := by
    rw [Int.cast_one, one_mul]
  have minus : t.ratio + ((-1 : Int) : ℚ) * rhs.ratio = t.ratio - rhs.ratio := by
    rw [Int.cast_neg, Int.cast_one, neg_one_mul, sub_eq_add_neg]
  rw [AddsRightly, SubtractsRightly, add_eq finite finite', sub_eq finite finite', ← plus, ← minus]
  refine ⟨fun together => ⟨?_, fun fits => ?_⟩, fun together other => ⟨?_, fun fits => ?_⟩⟩
  · exact combine_accurate safeAdd_combines positive positive' together
  · exact combine_exact safeAdd_combines finite positive positive' fits
      fun impossible => absurd impossible (by decide)
  · exact combine_accurate safeSub_combines positive positive' together
  · refine combine_exact safeSub_combines finite positive positive' fits fun _ => ?_
    rwa [neg_one_mul, ← sub_eq_add_neg]

theorem finite_ofSmall {timeValue timeScale : Int} (valueFits : InInt64 timeValue)
    (scaleFits : InInt32 timeScale) : (ofSmall timeValue timeScale valueFits scaleFits).IsFinite := by
  simp [IsFinite, marks, isNegativeInfinite, isIndefinite, isPositiveInfinite, isInvalid, isValid,
    ofSmall]

def half : MediaTime := ofSmall 1 2 (by decide) (by decide)
def third : MediaTime := ofSmall 1 3 (by decide) (by decide)

theorem sums_right_together_sixths : AddsRightly half third := by
  have sixths : commonTimeScale half third = 6 := by
    rw [commonTimeScale_eq (by decide) (by decide)]
    decide
  have first := @settled_of_fits half (by decide) 6 (by decide) (by decide) (by decide)
  have second := @settled_of_fits third (by decide) 6 (by decide) (by decide) (by decide)
  have finite : half.IsFinite := finite_ofSmall _ _
  have finite' : third.IsFinite := finite_ofSmall _ _
  refine (sums_right_together finite finite' (by decide) (by decide)).1 ⟨?_, ?_, ?_, ?_⟩
  all_goals rw [sixths]
  · rw [first.1, second.1]
  · rw [first.2]
    decide
  · rw [second.2]
    decide
  · rw [first.2, second.2]
    exact .inl (by decide)

/-- `2 ^ 62`. -/
def large : MediaTime := ofSmall 4611686018427387904 1 (by decide) (by decide)

/-- `10 ^ 9`, in thirds. -/
def inThirds : MediaTime := ofSmall 3000000000 3 (by decide) (by decide)

/-- `2 ^ 62` does not fit in thirds and keeps its scale, the other time keeps its own, and the two
values are added. -/
theorem scales_mixed : ¬ ∀ t rhs : MediaTime, t.IsFinite → rhs.IsFinite → 0 < t.timeScale →
    0 < rhs.timeScale → AddsRightly t rhs ∧ SubtractsRightly t rhs := by
  intro right
  have finite : large.IsFinite := finite_ofSmall _ _
  have finite' : inThirds.IsFinite := finite_ofSmall _ _
  obtain ⟨⟨⟨result, outcome, accurate⟩, -⟩, -⟩ := right _ _ finite finite' (by decide) (by decide)
  have thirds : commonTimeScale large inThirds = 3 := by
    rw [commonTimeScale_eq (by decide) (by decide)]
    decide
  have settled : large.settledScale 3 = 1 := by
    have whole : large.timeValue.tdiv large.timeScale = 4611686018427387904 := by decide
    have half : (3 : Int).tdiv 2 = 1 := by decide
    rw [settledScale, whole, settle_of_overflow (by decide) (by decide), half,
      settle_of_fits (by decide) (by decide)]
  have value : large.rescaledValue 3 = 4611686018427387904 := by
    rw [rescaledValue, settled]
    decide
  have value' : inThirds.rescaledValue 3 = 3000000000 :=
    (@settled_of_fits inThirds (by decide) 3 (by decide) (by decide) (by decide)).2
  have positive : 0 < large.timeScale := by decide
  have positive' : 0 < inThirds.timeScale := by decide
  obtain ⟨a, b, sum, aValue, aScale, aFlags, bValue, bScale⟩ :=
    @combine_settled large inThirds safeAdd positive positive'
      (by rw [thirds, value]; decide) (by rw [thirds, value']; decide)
  rw [thirds, value] at aValue
  rw [thirds, value'] at bValue
  rw [thirds, settled] at aScale
  have added : safeAdd a.timeValue b.timeValue = some 4611686021427387904 := by
    rw [aValue, bValue]
    decide
  obtain ⟨fits, loop⟩ := combineLoop_sum safeAdd_combines (commonTimeScale_pos positive positive')
    added
  rw [add_eq finite finite', sum, loop, Option.some.injEq] at outcome
  subst outcome
  have bound : |(4611686021427387904 : Int) / (a.timeScale : ℚ) - (large.ratio + inThirds.ratio)| <
    2 / a.timeScale := accurate (finite_of_flags finite aFlags)
  rw [aScale] at bound
  norm_num [ratio, large, inThirds, ofSmall] at bound

end MediaTime

end NetRider.Wtf
