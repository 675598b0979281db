import NetRider.Platform.Decimal

/-!
# Rounding decimals to integers

`ceiling` and `floor` keep one digit behind the point and look at nothing else of what they drop.
-/

namespace NetRider.Platform

open DecimalPrivate

namespace Decimal

/-- `ceiling` and `floor`: numbers of sign `away` are rounded away from zero, and `unit` is the
result for a small one. -/
def roundAway (away : Sign) (unit x : Decimal) : Decimal :=
  if x.isSpecial then x
  else if 0 ≤ x.exponent then x
  else
    let numberOfDigits := countDigits x.coefficient
    let numberOfDropDigits := (-x.exponent).toNat
    if numberOfDigits < numberOfDropDigits then
      if x.sign = away then unit else zero .positive
    else
      let result := scaleDown x.coefficient (numberOfDropDigits - 1)
      let result := if x.sign = away ∧ result % 10 > 0 then result + 10 else result
      make x.sign 0 (result / 10)

def ceiling : Decimal → Decimal := roundAway .positive (ofInt 1)

def floor : Decimal → Decimal := roundAway .negative (ofInt (-1))

/-- Both are finite, and the nearest integers. -/
def RoundsRightly (x : Decimal) : Prop :=
  x.floor.isFinite ∧ x.ceiling.isFinite ∧ x.floor.toRat = ⌊x.toRat⌋ ∧ x.ceiling.toRat = ⌈x.toRat⌉

/-- No digit is dropped, or the number is not zero and the digits that are dropped unseen are
zeros, or the last one before them is not, or it has fewer digits than are dropped. -/
def DropsSafely (x : Decimal) : Prop :=
  0 ≤ x.exponent ∨ x.coefficient ≠ 0 ∧
    (x.coefficient < 10 ^ ((-x.exponent).toNat - 1) ∨
      x.coefficient / 10 ^ ((-x.exponent).toNat - 1) % 10 ≠ 0 ∨
      x.coefficient % 10 ^ ((-x.exponent).toNat - 1) = 0)

/-! ## The coefficient of the result -/

/-- The result for a number that is rounded away from zero, by `10 ^ (n + 1)`. -/
def roundedUp (c n : Nat) : Nat :=
  if c < 10 ^ n then 1 else c / 10 ^ n / 10 + if c / 10 ^ n % 10 > 0 then 1 else 0

theorem ceil_div_eq_iff {c d z : Nat} (positive : 0 < d) :
    ((z : Nat) : ℚ) = ⌈(c : ℚ) / d⌉ ↔ z * d < c + d ∧ c ≤ z * d := by
  have unit : (0 : ℚ) < d := by exact_mod_cast positive
  have ceil : (z : ℚ) = ⌈(c : ℚ) / d⌉ ↔ ⌈(c : ℚ) / d⌉ = (z : Int) := by
    rw [eq_comm]
    exact_mod_cast Iff.rfl
  rw [ceil, Int.ceil_eq_iff, lt_div_iff₀ unit, div_le_iff₀ unit, Int.cast_natCast, sub_one_mul,
    sub_lt_iff_lt_add]
  exact_mod_cast Iff.rfl

theorem floor_div_eq (c d : Nat) : ⌊(c : ℚ) / d⌋ = (c / d : Nat) := by
  rw [← Nat.floor_div_eq_div (K := ℚ), ← Int.natCast_floor_eq_floor (by positivity)]

/-- Rounding away is right unless a zero digit hides others. -/
theorem roundedUp_eq_ceil_iff (c n : Nat) :
    ((roundedUp c n : Nat) : ℚ) = ⌈(c : ℚ) / (10 ^ (n + 1) : Nat)⌉ ↔
      c ≠ 0 ∧ (c < 10 ^ n ∨ c / 10 ^ n % 10 ≠ 0 ∨ c % 10 ^ n = 0) := by
  rw [ceil_div_eq_iff (by positivity), pow_succ, roundedUp]
  have positive : 0 < 10 ^ n := by positivity
  generalize 10 ^ n = p at *
  have parts := Nat.div_add_mod c p
  have small := Nat.mod_lt c positive
  by_cases few : c < p
  · rw [if_pos few]
    simp only [few, true_or, and_true]
    omega
  · have some : c ≠ 0 := by omega
    rw [if_neg few]
    simp only [few, false_or, some, ne_eq, not_false_eq_true, true_and]
    generalize c / p = r at *
    generalize c % p = rest at *
    obtain ⟨q, digit, value, range⟩ : ∃ q digit, r = 10 * q + digit ∧ digit < 10 :=
      ⟨r / 10, r % 10, (Nat.div_add_mod r 10).symm, Nat.mod_lt _ (by decide)⟩
    have whole : r / 10 = q := by omega
    have last : r % 10 = digit := by omega
    have product : c = 10 * (q * p) + digit * p + rest := by
      rw [← parts, value]
      ring
    rw [whole, last]
    by_cases zero : digit = 0
    · subst zero
      simp only [gt_iff_lt, lt_irrefl, if_false, add_zero, not_true_eq_false, false_or]
      have scaled : q * (p * 10) = 10 * (q * p) := by ring
      rw [scaled, product]
      omega
    · have more : p ≤ digit * p := Nat.le_mul_of_pos_left _ (Nat.pos_of_ne_zero zero)
      have less : digit * p ≤ 9 * p := Nat.mul_le_mul_right _ (by omega)
      have scaled : (q + 1) * (p * 10) = 10 * (q * p) + 10 * p := by ring
      rw [if_pos (Nat.pos_of_ne_zero zero), scaled, product]
      refine iff_of_true ⟨by omega, by omega⟩ (.inl zero)

variable {x : Decimal} {away : Sign} {unit : Decimal}

/-- The factor of a sign. -/
def signFactor (sign : Sign) : ℚ := if sign = .negative then -1 else 1

theorem signFactor_positive : signFactor .positive = 1 := rfl

theorem toRat_eq (x : Decimal) : x.toRat = signFactor x.sign * x.magnitude := by
  cases same : x.sign <;> simp [toRat, isNegative, signFactor, same]

/-- A number with digits behind the point. -/
theorem magnitude_div {n : Nat} (fraction : x.exponent = -(n + 1)) :
    x.magnitude = (x.coefficient : ℚ) / (10 ^ (n + 1) : Nat) := by
  have exponent : x.exponent = -((n + 1 : Nat) : Int) := by
    rw [fraction]
    push_cast
    ring
  rw [magnitude, exponent, zpow_neg, zpow_natCast, div_eq_mul_inv]
  push_cast
  rfl

theorem toRat_make {sign : Sign} {coefficient : Nat} (fits : coefficient ≤ maxCoefficient) :
    (make sign 0 coefficient).isFinite ∧
      (make sign 0 coefficient).toRat = signFactor sign * coefficient := by
  obtain ⟨value, exponent, finite⟩ := @make_eq sign 0 coefficient (by decide) (by decide) fits
  refine ⟨finite, ?_⟩
  rw [toRat_eq, make_sign, magnitude, value, exponent, zpow_zero, mul_one]

theorem toRat_zero (sign : Sign) : (zero sign).toRat = 0 := by
  rw [toRat_eq, magnitude]
  simp [zero, special]

/-- What rounding yields for a number with digits behind the point. -/
theorem roundAway_spec {n : Nat} (finite : x.isFinite) (fraction : x.exponent = -(n + 1))
    (unitFinite : unit.isFinite) (unitValue : unit.toRat = signFactor away) :
    (roundAway away unit x).isFinite ∧
      (roundAway away unit x).toRat = signFactor x.sign *
        ((if x.sign = away then roundedUp x.coefficient n
          else x.coefficient / 10 ^ (n + 1) : Nat) : ℚ) := by
  have special : x.isSpecial = false := by rw [← Bool.not_eq_true', ← isFinite, finite]
  have negative : ¬ 0 ≤ x.exponent := by omega
  have drop : (-x.exponent).toNat = n + 1 := by omega
  have few : countDigits x.coefficient < n + 1 ↔ x.coefficient < 10 ^ n := by
    rw [Nat.lt_succ_iff, countDigits_le_iff x.coefficient_fits]
  have bound := x.coefficient_lt
  have size : x.coefficient / 10 ^ n / 10 ≤ x.coefficient / 10 :=
    Nat.div_le_div_right (Nat.div_le_self ..)
  unfold roundAway
  rw [special, if_neg Bool.noConfusion, if_neg negative]
  dsimp only
  rw [drop, Nat.add_sub_cancel, scaleDown_eq]
  by_cases small : x.coefficient < 10 ^ n
  · rw [if_pos (few.mpr small)]
    by_cases same : x.sign = away
    · rw [if_pos same, if_pos same, roundedUp, if_pos small, Nat.cast_one, mul_one, same]
      exact ⟨unitFinite, unitValue⟩
    · have none : x.coefficient / 10 ^ (n + 1) = 0 :=
        Nat.div_eq_of_lt (small.trans (Nat.pow_lt_pow_right (by decide) (Nat.lt_succ_self n)))
      rw [if_neg same, if_neg same, none, Nat.cast_zero, mul_zero]
      exact ⟨rfl, toRat_zero _⟩
  · rw [if_neg (mt few.mp small)]
    by_cases same : x.sign = away
    · have value : (if x.sign = away ∧ x.coefficient / 10 ^ n % 10 > 0 then
          x.coefficient / 10 ^ n + 10 else x.coefficient / 10 ^ n) / 10 =
            roundedUp x.coefficient n := by
        rw [roundedUp, if_neg small]
        by_cases rest : x.coefficient / 10 ^ n % 10 > 0
        · rw [if_pos ⟨same, rest⟩, if_pos rest, Nat.add_div_right _ (by decide)]
        · rw [if_neg fun both => rest both.2, if_neg rest, add_zero]
      rw [value, if_pos same]
      refine toRat_make ?_
      rw [← value]
      unfold maxCoefficient
      split_ifs <;> omega
    · rw [if_neg fun both => same both.1, if_neg same, Nat.div_div_eq_div_mul, ← pow_succ]
      refine toRat_make ?_
      exact (Nat.div_le_self ..).trans x.coefficient_le

/-- A number without digits behind the point stays as it is, and is an integer. -/
theorem roundAway_whole (whole : 0 ≤ x.exponent) : roundAway away unit x = x := by
  unfold roundAway
  split_ifs <;> rfl

theorem toRat_whole (whole : 0 ≤ x.exponent) : ∃ z : Int, x.toRat = z := by
  obtain ⟨n, exponent⟩ := Int.eq_ofNat_of_zero_le whole
  refine ⟨(if x.sign = .negative then -1 else 1) * (x.coefficient * 10 ^ n : Nat), ?_⟩
  rw [toRat_eq, signFactor, magnitude, exponent]
  push_cast
  split_ifs <;> simp

/-- **Floor and ceiling.** They are right for exactly the numbers whose dropped digits are safe. -/
theorem rounds_rightly_iff (finite : x.isFinite) : RoundsRightly x ↔ DropsSafely x := by
  by_cases whole : 0 ≤ x.exponent
  · obtain ⟨z, value⟩ := toRat_whole whole
    refine iff_of_true ?_ (.inl whole)
    rw [RoundsRightly, floor, ceiling, roundAway_whole whole, roundAway_whole whole, value,
      Int.floor_intCast, Int.ceil_intCast]
    exact ⟨finite, finite, rfl, rfl⟩
  · obtain ⟨n, fraction⟩ : ∃ n : Nat, x.exponent = -(n + 1) :=
      ⟨(-x.exponent).toNat - 1, by omega⟩
    have up := @toRat_make .positive 1 (by decide)
    have down := @toRat_make .negative 1 (by decide)
    rw [Nat.cast_one, mul_one] at up down
    obtain ⟨ceilingFinite, ceilingValue⟩ := roundAway_spec finite fraction up.1 up.2
    obtain ⟨floorFinite, floorValue⟩ := roundAway_spec finite fraction down.1 down.2
    have rounded := roundedUp_eq_ceil_iff x.coefficient n
    have cut := floor_div_eq x.coefficient (10 ^ (n + 1))
    have safe : DropsSafely x ↔ x.coefficient ≠ 0 ∧
        (x.coefficient < 10 ^ n ∨ x.coefficient / 10 ^ n % 10 ≠ 0 ∨
          x.coefficient % 10 ^ n = 0) := by
      have drop : (-x.exponent).toNat - 1 = n := by omega
      rw [DropsSafely, drop]
      exact or_iff_right whole
    rw [← magnitude_div fraction] at rounded cut
    rw [safe, ← rounded, RoundsRightly, toRat_eq x]
    change (roundAway .negative (make .negative 0 1) x).isFinite ∧
      (roundAway .positive (make .positive 0 1) x).isFinite ∧
      (roundAway .negative (make .negative 0 1) x).toRat = _ ∧
      (roundAway .positive (make .positive 0 1) x).toRat = _ ↔ _
    rw [floorValue, ceilingValue]
    cases same : x.sign
    · simp only [signFactor, reduceCtorEq, if_false, if_true, one_mul, cut, Int.cast_natCast,
        floorFinite, ceilingFinite, true_and]
    · simp only [signFactor, reduceCtorEq, if_false, if_true, neg_one_mul, Int.floor_neg,
        Int.ceil_neg, cut, Int.cast_neg, Int.cast_natCast, floorFinite, ceilingFinite, true_and,
        and_true, neg_inj]

/-- Rounding 1.5. -/
theorem rounds_rightly_iff_half :
    RoundsRightly (make .positive (-1) 15) ↔ DropsSafely (make .positive (-1) 15) :=
  rounds_rightly_iff (make_eq (by decide) (by decide) (by decide)).2.2

/-- The ceiling of 1.05 is 1. -/
theorem ceiling_misses_digit : ¬ ∀ x : Decimal, x.isFinite → RoundsRightly x := by
  intro right
  obtain ⟨coefficient, exponent, finite⟩ :=
    @make_eq .positive (-2) 105 (by decide) (by decide) (by decide)
  obtain ⟨-, -, -, value⟩ := right _ finite
  have stays : (make .positive (-2) 105).ceiling.toRat = 1 := by
    have same : (make .positive (-2) 105).ceiling = make .positive 0 1 := by decide +kernel
    rw [same, (toRat_make (by decide)).2, signFactor_positive, one_mul, Nat.cast_one]
  rw [stays, toRat_eq, make_sign, magnitude, coefficient, exponent, signFactor_positive] at value
  norm_num at value

end Decimal

end NetRider.Platform
