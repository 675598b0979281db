import NetRider.Platform.Decimal

/-!
# Comparing decimals

Two decimals are compared by the sign of their difference. The operands are aligned to 18 digits
first; the one that loses digits there is smaller than the other anyway.
-/

namespace NetRider.Platform

open DecimalPrivate

namespace Decimal

structure AlignedOperands where
  lhsCoefficient : Nat
  rhsCoefficient : Nat
  exponent : Int

/-- The branch of `alignOperands` for an operand with a higher exponent than the other: the
coefficients of both and their exponent. -/
def alignHigher (higher lower : Decimal) : Nat × Nat × Int :=
  let numberOfDigits := countDigits higher.coefficient
  if numberOfDigits ≠ 0 then
    let shiftAmount := higher.exponent - lower.exponent
    let overflow := numberOfDigits + shiftAmount - precision
    if overflow ≤ 0 then
      (scaleUp higher.coefficient shiftAmount.toNat, lower.coefficient, lower.exponent)
    else
      (scaleUp higher.coefficient (shiftAmount - overflow).toNat,
        scaleDown lower.coefficient overflow.toNat, lower.exponent + overflow)
  else (higher.coefficient, lower.coefficient, lower.exponent)

def alignOperands (lhs rhs : Decimal) : AlignedOperands :=
  if lhs.exponent > rhs.exponent then
    let aligned := alignHigher lhs rhs
    ⟨aligned.1, aligned.2.1, aligned.2.2⟩
  else if lhs.exponent < rhs.exponent then
    let aligned := alignHigher rhs lhs
    ⟨aligned.2.1, aligned.1, aligned.2.2⟩
  else ⟨lhs.coefficient, rhs.coefficient, min lhs.exponent rhs.exponent⟩

/-- The end of `operator-`. -/
def subAligned (lhsSign rhsSign : Sign) (aligned : AlignedOperands) : Decimal :=
  let result :=
    if lhsSign = rhsSign then
      (aligned.lhsCoefficient + 2 ^ 64 - aligned.rhsCoefficient) % 2 ^ 64
    else (aligned.lhsCoefficient + aligned.rhsCoefficient) % 2 ^ 64
  if lhsSign = .negative ∧ rhsSign = .negative ∧ result = 0 then
    make .positive aligned.exponent 0
  else if result < 2 ^ 63 then make lhsSign aligned.exponent result
  else make (invertSign lhsSign) aligned.exponent (2 ^ 64 - result)

/-- `operator-`. -/
def sub (lhs rhs : Decimal) : Decimal :=
  if handle lhs rhs = .bothFinite then subAligned lhs.sign rhs.sign (alignOperands lhs rhs)
  else if handle lhs rhs = .bothInfinity then if lhs.sign = rhs.sign then nan else lhs
  else if handle lhs rhs = .eitherNaN then handlerValue lhs rhs
  else if handle lhs rhs = .lhsIsInfinity then lhs
  else infinity (invertSign rhs.sign)

def compareTo (lhs rhs : Decimal) : Decimal :=
  let result := sub lhs rhs
  if result.formatClass = .infinity then
    if result.isNegative then ofInt (-1) else ofInt 1
  else if result.formatClass = .zero then zero .positive
  else result

/-- `operator==`, which first looks whether both are stored alike. -/
def eq (lhs rhs : Decimal) : Bool := decide (lhs = rhs) || (compareTo lhs rhs).isZero

/-- `operator!=`. -/
def ne (lhs rhs : Decimal) : Bool :=
  if lhs = rhs then false
  else if (compareTo lhs rhs).isNaN then false
  else !(compareTo lhs rhs).isZero

/-- `operator<`. -/
def lt (lhs rhs : Decimal) : Bool :=
  if (compareTo lhs rhs).isNaN then false
  else !(compareTo lhs rhs).isZero && (compareTo lhs rhs).isNegative

/-- `operator<=`. -/
def le (lhs rhs : Decimal) : Bool :=
  if lhs = rhs then true
  else if (compareTo lhs rhs).isNaN then false
  else (compareTo lhs rhs).isZero || (compareTo lhs rhs).isNegative

/-- `operator>`. -/
def gt (lhs rhs : Decimal) : Bool :=
  if (compareTo lhs rhs).isNaN then false
  else !(compareTo lhs rhs).isZero && (compareTo lhs rhs).isPositive

/-- `operator>=`. -/
def ge (lhs rhs : Decimal) : Bool :=
  if lhs = rhs then true
  else if (compareTo lhs rhs).isNaN then false
  else (compareTo lhs rhs).isZero || !(compareTo lhs rhs).isNegative

/-! ## Alignment -/

/-- The aligned coefficients compare as the magnitudes do, and have 18 digits at most. -/
structure Aligned (x y : ℚ) (a b : Nat) (exponent : Int) : Prop where
  lt_iff : a < b ↔ x < y
  gt_iff : b < a ↔ y < x
  sum_iff : a + b = 0 ↔ x + y = 0
  small : a < 10 ^ 18
  small' : b < 10 ^ 18
  above : exponentMin ≤ exponent
  below : exponent ≤ exponentMax

variable {x y : ℚ} {a b : Nat} {exponent : Int} {lhs rhs : Decimal}

theorem Aligned.swap (aligned : Aligned x y a b exponent) : Aligned y x b a exponent :=
  ⟨aligned.gt_iff, aligned.lt_iff, by rw [add_comm b, add_comm y]; exact aligned.sum_iff,
    aligned.small', aligned.small, aligned.above, aligned.below⟩

/-- Two magnitudes over one power of ten. -/
theorem aligned_of_scaled {c d : Nat} {unit : ℚ} (positive : 0 < unit)
    (lt_iff : a < b ↔ c < d) (gt_iff : b < a ↔ d < c) (sum_iff : a + b = 0 ↔ c + d = 0)
    (small : a < 10 ^ 18) (small' : b < 10 ^ 18) (above : exponentMin ≤ exponent)
    (below : exponent ≤ exponentMax) : Aligned (c * unit) (d * unit) a b exponent := by
  refine ⟨?_, ?_, ?_, small, small', above, below⟩
  · rw [lt_iff, mul_lt_mul_iff_left₀ positive, Nat.cast_lt]
  · rw [gt_iff, mul_lt_mul_iff_left₀ positive, Nat.cast_lt]
  · rw [sum_iff, ← add_mul, mul_eq_zero_iff_right positive.ne']
    exact_mod_cast Iff.rfl

/-- Digits that are scaled up to 18 do not wrap. -/
theorem scaleUp_digits {x digits n : Nat} (bound : x < 10 ^ digits) (few : digits + n ≤ 18) :
    scaleUp x n = x * 10 ^ n ∧ x * 10 ^ n < 10 ^ 18 := by
  have small : x * 10 ^ n < 10 ^ 18 :=
    calc x * 10 ^ n < 10 ^ digits * 10 ^ n := Nat.mul_lt_mul_of_pos_right bound (by positivity)
      _ = 10 ^ (digits + n) := (pow_add ..).symm
      _ ≤ 10 ^ 18 := Nat.pow_le_pow_right (by decide) few
  exact ⟨scaleUp_eq (small.trans (by decide)), small⟩

variable {higher lower : Decimal} {shift : Nat}

theorem alignHigher_zero (none : higher.coefficient = 0) :
    alignHigher higher lower = (0, lower.coefficient, lower.exponent) := by
  have digits : countDigits higher.coefficient = 0 := by
    rw [← Nat.le_zero, countDigits_le_iff higher.coefficient_fits, none]
    decide
  rw [alignHigher, digits, none]
  rfl

/-- Everything fits into 18 digits. -/
theorem alignHigher_whole (gap : higher.exponent = lower.exponent + shift)
    (some : higher.coefficient ≠ 0) (few : countDigits higher.coefficient + shift ≤ 18) :
    alignHigher higher lower =
      (higher.coefficient * 10 ^ shift, lower.coefficient, lower.exponent) := by
  have bound := (countDigits_le_iff higher.coefficient_fits _).mp le_rfl
  have digits := (lt_countDigits_iff higher.coefficient_fits 0).mpr (Nat.pos_of_ne_zero some)
  have amount : higher.exponent - lower.exponent = shift := by omega
  have fits : (countDigits higher.coefficient : Int) + shift - precision ≤ 0 := by
    unfold precision
    omega
  rw [alignHigher, if_pos digits.ne', amount, if_pos fits, Int.toNat_natCast,
    (scaleUp_digits bound few).1]

/-- The lower operand loses digits. -/
theorem alignHigher_cut (gap : higher.exponent = lower.exponent + shift)
    (some : higher.coefficient ≠ 0) (many : 18 < countDigits higher.coefficient + shift) :
    alignHigher higher lower =
      (higher.coefficient * 10 ^ (18 - countDigits higher.coefficient),
        lower.coefficient / 10 ^ (countDigits higher.coefficient + shift - 18),
        lower.exponent + (countDigits higher.coefficient + shift - 18 : Nat)) := by
  have bound := (countDigits_le_iff higher.coefficient_fits _).mp le_rfl
  have few := (countDigits_le_iff higher.coefficient_fits 18).mpr higher.coefficient_lt
  have digits := (lt_countDigits_iff higher.coefficient_fits 0).mpr (Nat.pos_of_ne_zero some)
  have amount : higher.exponent - lower.exponent = shift := by omega
  have overflow : (countDigits higher.coefficient : Int) + shift - precision =
      (countDigits higher.coefficient + shift - 18 : Nat) := by
    unfold precision
    omega
  have rest : ((shift : Int) - (countDigits higher.coefficient + shift - 18 : Nat)).toNat =
      18 - countDigits higher.coefficient := by omega
  rw [alignHigher, if_pos digits.ne', amount]
  dsimp only
  rw [overflow, if_neg (by omega), rest, Int.toNat_natCast, scaleDown_eq,
    (scaleUp_digits bound (by omega)).1]

theorem alignHigher_aligned (order : lower.exponent < higher.exponent) :
    Aligned higher.magnitude lower.magnitude (alignHigher higher lower).1
      (alignHigher higher lower).2.1 (alignHigher higher lower).2.2 := by
  obtain ⟨shift, gap⟩ : ∃ shift : Nat, higher.exponent = lower.exponent + shift :=
    ⟨(higher.exponent - lower.exponent).toNat, by omega⟩
  have shifted : higher.magnitude =
      ((higher.coefficient * 10 ^ shift : Nat) : ℚ) * 10 ^ lower.exponent := by
    rw [magnitude, gap, zpow_add₀ (by norm_num), zpow_natCast]
    push_cast
    ring
  have unit := ten_zpow_pos lower.exponent
  have above := lower.exponent_ge
  have below := lower.exponent_le
  have below' := higher.exponent_le
  rw [shifted, magnitude]
  by_cases some : higher.coefficient = 0
  · rw [alignHigher_zero some, some, zero_mul]
    dsimp only
    exact aligned_of_scaled unit Iff.rfl Iff.rfl Iff.rfl (by decide) lower.coefficient_lt above below
  · have bound := (countDigits_le_iff higher.coefficient_fits _).mp le_rfl
    have few := (countDigits_le_iff higher.coefficient_fits 18).mpr higher.coefficient_lt
    rcases le_or_gt (countDigits higher.coefficient + shift) 18 with fits | many
    · rw [alignHigher_whole gap some fits]
      exact aligned_of_scaled unit Iff.rfl Iff.rfl Iff.rfl (scaleUp_digits bound fits).2
        lower.coefficient_lt above below
    · have digits := (lt_countDigits_iff higher.coefficient_fits 0).mpr (Nat.pos_of_ne_zero some)
      have full := (lt_countDigits_iff higher.coefficient_fits
        (countDigits higher.coefficient - 1)).mp (by omega)
      have top : 10 ^ 17 ≤ higher.coefficient * 10 ^ (18 - countDigits higher.coefficient) :=
        calc 10 ^ 17 = 10 ^ (countDigits higher.coefficient - 1) *
              10 ^ (18 - countDigits higher.coefficient) := by
              rw [← pow_add]
              congr 1
              omega
          _ ≤ _ := Nat.mul_le_mul_right _ full
      obtain ⟨cut, size⟩ : ∃ cut : Nat, countDigits higher.coefficient + shift - 18 = cut + 1 :=
        ⟨countDigits higher.coefficient + shift - 19, by omega⟩
      have lost : lower.coefficient / 10 ^ (cut + 1) < 10 ^ 17 := by
        rw [Nat.div_lt_iff_lt_mul (by positivity)]
        calc lower.coefficient < 10 ^ 17 * 10 ^ 1 := lower.coefficient_lt
          _ ≤ 10 ^ 17 * 10 ^ (cut + 1) :=
            Nat.mul_le_mul_left _ (Nat.pow_le_pow_right (by decide) (by omega))
      have larger : lower.coefficient < higher.coefficient * 10 ^ shift :=
        calc lower.coefficient < 10 ^ 17 * 10 ^ 1 := lower.coefficient_lt
          _ ≤ higher.coefficient * 10 ^ (18 - countDigits higher.coefficient) * 10 ^ (cut + 1) :=
            Nat.mul_le_mul top (Nat.pow_le_pow_right (by decide) (by omega))
          _ = higher.coefficient * 10 ^ shift := by
            rw [mul_assoc, ← pow_add]
            congr 2
            omega
      have order' := lost.trans_le top
      rw [alignHigher_cut gap some many, size]
      dsimp only
      refine aligned_of_scaled unit (iff_of_false order'.not_gt larger.not_gt)
        (iff_of_true order' larger) (iff_of_false ?_ ?_) (scaleUp_digits bound (by omega)).2
        (lost.trans (by decide)) (by omega) (by omega)
      · exact fun sum => (Nat.zero_lt_of_lt order').ne' (Nat.add_eq_zero_iff.mp sum).1
      · exact fun sum => (Nat.zero_lt_of_lt larger).ne' (Nat.add_eq_zero_iff.mp sum).1

theorem alignOperands_aligned (lhs rhs : Decimal) :
    Aligned lhs.magnitude rhs.magnitude (alignOperands lhs rhs).lhsCoefficient
      (alignOperands lhs rhs).rhsCoefficient (alignOperands lhs rhs).exponent := by
  unfold alignOperands
  split_ifs with higher lower
  · exact alignHigher_aligned higher
  · exact (alignHigher_aligned lower).swap
  · have same : lhs.exponent = rhs.exponent := by omega
    rw [magnitude, magnitude, same, min_self]
    exact aligned_of_scaled (ten_zpow_pos _) Iff.rfl Iff.rfl Iff.rfl lhs.coefficient_lt
      rhs.coefficient_lt rhs.exponent_ge rhs.exponent_le

/-! ## The difference -/

theorem toRat_positive (positive : lhs.sign = .positive) : lhs.toRat = lhs.magnitude := by
  simp [toRat, isNegative, positive]

theorem toRat_negative (negative : lhs.sign = .negative) : lhs.toRat = -lhs.magnitude := by
  simp [toRat, isNegative, negative]

/-- Signs alike: the coefficients are subtracted modulo `2 ^ 64`. -/
theorem subAligned_same {a b : Nat} (small : a < 10 ^ 18) (small' : b < 10 ^ 18) (sign : Sign)
    (exponent : Int) :
    subAligned sign sign ⟨a, b, exponent⟩ =
      if sign = .negative ∧ a = b then make .positive exponent 0
      else if b ≤ a then make sign exponent (a - b)
      else make (invertSign sign) exponent (b - a) := by
  have wrapped : (a + 2 ^ 64 - b) % 2 ^ 64 = if b ≤ a then a - b else a + 2 ^ 64 - b := by
    split_ifs <;> omega
  unfold subAligned
  dsimp only
  rw [if_pos rfl, wrapped]
  by_cases le : b ≤ a
  · have zero : a - b = 0 ↔ a = b := by omega
    have inside : a - b < 2 ^ 63 := by omega
    simp only [le, if_true, zero, inside, and_self_left]
  · have nonzero : a + 2 ^ 64 - b ≠ 0 := by omega
    have other : a ≠ b := by omega
    have outside : ¬ a + 2 ^ 64 - b < 2 ^ 63 := by omega
    have back : 2 ^ 64 - (a + 2 ^ 64 - b) = b - a := by omega
    simp only [le, if_false, nonzero, other, outside, back, and_false]

theorem subAligned_other {a b : Nat} (small : a < 10 ^ 18) (small' : b < 10 ^ 18)
    {lhsSign rhsSign : Sign} (other : lhsSign ≠ rhsSign) (exponent : Int) :
    subAligned lhsSign rhsSign ⟨a, b, exponent⟩ = make lhsSign exponent (a + b) := by
  have wrapped : (a + b) % 2 ^ 64 = a + b := by omega
  have inside : a + b < 2 ^ 63 := by omega
  have apart : ¬ (lhsSign = .negative ∧ rhsSign = .negative ∧ a + b = 0) :=
    fun both => other (both.1.trans both.2.1.symm)
  unfold subAligned
  dsimp only
  rw [if_neg other, wrapped, if_neg apart, if_pos inside]

/-- The difference of aligned coefficients: a sign, and a coefficient that is zero for equal
numbers. -/
theorem subAligned_spec {a b : Nat} {exponent : Int}
    (aligned : Aligned lhs.magnitude rhs.magnitude a b exponent) :
    ∃ (sign : Sign) (coefficient : Nat),
      subAligned lhs.sign rhs.sign ⟨a, b, exponent⟩ = make sign exponent coefficient ∧
      (coefficient = 0 ↔ lhs.toRat = rhs.toRat) ∧
      (coefficient ≠ 0 → (sign = .negative ↔ lhs.toRat < rhs.toRat)) := by
  have same := subAligned_same aligned.small aligned.small'
  have equal : a = b ↔ lhs.magnitude = rhs.magnitude := by
    rw [le_antisymm_iff, le_antisymm_iff, ← not_lt, ← not_lt, aligned.gt_iff, aligned.lt_iff, not_lt,
      not_lt]
  have nonneg := lhs.magnitude_nonneg
  have nonneg' := rhs.magnitude_nonneg
  cases lhsSign : lhs.sign <;> cases rhsSign : rhs.sign
  · rw [same, toRat_positive lhsSign, toRat_positive rhsSign, ← equal, ← aligned.lt_iff]
    by_cases le : b ≤ a
    · exact ⟨.positive, a - b, by simp [le], by omega, by simp [le]⟩
    · exact ⟨.negative, b - a, by simp [le, invertSign], by omega, by simp [not_le.mp le]⟩
  · have sum := aligned.sum_iff
    rw [subAligned_other aligned.small aligned.small' (by decide), toRat_positive lhsSign,
      toRat_negative rhsSign]
    refine ⟨.positive, a + b, rfl, ?_, fun _ => ?_⟩
    · rw [sum, eq_neg_iff_add_eq_zero]
    · exact iff_of_false (by decide) (by linarith)
  · have sum := aligned.sum_iff
    rw [subAligned_other aligned.small aligned.small' (by decide), toRat_negative lhsSign,
      toRat_positive rhsSign]
    refine ⟨.negative, a + b, rfl, ?_, fun some => ?_⟩
    · rw [sum, neg_eq_iff_add_eq_zero]
    · have positive : lhs.magnitude + rhs.magnitude ≠ 0 := fun zero => some (sum.mpr zero)
      have above := lt_of_le_of_ne (add_nonneg nonneg nonneg') positive.symm
      exact iff_of_true rfl (by linarith)
  · rw [same, toRat_negative lhsSign, toRat_negative rhsSign, neg_inj, neg_lt_neg_iff, ← equal,
      ← aligned.gt_iff]
    by_cases zero : a = b
    · exact ⟨.positive, 0, by simp [zero], by simp [zero], fun impossible => absurd rfl impossible⟩
    · by_cases le : b ≤ a
      · exact ⟨.negative, a - b, by simp [zero, le], by omega, by simp; omega⟩
      · exact ⟨.positive, b - a, by simp [zero, le, invertSign], by omega, by simp; omega⟩

theorem ofInt_isZero (i : Int) : (ofInt i).isZero ↔ i = 0 := by
  rw [ofInt, make_isZero (by decide) (by decide), Int.natAbs_eq_zero]

theorem ofInt_isNegative (i : Int) : (ofInt i).isNegative ↔ i < 0 := by
  rw [isNegative, ofInt, make_sign, decide_eq_true_iff]
  split_ifs with negative
  · exact iff_of_true rfl negative
  · exact iff_of_false nofun negative

/-- `compareTo` is zero for equal numbers, and else has the sign of the difference. -/
theorem compareTo_spec (finite : lhs.isFinite) (finite' : rhs.isFinite) :
    (compareTo lhs rhs).isNaN = false ∧
      ((compareTo lhs rhs).isZero ↔ lhs.toRat = rhs.toRat) ∧
      ((compareTo lhs rhs).isNegative ↔ lhs.toRat < rhs.toRat) := by
  have aligned := alignOperands_aligned lhs rhs
  obtain ⟨sign, coefficient, difference, zero_iff, sign_iff⟩ := subAligned_spec aligned
  have result : sub lhs rhs = make sign (alignOperands lhs rhs).exponent coefficient := by
    rw [sub, if_pos (handle_finite finite finite'), ← difference]
  have isZero := @make_isZero sign _ coefficient aligned.above aligned.below
  have signed := make_sign sign (alignOperands lhs rhs).exponent coefficient
  have number := make_isNaN sign (alignOperands lhs rhs).exponent coefficient
  rw [← result] at isZero signed number
  have negative (some : coefficient ≠ 0) :
      (sub lhs rhs).isNegative ↔ lhs.toRat < rhs.toRat := by
    rw [← sign_iff some, isNegative, signed, decide_eq_true_iff]
  unfold compareTo
  dsimp only
  by_cases infinite : (sub lhs rhs).formatClass = .infinity
  · have some : coefficient ≠ 0 := by
      rw [Ne, ← isZero, Decimal.isZero, infinite]
      decide
    rw [if_pos infinite, ← zero_iff, ← negative some]
    by_cases below : (sub lhs rhs).isNegative
    · rw [if_pos below]
      exact ⟨make_isNaN .., iff_of_false (mt (ofInt_isZero _).mp (by decide)) some,
        iff_of_true ((ofInt_isNegative _).mpr (by decide)) below⟩
    · rw [if_neg below]
      exact ⟨make_isNaN .., iff_of_false (mt (ofInt_isZero _).mp (by decide)) some,
        iff_of_false (mt (ofInt_isNegative _).mp (by decide)) below⟩
  · rw [if_neg infinite]
    by_cases none : (sub lhs rhs).formatClass = .zero
    · have zero : coefficient = 0 := by rw [← isZero, Decimal.isZero, decide_eq_true none]
      have same := zero_iff.mp zero
      rw [if_pos none]
      exact ⟨rfl, iff_of_true rfl same, iff_of_false Bool.noConfusion same.not_lt⟩
    · have some : coefficient ≠ 0 := by
        rw [Ne, ← isZero, Decimal.isZero, decide_eq_true_iff]
        exact none
      rw [if_neg none, ← zero_iff, isZero]
      exact ⟨number, Iff.rfl, negative some⟩

theorem eq_iff (finite : lhs.isFinite) (finite' : rhs.isFinite) :
    eq lhs rhs ↔ lhs.toRat = rhs.toRat := by
  rw [eq, Bool.or_eq_true, decide_eq_true_iff, (compareTo_spec finite finite').2.1]
  exact or_iff_right_of_imp (congrArg toRat)

/-- No finite decimal equals infinity or what is not a number. -/
theorem not_eq_special (special : lhs.isFinite = false) (finite : rhs.isFinite) :
    eq lhs rhs = false := by
  have other : lhs ≠ rhs := by
    rintro rfl
    exact absurd (special.symm.trans finite) Bool.noConfusion
  have kinds : rhs.formatClass ≠ .nan ∧ rhs.formatClass ≠ .infinity := by
    cases same : rhs.formatClass <;> simp_all [isFinite, isSpecial, isInfinity, isNaN]
  rw [eq, decide_eq_false other, Bool.false_or]
  cases kind : lhs.formatClass with
  | infinity =>
    have result : sub lhs rhs = lhs := by simp [sub, handle, special, kind, kinds]
    rw [compareTo, result]
    simp only [kind, if_true]
    split_ifs
    · exact Bool.eq_false_iff.mpr (mt (ofInt_isZero _).mp (by decide))
    · exact Bool.eq_false_iff.mpr (mt (ofInt_isZero _).mp (by decide))
  | nan =>
    have result : sub lhs rhs = lhs := by simp [sub, handle, handlerValue, special, kind]
    rw [compareTo, result]
    simp [kind, isZero]
  | normal | zero => simp [isFinite, isSpecial, isInfinity, isNaN, kind] at special

/-- **Exact comparison.** The six operators compare finite decimals as the numbers they stand
for. -/
theorem comparison_exact (finite : lhs.isFinite) (finite' : rhs.isFinite) :
    (lt lhs rhs ↔ lhs.toRat < rhs.toRat) ∧ (le lhs rhs ↔ lhs.toRat ≤ rhs.toRat) ∧
    (eq lhs rhs ↔ lhs.toRat = rhs.toRat) ∧ (ne lhs rhs ↔ lhs.toRat ≠ rhs.toRat) ∧
    (gt lhs rhs ↔ lhs.toRat > rhs.toRat) ∧ (ge lhs rhs ↔ lhs.toRat ≥ rhs.toRat) := by
  obtain ⟨number, isZero, isNegative⟩ := compareTo_spec finite finite'
  have isPositive : (compareTo lhs rhs).isPositive ↔ ¬ lhs.toRat < rhs.toRat := by
    rw [← isNegative, Decimal.isPositive, Decimal.isNegative]
    cases (compareTo lhs rhs).sign <;> decide
  have alike : lhs = rhs → lhs.toRat = rhs.toRat := congrArg toRat
  refine ⟨?_, ?_, ?_, ?_, ?_, ?_⟩
  · rw [lt, number, if_neg Bool.noConfusion, Bool.and_eq_true, Bool.not_eq_true',
      ← Bool.not_eq_true, isZero, isNegative]
    exact ⟨fun both => both.2, fun less => ⟨less.ne, less⟩⟩
  · unfold le
    split_ifs with same
    · exact iff_of_true rfl (alike same).le
    · exact absurd ‹_› (by rw [number]; exact Bool.noConfusion)
    · rw [Bool.or_eq_true, isZero, isNegative, or_comm, le_iff_lt_or_eq]
  · exact eq_iff finite finite'
  · unfold ne
    split_ifs with same
    · simp [alike same]
    · exact absurd ‹_› (by rw [number]; exact Bool.noConfusion)
    · rw [Bool.not_eq_true', ← Bool.not_eq_true, isZero]
  · rw [gt, number, if_neg Bool.noConfusion, Bool.and_eq_true, Bool.not_eq_true',
      ← Bool.not_eq_true, isZero, isPositive, gt_iff_lt, not_lt]
    exact ⟨fun both => lt_of_le_of_ne both.2 (Ne.symm both.1), fun less => ⟨less.ne', less.le⟩⟩
  · unfold ge
    split_ifs with same
    · exact iff_of_true rfl (alike same).ge
    · exact absurd ‹_› (by rw [number]; exact Bool.noConfusion)
    · rw [Bool.or_eq_true, Bool.not_eq_true', ← Bool.not_eq_true, isZero, isNegative, not_lt,
        ge_iff_le]
      exact ⟨fun either => either.elim Eq.ge id, Or.inr⟩

/-- The first operand loses all its digits when the two are aligned. -/
theorem comparison_exact_cut :
    lt (make .positive (-20) 999999999999999999) (make .positive 16 1) := by
  obtain ⟨coefficient, exponent, finite⟩ :=
    @make_eq .positive (-20) 999999999999999999 (by decide) (by decide) (by decide)
  obtain ⟨coefficient', exponent', finite'⟩ :=
    @make_eq .positive 16 1 (by decide) (by decide) (by decide)
  refine (comparison_exact finite finite').1.mpr ?_
  rw [toRat_positive (make_sign ..), toRat_positive (make_sign ..), magnitude, magnitude,
    coefficient, exponent, coefficient', exponent']
  norm_num

end Decimal

end NetRider.Platform
