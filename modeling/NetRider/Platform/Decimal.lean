import Mathlib

/-!
# Decimals

A `Decimal` is a sign, a coefficient of at most 18 digits and an exponent from -1023 to 1023, or
infinity, or not a number. Coefficients are `uint64_t`; arithmetic on them is modulo `2 ^ 64`
where it is not known to stay below.
-/

namespace NetRider.Platform

namespace DecimalPrivate

def exponentMax : Int := 1023
def exponentMin : Int := -1023
def precision : Int := 18
def maxCoefficient : Nat := 999999999999999999

/-- The loop of `countDigits`, whose `powerOfTen` is `10 ^ numberOfDigits`. -/
def countDigitsFrom (x numberOfDigits : Nat) : Nat :=
  if 10 ^ numberOfDigits ≤ x then
    if (2 ^ 64 - 1) / 10 ≤ 10 ^ numberOfDigits then numberOfDigits + 1
    else countDigitsFrom x (numberOfDigits + 1)
  else numberOfDigits
termination_by 20 - numberOfDigits
decreasing_by
  have few : numberOfDigits < 20 := by
    by_contra many
    have := Nat.pow_le_pow_right (n := 10) (by decide) (not_lt.mp many)
    omega
  omega

def countDigits (x : Nat) : Nat := countDigitsFrom x 0

def scaleDown (x : Nat) : Nat → Nat
  | 0 => x
  | n + 1 => if x = 0 then x else scaleDown (x / 10) n

/-- The loop of `scaleUp`. -/
def scaleUpFrom (x n y z : Nat) : Nat :=
  let y := if n % 2 = 1 then y * z % 2 ^ 64 else y
  if n / 2 = 0 then x * y % 2 ^ 64 else scaleUpFrom x (n / 2) y (z * z % 2 ^ 64)
termination_by n

def scaleUp (x n : Nat) : Nat := scaleUpFrom x n 1 10

/-- The loop of the constructor: digits are cut off until 18 are left. -/
def shorten (coefficient : Nat) (exponent : Int) : Nat × Int :=
  if coefficient > maxCoefficient then shorten (coefficient / 10) (exponent + 1)
  else (coefficient, exponent)
termination_by coefficient
decreasing_by exact Nat.div_lt_self (by omega) (by decide)

/-! ## What the loops compute -/

theorem countDigitsFrom_spec {x numberOfDigits : Nat} (fits : x < 2 ^ 64)
    (reached : ∀ n < numberOfDigits, 10 ^ n ≤ x) (n : Nat) :
    countDigitsFrom x numberOfDigits ≤ n ↔ x < 10 ^ n := by
  fun_induction countDigitsFrom x numberOfDigits with
  | case1 numberOfDigits here last =>
    have many : 18 < numberOfDigits := by
      by_contra few
      have := Nat.pow_le_pow_right (n := 10) (by decide) (not_lt.mp few)
      omega
    have beyond : x < 10 ^ (numberOfDigits + 1) :=
      fits.trans (lt_of_lt_of_le (by decide) (Nat.pow_le_pow_right (n := 10) (by decide)
        (show 20 ≤ numberOfDigits + 1 by omega)))
    constructor
    · intro small
      exact beyond.trans_le (Nat.pow_le_pow_right (by decide) small)
    · intro less
      by_contra large
      exact absurd ((Nat.pow_le_pow_right (by decide) (by omega)).trans here) (not_le.mpr less)
  | case2 numberOfDigits here more ih =>
    refine ih fun n less => ?_
    rcases Nat.lt_succ_iff_lt_or_eq.mp less with earlier | rfl
    · exact reached n earlier
    · exact here
  | case3 numberOfDigits beyond =>
    constructor
    · intro small
      exact (not_le.mp beyond).trans_le (Nat.pow_le_pow_right (by decide) small)
    · intro less
      by_contra large
      exact absurd (reached n (by omega)) (not_le.mpr less)

theorem countDigits_le_iff {x : Nat} (fits : x < 2 ^ 64) (n : Nat) :
    countDigits x ≤ n ↔ x < 10 ^ n :=
  countDigitsFrom_spec fits (fun _ less => absurd less (Nat.not_lt_zero _)) n

theorem lt_countDigits_iff {x : Nat} (fits : x < 2 ^ 64) (n : Nat) :
    n < countDigits x ↔ 10 ^ n ≤ x := by
  rw [← not_le, countDigits_le_iff fits, not_lt]

theorem scaleDown_eq (x n : Nat) : scaleDown x n = x / 10 ^ n := by
  induction n generalizing x with
  | zero => rw [scaleDown, pow_zero, Nat.div_one]
  | succ n ih =>
    rw [scaleDown, pow_succ', ← Nat.div_div_eq_div_mul]
    split_ifs with zero
    · rw [zero]
      simp
    · exact ih _

theorem scaleUpFrom_modEq (x n y z : Nat) :
    scaleUpFrom x n y z ≡ x * (y * z ^ n) [MOD 2 ^ 64] := by
  fun_induction scaleUpFrom x n y z with
  | case1 n y z next small =>
    refine (Nat.mod_modEq _ _).trans (Nat.ModEq.mul_left x ?_)
    have cases : n = 0 ∨ n = 1 := by omega
    rcases cases with rfl | rfl
    · rw [pow_zero, mul_one]
      rfl
    · rw [pow_one]
      exact Nat.mod_modEq _ _
  | case2 n y z next large ih =>
    refine ih.trans (Nat.ModEq.mul_left x ?_)
    have square : (z * z % 2 ^ 64) ^ (n / 2) ≡ z ^ (2 * (n / 2)) [MOD 2 ^ 64] := by
      rw [pow_mul, pow_two]
      exact (Nat.mod_modEq _ _).pow _
    have halves := Nat.div_add_mod n 2
    by_cases odd : n % 2 = 1
    · have value : next = y * z % 2 ^ 64 := if_pos odd
      have whole : y * z ^ n = y * z * z ^ (2 * (n / 2)) := by
        rw [mul_assoc, ← pow_succ', show 2 * (n / 2) + 1 = n by omega]
      rw [value, whole]
      exact (Nat.mod_modEq _ _).mul square
    · have value : next = y := if_neg odd
      rw [value]
      nth_rewrite 2 [show n = 2 * (n / 2) by omega]
      exact square.mul_left y

theorem scaleUpFrom_lt (x n y z : Nat) : scaleUpFrom x n y z < 2 ^ 64 := by
  fun_induction scaleUpFrom x n y z with
  | case1 n y z next small => exact Nat.mod_lt _ (by decide)
  | case2 n y z next large ih => exact ih

/-- Below `2 ^ 64` nothing wraps. -/
theorem scaleUp_eq {x n : Nat} (fits : x * 10 ^ n < 2 ^ 64) : scaleUp x n = x * 10 ^ n := by
  have wrapped := scaleUpFrom_modEq x n 1 10
  rw [one_mul] at wrapped
  exact wrapped.eq_of_lt_of_lt (scaleUpFrom_lt ..) fits

/-- The first 18 digits are kept. -/
theorem shorten_spec (coefficient : Nat) (exponent : Int) :
    ∃ n : Nat, shorten coefficient exponent = (coefficient / 10 ^ n, exponent + n) ∧
      coefficient / 10 ^ n < 10 ^ 18 ∧ (n ≠ 0 → 10 ^ 17 ≤ coefficient / 10 ^ n) := by
  fun_induction shorten coefficient exponent with
  | case1 coefficient exponent large ih =>
    obtain ⟨n, value, small, full⟩ := ih
    rw [Nat.div_div_eq_div_mul, ← pow_succ'] at value small full
    refine ⟨n + 1, ?_, small, fun _ => ?_⟩
    · rw [value]
      push_cast
      congr 1
      ring
    · by_cases zero : n = 0
      · unfold maxCoefficient at large
        subst zero
        omega
      · exact full zero
  | case2 coefficient exponent small =>
    unfold maxCoefficient at small
    exact ⟨0, by simp, by simpa using by omega, fun impossible => absurd rfl impossible⟩

end DecimalPrivate

open DecimalPrivate

inductive Sign
  | positive
  | negative
  deriving DecidableEq, Repr

def invertSign : Sign → Sign
  | .negative => .positive
  | .positive => .negative

inductive FormatClass
  | infinity
  | normal
  | nan
  | zero
  deriving DecidableEq, Repr

/-- The encoded data. -/
structure Decimal where
  coefficient : Nat
  exponent : Int
  formatClass : FormatClass
  sign : Sign
  coefficient_le : coefficient ≤ maxCoefficient
  exponent_ge : exponentMin ≤ exponent
  exponent_le : exponent ≤ exponentMax
  normal_iff : formatClass = .normal ↔ coefficient ≠ 0
  deriving DecidableEq

theorem shorten_le (coefficient : Nat) (exponent : Int) :
    (shorten coefficient exponent).1 ≤ maxCoefficient := by
  fun_induction shorten coefficient exponent with
  | case1 coefficient exponent large ih => exact ih
  | case2 coefficient exponent small => exact not_lt.mp small

theorem shorten_zero (coefficient : Nat) (exponent : Int) :
    (shorten coefficient exponent).1 = 0 ↔ coefficient = 0 := by
  fun_induction shorten coefficient exponent with
  | case1 coefficient exponent large ih =>
    have := large
    unfold maxCoefficient at large
    rw [ih]
    omega
  | case2 coefficient exponent small => rfl

namespace Decimal

/-- A value without coefficient. -/
def special (sign : Sign) (formatClass : FormatClass) (other : formatClass ≠ .normal) : Decimal :=
  ⟨0, 0, formatClass, sign, Nat.zero_le _, by decide, by decide, by simpa using other⟩

def infinity (sign : Sign) : Decimal := special sign .infinity (by decide)
def nan : Decimal := special .positive .nan (by decide)
def zero (sign : Sign) : Decimal := special sign .zero (by decide)

/-- The pair to be stored, shortened if the exponent is in range. -/
def fitted (exponent : Int) (coefficient : Nat) : Nat × Int :=
  if exponentMin ≤ exponent ∧ exponent ≤ exponentMax then shorten coefficient exponent
  else (coefficient, exponent)

theorem fitted_le {exponent : Int} {coefficient : Nat}
    (above : ¬ exponentMax < (fitted exponent coefficient).2)
    (below : ¬ (fitted exponent coefficient).2 < exponentMin) :
    (fitted exponent coefficient).1 ≤ maxCoefficient := by
  unfold fitted at *
  split_ifs at * with inside
  · exact shorten_le ..
  · exact absurd ⟨not_lt.mp below, not_lt.mp above⟩ inside

theorem fitted_zero (exponent : Int) (coefficient : Nat) :
    (fitted exponent coefficient).1 = 0 ↔ coefficient = 0 := by
  unfold fitted
  split_ifs with inside
  · exact shorten_zero ..
  · rfl

/-- `Decimal(sign, exponent, coefficient)`. -/
def make (sign : Sign) (exponent : Int) (coefficient : Nat) : Decimal :=
  if above : exponentMax < (fitted exponent coefficient).2 then infinity sign
  else if below : (fitted exponent coefficient).2 < exponentMin then zero sign
  else
    { coefficient := (fitted exponent coefficient).1
      exponent := (fitted exponent coefficient).2
      formatClass := if coefficient ≠ 0 then .normal else .zero
      sign := sign
      coefficient_le := fitted_le above below
      exponent_ge := not_lt.mp below
      exponent_le := not_lt.mp above
      normal_iff := by
        have same := fitted_zero exponent coefficient
        split_ifs <;> simp_all }

/-- `Decimal(i32)`. -/
def ofInt (i32 : Int) : Decimal :=
  make (if i32 < 0 then .negative else .positive) 0 i32.natAbs

def isInfinity (x : Decimal) : Bool := x.formatClass = .infinity
def isNaN (x : Decimal) : Bool := x.formatClass = .nan
def isSpecial (x : Decimal) : Bool := x.isInfinity || x.isNaN
def isFinite (x : Decimal) : Bool := !x.isSpecial
def isZero (x : Decimal) : Bool := x.formatClass = .zero
def isNegative (x : Decimal) : Bool := x.sign = .negative
def isPositive (x : Decimal) : Bool := x.sign = .positive

/-- The number without its sign. -/
def magnitude (x : Decimal) : ℚ := x.coefficient * 10 ^ x.exponent

/-- The number that a finite decimal stands for. -/
def toRat (x : Decimal) : ℚ := (if x.isNegative then -1 else 1) * x.magnitude

/-! ## Special values -/

inductive HandleResult
  | bothFinite
  | bothInfinity
  | eitherNaN
  | lhsIsInfinity
  | rhsIsInfinity
  deriving DecidableEq, Repr

/-- `SpecialValueHandler::handle`. -/
def handle (lhs rhs : Decimal) : HandleResult :=
  if lhs.isFinite && rhs.isFinite then .bothFinite
  else if lhs.formatClass = .nan || rhs.formatClass = .nan then .eitherNaN
  else if lhs.formatClass = .infinity then
    if rhs.formatClass = .infinity then .bothInfinity else .lhsIsInfinity
  else .rhsIsInfinity

/-- `SpecialValueHandler::value`: the operand that is not a number. -/
def handlerValue (lhs rhs : Decimal) : Decimal := if lhs.formatClass = .nan then lhs else rhs

variable {x lhs rhs : Decimal} {sign : Sign} {exponent : Int} {coefficient : Nat}

theorem handle_finite (finite : lhs.isFinite) (finite' : rhs.isFinite) :
    handle lhs rhs = .bothFinite := by
  simp [handle, finite, finite']

theorem isZero_iff (finite : x.isFinite) : x.isZero ↔ x.coefficient = 0 := by
  have normal := x.normal_iff
  cases same : x.formatClass <;> simp_all [isZero, isFinite, isSpecial, isInfinity, isNaN]

theorem ten_zpow_pos (n : Int) : (0 : ℚ) < 10 ^ n := zpow_pos (by norm_num) n

theorem magnitude_nonneg (x : Decimal) : 0 ≤ x.magnitude :=
  mul_nonneg (Nat.cast_nonneg _) (ten_zpow_pos _).le

theorem coefficient_lt (x : Decimal) : x.coefficient < 10 ^ 18 :=
  Nat.lt_of_le_of_lt x.coefficient_le (by decide)

theorem coefficient_fits (x : Decimal) : x.coefficient < 2 ^ 64 :=
  x.coefficient_lt.trans (by decide)

/-! ## What the constructor makes -/

theorem make_sign (sign : Sign) (exponent : Int) (coefficient : Nat) :
    (make sign exponent coefficient).sign = sign := by
  unfold make
  split_ifs <;> rfl

theorem make_over (above : exponentMax < (fitted exponent coefficient).2) :
    make sign exponent coefficient = infinity sign :=
  dif_pos above

theorem make_under (above : ¬ exponentMax < (fitted exponent coefficient).2)
    (below : (fitted exponent coefficient).2 < exponentMin) :
    make sign exponent coefficient = zero sign :=
  (dif_neg above).trans (dif_pos below)

theorem make_stored (above : ¬ exponentMax < (fitted exponent coefficient).2)
    (below : ¬ (fitted exponent coefficient).2 < exponentMin) :
    (make sign exponent coefficient).coefficient = (fitted exponent coefficient).1 ∧
      (make sign exponent coefficient).exponent = (fitted exponent coefficient).2 ∧
      (make sign exponent coefficient).formatClass =
        if coefficient ≠ 0 then .normal else .zero := by
  unfold make
  rw [dif_neg above, dif_neg below]
  exact ⟨rfl, rfl, rfl⟩

/-- What `make` can yield. -/
theorem make_cases (sign : Sign) (exponent : Int) (coefficient : Nat) :
    make sign exponent coefficient = infinity sign ∨ make sign exponent coefficient = zero sign ∨
      (make sign exponent coefficient).formatClass =
        if coefficient ≠ 0 then .normal else .zero := by
  by_cases above : exponentMax < (fitted exponent coefficient).2
  · exact .inl (make_over above)
  · by_cases below : (fitted exponent coefficient).2 < exponentMin
    · exact .inr (.inl (make_under above below))
    · exact .inr (.inr (make_stored above below).2.2)

theorem make_isNaN (sign : Sign) (exponent : Int) (coefficient : Nat) :
    (make sign exponent coefficient).isNaN = false := by
  rcases make_cases sign exponent coefficient with made | made | made
  · rw [made]
    rfl
  · rw [made]
    rfl
  · rw [isNaN, made]
    split_ifs <;> rfl

theorem fitted_spec (above : exponentMin ≤ exponent) (below : exponent ≤ exponentMax)
    (coefficient : Nat) :
    ∃ n : Nat, fitted exponent coefficient = (coefficient / 10 ^ n, exponent + n) ∧
      coefficient / 10 ^ n < 10 ^ 18 ∧ (n ≠ 0 → 10 ^ 17 ≤ coefficient / 10 ^ n) := by
  rw [fitted, if_pos ⟨above, below⟩]
  exact shorten_spec coefficient exponent

theorem make_isZero (above : exponentMin ≤ exponent) (below : exponent ≤ exponentMax) :
    (make sign exponent coefficient).isZero ↔ coefficient = 0 := by
  obtain ⟨n, value, small, full⟩ := fitted_spec above below coefficient
  by_cases large : exponentMax < (fitted exponent coefficient).2
  · have cut : n ≠ 0 := by
      rintro rfl
      rw [value] at large
      exact absurd below (not_le.mpr (by simpa using large))
    have nonzero : coefficient ≠ 0 := by
      rintro rfl
      have := full cut
      simp at this
    rw [make_over large]
    exact iff_of_false Bool.noConfusion nonzero
  · have inside : ¬ (fitted exponent coefficient).2 < exponentMin := by
      rw [value]
      simp only
      omega
    rw [isZero, (make_stored large inside).2.2]
    split_ifs with nonzero <;> simp_all

theorem fitted_eq (above : exponentMin ≤ exponent) (below : exponent ≤ exponentMax)
    (fits : coefficient ≤ maxCoefficient) :
    fitted exponent coefficient = (coefficient, exponent) := by
  rw [fitted, if_pos ⟨above, below⟩, shorten, if_neg (not_lt.mpr fits)]

/-- A coefficient of 18 digits is stored as it is. -/
theorem make_eq (above : exponentMin ≤ exponent) (below : exponent ≤ exponentMax)
    (fits : coefficient ≤ maxCoefficient) :
    (make sign exponent coefficient).coefficient = coefficient ∧
      (make sign exponent coefficient).exponent = exponent ∧
      (make sign exponent coefficient).isFinite := by
  have stored := fitted_eq above below fits
  obtain ⟨first, second, third⟩ := @make_stored sign exponent coefficient
    (by rw [stored]; exact not_lt.mpr below) (by rw [stored]; exact not_lt.mpr above)
  refine ⟨first.trans (congrArg Prod.fst stored), second.trans (congrArg Prod.snd stored), ?_⟩
  rw [isFinite, isSpecial, isInfinity, isNaN, third]
  split_ifs <;> rfl

end Decimal

end NetRider.Platform
