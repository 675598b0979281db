import NetRider.Platform.DecimalProducts

/-!
# Quotients of decimals

Long division goes on until the quotient has 16 digits or nothing remains, and through zeros as
long as they follow. Its coefficient is kept in 64 bits; `uint64` below says what happens to a
number that does not fit, so that the same loop can be run on unbounded numbers.
-/

namespace NetRider.Platform

open DecimalPrivate

namespace Decimal

/-- The two loops of `operator/`, from the test of the inner one on, with `fuel` for their rounds:
the remainder, the result and its exponent. -/
def divideLoop (uint64 : Nat → Nat) (divisor : Nat) :
    Nat → Nat → Nat → Int → Option (Nat × Nat × Int)
  | 0, _, _, _ => none
  | fuel + 1, remainder, result, resultExponent =>
    if remainder < divisor then
      divideLoop uint64 divisor fuel (uint64 (remainder * 10)) (uint64 (result * 10))
        (resultExponent - 1)
    else
      let result := uint64 (result + remainder / divisor)
      let remainder := remainder % divisor
      if remainder = 0 then some (remainder, result, resultExponent)
      else if result < maxCoefficient / 100 then
        divideLoop uint64 divisor fuel remainder result resultExponent
      else some (remainder, result, resultExponent)

/-- The rounded result. -/
def quotient (uint64 : Nat → Nat) (fuel dividend divisor : Nat) (exponent : Int) :
    Option (Nat × Int) :=
  (divideLoop uint64 divisor fuel dividend 0 exponent).map fun result =>
    (if result.1 > divisor / 2 then uint64 (result.2.1 + 1) else result.2.1, result.2.2)

/-- `operator/`. -/
def div (fuel : Nat) (lhs rhs : Decimal) : Option Decimal :=
  if handle lhs rhs = .bothFinite then
    if rhs.isZero then some (if lhs.isZero then nan else infinity (resultSign lhs rhs))
    else if lhs.isZero then
      some (make (resultSign lhs rhs) (lhs.exponent - rhs.exponent) 0)
    else
      (quotient (fun n => n % 2 ^ 64) fuel lhs.coefficient rhs.coefficient
        (lhs.exponent - rhs.exponent)).map
        fun result => make (resultSign lhs rhs) result.2 result.1
  else if handle lhs rhs = .bothInfinity then some nan
  else if handle lhs rhs = .eitherNaN then some (handlerValue lhs rhs)
  else if handle lhs rhs = .lhsIsInfinity then some (infinity (resultSign lhs rhs))
  else some (zero (resultSign lhs rhs))

/-! ## Long division -/

section

variable {divisor fuel remainder result : Nat} {exponent : Int} {outcome : Nat × Nat × Int}

/-- On unbounded numbers: the dividend times a power of ten is divided, and nothing remains or the
result has 16 digits. -/
theorem divideLoop_spec (positive : 0 < divisor) (some : 0 < remainder)
    (ended : divideLoop id divisor fuel remainder result exponent = .some outcome) :
    ∃ shift : Nat, outcome.2.2 = exponent - shift ∧
      (remainder + result * divisor) * 10 ^ shift = outcome.2.1 * divisor + outcome.1 ∧
      outcome.1 < divisor ∧ (outcome.1 = 0 ∨ 9999999999999999 ≤ outcome.2.1) ∧
      result ≤ outcome.2.1 := by
  induction fuel generalizing remainder result exponent with
  | zero => exact absurd ended (by simp [divideLoop])
  | succ fuel ih =>
    rw [divideLoop] at ended
    split_ifs at ended with less
    · obtain ⟨shift, place, value, small, full, grows⟩ := ih (by simpa using some) ended
      refine ⟨shift + 1, ?_, ?_, small, full, ?_⟩
      · rw [place]
        push_cast
        ring
      · rw [← value]
        simp only [id, pow_succ]
        ring
      · simp only [id] at grows
        omega
    · have parts := Nat.mod_add_div remainder divisor
      have small := Nat.mod_lt remainder positive
      have regrouped : remainder % divisor + (result + remainder / divisor) * divisor =
          remainder + result * divisor := by
        rw [add_mul, mul_comm (remainder / divisor)]
        omega
      dsimp only [id] at ended
      split_ifs at ended with none short
      · obtain rfl := Option.some.inj ended
        refine ⟨0, by simp, ?_, small, .inl none, Nat.le_add_right ..⟩
        rw [pow_zero, mul_one, ← regrouped, add_comm]
      · obtain ⟨shift, place, value, small, full, grows⟩ := ih (Nat.pos_of_ne_zero none) ended
        exact ⟨shift, place, by rw [← value, regrouped], small, full,
          (Nat.le_add_right ..).trans grows⟩
      · obtain rfl := Option.some.inj ended
        refine ⟨0, by simp, ?_, small, .inr (not_lt.mp short), Nat.le_add_right ..⟩
        rw [pow_zero, mul_one, ← regrouped, add_comm]

/-- On 64 bits the loop does the same if its result fits. -/
theorem divideLoop_wrapped (positive : 0 < divisor) (small : divisor < 10 ^ 18)
    (some : 0 < remainder)
    (ended : divideLoop id divisor fuel remainder result exponent = .some outcome)
    (fits : outcome.2.1 < 2 ^ 64) :
    divideLoop (fun n => n % 2 ^ 64) divisor fuel remainder result exponent = .some outcome := by
  induction fuel generalizing remainder result exponent with
  | zero => exact absurd ended (by simp [divideLoop])
  | succ fuel ih =>
    rw [divideLoop] at ended ⊢
    split_ifs at ended ⊢ with less
    · have next : 0 < id (remainder * 10) := by simpa using some
      obtain ⟨-, -, -, -, -, grows⟩ := divideLoop_spec positive next ended
      have remainderFits : remainder * 10 < 2 ^ 64 := by omega
      have resultFits : result * 10 < 2 ^ 64 := grows.trans_lt fits
      rw [Nat.mod_eq_of_lt remainderFits, Nat.mod_eq_of_lt resultFits]
      exact ih next ended
    · dsimp only [id] at ended ⊢
      have sumFits : result + remainder / divisor < 2 ^ 64 := by
        split_ifs at ended with none short
        · obtain rfl := Option.some.inj ended
          exact fits
        · obtain ⟨-, -, -, -, -, grows⟩ :=
            divideLoop_spec positive (Nat.pos_of_ne_zero none) ended
          exact grows.trans_lt fits
        · obtain rfl := Option.some.inj ended
          exact fits
      rw [Nat.mod_eq_of_lt sumFits]
      split_ifs at ended ⊢ with none short
      · exact ended
      · exact ih (Nat.pos_of_ne_zero none) ended
      · exact ended

theorem divideLoop_more {uint64 : Nat → Nat} {fuel' : Nat} (more : fuel ≤ fuel')
    (ended : divideLoop uint64 divisor fuel remainder result exponent = .some outcome) :
    divideLoop uint64 divisor fuel' remainder result exponent = .some outcome := by
  induction fuel generalizing fuel' remainder result exponent with
  | zero => exact absurd ended (by simp [divideLoop])
  | succ fuel ih =>
    obtain ⟨fuel', rfl⟩ : ∃ n, fuel' = n + 1 := ⟨fuel' - 1, by omega⟩
    rw [divideLoop] at ended ⊢
    split_ifs at ended ⊢ with less
    · exact ih (by omega) ended
    · dsimp only at ended ⊢
      split_ifs at ended ⊢ with none short
      · exact ended
      · exact ih (by omega) ended
      · exact ended

/-- The loops end: the result grows until it has 16 digits, and the remainder until it can be
divided. -/
theorem divideLoop_ends (positive : 0 < divisor) (remainder result : Nat) (some : 0 < remainder)
    (exponent : Int) :
    ∃ fuel outcome, divideLoop id divisor fuel remainder result exponent = .some outcome := by
  induction left : 9999999999999999 - result using Nat.strong_induction_on
    generalizing remainder result exponent with
  | _ missing longer =>
    induction apart : divisor - remainder using Nat.strong_induction_on
      generalizing remainder result exponent with
    | _ gap closer =>
      by_cases less : remainder < divisor
      · have next : ∃ fuel outcome, divideLoop id divisor fuel (remainder * 10) (result * 10)
            (exponent - 1) = .some outcome := by
          by_cases grows : 9999999999999999 - result * 10 < missing
          · exact longer _ grows (remainder * 10) (result * 10) (by omega) _ rfl
          · exact closer (divisor - remainder * 10) (by omega) (remainder * 10) (result * 10)
              (by omega) _ (by omega) rfl
        obtain ⟨fuel, outcome, ended⟩ := next
        exact ⟨fuel + 1, outcome, by rw [divideLoop, if_pos less]; exact ended⟩
      · have quotient : 0 < remainder / divisor := Nat.div_pos (not_lt.mp less) positive
        by_cases none : remainder % divisor = 0
        · exact ⟨1, _, by rw [divideLoop, if_neg less]; exact if_pos none⟩
        · by_cases short : result + remainder / divisor < 9999999999999999
          · obtain ⟨fuel, outcome, ended⟩ := longer
              (9999999999999999 - (result + remainder / divisor)) (by omega) (remainder % divisor)
              (result + remainder / divisor) (Nat.pos_of_ne_zero none) exponent rfl
            refine ⟨fuel + 1, outcome, ?_⟩
            rw [divideLoop, if_neg less]
            exact (if_neg none).trans ((if_pos short).trans ended)
          · exact ⟨1, _, by
              rw [divideLoop, if_neg less]
              exact (if_neg none).trans (if_neg short)⟩

end

/-! ## The rounded quotient -/

/-- One unit in the 16th significant digit of a number. -/
def unit16 (q : ℚ) : ℚ := 10 ^ (Int.log 10 |q| - 15)

theorem unit16_pos (q : ℚ) : 0 < unit16 q := ten_zpow_pos _

theorem unit16_ge {q : ℚ} {place : Int} (large : 10 ^ place ≤ |q|) :
    10 ^ (place - 15) ≤ unit16 q := by
  have positive : 0 < |q| := (ten_zpow_pos place).trans_le large
  have order := (Int.zpow_le_iff_le_log (b := 10) (by decide) positive).mp (by exact_mod_cast large)
  exact zpow_le_zpow_right₀ (by norm_num) (by omega)

/-- Rounding is off by half a unit, and not at all if nothing remains. -/
theorem rounded_error {divisor result remainder dividend : Nat} (positive : 0 < divisor)
    (value : dividend = result * divisor + remainder) (small : remainder < divisor) :
    |((if remainder > divisor / 2 then result + 1 else result : Nat) : ℚ) - dividend / divisor| ≤
        1 / 2 ∧
      (remainder = 0 → ((if remainder > divisor / 2 then result + 1 else result : Nat) : ℚ) =
        dividend / divisor) := by
  have scale : (0 : ℚ) < divisor := by exact_mod_cast positive
  have exact : (dividend : ℚ) / divisor = result + remainder / divisor := by
    rw [value]
    push_cast
    field_simp
  have share : (remainder : ℚ) / divisor * divisor = remainder := by field_simp
  have nonneg : (0 : ℚ) ≤ remainder / divisor := by positivity
  rw [exact]
  split_ifs with up
  · have half : (divisor : ℚ) ≤ 2 * remainder := by exact_mod_cast (by omega : divisor ≤ 2 * remainder)
    have less : (remainder : ℚ) < divisor := by exact_mod_cast small
    have lower : 1 / 2 ≤ (remainder : ℚ) / divisor := by
      rw [div_le_div_iff₀ (by norm_num) scale]
      linarith
    have upper : (remainder : ℚ) / divisor < 1 := (div_lt_one scale).mpr less
    refine ⟨?_, fun none => absurd up (by omega)⟩
    push_cast
    rw [abs_le]
    constructor <;> linarith
  · have half : 2 * (remainder : ℚ) ≤ divisor := by exact_mod_cast (by omega : 2 * remainder ≤ divisor)
    have upper : (remainder : ℚ) / divisor ≤ 1 / 2 := by
      rw [div_le_div_iff₀ scale (by norm_num)]
      linarith
    refine ⟨?_, fun none => ?_⟩
    · rw [abs_le]
      constructor <;> linarith
    · rw [none]
      simp

/-- What is left of a coefficient, and what is lost. -/
theorem cutDigits_spec (coefficient : Nat) :
    coefficient / 10 ^ cutDigits maxCoefficient coefficient ≤ maxCoefficient ∧
      (cutDigits maxCoefficient coefficient ≠ 0 →
        10 ^ 17 ≤ coefficient / 10 ^ cutDigits maxCoefficient coefficient) := by
  obtain ⟨n, value, small, full⟩ := shorten_spec coefficient 0
  rw [shorten_eq] at value
  have same : cutDigits maxCoefficient coefficient = n := by
    have place := congrArg Prod.snd value
    simpa using place
  rw [same]
  exact ⟨Nat.le_of_lt_succ small, full⟩

theorem cut_error (c k : Nat) : |((c / 10 ^ k : Nat) : ℚ) * 10 ^ k - c| < 10 ^ k := by
  have parts : ((c / 10 ^ k : Nat) : ℚ) * 10 ^ k + (c % 10 ^ k : Nat) = c := by
    exact_mod_cast Nat.div_add_mod' c (10 ^ k)
  have less : ((c % 10 ^ k : Nat) : ℚ) < 10 ^ k := by
    exact_mod_cast Nat.mod_lt c (by positivity)
  have nonneg : (0 : ℚ) ≤ (c % 10 ^ k : Nat) := Nat.cast_nonneg _
  rw [abs_lt]
  constructor <;> linarith

/-- A number rounded to an integer with 16 digits, or exactly, and then cut to 18. -/
theorem stored_close {c : Nat} {number : ℚ} (half : |(c : ℚ) - number| ≤ 1 / 2)
    (full : (c : ℚ) = number ∨ 10 ^ 15 ≤ c ∧ 10 ^ 15 ≤ number) :
    (((c / 10 ^ cutDigits maxCoefficient c : Nat) : ℚ) * 10 ^ cutDigits maxCoefficient c = number ∨
      10 ^ 15 ≤ c / 10 ^ cutDigits maxCoefficient c) ∧
    (((c / 10 ^ cutDigits maxCoefficient c : Nat) : ℚ) * 10 ^ cutDigits maxCoefficient c = number ∨
      ∃ place : Int, 10 ^ place ≤ number ∧
        |((c / 10 ^ cutDigits maxCoefficient c : Nat) : ℚ) * 10 ^ cutDigits maxCoefficient c -
          number| < 10 ^ (place - 15)) := by
  obtain ⟨-, large⟩ := cutDigits_spec c
  have lost := cut_error c (cutDigits maxCoefficient c)
  generalize cutDigits maxCoefficient c = k at *
  by_cases uncut : k = 0
  · subst uncut
    rw [pow_zero, pow_zero, Nat.div_one, mul_one]
    rcases full with exact | ⟨many, above⟩
    · exact ⟨.inl exact, .inl exact⟩
    · refine ⟨.inr many, .inr ⟨15, by exact_mod_cast above, half.trans_lt ?_⟩⟩
      norm_num
  · have digits := large uncut
    have unit : (1 : ℚ) ≤ 10 ^ k := one_le_pow₀ (by norm_num)
    have lower : (10 ^ 17 : ℚ) * 10 ^ k ≤ c := by
      have whole := Nat.mul_le_mul_right (10 ^ k) digits
      exact_mod_cast whole.trans (Nat.div_mul_le_self c (10 ^ k))
    rw [abs_le] at half
    rw [abs_lt] at lost
    refine ⟨.inr (le_trans (by decide) digits), .inr ⟨(16 + k : Nat), ?_, ?_⟩⟩
    · rw [zpow_natCast, pow_add]
      linarith [half.2]
    · have power : ((16 + k : Nat) : Int) - 15 = (k + 1 : Nat) := by
        push_cast
        ring
      rw [power, zpow_natCast, pow_succ, abs_lt]
      constructor <;> linarith [half.1, half.2, lost.1, lost.2]

theorem quotient_spec {divisor dividend fuel : Nat} {exponent : Int} {rounded : Nat × Int}
    (positive : 0 < divisor) (some : 0 < dividend)
    (ended : quotient id fuel dividend divisor exponent = .some rounded) :
    ∃ shift : Nat, rounded.2 = exponent - shift ∧
      |(rounded.1 : ℚ) - (dividend * 10 ^ shift : Nat) / divisor| ≤ 1 / 2 ∧
      ((rounded.1 : ℚ) = (dividend * 10 ^ shift : Nat) / divisor ∨
        10 ^ 15 ≤ rounded.1 ∧ (10 ^ 15 : ℚ) ≤ (dividend * 10 ^ shift : Nat) / divisor) := by
  obtain ⟨outcome, loop, rfl⟩ := Option.map_eq_some_iff.mp ended
  obtain ⟨shift, place, value, small, full, -⟩ := divideLoop_spec positive some loop
  rw [Nat.zero_mul, Nat.add_zero] at value
  obtain ⟨half, exact⟩ := rounded_error positive value small
  refine ⟨shift, place, half, full.imp exact fun many => ?_⟩
  have scale : (0 : ℚ) < divisor := by exact_mod_cast positive
  constructor
  · dsimp only [id]
    split_ifs <;> omega
  · rw [le_div_iff₀ scale, value]
    have whole : 10 ^ 15 * divisor ≤ outcome.2.1 * divisor + outcome.1 :=
      (Nat.mul_le_mul_right divisor (by omega)).trans (Nat.le_add_right ..)
    exact_mod_cast whole

/-! ## Quotients -/

variable {lhs rhs : Decimal}

/-- Off by less than one unit in the 16th digit, and 16 to 18 digits or exact. -/
def Approximates (coefficient : Nat) (exponent : Int) (number : ℚ) : Prop :=
  coefficient ≤ maxCoefficient ∧
    (coefficient * 10 ^ exponent = |number| ∨ 10 ^ 15 ≤ coefficient) ∧
    |coefficient * 10 ^ exponent - (|number|)| < unit16 number

/-- A quotient is zero if the dividend is, and else a number near the exact quotient, with infinity
and zero for exponents out of range. -/
def DividesRightly (lhs rhs : Decimal) : Prop :=
  ∃ x, (∃ enough, ∀ fuel ≥ enough, div fuel lhs rhs = some x) ∧
    (lhs.coefficient = 0 → x.isZero) ∧
    (lhs.coefficient ≠ 0 → ∃ coefficient exponent,
      Approximates coefficient exponent (lhs.toRat / rhs.toRat) ∧
      if exponentMax < exponent then x = infinity (resultSign lhs rhs)
      else if exponent < exponentMin then x = zero (resultSign lhs rhs)
      else x.isFinite ∧
        x.toRat = signFactor (resultSign lhs rhs) * (coefficient * 10 ^ exponent))

/-- The exponent of a zero is in range, the unbounded result fits into 64 bits, and its exponent
does not come back into range when the constructor cuts the last digits off. -/
def QuotientInRange (lhs rhs : Decimal) : Prop :=
  if lhs.coefficient = 0 then lhs.exponent - rhs.exponent ≤ exponentMax
  else ∀ fuel rounded, quotient id fuel lhs.coefficient rhs.coefficient
      (lhs.exponent - rhs.exponent) = some rounded →
    rounded.1 < 2 ^ 64 ∧
      (rounded.2 < exponentMin →
        rounded.2 + cutDigits maxCoefficient rounded.1 < exponentMin)

theorem quotient_wrapped {fuel dividend divisor : Nat} {exponent : Int} {rounded : Nat × Int}
    (positive : 0 < divisor) (small : divisor < 10 ^ 18) (some : 0 < dividend)
    (ended : quotient id fuel dividend divisor exponent = .some rounded)
    (fits : rounded.1 < 2 ^ 64) :
    quotient (fun n => n % 2 ^ 64) fuel dividend divisor exponent = .some rounded := by
  obtain ⟨outcome, loop, rfl⟩ := Option.map_eq_some_iff.mp ended
  dsimp only [id] at fits
  have resultFits : outcome.2.1 < 2 ^ 64 := by split_ifs at fits <;> omega
  rw [quotient, divideLoop_wrapped positive small some loop resultFits]
  dsimp only [Option.map_some, id]
  split_ifs at fits ⊢ with up
  · rw [Nat.mod_eq_of_lt fits]
  · rfl

theorem quotient_more {uint64 : Nat → Nat} {fuel fuel' dividend divisor : Nat} {exponent : Int}
    {rounded : Nat × Int} (more : fuel ≤ fuel')
    (ended : quotient uint64 fuel dividend divisor exponent = some rounded) :
    quotient uint64 fuel' dividend divisor exponent = some rounded := by
  obtain ⟨outcome, loop, value⟩ := Option.map_eq_some_iff.mp ended
  rw [quotient, divideLoop_more more loop, Option.map_some, value]

theorem abs_toRat (x : Decimal) : |x.toRat| = x.magnitude := by
  rw [toRat_eq, abs_mul, abs_of_nonneg x.magnitude_nonneg]
  cases x.sign <;> simp [signFactor]

/-- The exact quotient of the magnitudes after `shift` steps. -/
theorem abs_quotient (lhs rhs : Decimal) (shift : Nat) :
    |lhs.toRat / rhs.toRat| = (lhs.coefficient * 10 ^ shift : Nat) / rhs.coefficient *
      10 ^ (lhs.exponent - rhs.exponent - shift) := by
  have power : (10 : ℚ) ^ shift ≠ 0 := by positivity
  rw [abs_div, abs_toRat, abs_toRat, magnitude, magnitude, zpow_sub₀ (by norm_num),
    zpow_sub₀ (by norm_num), zpow_natCast]
  push_cast
  field_simp

/-- The rounded result, with its 18 digits, is near the exact quotient. -/
theorem rounded_approximates {fuel : Nat} {rounded : Nat × Int} (some : lhs.coefficient ≠ 0)
    (divisor : rhs.coefficient ≠ 0)
    (ended : quotient id fuel lhs.coefficient rhs.coefficient (lhs.exponent - rhs.exponent) =
      .some rounded) :
    Approximates (rounded.1 / 10 ^ cutDigits maxCoefficient rounded.1)
      (rounded.2 + cutDigits maxCoefficient rounded.1) (lhs.toRat / rhs.toRat) := by
  obtain ⟨shift, place, half, full⟩ :=
    quotient_spec (Nat.pos_of_ne_zero divisor) (Nat.pos_of_ne_zero some) ended
  obtain ⟨digits, close⟩ := stored_close half full
  have exact := abs_quotient lhs rhs shift
  rw [← place] at exact
  have unit := ten_zpow_pos rounded.2
  have scaled : ((rounded.1 / 10 ^ cutDigits maxCoefficient rounded.1 : Nat) : ℚ) *
      10 ^ (rounded.2 + cutDigits maxCoefficient rounded.1) =
        (rounded.1 / 10 ^ cutDigits maxCoefficient rounded.1 : Nat) *
          10 ^ cutDigits maxCoefficient rounded.1 * 10 ^ rounded.2 := by
    rw [zpow_add₀ (by norm_num), zpow_natCast]
    ring
  refine ⟨(cutDigits_spec rounded.1).1, ?_, ?_⟩
  · rw [scaled, exact]
    exact digits.imp_left fun same => by rw [same]
  · rw [scaled, exact, ← sub_mul, abs_mul, abs_of_pos unit]
    rcases close with same | ⟨top, above, near⟩
    · rw [same, sub_self, abs_zero, zero_mul]
      exact unit16_pos _
    · have large : (10 : ℚ) ^ (top + rounded.2) ≤ |lhs.toRat / rhs.toRat| := by
        rw [exact, zpow_add₀ (by norm_num)]
        exact mul_le_mul_of_nonneg_right above unit.le
      refine lt_of_lt_of_le (mul_lt_mul_of_pos_right near unit) ?_
      rw [← zpow_add₀ (by norm_num), show top - 15 + rounded.2 = top + rounded.2 - 15 by ring]
      exact unit16_ge large

theorem div_right (finite : lhs.isFinite) (finite' : rhs.isFinite) (divisor : rhs.coefficient ≠ 0)
    (inRange : QuotientInRange lhs rhs) : DividesRightly lhs rhs := by
  have isZero : rhs.isZero = false := by
    rw [← Bool.not_eq_true, isZero_iff finite']
    exact divisor
  unfold DividesRightly
  by_cases none : lhs.coefficient = 0
  · rw [QuotientInRange, if_pos none] at inRange
    refine ⟨make (resultSign lhs rhs) (lhs.exponent - rhs.exponent) 0, ⟨0, fun fuel _ => ?_⟩,
      fun _ => make_zero inRange, fun some => absurd none some⟩
    rw [div, if_pos (handle_finite finite finite'), isZero, if_neg Bool.noConfusion,
      if_pos ((isZero_iff finite).mpr none)]
  · rw [QuotientInRange, if_neg none] at inRange
    obtain ⟨enough, outcome, loop⟩ := divideLoop_ends (Nat.pos_of_ne_zero divisor) lhs.coefficient 0
      (Nat.pos_of_ne_zero none) (lhs.exponent - rhs.exponent)
    obtain ⟨rounded, ended⟩ : ∃ rounded, quotient id enough lhs.coefficient rhs.coefficient
        (lhs.exponent - rhs.exponent) = some rounded := ⟨_, by rw [quotient, loop]; rfl⟩
    obtain ⟨fits, reached⟩ := inRange enough rounded ended
    have wrapped := quotient_wrapped (Nat.pos_of_ne_zero divisor) rhs.coefficient_lt
      (Nat.pos_of_ne_zero none) ended fits
    refine ⟨make (resultSign lhs rhs) rounded.2 rounded.1, ⟨enough, fun fuel more => ?_⟩,
      fun zero => absurd zero none, fun _ => ⟨_, _, rounded_approximates none divisor ended, ?_⟩⟩
    · have some : lhs.isZero = false := by
        rw [← Bool.not_eq_true, isZero_iff finite]
        exact none
      rw [div, if_pos (handle_finite finite finite'), isZero, if_neg Bool.noConfusion, some,
        if_neg Bool.noConfusion, quotient_more more wrapped, Option.map_some]
    · exact make_storesRightly reached

/-- Every fuel that is enough gives the same result. -/
theorem quotient_unique {uint64 : Nat → Nat} {fuel fuel' dividend divisor : Nat} {exponent : Int}
    {rounded rounded' : Nat × Int}
    (ended : quotient uint64 fuel dividend divisor exponent = some rounded)
    (ended' : quotient uint64 fuel' dividend divisor exponent = some rounded') :
    rounded = rounded' := by
  rcases le_total fuel fuel' with more | more
  · exact Option.some.inj ((quotient_more more ended).symm.trans ended')
  · exact Option.some.inj (ended.symm.trans (quotient_more more ended'))

def large : Decimal :=
  ⟨1, 1023, .normal, .positive, by decide, by decide, by decide, by decide⟩

def small : Decimal :=
  ⟨1, -20, .normal, .positive, by decide, by decide, by decide, by decide⟩

end Decimal

end NetRider.Platform
