import NetRider.Platform.DecimalFromString

/-!
# What reading decimals yields

The number that is written is read if no digit other than zero is lost and the exponent of the
digits that are kept can be brought into range.
-/

namespace NetRider.Platform

open DecimalPrivate Lib Wtf

/-- Some decimal stands for the number. -/
def Representable (number : ℚ) : Prop := ∃ x : Decimal, x.isFinite ∧ x.toRat = number

namespace Literal

open Scan

variable {l : Literal}

/-- All digits from the first that counts. -/
def digits (l : Literal) : List (Fin 10) := significant l.whole ++ l.fraction

/-- The number that is read is the number that is written. -/
def ReadTruly (l : Literal) : Prop :=
  (Decimal.fromString l.text).isFinite ∧ (Decimal.fromString l.text).toRat = l.value

/-- A zero is read unless it has no point and the exponent 1041. Another number is read if its
exponent is at most 1041, no digit after the first 18 counts, and the exponent of these is at least
-1023 and can be brought down to 1022 within 18 digits. -/
def InRange (l : Literal) : Prop :=
  if numeral l.digits = 0 then ¬ (l.exponent = 1041 ∧ l.fraction = [])
  else l.exponent.natAbs ≤ 1041 ∧ (∀ d ∈ l.digits.drop 18, d = 0) ∧ -1023 ≤ l.resultExponent ∧
    (1022 < l.resultExponent →
      l.resultExponent - 1022 + min 18 (significant l.whole).length ≤ 18)

/-! ## The number that is written -/

theorem numeral_digits (l : Literal) : numeral (l.whole ++ l.fraction) = numeral l.digits := by
  rw [digits, numeral_append, numeral_append, significant, numeral_dropWhile]

theorem kept_eq (l : Literal) : l.kept = min 18 l.digits.length := by
  rw [kept, digits, List.length_append]

theorem accumulator_eq (l : Literal) : l.scan.accumulator = numeral (l.digits.take 18) := rfl

theorem accumulator_lt (l : Literal) : l.scan.accumulator < 10 ^ l.kept := by
  have bound := numeral_lt (l.digits.take 18)
  rwa [List.length_take, ← kept_eq] at bound

theorem accumulator_le (l : Literal) : l.scan.accumulator ≤ maxCoefficient := by
  have bound := l.accumulator_lt
  have few : 10 ^ l.kept ≤ 10 ^ 18 := Nat.pow_le_pow_right (by decide) (min_le_left ..)
  exact Nat.le_of_lt_succ (bound.trans_le few)

theorem factor_eq (sign : Option Sign) :
    (if sign = some .negative then -1 else 1 : ℚ) = Decimal.signFactor (signOf sign) := by
  simp only [Decimal.signFactor, signOf_eq_negative]

/-- The digits that are kept and those that are not. -/
theorem value_eq (l : Literal) :
    l.value = Decimal.signFactor (signOf l.sign) *
      (l.scan.accumulator * 10 ^ l.resultExponent +
        numeral (l.digits.drop 18) * 10 ^ (l.exponent - l.fraction.length)) := by
  have place : l.resultExponent =
      l.exponent - l.fraction.length + (l.digits.length - 18 : Nat) := by
    rw [resultExponent, kept_eq]
    simp only [digits, List.length_append]
    omega
  rw [value, factor_eq, numeral_digits, numeral_take_drop l.digits 18, ← accumulator_eq, place,
    zpow_add₀ (by norm_num), zpow_natCast]
  push_cast
  ring

/-! ## What is read -/

/-- A decimal with a sign and these digits in front of this exponent. -/
def Stands (x : Decimal) (sign : Sign) (coefficient : Nat) (exponent : Int) : Prop :=
  x.isFinite ∧ x.toRat = Decimal.signFactor sign * (coefficient * 10 ^ exponent)

theorem make_stands {sign : Sign} {coefficient : Nat} {exponent : Int}
    (above : exponentMin ≤ exponent) (below : exponent ≤ exponentMax)
    (fits : coefficient ≤ maxCoefficient) :
    Stands (Decimal.make sign exponent coefficient) sign coefficient exponent := by
  obtain ⟨digits, place, finite⟩ := @Decimal.make_eq sign exponent coefficient above below fits
  refine ⟨finite, ?_⟩
  rw [Decimal.toRat_eq, Decimal.magnitude, Decimal.make_sign, digits, place]

theorem shift_zeros (coefficient n : Nat) (exponent : Int) :
    ((coefficient * 10 ^ n : Nat) * 10 ^ exponent : ℚ) = coefficient * 10 ^ (exponent + n) := by
  rw [zpow_add₀ (by norm_num), zpow_natCast]
  push_cast
  ring

/-- Eighteen digits and a zero can still be stored. -/
theorem make_tenfold {sign : Sign} {coefficient : Nat} (small : coefficient ≤ maxCoefficient) :
    Stands (Decimal.make sign 1022 (coefficient * 10)) sign coefficient 1023 := by
  by_cases fits : coefficient * 10 ≤ maxCoefficient
  · obtain ⟨finite, value⟩ :=
      @make_stands sign (coefficient * 10) 1022 (by decide) (by decide) fits
    have moved := shift_zeros coefficient 1 1022
    rw [pow_one] at moved
    exact ⟨finite, value.trans (congrArg _ moved)⟩
  · have fitted : Decimal.fitted 1022 (coefficient * 10) = (coefficient, 1023) := by
      rw [Decimal.fitted, if_pos (by decide), shorten, if_pos (not_le.mp fits),
        Nat.mul_div_cancel _ (by decide), shorten, if_neg (not_lt.mpr small)]
      rfl
    obtain ⟨digits, place, kind⟩ := @Decimal.make_stored sign 1022 (coefficient * 10)
      (by rw [fitted]; exact lt_irrefl _) (by rw [fitted, exponentMin]; simp)
    constructor
    · rw [Decimal.isFinite, Decimal.isSpecial, Decimal.isInfinity, Decimal.isNaN, kind]
      split_ifs <;> rfl
    · rw [Decimal.toRat_eq, Decimal.magnitude, Decimal.make_sign, digits, place, fitted]

theorem zero_stands (sign written : Sign) (exponent : Int) :
    Stands (.zero sign) written 0 exponent :=
  ⟨rfl, by rw [Decimal.toRat_zero]; simp⟩

theorem infinity_not_finite (sign : Sign) : (Decimal.infinity sign).isFinite = false := rfl

/-- The exponent is too large by less than the digits leave. -/
theorem assemble_lowered {scan : Scan} {place : Int} (above : 1022 < place)
    (room : place - 1022 + scan.numberOfDigits - scan.numberOfDigitsAfterDot ≤ 18)
    (bound : scan.accumulator * 10 ^ (place - 1022).toNat < 10 ^ 19) :
    Stands (scan.assemble place) scan.sign scan.accumulator place := by
  obtain ⟨n, exact⟩ : ∃ n : Nat, place = 1023 + n := ⟨(place - 1023).toNat, by omega⟩
  have surplus : place - exponentMax + 1 = (n + 1 : Nat) := by
    unfold exponentMax
    omega
  have shift : (place - 1022).toNat = n + 1 := by omega
  have scaled : scaleUp scan.accumulator (n + 1) = scan.accumulator * 10 ^ n * 10 := by
    rw [shift] at bound
    rw [scaleUp_eq (bound.trans (by decide)), pow_succ, mul_assoc]
  have small : scan.accumulator * 10 ^ n ≤ maxCoefficient := by
    rw [shift, pow_succ, ← mul_assoc] at bound
    unfold maxCoefficient
    omega
  have inside : ¬ place < exponentMin := by
    unfold exponentMin
    omega
  have positive : ((n + 1 : Nat) : Int) > 0 := by omega
  have fits : ¬ ((n + 1 : Nat) : Int) + scan.numberOfDigits - scan.numberOfDigitsAfterDot >
      precision := by
    unfold precision
    omega
  have made : scan.assemble place =
      .make scan.sign 1022 (scan.accumulator * 10 ^ n * 10) := by
    unfold assemble
    rw [if_neg inside]
    simp only [surplus, if_pos positive, if_neg fits, Int.toNat_natCast, scaled]
    congr 1
    omega
  obtain ⟨finite, value⟩ := @make_tenfold scan.sign _ small
  rw [made]
  exact ⟨finite, value.trans (congrArg _ (by rw [shift_zeros, exact]))⟩

theorem assemble_within {scan : Scan} {place : Int} (above : -1023 ≤ place) (below : place ≤ 1022)
    (few : scan.accumulator ≤ maxCoefficient) :
    Stands (scan.assemble place) scan.sign scan.accumulator place := by
  have inside : ¬ place < exponentMin := not_lt.mpr above
  have small : ¬ place - exponentMax + 1 > 0 := by
    unfold exponentMax
    omega
  have made : scan.assemble place = .make scan.sign place scan.accumulator := by
    unfold assemble
    rw [if_neg inside]
    simp only [if_neg small]
  rw [made]
  exact make_stands above (below.trans (by decide)) few

theorem assemble_under {scan : Scan} {place : Int} (below : place < -1023) :
    scan.assemble place = .zero .positive :=
  if_pos below

theorem assemble_over {scan : Scan} {place : Int} (above : 1022 < place)
    (full : 18 < place - 1022 + scan.numberOfDigits - scan.numberOfDigitsAfterDot) :
    scan.assemble place = .infinity scan.sign := by
  have inside : ¬ place < exponentMin := by
    unfold exponentMin
    omega
  have surplus : place - exponentMax + 1 = place - 1022 := by
    unfold exponentMax
    omega
  have positive : place - 1022 > 0 := by omega
  unfold assemble
  rw [if_neg inside]
  simp only [surplus, if_pos positive]
  exact if_pos full

/-! ## Which numbers are read truly -/

theorem scan_whole (l : Literal) :
    (l.scan.numberOfDigits : Int) - l.scan.numberOfDigitsAfterDot =
      (min 18 (significant l.whole).length : Nat) := by
  simp only [scan, collected]
  omega

theorem signFactor_ne_zero (sign : Sign) : Decimal.signFactor sign ≠ 0 := by
  cases sign <;> simp [Decimal.signFactor]

theorem value_eq_zero_iff (l : Literal) : l.value = 0 ↔ numeral l.digits = 0 := by
  have factor : (if l.sign = some .negative then -1 else 1 : ℚ) ≠ 0 := by
    split_ifs <;> simp
  have power := (Decimal.ten_zpow_pos (l.exponent - l.fraction.length)).ne'
  rw [value, numeral_digits, mul_eq_zero_iff_left factor, mul_eq_zero_iff_right power,
    Nat.cast_eq_zero]

/-- With the digits that are kept everything is read if the others are zeros. -/
theorem stands_truly_iff {x : Decimal}
    (stands : Stands x (signOf l.sign) l.scan.accumulator l.resultExponent) :
    x.isFinite ∧ x.toRat = l.value ↔ ∀ d ∈ l.digits.drop 18, d = 0 := by
  obtain ⟨finite, value⟩ := stands
  have power := (Decimal.ten_zpow_pos (l.exponent - l.fraction.length)).ne'
  rw [← numeral_eq_zero_iff, value, value_eq, mul_right_inj' (signFactor_ne_zero _),
    left_eq_add, mul_eq_zero_iff_right power, Nat.cast_eq_zero]
  exact and_iff_right finite

theorem toRat_lt {x : Decimal} : |x.toRat| < 10 ^ (1041 : Int) := by
  have few : (x.coefficient : ℚ) < 10 ^ (18 : Int) := by exact_mod_cast x.coefficient_lt
  have small : (10 : ℚ) ^ x.exponent ≤ 10 ^ (1023 : Int) :=
    zpow_le_zpow_right₀ (by norm_num) x.exponent_le
  have factor : |Decimal.signFactor x.sign| = 1 := by
    cases x.sign <;> simp [Decimal.signFactor]
  calc |x.toRat| = x.coefficient * 10 ^ x.exponent := by
        rw [Decimal.toRat_eq, abs_mul, factor, one_mul, abs_of_nonneg x.magnitude_nonneg,
          Decimal.magnitude]
    _ ≤ x.coefficient * 10 ^ (1023 : Int) :=
        mul_le_mul_of_nonneg_left small (Nat.cast_nonneg _)
    _ < 10 ^ (18 : Int) * 10 ^ (1023 : Int) :=
        mul_lt_mul_of_pos_right few (Decimal.ten_zpow_pos _)
    _ = 10 ^ (1041 : Int) := (zpow_add₀ (by norm_num) 18 1023).symm

/-- What can be stored at all has at most 1041 digits. -/
theorem accumulator_bound (representable : Representable l.value)
    (above : 1022 < l.resultExponent) :
    l.scan.accumulator * 10 ^ (l.resultExponent - 1022).toNat < 10 ^ 19 := by
  obtain ⟨x, -, same⟩ := representable
  have bound := @toRat_lt x
  have factor : |Decimal.signFactor (signOf l.sign)| = 1 := by
    cases signOf l.sign <;> simp [Decimal.signFactor]
  have kept : (0 : ℚ) ≤ l.scan.accumulator * 10 ^ l.resultExponent :=
    mul_nonneg (Nat.cast_nonneg _) (Decimal.ten_zpow_pos _).le
  have rest : (0 : ℚ) ≤ numeral (l.digits.drop 18) * 10 ^ (l.exponent - l.fraction.length) :=
    mul_nonneg (Nat.cast_nonneg _) (Decimal.ten_zpow_pos _).le
  rw [same, value_eq, abs_mul, factor, one_mul, abs_of_nonneg (add_nonneg kept rest)] at bound
  have moved := shift_zeros l.scan.accumulator (l.resultExponent - 1022).toNat 1022
  have place : (1022 : Int) + (l.resultExponent - 1022).toNat = l.resultExponent := by omega
  rw [place] at moved
  have less := (le_add_of_nonneg_right rest).trans_lt bound
  rw [← moved, show (1041 : Int) = 19 + 1022 by norm_num, zpow_add₀ (by norm_num)] at less
  have cancelled := lt_of_mul_lt_mul_right less (Decimal.ten_zpow_pos 1022).le
  exact_mod_cast cancelled

theorem significant_head {digits rest : List (Fin 10)} {d : Fin 10}
    (same : significant digits = d :: rest) : d ≠ 0 := by
  have some : significant digits ≠ [] := by
    rw [same]
    exact List.cons_ne_nil _ _
  have first := List.head_dropWhile_not (fun d : Fin 10 => decide (d = 0)) some
  have head : (significant digits).head some = d := by simp only [same, List.head_cons]
  exact head ▸ of_decide_eq_false first

theorem significant_zeros (zero : numeral l.digits = 0) : significant l.whole = [] := by
  cases same : significant l.whole with
  | nil => rfl
  | cons d rest =>
    have member : d ∈ l.digits := by
      rw [digits, same]
      exact List.mem_append_left _ (List.mem_cons_self ..)
    exact absurd (numeral_eq_zero_iff.mp zero d member) (significant_head same)

theorem accumulator_zero (zero : numeral l.digits = 0) : l.scan.accumulator = 0 := by
  have split := numeral_take_drop l.digits 18
  rw [zero, ← accumulator_eq] at split
  have factor : 0 < 10 ^ (l.digits.length - 18) := by positivity
  have product : l.scan.accumulator * 10 ^ (l.digits.length - 18) = 0 := by omega
  exact (Nat.mul_eq_zero.mp product).resolve_right factor.ne'

/-- A zero can only be lost to an exponent that leaves no room for a digit. -/
theorem read_zero_iff (zero : numeral l.digits = 0) :
    l.read.isFinite ∧ l.read.toRat = 0 ↔ ¬ (l.exponent = 1041 ∧ l.fraction = []) := by
  have none := accumulator_zero zero
  have whole := significant_zeros zero
  have taken := l.scan_whole
  have read : ∀ {x : Decimal} {sign : Sign} {place : Int}, Stands x sign 0 place →
      x.isFinite ∧ x.toRat = 0 := by
    intro x sign place stands
    obtain ⟨finite, value⟩ := stands
    exact ⟨finite, value.trans (by simp)⟩
  have place : l.resultExponent = l.exponent - (min 18 l.fraction.length : Nat) := by
    simp only [resultExponent, kept, whole, List.length_nil]
    omega
  rw [whole, List.length_nil, Nat.min_zero, Nat.cast_zero] at taken
  unfold Literal.read
  by_cases large : 1041 < l.exponent.natAbs
  · rw [if_pos large, if_neg (not_not_intro none)]
    exact iff_of_true (read (zero_stands _ .positive 0)) (by omega)
  rw [if_neg large]
  by_cases bare : l.fraction = [] ∧ l.exponentPart = .none ∧ significant l.whole = []
  · have exponent : l.exponent = 0 := by simp [Literal.exponent, bare.2.1]
    rw [if_pos bare]
    exact iff_of_true (read (zero_stands _ .positive 0)) (by omega)
  rw [if_neg bare]
  have fraction : l.fraction = [] ↔ l.fraction.length = 0 := List.length_eq_zero_iff.symm
  rw [fraction]
  rcases lt_or_ge l.resultExponent (-1023) with under | above
  · rw [assemble_under under]
    exact iff_of_true (read (zero_stands _ .positive 0)) (by omega)
  rcases le_or_gt l.resultExponent 1022 with below | beyond
  · have stands := assemble_within above below l.accumulator_le
    rw [none] at stands
    exact iff_of_true (read stands) (by omega)
  by_cases room : l.resultExponent - 1022 ≤ 18
  · have stands := @assemble_lowered l.scan _ beyond (by omega) (by rw [none]; simp)
    rw [none] at stands
    exact iff_of_true (read stands) (by omega)
  · rw [assemble_over beyond (by omega)]
    exact iff_of_false (fun both => Bool.noConfusion both.1) (by omega)

theorem not_stands_zero (some : numeral l.digits ≠ 0) {sign : Sign} {x : Decimal}
    (zero : x = .zero sign) : ¬ (x.isFinite ∧ x.toRat = l.value) := by
  rintro ⟨-, value⟩
  rw [zero, Decimal.toRat_zero] at value
  exact some ((value_eq_zero_iff l).mp value.symm)

theorem not_stands_infinity {sign : Sign} {x : Decimal} (infinite : x = .infinity sign) :
    ¬ (x.isFinite ∧ x.toRat = l.value) := by
  rintro ⟨finite, -⟩
  rw [infinite] at finite
  exact Bool.noConfusion finite

theorem read_other_iff (some : numeral l.digits ≠ 0) (representable : Representable l.value) :
    l.read.isFinite ∧ l.read.toRat = l.value ↔
      l.exponent.natAbs ≤ 1041 ∧ (∀ d ∈ l.digits.drop 18, d = 0) ∧ -1023 ≤ l.resultExponent ∧
        (1022 < l.resultExponent →
          l.resultExponent - 1022 + min 18 (significant l.whole).length ≤ 18) := by
  have taken := l.scan_whole
  unfold Literal.read
  by_cases large : 1041 < l.exponent.natAbs
  · rw [if_pos large]
    refine iff_of_false ?_ (by omega)
    split_ifs
    · exact not_stands_zero some rfl
    · exact not_stands_infinity rfl
    · exact not_stands_zero some rfl
  rw [if_neg large]
  have counted : ¬ (l.fraction = [] ∧ l.exponentPart = none ∧ significant l.whole = []) := by
    rintro ⟨fraction, -, whole⟩
    exact some (by rw [digits, fraction, whole]; rfl)
  rw [if_neg counted]
  rcases lt_or_ge l.resultExponent (-1023) with under | above
  · exact iff_of_false (not_stands_zero some (assemble_under under)) (by omega)
  rcases le_or_gt l.resultExponent 1022 with below | beyond
  · rw [stands_truly_iff (assemble_within above below l.accumulator_le)]
    constructor
    · intro zeros
      exact ⟨by omega, zeros, above, by omega⟩
    · rintro ⟨-, zeros, -⟩
      exact zeros
  by_cases room : l.resultExponent - 1022 + (min 18 (significant l.whole).length : Nat) ≤ 18
  · have bound := accumulator_bound representable beyond
    rw [stands_truly_iff (assemble_lowered beyond (by omega) bound)]
    constructor
    · intro zeros
      exact ⟨by omega, zeros, above, fun _ => room⟩
    · rintro ⟨-, zeros, -⟩
      exact zeros
  · refine iff_of_false (not_stands_infinity (assemble_over beyond (by omega))) ?_
    rintro ⟨-, -, -, full⟩
    exact room (full beyond)

end Literal

end NetRider.Platform
