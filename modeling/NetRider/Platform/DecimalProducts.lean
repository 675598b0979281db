import NetRider.Platform.DecimalRounding
import NetRider.Platform.UInt128

/-!
# Products of decimals

The coefficients are multiplied in 128 bits, digits are cut off until 64 bits are left, and the
constructor cuts off more until there are 18 digits, but only if the exponent is in range by then.
-/

namespace NetRider.Platform

open DecimalPrivate

/-! ## Cutting digits off -/

/-- How many digits have to go until a number is at most `limit`. -/
def cutDigits (limit x : Nat) : Nat := if x ≤ limit then 0 else cutDigits limit (x / 10) + 1
termination_by x
decreasing_by exact Nat.div_lt_self (by omega) (by decide)

theorem shorten_eq (coefficient : Nat) (exponent : Int) :
    shorten coefficient exponent =
      (coefficient / 10 ^ cutDigits maxCoefficient coefficient,
        exponent + cutDigits maxCoefficient coefficient) := by
  fun_induction shorten coefficient exponent with
  | case1 coefficient exponent large ih =>
    rw [ih, cutDigits.eq_def maxCoefficient coefficient, if_neg (not_le.mpr large),
      Nat.div_div_eq_div_mul, ← pow_succ']
    push_cast
    congr 1
    ring
  | case2 coefficient exponent small =>
    rw [cutDigits, if_pos (not_lt.mp small)]
    simp

/-- Cutting in two stages is cutting once. -/
theorem cutDigits_trans {limit limit' : Nat} (order : limit ≤ limit') (x : Nat) :
    cutDigits limit x =
      cutDigits limit' x + cutDigits limit (x / 10 ^ cutDigits limit' x) := by
  fun_induction cutDigits limit' x with
  | case1 x small => simp
  | case2 x large ih =>
    rw [cutDigits, if_neg (by omega), ih, Nat.div_div_eq_div_mul, ← pow_succ']
    omega

/-- The greatest `uint64_t`. -/
def uint64Max : Nat := 18446744073709551615

namespace Decimal

/-- The loop of `operator*`: what is left in 64 bits. -/
def reduce (work : UInt128) (exponent : Int) : Nat × Int :=
  if work.high ≠ 0 then reduce (work.divide 10) (exponent + 1) else (work.low, exponent)
termination_by work.toNat
decreasing_by
  rw [UInt128.toNat_divide (by decide) (by decide)]
  refine Nat.div_lt_self ?_ (by decide)
  unfold UInt128.toNat
  omega

/-- The sign of a product or a quotient. -/
def resultSign (lhs rhs : Decimal) : Sign := if lhs.sign = rhs.sign then .positive else .negative

/-- `operator*`. -/
def mul (lhs rhs : Decimal) : Decimal :=
  if handle lhs rhs = .bothFinite then
    let work := reduce
      (UInt128.multiply lhs.coefficient rhs.coefficient lhs.coefficient_fits rhs.coefficient_fits)
      (lhs.exponent + rhs.exponent)
    make (resultSign lhs rhs) work.2 work.1
  else if handle lhs rhs = .bothInfinity then infinity (resultSign lhs rhs)
  else if handle lhs rhs = .eitherNaN then handlerValue lhs rhs
  else if handle lhs rhs = .lhsIsInfinity then
    if rhs.isZero then nan else infinity (resultSign lhs rhs)
  else if lhs.isZero then nan else infinity (resultSign lhs rhs)

theorem reduce_eq (work : UInt128) (exponent : Int) :
    reduce work exponent =
      (work.toNat / 10 ^ cutDigits uint64Max work.toNat,
        exponent + cutDigits uint64Max work.toNat) := by
  fun_induction reduce work exponent with
  | case1 work exponent some ih =>
    have large : ¬ work.toNat ≤ uint64Max := by
      unfold UInt128.toNat uint64Max
      omega
    rw [ih, UInt128.toNat_divide (by decide) (by decide), cutDigits.eq_def _ work.toNat,
      if_neg large, Nat.div_div_eq_div_mul, ← pow_succ']
    push_cast
    congr 1
    ring
  | case2 work exponent none =>
    have value : work.toNat = work.low := by
      rw [UInt128.toNat, not_not.mp none, Nat.zero_mul, Nat.zero_add]
    have small : work.low ≤ uint64Max := Nat.le_of_lt_succ work.low_lt
    rw [value, cutDigits, if_pos small]
    simp

/-! ## The constructor -/

/-- Infinity or zero if the exponent of the first 18 digits is out of range, and else these
digits. -/
def StoresRightly (x : Decimal) (sign : Sign) (exponent : Int) (coefficient : Nat) : Prop :=
  if exponentMax < exponent + cutDigits maxCoefficient coefficient then x = infinity sign
  else if exponent + cutDigits maxCoefficient coefficient < exponentMin then x = zero sign
  else x.isFinite ∧ x.toRat = signFactor sign *
    ((coefficient / 10 ^ cutDigits maxCoefficient coefficient : Nat) *
      10 ^ (exponent + cutDigits maxCoefficient coefficient))

/-- The constructor looks at the exponent before it cuts digits off. -/
theorem make_storesRightly {sign : Sign} {exponent : Int} {coefficient : Nat}
    (reached : exponent < exponentMin →
      exponent + cutDigits maxCoefficient coefficient < exponentMin) :
    StoresRightly (make sign exponent coefficient) sign exponent coefficient := by
  have range : exponentMin ≤ exponentMax := by decide
  unfold StoresRightly
  rcases lt_or_ge exponentMax exponent with above | below
  · have stored : fitted exponent coefficient = (coefficient, exponent) :=
      if_neg fun inside => absurd above (not_lt.mpr inside.2)
    rw [if_pos (by omega)]
    exact make_over (by rwa [stored])
  · rcases lt_or_ge exponent exponentMin with under | above
    · have stored : fitted exponent coefficient = (coefficient, exponent) :=
        if_neg fun inside => absurd under (not_lt.mpr inside.1)
      have cut := reached under
      rw [if_neg (by omega), if_pos cut]
      exact make_under (by rw [stored]; exact not_lt.mpr below) (by rwa [stored])
    · have stored : fitted exponent coefficient =
          (coefficient / 10 ^ cutDigits maxCoefficient coefficient,
            exponent + cutDigits maxCoefficient coefficient) := by
        rw [fitted, if_pos ⟨above, below⟩, shorten_eq]
      by_cases beyond : exponentMax < exponent + cutDigits maxCoefficient coefficient
      · rw [if_pos beyond]
        exact make_over (by rwa [stored])
      · have inside : ¬ exponent + cutDigits maxCoefficient coefficient < exponentMin := by omega
        rw [if_neg beyond, if_neg inside]
        obtain ⟨value, place, kind⟩ := @make_stored sign exponent coefficient
          (by rwa [stored]) (by rwa [stored])
        rw [stored] at value place
        refine ⟨?_, ?_⟩
        · rw [isFinite, isSpecial, isInfinity, isNaN, kind]
          split_ifs <;> rfl
        · rw [toRat_eq, make_sign, magnitude, value, place]

theorem make_zero {sign : Sign} {exponent : Int} (small : exponent ≤ exponentMax) :
    (make sign exponent 0).isZero := by
  rcases lt_or_ge exponent exponentMin with under | above
  · have stored : fitted exponent 0 = (0, exponent) :=
      if_neg fun inside => absurd under (not_lt.mpr inside.1)
    rw [make_under (by rw [stored]; exact not_lt.mpr small) (by rwa [stored])]
    rfl
  · exact (make_isZero above small).mpr rfl

/-! ## Products -/

variable {lhs rhs : Decimal}

/-- A product is zero if a factor is, and else the first 18 digits of the exact product. -/
def MultipliesRightly (lhs rhs : Decimal) : Prop :=
  (lhs.coefficient * rhs.coefficient = 0 → (mul lhs rhs).isZero) ∧
  (lhs.coefficient * rhs.coefficient ≠ 0 →
    StoresRightly (mul lhs rhs) (resultSign lhs rhs) (lhs.exponent + rhs.exponent)
      (lhs.coefficient * rhs.coefficient))

/-- The exponent of a zero is in range, and that of a product does not come back into range when
the constructor cuts the last digits off. -/
def ProductInRange (lhs rhs : Decimal) : Prop :=
  if lhs.coefficient * rhs.coefficient = 0 then lhs.exponent + rhs.exponent ≤ exponentMax
  else
    lhs.exponent + rhs.exponent + cutDigits uint64Max (lhs.coefficient * rhs.coefficient) <
        exponentMin →
      lhs.exponent + rhs.exponent + cutDigits maxCoefficient (lhs.coefficient * rhs.coefficient) <
        exponentMin

theorem mul_eq (finite : lhs.isFinite) (finite' : rhs.isFinite) :
    mul lhs rhs = make (resultSign lhs rhs)
      (lhs.exponent + rhs.exponent + cutDigits uint64Max (lhs.coefficient * rhs.coefficient))
      (lhs.coefficient * rhs.coefficient /
        10 ^ cutDigits uint64Max (lhs.coefficient * rhs.coefficient)) := by
  rw [mul, if_pos (handle_finite finite finite'), reduce_eq, UInt128.toNat_multiply]

theorem mul_right (finite : lhs.isFinite) (finite' : rhs.isFinite)
    (inRange : ProductInRange lhs rhs) : MultipliesRightly lhs rhs := by
  have stages := @cutDigits_trans maxCoefficient uint64Max (by decide)
    (lhs.coefficient * rhs.coefficient)
  rw [MultipliesRightly, mul_eq finite finite']
  unfold ProductInRange at inRange
  generalize lhs.coefficient * rhs.coefficient = product at *
  refine ⟨fun none => ?_, fun some => ?_⟩
  · rw [if_pos none] at inRange
    have uncut : cutDigits uint64Max product = 0 := by rw [none, cutDigits, if_pos (by decide)]
    rw [uncut, none, Nat.zero_div, Nat.cast_zero, add_zero]
    exact make_zero inRange
  · rw [if_neg some, stages] at inRange
    push_cast at inRange
    have stored := @make_storesRightly (resultSign lhs rhs)
      (lhs.exponent + rhs.exponent + cutDigits uint64Max product)
      (product / 10 ^ cutDigits uint64Max product) (by omega)
    unfold StoresRightly at stored ⊢
    rw [stages, pow_add, ← Nat.div_div_eq_div_mul]
    push_cast
    rw [← add_assoc]
    exact stored

end Decimal

end NetRider.Platform
