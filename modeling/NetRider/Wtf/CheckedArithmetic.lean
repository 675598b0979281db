import NetRider.Lib.MachineInts

/-!
# Checked arithmetic

`safeAdd`, `safeSub` and `safeMultiply` on operands of one signedness, and the class `Checked`
with the handler `RecordOverflow`. The guards are inequalities rearranged so that they do not
overflow themselves; what they leave undefined is an outcome of the model.
-/

namespace NetRider.Wtf.CheckedArithmetic

open NetRider.Lib.MachineInts

variable {T U R : IntType}

/-! ## ArithmeticOperations -/

/-- What is stored in `result`, or `none` for `false`. -/
abbrev Outcome (R : IntType) := Except Undefined (Option (Value R))

def signsMatch (lhs : Value T) (rhs : Value U) : Bool := zero.le (lhs.xor rhs)

namespace Signed

/-- The tests of `add`. -/
def addRefuses (R : IntType) (lhs : Value T) (rhs : Value U) : Except Undefined Bool :=
  if signsMatch lhs rhs then
    if zero.le lhs then do
      let room ← R.maxValue.sub rhs
      pure (room.lt lhs)
    else do
      let difference ← lhs.sub R.minValue
      let temp := difference.convert R
      let lowest ← temp.neg
      pure (rhs.lt lowest)
  else pure false

def add (R : IntType) (lhs : Value T) (rhs : Value U) : Outcome R := do
  if ← addRefuses R lhs rhs then
    pure none
  else
    let sum ← lhs.add rhs
    pure (some (sum.convert R))

def subRefuses (R : IntType) (lhs : Value T) (rhs : Value U) : Except Undefined Bool :=
  if !signsMatch lhs rhs then
    if zero.le lhs then do
      let highest ← R.maxValue.add rhs
      pure (highest.lt lhs)
    else do
      let highest ← R.maxValue.add lhs
      pure (highest.lt rhs)
  else pure false

def sub (R : IntType) (lhs : Value T) (rhs : Value U) : Outcome R := do
  if ← subRefuses R lhs rhs then
    pure none
  else
    let difference ← lhs.sub rhs
    pure (some (difference.convert R))

def multiplyRefuses (R : IntType) (lhs : Value T) (rhs : Value U) : Except Undefined Bool :=
  if signsMatch lhs rhs then
    if zero.le lhs then
      if lhs.eq zero then pure false
      else do
        let quotient ← R.maxValue.div lhs
        pure (quotient.lt rhs)
    else if (lhs.convert R).eq R.minValue || (rhs.convert R).eq R.minValue then pure true
    else do
      let lhs' ← lhs.neg
      let quotient ← R.maxValue.div lhs'
      let rhs' ← rhs.neg
      pure (quotient.lt rhs')
  else if lhs.lt zero then
    if rhs.eq zero then pure false
    else do
      let quotient ← R.minValue.div rhs
      pure (lhs.lt quotient)
  else if lhs.eq zero then pure false
  else do
    let quotient ← R.minValue.div lhs
    pure (rhs.lt quotient)

def multiply (R : IntType) (lhs : Value T) (rhs : Value U) : Outcome R := do
  if ← multiplyRefuses R lhs rhs then
    pure none
  else
    let product ← lhs.mul rhs
    pure (some (product.convert R))

end Signed

namespace Unsigned

def add (R : IntType) (lhs : Value T) (rhs : Value U) : Outcome R := do
  let sum ← lhs.add rhs
  let temp := sum.convert R
  if temp.lt lhs then pure none else pure (some temp)

def sub (R : IntType) (lhs : Value T) (rhs : Value U) : Outcome R := do
  let difference ← lhs.sub rhs
  let temp := difference.convert R
  if lhs.lt temp then pure none else pure (some temp)

def multiply (R : IntType) (lhs : Value T) (rhs : Value U) : Outcome R := do
  if lhs.eq zero || rhs.eq zero then
    pure (some (zero.convert R))
  else
    let quotient ← R.maxValue.div lhs
    if quotient.lt rhs then
      pure none
    else
      let product ← lhs.mul rhs
      pure (some (product.convert R))

end Unsigned

variable {s : Bool} {t u r : Width}

/-- The template parameters have one signedness. -/
def safeAdd (r : Width) (lhs : Value ⟨s, t⟩) (rhs : Value ⟨s, u⟩) : Outcome ⟨s, r⟩ :=
  if s then Signed.add ⟨s, r⟩ lhs rhs else Unsigned.add ⟨s, r⟩ lhs rhs

def safeSub (r : Width) (lhs : Value ⟨s, t⟩) (rhs : Value ⟨s, u⟩) : Outcome ⟨s, r⟩ :=
  if s then Signed.sub ⟨s, r⟩ lhs rhs else Unsigned.sub ⟨s, r⟩ lhs rhs

def safeMultiply (r : Width) (lhs : Value ⟨s, t⟩) (rhs : Value ⟨s, u⟩) : Outcome ⟨s, r⟩ :=
  if s then Signed.multiply ⟨s, r⟩ lhs rhs else Unsigned.multiply ⟨s, r⟩ lhs rhs

/-! ## The guards of the signed operations -/

/-- `multiply` negates `rhs`, which overflows: its type is not promoted, and the comparison with
the least value of the result's type does not find it. -/
def Unnegatable (lhs : Value T) (rhs : Value U) : Prop :=
  lhs.toInt < 0 ∧ lhs.toInt ≠ T.min ∧ rhs.toInt = U.min ∧ 32 ≤ U.width.bits ∧
    U.width ≠ T.width

instance (lhs : Value T) (rhs : Value U) : Decidable (Unnegatable lhs rhs) :=
  inferInstanceAs (Decidable (_ ∧ _))

section
variable {lhs : Value T} {rhs : Value U} (signed : T.signed = true) (signed' : U.signed = true)
include signed signed'

theorem signsMatch_eq :
    signsMatch lhs rhs = decide (0 ≤ lhs.toInt ↔ 0 ≤ rhs.toInt) := by
  have both := common_signed signed signed'
  rw [signsMatch, le_eq (keeps_of_signed rfl both), toInt_xor signed signed']
  exact decide_eq_decide.mpr xor_nonneg

theorem addRefuses_eq : Signed.addRefuses T lhs rhs =
    .ok (decide ((0 ≤ lhs.toInt ↔ 0 ≤ rhs.toInt) ∧ ¬ T.Fits (lhs.toInt + rhs.toInt))) := by
  have both := common_signed signed signed'
  have wide := @max_le_common T U
  have left := (fits_signed signed).mp lhs.fits
  have right := (fits_signed signed').mp rhs.fits
  have lowest := min_signed signed
  rw [Signed.addRefuses, signsMatch_eq signed signed', le_eq (keeps_of_signed rfl signed),
    zero_toInt]
  by_cases same : 0 ≤ lhs.toInt ↔ 0 ≤ rhs.toInt
  · rw [if_pos (decide_eq_true same)]
    by_cases nonneg : 0 ≤ lhs.toInt
    · obtain ⟨room, subtracts, value⟩ :=
        @exists_sub _ _ T.maxValue rhs (keeps_of_signed signed signed') (by
          rw [fits_signed both, maxValue_toInt]
          omega)
      rw [if_pos (decide_eq_true nonneg), subtracts]
      refine congrArg Except.ok ?_
      rw [lt_eq (keeps_of_signed both signed), value, maxValue_toInt, decide_eq_decide,
        fits_signed signed]
      omega
    · have wide' := @max_le_common T T
      have wide'' := @max_le_promote T
      obtain ⟨difference, subtracts, value⟩ :=
        @exists_sub _ _ lhs T.minValue (keeps_of_signed signed signed) (by
          rw [fits_signed (common_signed signed signed), minValue_toInt]
          omega)
      have fits : T.Fits difference.toInt := by
        rw [fits_signed signed, value, minValue_toInt]
        omega
      have temp := Value.convert_of_fits fits
      obtain ⟨least, negates, value'⟩ := @exists_neg _ (difference.convert T) (by
        rw [fits_signed (promote_signed signed), temp, value, minValue_toInt]
        omega)
      rw [temp, value, minValue_toInt] at value'
      rw [if_neg (by simpa using nonneg), subtracts]
      simp only [bind, Except.bind, pure, Except.pure, negates]
      refine congrArg Except.ok ?_
      rw [lt_eq (keeps_of_signed signed' (promote_signed signed)), value', decide_eq_decide,
        fits_signed signed]
      omega
  · rw [if_neg (by simpa using same)]
    exact congrArg Except.ok (Eq.symm (decide_eq_false fun outside => same outside.1))

theorem subRefuses_eq : Signed.subRefuses T lhs rhs =
    .ok (decide (¬ (0 ≤ lhs.toInt ↔ 0 ≤ rhs.toInt) ∧
      ¬ (T.min < lhs.toInt - rhs.toInt ∧ lhs.toInt - rhs.toInt ≤ T.max))) := by
  have both := common_signed signed signed'
  have wide := @max_le_common T U
  have wide' := @max_le_common T T
  have left := (fits_signed signed).mp lhs.fits
  have right := (fits_signed signed').mp rhs.fits
  have lowest := min_signed signed
  rw [Signed.subRefuses, signsMatch_eq signed signed', le_eq (keeps_of_signed rfl signed),
    zero_toInt]
  by_cases same : 0 ≤ lhs.toInt ↔ 0 ≤ rhs.toInt
  · rw [if_neg (by simpa using same)]
    exact congrArg Except.ok (Eq.symm (decide_eq_false fun outside => outside.1 same))
  · rw [if_pos (by simpa using same)]
    by_cases nonneg : 0 ≤ lhs.toInt
    · obtain ⟨highest, adds, value⟩ :=
        @exists_add _ _ T.maxValue rhs (keeps_of_signed signed signed') (by
          rw [fits_signed both, maxValue_toInt]
          omega)
      rw [if_pos (decide_eq_true nonneg), adds]
      refine congrArg Except.ok ?_
      rw [lt_eq (keeps_of_signed both signed), value, maxValue_toInt, decide_eq_decide]
      omega
    · obtain ⟨highest, adds, value⟩ :=
        @exists_add _ _ T.maxValue lhs (keeps_of_signed signed signed) (by
          rw [fits_signed (common_signed signed signed), maxValue_toInt]
          omega)
      rw [if_neg (by simpa using nonneg), adds]
      refine congrArg Except.ok ?_
      rw [lt_eq (keeps_of_signed (common_signed signed signed) signed'), value, maxValue_toInt,
        decide_eq_decide]
      omega

theorem signsMatch_pos (same : 0 ≤ lhs.toInt ↔ 0 ≤ rhs.toInt) : signsMatch lhs rhs = true := by
  rw [signsMatch_eq signed signed']
  exact decide_eq_true same

theorem signsMatch_neg (differ : ¬ (0 ≤ lhs.toInt ↔ 0 ≤ rhs.toInt)) :
    ¬ signsMatch lhs rhs = true := by
  rw [signsMatch_eq signed signed']
  simpa using differ

/-- Neither operand is negative. -/
theorem multiplyRefuses_nonneg (nonneg : 0 ≤ lhs.toInt) (nonneg' : 0 ≤ rhs.toInt) :
    Signed.multiplyRefuses T lhs rhs = .ok (decide (¬ T.Fits (lhs.toInt * rhs.toInt))) := by
  have positive := @max_pos T
  rw [Signed.multiplyRefuses, if_pos (signsMatch_pos signed signed' (by omega)),
    le_eq (keeps_of_signed rfl signed), eq_eq (keeps_of_signed signed rfl), zero_toInt,
    if_pos (decide_eq_true nonneg)]
  by_cases none : lhs.toInt = 0
  · rw [if_pos (decide_eq_true none), none, zero_mul]
    refine congrArg Except.ok (Eq.symm (decide_eq_false fun outside => outside ?_))
    exact ⟨min_nonpos, positive.le⟩
  · obtain ⟨above, below⟩ := tdiv_bounds positive.le (by omega : 0 < lhs.toInt)
    have wide := @max_le_common T T
    obtain ⟨quotient, divides, value⟩ :=
      @exists_div _ _ T.maxValue lhs (keeps_of_signed signed signed) none (by
        rw [fits_signed (common_signed signed signed), maxValue_toInt]
        omega)
    rw [if_neg (by simpa using none), divides]
    refine congrArg Except.ok ?_
    have product := mul_nonneg nonneg nonneg'
    rw [lt_eq (keeps_of_signed (common_signed signed signed) signed'), value, maxValue_toInt,
      decide_eq_decide, tdiv_lt_iff positive.le (by omega), fits_signed signed]
    omega

/-- Both operands are negative. -/
theorem multiplyRefuses_negative (negative : lhs.toInt < 0) (negative' : rhs.toInt < 0) :
    Signed.multiplyRefuses T lhs rhs =
      if Unnegatable lhs rhs then .error .overflow
      else .ok (decide (¬ T.Fits (lhs.toInt * rhs.toInt))) := by
  have positive := @max_pos T
  have lower := min_signed signed
  have left := (fits_signed signed).mp lhs.fits
  have product := Int.mul_pos_of_neg_of_neg negative negative'
  have outside (low : lhs.toInt ≤ T.min ∨ rhs.toInt ≤ T.min) :
      ¬ T.Fits (lhs.toInt * rhs.toInt) := by
    rw [fits_signed signed]
    rcases low with low | low
    · have large : -T.min * 1 ≤ -lhs.toInt * -rhs.toInt :=
        Int.mul_le_mul (by omega) (by omega) (by omega) (by omega)
      rw [neg_mul_neg] at large
      omega
    · have large : 1 * -T.min ≤ -lhs.toInt * -rhs.toInt :=
        Int.mul_le_mul (by omega) (by omega) (by omega) (by omega)
      rw [neg_mul_neg] at large
      omega
  rw [Signed.multiplyRefuses, if_pos (signsMatch_pos signed signed' (by omega)),
    le_eq (keeps_of_signed rfl signed), zero_toInt, if_neg (by simpa using negative),
    eq_eq (keeps_of_signed signed signed), eq_eq (keeps_of_signed signed signed),
    Value.convert, wrap_toInt, minValue_toInt]
  by_cases least : lhs.toInt = T.min
  · rw [if_pos (by simp [least]), if_neg fun un => un.2.1 least]
    exact congrArg Except.ok (Eq.symm (decide_eq_true (outside (.inl least.le))))
  by_cases wraps : (rhs.convert T).toInt = T.min
  · rw [if_pos (by simp [wraps]), if_neg]
    · exact congrArg Except.ok (Eq.symm (decide_eq_true
        (outside (.inr (le_min_of_wrap wraps negative')))))
    · rintro ⟨-, -, lowest, wide, differ⟩
      rw [Value.convert, lowest] at wraps
      exact wrap_min_ne signed signed' differ wide wraps
  rw [if_neg (by simp [least, wraps])]
  have wide := @max_le_promote T
  obtain ⟨lhs', negates, opposite⟩ := @exists_neg _ lhs ((fits_neg signed).mpr (by tauto))
  have both := common_signed signed (promote_signed signed)
  have wide' := @max_le_common T T.promote
  obtain ⟨above, below⟩ := tdiv_bounds positive.le (by omega : 0 < lhs'.toInt)
  obtain ⟨quotient, divides, value⟩ :=
    @exists_div _ _ T.maxValue lhs' (keeps_of_signed signed (promote_signed signed)) (by omega) (by
      rw [fits_signed both, maxValue_toInt]
      omega)
  simp only [negates, divides, bind, Except.bind, pure, Except.pure]
  by_cases un : Unnegatable lhs rhs
  · rw [if_pos un, neg_overflow signed']
    rw [fits_neg signed']
    exact fun fits => fits ⟨un.2.2.1, un.2.2.2.1⟩
  · obtain ⟨rhs', negates', opposite'⟩ := @exists_neg _ rhs ((fits_neg signed').mpr (by
      rintro ⟨lowest, wide⟩
      refine un ⟨negative, least, lowest, wide, fun same => wraps ?_⟩
      have types : U = T := by
        rcases T with ⟨s, w⟩
        rcases U with ⟨s', w'⟩
        simp only at signed signed' same
        rw [signed, signed', same]
      subst types
      rw [Value.convert, wrap_toInt, lowest]))
    rw [if_neg un, negates']
    refine congrArg Except.ok ?_
    rw [lt_eq (keeps_of_signed both (promote_signed signed')), value, maxValue_toInt,
      decide_eq_decide, tdiv_lt_iff positive.le (by omega), opposite, opposite', neg_mul_neg,
      fits_signed signed]
    omega

/-- One operand is negative. -/
theorem multiplyRefuses_mixed (differ : ¬ (0 ≤ lhs.toInt ↔ 0 ≤ rhs.toInt)) :
    Signed.multiplyRefuses T lhs rhs = .ok (decide (¬ T.Fits (lhs.toInt * rhs.toInt))) := by
  have positive := @max_pos T
  have lower := min_signed signed
  have zeroFits : T.Fits 0 := ⟨min_nonpos, positive.le⟩
  rw [Signed.multiplyRefuses, if_neg (signsMatch_neg signed signed' differ),
    lt_eq (keeps_of_signed signed rfl), eq_eq (keeps_of_signed signed rfl),
    eq_eq (keeps_of_signed signed' rfl), zero_toInt]
  by_cases negative : lhs.toInt < 0
  · rw [if_pos (decide_eq_true negative)]
    by_cases none : rhs.toInt = 0
    · rw [if_pos (decide_eq_true none), none, mul_zero]
      exact congrArg Except.ok (Eq.symm (decide_eq_false fun outside => outside zeroFits))
    · obtain ⟨above, below⟩ := tdiv_bounds (by omega : 0 ≤ -T.min) (by omega : 0 < rhs.toInt)
      rw [Int.neg_tdiv] at above below
      have wide := @max_le_common T U
      obtain ⟨quotient, divides, value⟩ :=
        @exists_div _ _ T.minValue rhs (keeps_of_signed signed signed') none (by
          rw [fits_signed (common_signed signed signed'), minValue_toInt]
          omega)
      rw [if_neg (by simpa using none), divides]
      refine congrArg Except.ok ?_
      have product := mul_nonpos_of_nonpos_of_nonneg negative.le (by omega : 0 ≤ rhs.toInt)
      have exactly := @lt_tdiv_iff (-T.min) lhs.toInt rhs.toInt (by omega) (by omega)
      rw [neg_neg] at exactly
      rw [lt_eq (keeps_of_signed signed (common_signed signed signed')), value, minValue_toInt,
        decide_eq_decide, exactly, fits_signed signed]
      omega
  · rw [if_neg (by simpa using negative)]
    by_cases none : lhs.toInt = 0
    · rw [if_pos (decide_eq_true none), none, zero_mul]
      exact congrArg Except.ok (Eq.symm (decide_eq_false fun outside => outside zeroFits))
    · obtain ⟨above, below⟩ := tdiv_bounds (by omega : 0 ≤ -T.min) (by omega : 0 < lhs.toInt)
      rw [Int.neg_tdiv] at above below
      have wide := @max_le_common T T
      obtain ⟨quotient, divides, value⟩ :=
        @exists_div _ _ T.minValue lhs (keeps_of_signed signed signed) none (by
          rw [fits_signed (common_signed signed signed), minValue_toInt]
          omega)
      rw [if_neg (by simpa using none), divides]
      refine congrArg Except.ok ?_
      have product := mul_nonpos_of_nonneg_of_nonpos (by omega : 0 ≤ lhs.toInt)
        (by omega : rhs.toInt ≤ 0)
      have exactly := @lt_tdiv_iff (-T.min) rhs.toInt lhs.toInt (by omega) (by omega)
      rw [neg_neg, mul_comm rhs.toInt] at exactly
      rw [lt_eq (keeps_of_signed signed' (common_signed signed signed)), value, minValue_toInt,
        decide_eq_decide, exactly, fits_signed signed]
      omega

theorem multiplyRefuses_eq : Signed.multiplyRefuses T lhs rhs =
    if Unnegatable lhs rhs then .error .overflow
    else .ok (decide (¬ T.Fits (lhs.toInt * rhs.toInt))) := by
  by_cases differ : 0 ≤ lhs.toInt ↔ 0 ≤ rhs.toInt
  · by_cases nonneg : 0 ≤ lhs.toInt
    · rw [multiplyRefuses_nonneg signed signed' nonneg (differ.mp nonneg),
        if_neg fun un => absurd un.1 (by omega)]
    · exact multiplyRefuses_negative signed signed' (by omega) (by omega)
  · rw [multiplyRefuses_mixed signed signed' differ, if_neg]
    rintro ⟨negative, -, lowest, -⟩
    have lower := min_signed signed'
    have positive := @max_pos U
    omega

end

/-! ## What is stored -/

section
variable {lhs : Value T} {rhs : Value U} (signed : T.signed = true) (signed' : U.signed = true)
include signed signed'

theorem signed_add_eq : Signed.add T lhs rhs =
    .ok (if (0 ≤ lhs.toInt ↔ 0 ≤ rhs.toInt) ∧ ¬ T.Fits (lhs.toInt + rhs.toInt) then none
      else some (T.wrap (lhs.toInt + rhs.toInt))) := by
  rw [Signed.add, addRefuses_eq signed signed']
  simp only [bind, Except.bind, pure, Except.pure, decide_eq_true_eq]
  by_cases refused : (0 ≤ lhs.toInt ↔ 0 ≤ rhs.toInt) ∧ ¬ T.Fits (lhs.toInt + rhs.toInt)
  · rw [if_pos refused, if_pos refused]
  · have wide := @max_le_common T U
    have left := (fits_signed signed).mp lhs.fits
    have right := (fits_signed signed').mp rhs.fits
    obtain ⟨sum, adds, value⟩ := @exists_add _ _ lhs rhs (keeps_of_signed signed signed') (by
      rw [fits_signed signed] at refused
      rw [fits_signed (common_signed signed signed')]
      omega)
    rw [if_neg refused, if_neg refused, adds]
    simp only [Value.convert, value]

theorem signed_sub_eq : Signed.sub T lhs rhs =
    .ok (if ¬ (0 ≤ lhs.toInt ↔ 0 ≤ rhs.toInt) ∧
        ¬ (T.min < lhs.toInt - rhs.toInt ∧ lhs.toInt - rhs.toInt ≤ T.max) then none
      else some (T.wrap (lhs.toInt - rhs.toInt))) := by
  rw [Signed.sub, subRefuses_eq signed signed']
  simp only [bind, Except.bind, pure, Except.pure, decide_eq_true_eq]
  by_cases refused : ¬ (0 ≤ lhs.toInt ↔ 0 ≤ rhs.toInt) ∧
      ¬ (T.min < lhs.toInt - rhs.toInt ∧ lhs.toInt - rhs.toInt ≤ T.max)
  · rw [if_pos refused, if_pos refused]
  · have wide := @max_le_common T U
    have left := (fits_signed signed).mp lhs.fits
    have right := (fits_signed signed').mp rhs.fits
    have lower := min_signed signed
    obtain ⟨difference, subtracts, value⟩ :=
      @exists_sub _ _ lhs rhs (keeps_of_signed signed signed') (by
        rw [fits_signed (common_signed signed signed')]
        omega)
    rw [if_neg refused, if_neg refused, subtracts]
    simp only [Value.convert, value]

theorem signed_multiply_eq : Signed.multiply T lhs rhs =
    if Unnegatable lhs rhs then .error .overflow else .ok (T.represent (lhs.toInt * rhs.toInt)) := by
  rw [Signed.multiply, multiplyRefuses_eq signed signed']
  by_cases un : Unnegatable lhs rhs
  · rw [if_pos un, if_pos un]
    rfl
  rw [if_neg un, if_neg un]
  simp only [bind, Except.bind, pure, Except.pure, decide_eq_true_eq]
  by_cases fits : T.Fits (lhs.toInt * rhs.toInt)
  · have wide := @max_le_common T U
    have inside := (fits_signed signed).mp fits
    obtain ⟨product, multiplies, value⟩ :=
      @exists_mul _ _ lhs rhs (keeps_of_signed signed signed') (by
        rw [fits_signed (common_signed signed signed')]
        omega)
    rw [if_neg (not_not_intro fits), multiplies, represent_of_fits fits]
    simp only [Value.convert, value, wrap_of_fits fits]
  · rw [if_pos fits, represent_of_not fits]

end

section
variable {lhs : Value T} {rhs : Value U} (unsigned : T.signed = false)
  (unsigned' : U.signed = false)
include unsigned unsigned'

theorem unsigned_add_eq : Unsigned.add T lhs rhs =
    .ok (if (T.wrap (lhs.toInt + rhs.toInt)).toInt < lhs.toInt then none
      else some (T.wrap (lhs.toInt + rhs.toInt))) := by
  obtain ⟨sum, adds, temp⟩ := @exists_add_unsigned _ _ lhs rhs unsigned unsigned'
  have nonneg := ((fits_unsigned unsigned).mp (T.wrap (lhs.toInt + rhs.toInt)).fits).1
  rw [Unsigned.add, adds]
  simp only [bind, Except.bind, pure, Except.pure, temp]
  rw [lt_eq (keeps_of_nonneg nonneg ((fits_unsigned unsigned).mp lhs.fits).1)]
  simp only [decide_eq_true_eq]
  split <;> rfl

theorem unsigned_sub_eq : Unsigned.sub T lhs rhs =
    .ok (if lhs.toInt < (T.wrap (lhs.toInt - rhs.toInt)).toInt then none
      else some (T.wrap (lhs.toInt - rhs.toInt))) := by
  obtain ⟨difference, subtracts, temp⟩ := @exists_sub_unsigned _ _ lhs rhs unsigned unsigned'
  have nonneg := ((fits_unsigned unsigned).mp (T.wrap (lhs.toInt - rhs.toInt)).fits).1
  rw [Unsigned.sub, subtracts]
  simp only [bind, Except.bind, pure, Except.pure, temp]
  rw [lt_eq (keeps_of_nonneg ((fits_unsigned unsigned).mp lhs.fits).1 nonneg)]
  simp only [decide_eq_true_eq]
  split <;> rfl

theorem unsigned_multiply_eq :
    Unsigned.multiply T lhs rhs = .ok (T.represent (lhs.toInt * rhs.toInt)) := by
  have left := (fits_unsigned unsigned).mp lhs.fits
  have right := (fits_unsigned unsigned').mp rhs.fits
  have positive := @max_pos T
  have zeroFits : T.Fits 0 := ⟨min_nonpos, positive.le⟩
  rw [Unsigned.multiply, eq_eq (keeps_of_nonneg left.1 (le_refl 0)),
    eq_eq (keeps_of_nonneg right.1 (le_refl 0)), zero_toInt]
  by_cases some : lhs.toInt = 0 ∨ rhs.toInt = 0
  · have product : lhs.toInt * rhs.toInt = 0 := mul_eq_zero.mpr some
    rw [if_pos (by simpa using some), product, represent_of_fits zeroFits]
    rw [Value.convert_of_fits (show T.Fits zero.toInt from zeroFits)]
    rfl
  have above : 0 < lhs.toInt ∧ 0 < rhs.toInt := by omega
  obtain ⟨least, most⟩ := tdiv_bounds positive.le above.1
  have wide := @max_le_common T T
  have wide' := @max_le_common T U
  have lower := @min_nonpos (T.common T)
  have lower' := @min_nonpos (T.common U)
  obtain ⟨quotient, divides, value⟩ :=
    @exists_div _ _ T.maxValue lhs (keeps_of_nonneg positive.le left.1) (by omega) (by
      rw [IntType.Fits, maxValue_toInt]
      omega)
  rw [maxValue_toInt] at value
  rw [if_neg (by simpa using some), divides]
  simp only [bind, Except.bind, pure, Except.pure]
  rw [lt_eq (keeps_of_nonneg (by omega) right.1), value]
  have product := mul_pos above.1 above.2
  simp only [decide_eq_true_eq, tdiv_lt_iff positive.le above.1]
  by_cases less : T.max < lhs.toInt * rhs.toInt
  · rw [if_pos less, represent_of_not]
    rw [fits_unsigned unsigned]
    omega
  · have fits : T.Fits (lhs.toInt * rhs.toInt) := by
      rw [fits_unsigned unsigned]
      omega
    obtain ⟨result, multiplies, value'⟩ :=
      @exists_mul _ _ lhs rhs (keeps_of_nonneg left.1 right.1) (by
        rw [IntType.Fits]
        omega)
    rw [if_neg less, multiplies, represent_of_fits fits]
    simp only [Value.convert, value', wrap_of_fits fits]

end

end NetRider.Wtf.CheckedArithmetic
