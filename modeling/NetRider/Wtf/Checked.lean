import NetRider.Wtf.CheckedArithmetic

/-!
# The class Checked

`Checked` records that an operation was refused and goes on. Where the operands have the type of
the result, an operation is refused if its result is no value of the type, and besides if a signed
difference is the least one. Where the right operand is wider, the guards miss results that the
conversion to the type of the left operand cuts off.
-/

namespace NetRider.Wtf.CheckedArithmetic

open NetRider.Lib.MachineInts

variable {s : Bool} {t u : Width}

/-! ## Outcomes -/

inductive Operator
  | add
  | sub
  | multiply
deriving DecidableEq

def Operator.exact : Operator → Int → Int → Int
  | .add, x, y => x + y
  | .sub, x, y => x - y
  | .multiply, x, y => x * y

/-- The operation with a result of the type of `lhs`. -/
def safe (op : Operator) (lhs : Value ⟨s, t⟩) (rhs : Value ⟨s, u⟩) : Outcome ⟨s, t⟩ :=
  match op with
  | .add => safeAdd t lhs rhs
  | .sub => safeSub t lhs rhs
  | .multiply => safeMultiply t lhs rhs

/-- The operation negates what has no negative. -/
def Undefines (op : Operator) (lhs : Value ⟨s, t⟩) (rhs : Value ⟨s, u⟩) : Prop :=
  match op with
  | .multiply => s = true ∧ Unnegatable lhs rhs
  | _ => False

/-- The guard finds out whether the result is in range. -/
def Guarded (op : Operator) (lhs : Value ⟨s, t⟩) (rhs : Value ⟨s, u⟩) : Prop :=
  match op, s with
  | .add, true => 0 ≤ lhs.toInt ↔ 0 ≤ rhs.toInt
  | .add, false =>
    IntType.modulus ⟨s, t⟩ ≤ lhs.toInt + rhs.toInt % IntType.modulus ⟨s, t⟩
  | .sub, true => ¬ (0 ≤ lhs.toInt ↔ 0 ≤ rhs.toInt)
  | .sub, false => lhs.toInt < rhs.toInt % IntType.modulus ⟨s, t⟩
  | .multiply, _ => True

/-- A signed difference of operands of different signs is the least value. -/
def TakesMin (op : Operator) (lhs : Value ⟨s, t⟩) (rhs : Value ⟨s, u⟩) : Prop :=
  s = true ∧ op = .sub ∧ ¬ (0 ≤ lhs.toInt ↔ 0 ≤ rhs.toInt) ∧
    lhs.toInt - rhs.toInt = IntType.min ⟨s, t⟩

instance (op : Operator) (lhs : Value ⟨s, t⟩) (rhs : Value ⟨s, u⟩) :
    Decidable (TakesMin op lhs rhs) :=
  inferInstanceAs (Decidable (_ ∧ _))

variable {op : Operator} {lhs : Value ⟨s, t⟩} {rhs : Value ⟨s, u⟩}

theorem safe_undefined (undefines : Undefines op lhs rhs) : safe op lhs rhs = .error .overflow := by
  cases op
  · cases undefines
  · cases undefines
  · obtain ⟨rfl, un⟩ := undefines
    exact (signed_multiply_eq rfl rfl).trans (if_pos un)

/-- A product that is in range is stored, and no other is. -/
theorem multiply_eq (defined : ¬ Undefines .multiply lhs rhs) :
    safe .multiply lhs rhs = .ok (IntType.represent ⟨s, t⟩ (lhs.toInt * rhs.toInt)) := by
  cases s
  · exact unsigned_multiply_eq rfl rfl
  · exact (signed_multiply_eq rfl rfl).trans (if_neg fun un => defined ⟨rfl, un⟩)

theorem wrap_add_lt {T : IntType} {x y : Int} (unsigned : T.signed = false) (fits : T.Fits x) :
    (T.wrap (x + y)).toInt < x ↔ T.modulus ≤ x + y % T.modulus := by
  have modulus := @modulus_eq T
  have lower := min_unsigned unsigned
  rw [fits_unsigned unsigned] at fits
  have nonneg := Int.emod_nonneg y (by omega : T.modulus ≠ 0)
  have less := Int.emod_lt_of_pos y (by omega : 0 < T.modulus)
  rw [toInt_wrap, lower, sub_zero, add_zero, ← Int.add_emod_emod x y]
  generalize y % T.modulus = r at *
  by_cases wraps : T.modulus ≤ x + r
  · have cut : (x + r) % T.modulus = x + r - T.modulus := by
      rw [← Int.sub_emod_right, Int.emod_eq_of_lt (by omega) (by omega)]
    omega
  · rw [Int.emod_eq_of_lt (by omega) (by omega)]
    omega

theorem lt_wrap_sub {T : IntType} {x y : Int} (unsigned : T.signed = false) (fits : T.Fits x) :
    x < (T.wrap (x - y)).toInt ↔ x < y % T.modulus := by
  have modulus := @modulus_eq T
  have lower := min_unsigned unsigned
  rw [fits_unsigned unsigned] at fits
  have nonneg := Int.emod_nonneg y (by omega : T.modulus ≠ 0)
  have less := Int.emod_lt_of_pos y (by omega : 0 < T.modulus)
  rw [toInt_wrap, lower, sub_zero, add_zero, ← Int.sub_emod_emod x y]
  generalize y % T.modulus = r at *
  by_cases wraps : x < r
  · have cut : (x - r) % T.modulus = x - r + T.modulus := by
      rw [← Int.add_emod_right, Int.emod_eq_of_lt (by omega) (by omega)]
    omega
  · rw [Int.emod_eq_of_lt (by omega) (by omega)]
    omega

/-- A result in range is stored, unless the guard takes it for an overflow. -/
theorem safe_fit (defined : ¬ Undefines op lhs rhs)
    (fits : IntType.Fits ⟨s, t⟩ (op.exact lhs.toInt rhs.toInt)) :
    safe op lhs rhs = .ok (if TakesMin op lhs rhs then none else some ⟨_, fits⟩) := by
  have stores := wrap_of_fits fits
  cases op
  · rw [if_neg (fun least => by cases least.2.1), ← stores]
    cases s
    · have inside := (fits_unsigned rfl).mp fits
      have nonneg := ((fits_unsigned rfl).mp rhs.fits).1
      refine (unsigned_add_eq rfl rfl).trans (congrArg Except.ok (if_neg ?_))
      change ¬ (IntType.wrap _ (Operator.add.exact lhs.toInt rhs.toInt)).toInt < _
      rw [stores]
      change ¬ lhs.toInt + rhs.toInt < lhs.toInt
      omega
    · exact (signed_add_eq rfl rfl).trans (congrArg Except.ok (if_neg fun out => out.2 fits))
  · cases s
    · have inside := (fits_unsigned rfl).mp fits
      have nonneg := ((fits_unsigned rfl).mp rhs.fits).1
      rw [if_neg (fun least => by cases least.1), ← stores]
      refine (unsigned_sub_eq rfl rfl).trans (congrArg Except.ok (if_neg ?_))
      change ¬ _ < (IntType.wrap _ (Operator.sub.exact lhs.toInt rhs.toInt)).toInt
      rw [stores]
      change ¬ lhs.toInt < lhs.toInt - rhs.toInt
      omega
    · rw [← stores]
      refine (signed_sub_eq rfl rfl).trans (congrArg Except.ok (if_congr ?_ rfl rfl))
      have lower := @min_signed ⟨true, t⟩ rfl
      have inside : _ ≤ lhs.toInt - rhs.toInt ∧ lhs.toInt - rhs.toInt ≤ _ := fits
      simp only [TakesMin, true_and]
      refine and_congr_right fun _ => ?_
      omega
  · rw [multiply_eq defined, if_neg (fun least => by cases least.2.1)]
    exact congrArg Except.ok (represent_of_fits fits)

/-- A result out of range is refused if the guard finds out. -/
theorem safe_refused (defined : ¬ Undefines op lhs rhs)
    (outside : ¬ IntType.Fits ⟨s, t⟩ (op.exact lhs.toInt rhs.toInt))
    (guarded : Guarded op lhs rhs) : safe op lhs rhs = .ok none := by
  cases op
  · cases s
    · refine (unsigned_add_eq rfl rfl).trans (congrArg Except.ok (if_pos ?_))
      exact (wrap_add_lt rfl lhs.fits).mpr guarded
    · exact (signed_add_eq rfl rfl).trans (congrArg Except.ok (if_pos ⟨guarded, outside⟩))
  · cases s
    · refine (unsigned_sub_eq rfl rfl).trans (congrArg Except.ok (if_pos ?_))
      exact (lt_wrap_sub rfl lhs.fits).mpr guarded
    · refine (signed_sub_eq rfl rfl).trans (congrArg Except.ok (if_pos ⟨guarded, ?_⟩))
      exact fun inside => outside ⟨inside.1.le, inside.2⟩
  · rw [multiply_eq defined]
    exact congrArg Except.ok (represent_of_not outside)

/-- A result that the guard misses is cut off. -/
theorem safe_cut (guarded : ¬ Guarded op lhs rhs) :
    safe op lhs rhs = .ok (some (IntType.wrap ⟨s, t⟩ (op.exact lhs.toInt rhs.toInt))) := by
  cases op
  · cases s
    · refine (unsigned_add_eq rfl rfl).trans (congrArg Except.ok (if_neg ?_))
      exact fun less => guarded ((wrap_add_lt rfl lhs.fits).mp less)
    · exact (signed_add_eq rfl rfl).trans (congrArg Except.ok (if_neg fun out => guarded out.1))
  · cases s
    · refine (unsigned_sub_eq rfl rfl).trans (congrArg Except.ok (if_neg ?_))
      exact fun less => guarded ((lt_wrap_sub rfl lhs.fits).mp less)
    · exact (signed_sub_eq rfl rfl).trans (congrArg Except.ok (if_neg fun out => guarded out.1))
  · cases s <;> exact absurd trivial guarded

/-- The guards miss nothing where the right operand is no wider. -/
theorem guarded_of_narrow (narrow : u.bits ≤ t.bits)
    (outside : ¬ IntType.Fits ⟨s, t⟩ (op.exact lhs.toInt rhs.toInt)) : Guarded op lhs rhs := by
  have left := lhs.fits
  have right := rhs.fits
  cases s
  · have modulus := @modulus_eq ⟨false, t⟩
    have lower := @min_unsigned ⟨false, t⟩ rfl
    have narrower : IntType.max ⟨false, u⟩ ≤ IntType.max ⟨false, t⟩ := by
      cases t <;> cases u <;> first | decide | exact absurd narrow (by decide)
    rw [fits_unsigned rfl] at left right outside
    have same := Int.emod_eq_of_lt right.1
      (by omega : rhs.toInt < IntType.modulus ⟨false, t⟩)
    cases op
    · rw [Operator.exact] at outside
      rw [Guarded, same]
      omega
    · rw [Operator.exact] at outside
      rw [Guarded, same]
      omega
    · trivial
  · have narrower : IntType.max ⟨true, u⟩ ≤ IntType.max ⟨true, t⟩ := by
      cases t <;> cases u <;> first | decide | exact absurd narrow (by decide)
    rw [fits_signed rfl] at left right outside
    cases op
    · rw [Operator.exact] at outside
      rw [Guarded]
      omega
    · rw [Operator.exact] at outside
      rw [Guarded]
      omega
    · trivial

/-- An operand of the result's own type is always negated. -/
theorem defined_of_same {rhs : Value ⟨s, t⟩} : ¬ Undefines op lhs rhs := by
  cases op
  · exact id
  · exact id
  · exact fun undefines => undefines.2.2.2.2.2 rfl

/-- In one type only operands of different signs have the least value for a difference. -/
theorem takesMin_iff {rhs : Value ⟨s, t⟩} : TakesMin op lhs rhs ↔
    s = true ∧ op = .sub ∧ lhs.toInt - rhs.toInt = IntType.min ⟨s, t⟩ := by
  constructor
  · exact fun least => ⟨least.1, least.2.1, least.2.2.2⟩
  · rintro ⟨rfl, rfl, least⟩
    refine ⟨rfl, rfl, fun same => ?_, least⟩
    have left := (fits_signed rfl).mp lhs.fits
    have right := (fits_signed rfl).mp rhs.fits
    have lower := @min_signed ⟨true, t⟩ rfl
    omega

/-- Operands of one type: nothing is undefined, and the guard misses nothing. -/
theorem safe_same {rhs : Value ⟨s, t⟩} : safe op lhs rhs =
    .ok (if TakesMin op lhs rhs then none
      else IntType.represent ⟨s, t⟩ (op.exact lhs.toInt rhs.toInt)) := by
  by_cases fits : IntType.Fits ⟨s, t⟩ (op.exact lhs.toInt rhs.toInt)
  · rw [safe_fit defined_of_same fits, represent_of_fits fits]
  · rw [safe_refused defined_of_same fits (guarded_of_narrow (le_refl _) fits),
      represent_of_not fits, if_neg]
    rintro ⟨-, rfl, -, least⟩
    refine fits ?_
    rw [Operator.exact, least]
    exact ⟨le_refl _, min_nonpos.trans max_pos.le⟩

/-! ## Expressions -/

/-- `Checked<T, RecordOverflow>`. -/
structure Checked (T : IntType) where
  value : Value T
  overflowed : Bool
deriving DecidableEq

def zeroValue (T : IntType) : Value T := zero.convert T

/-- `Checked(ResultOverflowed)`. -/
def resultOverflowed (T : IntType) : Checked T := ⟨zeroValue T, true⟩

/-- `operator+`, `operator-` and `operator*`. Where the left operand has overflowed, the right one
is not asked for its value. -/
def operate (op : Operator) (lhs rhs : Checked ⟨s, t⟩) : Except Undefined (Checked ⟨s, t⟩) := do
  let x := lhs.value
  let y := if lhs.overflowed then zeroValue ⟨s, t⟩ else rhs.value
  match ← safe op x y with
  | none => pure (resultOverflowed ⟨s, t⟩)
  | some result =>
    if lhs.overflowed || rhs.overflowed then pure (resultOverflowed ⟨s, t⟩)
    else pure ⟨result, false⟩

inductive Expression (s : Bool) (t : Width)
  | value (v : Value ⟨s, t⟩)
  | apply (op : Operator) (lhs rhs : Expression s t)

namespace Expression

def evaluate : Expression s t → Except Undefined (Checked ⟨s, t⟩)
  | value v => pure ⟨v, false⟩
  | apply op lhs rhs => do
    let x ← lhs.evaluate
    let y ← rhs.evaluate
    operate op x y

def exact : Expression s t → Int
  | value v => v.toInt
  | apply op lhs rhs => op.exact lhs.exact rhs.exact

/-- The exact values of all sub-expressions are values of the type. -/
def Representable : Expression s t → Prop
  | value _ => True
  | apply op lhs rhs => lhs.Representable ∧ rhs.Representable ∧
      IntType.Fits ⟨s, t⟩ (op.exact lhs.exact rhs.exact)

/-- A sub-expression is a signed difference whose exact value is the least value. -/
def HasLeastDifference : Expression s t → Prop
  | value _ => False
  | apply op lhs rhs => lhs.HasLeastDifference ∨ rhs.HasLeastDifference ∨
      s = true ∧ op = .sub ∧ lhs.exact - rhs.exact = IntType.min ⟨s, t⟩

def RecordsExactly (e : Expression s t) : Prop :=
  ∃ c, e.evaluate = .ok c ∧ (c.overflowed = true ↔ ¬ e.Representable)

end Expression

theorem operate_overflowed {x y : Checked ⟨s, t⟩} (lost : x.overflowed = true ∨ y.overflowed = true) :
    operate op x y = .ok (resultOverflowed ⟨s, t⟩) := by
  rw [operate, safe_same]
  simp only [bind, Except.bind, pure, Except.pure]
  split
  · rfl
  · rw [if_pos (by simpa using lost)]

theorem operate_eq {x y : Checked ⟨s, t⟩} (kept : x.overflowed = false)
    (kept' : y.overflowed = false) : operate op x y = .ok (
      match if TakesMin op x.value y.value then none
        else IntType.represent ⟨s, t⟩ (op.exact x.value.toInt y.value.toInt) with
      | none => resultOverflowed ⟨s, t⟩
      | some result => ⟨result, false⟩) := by
  simp only [operate, kept, kept', safe_same, bind, Except.bind, pure, Except.pure,
    Bool.false_eq_true, if_false, Bool.or_self]
  generalize (if TakesMin op x.value y.value then none
    else IntType.represent ⟨s, t⟩ (op.exact x.value.toInt y.value.toInt)) = outcome
  cases outcome <;> rfl

/-- An expression is evaluated to its exact value, if all of its parts are in range and none is a
difference that is taken for an overflow. -/
theorem evaluate_eq (e : Expression s t) : ∃ c, e.evaluate = .ok c ∧
    (c.overflowed = false ↔ e.Representable ∧ ¬ e.HasLeastDifference) ∧
    (c.overflowed = false → c.value.toInt = e.exact) := by
  induction e with
  | value v => exact ⟨⟨v, false⟩, rfl, by simp [Expression.Representable,
      Expression.HasLeastDifference], fun _ => rfl⟩
  | apply op lhs rhs left right =>
    obtain ⟨x, evaluates, kept, value⟩ := left
    obtain ⟨y, evaluates', kept', value'⟩ := right
    have operates : (Expression.apply op lhs rhs).evaluate = operate op x y := by
      rw [Expression.evaluate, evaluates, evaluates']
      rfl
    rw [operates, Expression.Representable, Expression.HasLeastDifference]
    by_cases lost : x.overflowed = true ∨ y.overflowed = true
    · refine ⟨_, operate_overflowed lost, ⟨fun absurd => (by cases absurd), fun all => ?_⟩,
        fun absurd => (by cases absurd)⟩
      have left := kept.mpr ⟨all.1.1, fun least => all.2 (.inl least)⟩
      have right := kept'.mpr ⟨all.1.2.1, fun least => all.2 (.inr (.inl least))⟩
      rw [left, right] at lost
      exact absurd lost (by decide)
    · obtain ⟨left, right⟩ := not_or.mp lost
      simp only [Bool.not_eq_true] at left right
      refine ⟨_, operate_eq left right, ?_⟩
      have fine := kept.mp left
      have fine' := kept'.mp right
      rw [value left, value' right]
      have least := @takesMin_iff _ _ op x.value y.value
      rw [value left, value' right] at least
      by_cases takes : TakesMin op x.value y.value
      · rw [if_pos takes]
        have lost := least.mp takes
        exact ⟨⟨fun absurd => (by cases absurd), fun all => absurd (.inr (.inr lost)) all.2⟩,
          fun absurd => (by cases absurd)⟩
      · rw [if_neg takes]
        by_cases fits : IntType.Fits ⟨s, t⟩ (op.exact lhs.exact rhs.exact)
        · rw [represent_of_fits fits]
          refine ⟨⟨fun _ => ⟨⟨fine.1, fine'.1, fits⟩, ?_⟩, fun _ => rfl⟩, fun _ => rfl⟩
          rintro (lost | lost | lost)
          · exact fine.2 lost
          · exact fine'.2 lost
          · exact takes (least.mpr lost)
        · rw [represent_of_not fits]
          exact ⟨⟨fun absurd => (by cases absurd), fun all => absurd all.1.2.2 fits⟩,
            fun absurd => (by cases absurd)⟩

/-- **Checked arithmetic.** -/
theorem checked_exact_iff (s : Bool) (t : Width) :
    (∀ op (lhs rhs : Value ⟨s, t⟩),
      safe op lhs rhs = .ok (IntType.represent ⟨s, t⟩ (op.exact lhs.toInt rhs.toInt)) ↔
        ¬ (s = true ∧ op = .sub ∧ lhs.toInt - rhs.toInt = IntType.min ⟨s, t⟩)) ∧
    ∀ e : Expression s t, e.RecordsExactly ↔ ¬ (e.Representable ∧ e.HasLeastDifference) := by
  constructor
  · intro op lhs rhs
    rw [← takesMin_iff, safe_same]
    constructor
    · rintro exactly least
      obtain ⟨-, rfl, -, least'⟩ := id least
      rw [if_pos least] at exactly
      refine represent_eq_none.mp (Except.ok.inj exactly).symm ?_
      rw [Operator.exact, least']
      exact ⟨le_refl _, min_nonpos.trans max_pos.le⟩
    · intro least
      rw [if_neg least]
  · intro e
    obtain ⟨c, evaluates, kept, -⟩ := evaluate_eq e
    have lost : c.overflowed = true ↔ ¬ (e.Representable ∧ ¬ e.HasLeastDifference) := by
      rw [← kept, Bool.not_eq_false]
    constructor
    · rintro ⟨c', evaluates', records⟩ ⟨representable, least⟩
      obtain rfl := Except.ok.inj (evaluates.symm.trans evaluates')
      exact records.mp (lost.mpr fun all => all.2 least) representable
    · intro fine
      exact ⟨c, evaluates, lost.trans (by tauto)⟩

theorem least_minus_zero_refused : ¬ ∀ lhs rhs : Value ⟨true, .w32⟩,
    safe .sub lhs rhs = .ok (IntType.represent ⟨true, .w32⟩ (lhs.toInt - rhs.toInt)) := by
  intro exactly
  have one := exactly (IntType.minValue _) (zeroValue _)
  exact absurd one (by decide)

/-! ## Compound assignment -/

/-- `operator+=(U)`, `operator-=(U)` and `operator*=(U)`. -/
def Checked.assign (op : Operator) (c : Checked ⟨s, t⟩) (rhs : Value ⟨s, u⟩) :
    Except Undefined (Checked ⟨s, t⟩) := do
  match ← safe op c.value rhs with
  | none => pure { c with overflowed := true }
  | some result => pure { c with value := result }

/-- `operator+=(Checked<U, V>)`, `operator-=(Checked<U, V>)` and `operator*=(Checked<U, V>)`. -/
def Checked.assignChecked (op : Operator) (c : Checked ⟨s, t⟩) (rhs : Checked ⟨s, u⟩) :
    Except Undefined (Checked ⟨s, t⟩) :=
  if rhs.overflowed then Checked.assign op { c with overflowed := true } rhs.value
  else Checked.assign op c rhs.value

inductive Operand (T : IntType)
  | plain (v : Value T)
  | checked (c : Checked T)

def Operand.value {T : IntType} : Operand T → Value T
  | plain v => v
  | checked c => c.value

def Operand.overflowed {T : IntType} : Operand T → Bool
  | plain _ => false
  | checked c => c.overflowed

/-- An assignment, with an operand of a width of its own. -/
structure Assignment (s : Bool) where
  op : Operator
  width : Width
  operand : Operand ⟨s, width⟩

def Checked.step (c : Checked ⟨s, t⟩) (a : Assignment s) : Except Undefined (Checked ⟨s, t⟩) :=
  match a.operand with
  | .plain v => c.assign a.op v
  | .checked rhs => c.assignChecked a.op rhs

def Checked.run (c : Checked ⟨s, t⟩) : List (Assignment s) → Except Undefined (Checked ⟨s, t⟩)
  | [] => pure c
  | a :: rest => do
    let c' ← c.step a
    c'.run rest

/-- The exact result of the sequence. -/
def exactRun (v : Int) (steps : List (Assignment s)) : Int :=
  steps.foldl (fun v a => a.op.exact v a.operand.value.toInt) v

/-- Nothing is undefined, and what is not recorded has not happened. -/
def HidesNothing (c : Checked ⟨s, t⟩) (steps : List (Assignment s)) : Prop :=
  ∃ c', c.run steps = .ok c' ∧
    (c'.overflowed = false → c'.value.toInt = exactRun c.value.toInt steps)

/-- The step is defined, and an overflow is recorded already, does not happen or is found. -/
def Sound (c : Checked ⟨s, t⟩) (a : Assignment s) : Prop :=
  ¬ Undefines a.op c.value a.operand.value ∧
    (c.overflowed = true ∨ a.operand.overflowed = true ∨
      IntType.Fits ⟨s, t⟩ (a.op.exact c.value.toInt a.operand.value.toInt) ∨
      Guarded a.op c.value a.operand.value)

/-- Every step is, in the state it is made in. -/
def AllSound (c : Checked ⟨s, t⟩) : List (Assignment s) → Prop
  | [] => True
  | a :: rest => Sound c a ∧ ∀ c', c.step a = .ok c' → AllSound c' rest

variable {c : Checked ⟨s, t⟩} {a : Assignment s}

theorem step_eq : c.step a = (safe a.op c.value a.operand.value).map fun outcome =>
    match outcome with
    | none => ⟨c.value, true⟩
    | some result => ⟨result, c.overflowed || a.operand.overflowed⟩ := by
  rcases a with ⟨op, w, v | rhs⟩
  · simp only [Checked.step, Checked.assign, Operand.value, Operand.overflowed, Bool.or_false]
    rcases safe op c.value v with fault | _ | result <;> rfl
  · simp only [Checked.step, Checked.assignChecked, Checked.assign, Operand.value,
      Operand.overflowed]
    rcases lost : rhs.overflowed with _ | _
    · simp only [Bool.or_false, Bool.false_eq_true, if_false]
      rcases safe op c.value rhs.value with fault | _ | result <;> rfl
    · simp only [Bool.or_true, if_true]
      rcases safe op c.value rhs.value with fault | _ | result <;> rfl

/-- What a sound step does. -/
theorem step_sound (sound : Sound c a) : ∃ c', c.step a = .ok c' ∧
    (c'.overflowed = false → c.overflowed = false ∧
      c'.value.toInt = a.op.exact c.value.toInt a.operand.value.toInt) := by
  obtain ⟨defined, found⟩ := sound
  rw [step_eq]
  by_cases fits : IntType.Fits ⟨s, t⟩ (a.op.exact c.value.toInt a.operand.value.toInt)
  · rw [safe_fit defined fits]
    split
    · exact ⟨_, rfl, fun absurd => (by cases absurd)⟩
    · refine ⟨_, rfl, fun kept => ⟨?_, rfl⟩⟩
      exact (Bool.or_eq_false_iff.mp kept).1
  · by_cases guarded : Guarded a.op c.value a.operand.value
    · rw [safe_refused defined fits guarded]
      exact ⟨_, rfl, fun absurd => (by cases absurd)⟩
    · rw [safe_cut guarded]
      refine ⟨_, rfl, fun kept => ?_⟩
      obtain ⟨kept, kept'⟩ := Bool.or_eq_false_iff.mp kept
      rw [kept, kept'] at found
      simp only [Bool.false_eq_true, false_or] at found
      exact absurd found (not_or.mpr ⟨fits, guarded⟩)

theorem run_sound {steps : List (Assignment s)} (sound : AllSound c steps) :
    ∃ c', c.run steps = .ok c' ∧ (c'.overflowed = false →
      c.overflowed = false ∧ c'.value.toInt = exactRun c.value.toInt steps) := by
  induction steps generalizing c with
  | nil => exact ⟨c, rfl, fun kept => ⟨kept, rfl⟩⟩
  | cons a rest ih =>
    obtain ⟨c', steps, exactly⟩ := step_sound sound.1
    obtain ⟨c'', runs, exactly'⟩ := ih (sound.2 c' steps)
    refine ⟨c'', ?_, fun kept => ?_⟩
    · rw [Checked.run, steps]
      exact runs
    · obtain ⟨kept', value⟩ := exactly' kept
      obtain ⟨kept'', value'⟩ := exactly kept'
      refine ⟨kept'', ?_⟩
      rw [value, value']
      rfl

/-- For a single step the condition is also necessary. -/
theorem sound_of_hidesNothing (hides : HidesNothing c [a]) : Sound c a := by
  obtain ⟨c', runs, exactly⟩ := hides
  have steps : c.step a = .ok c' := by
    rw [Checked.run] at runs
    rcases stepped : c.step a with fault | c''
    · rw [stepped] at runs
      cases runs
    · rw [stepped] at runs
      exact runs
  have defined : ¬ Undefines a.op c.value a.operand.value := by
    intro undefines
    rw [step_eq, safe_undefined undefines] at steps
    cases steps
  refine ⟨defined, ?_⟩
  by_contra hidden
  simp only [not_or, Bool.not_eq_true] at hidden
  obtain ⟨kept, kept', outside, guarded⟩ := hidden
  rw [step_eq, safe_cut guarded, kept, kept'] at steps
  obtain rfl := Except.ok.inj steps
  have value := exactly rfl
  refine outside ?_
  change IntType.Fits _ (exactRun c.value.toInt [a])
  rw [← value]
  exact Value.fits _

/-- **Compound assignment.** -/
theorem assignments_hide_nothing (s : Bool) (t : Width) (c : Checked ⟨s, t⟩) :
    (∀ steps, AllSound c steps → HidesNothing c steps) ∧
      ∀ a, HidesNothing c [a] ↔ Sound c a := by
  have enough steps (sound : AllSound c steps) : HidesNothing c steps := by
    obtain ⟨c', runs, exactly⟩ := run_sound sound
    exact ⟨c', runs, fun kept => (exactly kept).2⟩
  refine ⟨enough, fun a => ⟨sound_of_hidesNothing, fun sound => enough [a] ⟨sound, ?_⟩⟩⟩
  exact fun _ _ => trivial

theorem wide_operand_hidden : ¬ HidesNothing (⟨zeroValue ⟨true, .w32⟩, false⟩ : Checked _)
    [⟨.add, .w64, .plain ⟨-2 ^ 40, by decide⟩⟩] := by
  rintro ⟨c', runs, exactly⟩
  have stored : Checked.run (⟨zeroValue ⟨true, .w32⟩, false⟩ : Checked _)
      [⟨.add, .w64, .plain ⟨-2 ^ 40, by decide⟩⟩] = .ok ⟨zeroValue ⟨true, .w32⟩, false⟩ := by
    rfl
  rw [stored] at runs
  obtain rfl := Except.ok.inj runs
  exact absurd (exactly rfl) (by decide)

end NetRider.Wtf.CheckedArithmetic
