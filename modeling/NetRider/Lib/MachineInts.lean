import Mathlib.Data.Int.Bitwise
import Mathlib.Tactic.Linarith
import Mathlib.Tactic.Ring

/-!
# Integers of a machine

Signed and unsigned types of 8 to 64 bits, with the integral promotions and the usual arithmetic
conversions of C: an operation converts its operands to their common type and is done there. In a
signed type a result out of range is undefined, in an unsigned one it wraps around.
-/

namespace NetRider.Lib.MachineInts

/-! ## Types and values -/

inductive Width
  | w8
  | w16
  | w32
  | w64
deriving DecidableEq

def Width.bits : Width → Nat
  | .w8 => 8
  | .w16 => 16
  | .w32 => 32
  | .w64 => 64

structure IntType where
  signed : Bool
  width : Width
deriving DecidableEq

namespace IntType

variable (T U : IntType)

def min : Int := if T.signed then -2 ^ (T.width.bits - 1) else 0

def max : Int := if T.signed then 2 ^ (T.width.bits - 1) - 1 else 2 ^ T.width.bits - 1

def Fits (v : Int) : Prop := T.min ≤ v ∧ v ≤ T.max

instance (v : Int) : Decidable (T.Fits v) := inferInstanceAs (Decidable (_ ∧ _))

/-- The number of values. -/
def modulus : Int := 2 ^ T.width.bits

def int : IntType := ⟨true, .w32⟩

/-- The integral promotions. -/
def promote : IntType := if T.width.bits < 32 then int else T

/-- The usual arithmetic conversions. -/
def common : IntType :=
  if T.promote.signed = U.promote.signed then
    if U.promote.width.bits ≤ T.promote.width.bits then T.promote else U.promote
  else if T.promote.signed then
    if T.promote.width.bits ≤ U.promote.width.bits then U.promote else T.promote
  else if U.promote.width.bits ≤ T.promote.width.bits then T.promote else U.promote

end IntType

/-- A value of type `T`. -/
@[ext] structure Value (T : IntType) where
  toInt : Int
  fits : T.Fits toInt
deriving DecidableEq

variable {T U : IntType} {v : Int}

def zero : Value .int := ⟨0, by decide⟩

/-! ## Bounds -/

theorem Width.bits_le (w : Width) : 8 ≤ w.bits ∧ w.bits ≤ 64 := by
  cases w <;> decide

theorem min_nonpos : T.min ≤ 0 := by
  rcases T with ⟨_ | _, w⟩ <;> cases w <;> decide

theorem max_pos : 0 < T.max := by
  rcases T with ⟨_ | _, w⟩ <;> cases w <;> decide

namespace IntType

def minValue (T : IntType) : Value T := ⟨T.min, le_refl _, min_nonpos.trans max_pos.le⟩

def maxValue (T : IntType) : Value T := ⟨T.max, min_nonpos.trans max_pos.le, le_refl _⟩

end IntType

@[simp] theorem zero_toInt : zero.toInt = 0 := rfl

@[simp] theorem minValue_toInt : T.minValue.toInt = T.min := rfl

@[simp] theorem maxValue_toInt : T.maxValue.toInt = T.max := rfl

theorem modulus_eq : T.modulus = T.max - T.min + 1 := by
  rcases T with ⟨_ | _, w⟩ <;> cases w <;> decide

theorem min_signed (signed : T.signed = true) : T.min = -T.max - 1 := by
  rcases T with ⟨_ | _, w⟩
  · cases signed
  · cases w <;> decide

theorem min_unsigned (unsigned : T.signed = false) : T.min = 0 := by
  rw [IntType.min, unsigned]
  rfl

theorem fits_signed (signed : T.signed = true) : T.Fits v ↔ -T.max - 1 ≤ v ∧ v ≤ T.max := by
  rw [IntType.Fits, min_signed signed]

theorem fits_unsigned (unsigned : T.signed = false) : T.Fits v ↔ 0 ≤ v ∧ v ≤ T.max := by
  rw [IntType.Fits, min_unsigned unsigned]

theorem promote_signed (signed : T.signed = true) : T.promote.signed = true := by
  unfold IntType.promote
  split
  · rfl
  · exact signed

theorem common_signed (left : T.signed = true) (right : U.signed = true) :
    (T.common U).signed = true := by
  unfold IntType.common
  rw [promote_signed left, promote_signed right, if_pos rfl]
  split
  · exact promote_signed left
  · exact promote_signed right

theorem max_le_promote : T.max ≤ T.promote.max := by
  rcases T with ⟨_ | _, w⟩ <;> cases w <;> decide

theorem max_le_common : T.max ≤ (T.common U).max ∧ U.max ≤ (T.common U).max := by
  rcases T with ⟨_ | _, w⟩ <;> rcases U with ⟨_ | _, w'⟩ <;> cases w <;> cases w' <;> decide

/-- A value that is not negative keeps its value, and so does every value next to a signed
operand. -/
theorem Value.fits_left (a : Value T) (keeps : 0 ≤ a.toInt ∨ U.signed = true) :
    (T.common U).Fits a.toInt := by
  have bounds := a.fits
  have above := (@max_le_common T U).1
  have below := @min_nonpos (T.common U)
  unfold IntType.Fits at bounds ⊢
  rcases keeps with nonneg | right
  · omega
  · rcases signed : T.signed with _ | _
    · have zero := min_unsigned signed
      omega
    · have lower := min_signed signed
      have lower' := min_signed (common_signed signed right)
      omega

theorem Value.fits_right (b : Value U) (keeps : 0 ≤ b.toInt ∨ T.signed = true) :
    (T.common U).Fits b.toInt := by
  have bounds := b.fits
  have above := (@max_le_common T U).2
  have below := @min_nonpos (T.common U)
  unfold IntType.Fits at bounds ⊢
  rcases keeps with nonneg | left
  · omega
  · rcases signed : U.signed with _ | _
    · have zero := min_unsigned signed
      omega
    · have lower := min_signed signed
      have lower' := min_signed (common_signed left signed)
      omega

theorem Value.fits_promote (a : Value T) : T.promote.Fits a.toInt := by
  have bounds := a.fits
  have above := @max_le_promote T
  have below := @min_nonpos T.promote
  unfold IntType.Fits at bounds ⊢
  rcases signed : T.signed with _ | _
  · have zero := min_unsigned signed
    omega
  · have lower := min_signed signed
    have lower' := min_signed (promote_signed signed)
    omega

/-- Negation overflows at the least value of a type that is not promoted. -/
theorem fits_neg {a : Value T} (signed : T.signed = true) :
    T.promote.Fits (-a.toInt) ↔ ¬ (a.toInt = T.min ∧ 32 ≤ T.width.bits) := by
  have bounds := (fits_signed signed).mp a.fits
  have lower := min_signed signed
  rw [fits_signed (promote_signed signed)]
  by_cases wide : 32 ≤ T.width.bits
  · rw [IntType.promote, if_neg (by omega)]
    omega
  · have roomy : T.max < IntType.int.max := by
      rcases T with ⟨_ | _, w⟩
      · cases signed
      · cases w <;> first | decide | exact absurd (by decide) wide
    rw [IntType.promote, if_pos (by omega)]
    omega

/-! ## Conversions -/

/-- The value of type `T` that is congruent to `v`. -/
def IntType.wrap (T : IntType) (v : Int) : Value T :=
  ⟨(v - T.min) % T.modulus + T.min, by
    have modulus := @modulus_eq T
    have positive := @max_pos T
    have below := @min_nonpos T
    have nonneg := Int.emod_nonneg (v - T.min) (by omega : T.modulus ≠ 0)
    have less := Int.emod_lt_of_pos (v - T.min) (by omega : 0 < T.modulus)
    unfold IntType.Fits
    omega⟩

/-- `v` as a value of type `T`, if it is one. -/
def IntType.represent (T : IntType) (v : Int) : Option (Value T) :=
  if fits : T.Fits v then some ⟨v, fits⟩ else none

theorem toInt_wrap : (T.wrap v).toInt = (v - T.min) % T.modulus + T.min := rfl

theorem wrap_of_fits (fits : T.Fits v) : T.wrap v = ⟨v, fits⟩ := by
  have modulus := @modulus_eq T
  have inside := fits
  unfold IntType.Fits at inside
  ext
  rw [toInt_wrap, Int.emod_eq_of_lt (by omega) (by omega), sub_add_cancel]

theorem toInt_wrap_of_fits (fits : T.Fits v) : (T.wrap v).toInt = v := by
  rw [wrap_of_fits fits]

@[simp] theorem wrap_toInt (a : Value T) : T.wrap a.toInt = a := wrap_of_fits a.fits

theorem represent_of_fits (fits : T.Fits v) : T.represent v = some ⟨v, fits⟩ := dif_pos fits

theorem represent_of_not (outside : ¬ T.Fits v) : T.represent v = none := dif_neg outside

theorem represent_eq_some {a : Value T} : T.represent v = some a ↔ a.toInt = v := by
  constructor
  · intro same
    by_cases fits : T.Fits v
    · rw [represent_of_fits fits] at same
      rw [← Option.some.inj same]
    · rw [represent_of_not fits] at same
      cases same
  · rintro rfl
    exact represent_of_fits a.fits

theorem represent_eq_none : T.represent v = none ↔ ¬ T.Fits v := by
  constructor
  · intro outside fits
    rw [represent_of_fits fits] at outside
    cases outside
  · exact represent_of_not

def Value.convert (a : Value T) (U : IntType) : Value U := U.wrap a.toInt

theorem Value.convert_of_fits {a : Value T} (fits : U.Fits a.toInt) :
    a.convert U = ⟨a.toInt, fits⟩ :=
  wrap_of_fits fits

theorem wrap_congr {u : Int} (congruent : T.modulus ∣ u - v) : T.wrap u = T.wrap v := by
  ext
  rw [toInt_wrap, toInt_wrap, Int.emod_eq_emod_iff_emod_sub_eq_zero.mpr]
  rw [sub_sub_sub_cancel_right]
  exact Int.emod_eq_zero_of_dvd congruent

theorem modulus_dvd_wrap_sub : T.modulus ∣ (T.wrap v).toInt - v := by
  refine ⟨-((v - T.min) / T.modulus), ?_⟩
  have split := Int.mul_ediv_add_emod (v - T.min) T.modulus
  rw [toInt_wrap, mul_neg]
  omega

/-- What wrapped around before wraps around to the same. -/
theorem wrap_mul_add {a b : Int} : T.wrap (a * (T.wrap v).toInt + b) = T.wrap (a * v + b) := by
  apply wrap_congr
  rw [add_sub_add_right_eq_sub, ← mul_sub]
  exact Dvd.dvd.mul_left modulus_dvd_wrap_sub a

/-- A negative value that wraps around to the least one lies below it. -/
theorem le_min_of_wrap (wraps : (T.wrap v).toInt = T.min) (negative : v < 0) : v ≤ T.min := by
  have modulus := @modulus_eq T
  have positive := @max_pos T
  have below := @min_nonpos T
  rw [toInt_wrap] at wraps
  obtain ⟨k, multiple⟩ := Int.dvd_of_emod_eq_zero (by omega : (v - T.min) % T.modulus = 0)
  by_contra above
  have less : k < 1 := by
    by_contra many
    have more : T.modulus * 1 ≤ T.modulus * k := Int.mul_le_mul_of_nonneg_left (by omega) (by omega)
    omega
  have some : 0 < k := by
    by_contra few
    have more : T.modulus * k ≤ T.modulus * 0 := Int.mul_le_mul_of_nonneg_left (by omega) (by omega)
    omega
  omega

theorem wrap_min_ne (signed : T.signed = true) (signed' : U.signed = true)
    (differ : U.width ≠ T.width) (wide : 32 ≤ U.width.bits) :
    (T.wrap U.min).toInt ≠ T.min := by
  rcases T with ⟨_ | _, w⟩
  · cases signed
  · rcases U with ⟨_ | _, w'⟩
    · cases signed'
    · cases w <;> cases w' <;>
        first | exact absurd rfl differ | exact absurd wide (by decide) | decide

/-- A detour through a type that is at least as wide changes nothing. -/
theorem wrap_wrap (unsigned : T.signed = false) (unsigned' : U.signed = false)
    (wide : T.width.bits ≤ U.width.bits) : T.wrap (U.wrap v).toInt = T.wrap v := by
  ext
  have divides : T.modulus ∣ U.modulus := pow_dvd_pow 2 wide
  have zero := min_unsigned unsigned
  have zero' := min_unsigned unsigned'
  simp only [toInt_wrap, zero, zero', sub_zero, add_zero]
  exact Int.emod_emod_of_dvd v divides

/-! ## Operations -/

inductive Undefined
  | overflow
  | divisionByZero
deriving DecidableEq

/-- The result of an operation that is done in the type `T`. -/
def IntType.result (T : IntType) (v : Int) : Except Undefined (Value T) :=
  if T.signed = true ∧ ¬ T.Fits v then .error .overflow else .ok (T.wrap v)

theorem result_of_fits (fits : T.Fits v) : T.result v = .ok ⟨v, fits⟩ := by
  rw [IntType.result, if_neg fun undefined => undefined.2 fits, wrap_of_fits fits]

theorem result_overflow (signed : T.signed = true) (outside : ¬ T.Fits v) :
    T.result v = .error .overflow :=
  if_pos ⟨signed, outside⟩

theorem result_unsigned (unsigned : T.signed = false) : T.result v = .ok (T.wrap v) :=
  if_neg fun undefined => by rw [unsigned] at undefined; cases undefined.1

namespace Value

variable (a : Value T) (b : Value U)

/-- Both operands in their common type. -/
def left (_b : Value U) : Int := (a.convert (T.common U)).toInt

def right (_a : Value T) : Int := (b.convert (T.common U)).toInt

def add : Except Undefined (Value (T.common U)) := (T.common U).result (a.left b + b.right a)

def sub : Except Undefined (Value (T.common U)) := (T.common U).result (a.left b - b.right a)

def mul : Except Undefined (Value (T.common U)) := (T.common U).result (a.left b * b.right a)

def div : Except Undefined (Value (T.common U)) :=
  if b.right a = 0 then .error .divisionByZero
  else (T.common U).result ((a.left b).tdiv (b.right a))

def neg : Except Undefined (Value T.promote) := T.promote.result (-(a.convert T.promote).toInt)

def xor : Value (T.common U) := (T.common U).wrap (Int.xor (a.left b) (b.right a))

def lt : Bool := decide (a.left b < b.right a)

def le : Bool := decide (a.left b ≤ b.right a)

def eq : Bool := decide (a.left b = b.right a)

end Value

/-- Neither operand is changed by the conversion to the common type. -/
def Keeps (a : Value T) (b : Value U) : Prop :=
  (0 ≤ a.toInt ∨ U.signed = true) ∧ (0 ≤ b.toInt ∨ T.signed = true)

section
variable {a : Value T} {b : Value U}

theorem keeps_of_signed (left : T.signed = true) (right : U.signed = true) : Keeps a b :=
  ⟨.inr right, .inr left⟩

theorem keeps_of_nonneg (left : 0 ≤ a.toInt) (right : 0 ≤ b.toInt) : Keeps a b :=
  ⟨.inl left, .inl right⟩

theorem left_eq (keeps : Keeps a b) : a.left b = a.toInt := by
  rw [Value.left, Value.convert_of_fits (a.fits_left keeps.1)]

theorem right_eq (keeps : Keeps a b) : b.right a = b.toInt := by
  rw [Value.right, Value.convert_of_fits (b.fits_right keeps.2)]

theorem lt_eq (keeps : Keeps a b) : a.lt b = decide (a.toInt < b.toInt) := by
  rw [Value.lt, left_eq keeps, right_eq keeps]

theorem le_eq (keeps : Keeps a b) : a.le b = decide (a.toInt ≤ b.toInt) := by
  rw [Value.le, left_eq keeps, right_eq keeps]

theorem eq_eq (keeps : Keeps a b) : a.eq b = decide (a.toInt = b.toInt) := by
  rw [Value.eq, left_eq keeps, right_eq keeps]

theorem exists_add (keeps : Keeps a b) (fits : (T.common U).Fits (a.toInt + b.toInt)) :
    ∃ c, a.add b = .ok c ∧ c.toInt = a.toInt + b.toInt := by
  refine ⟨⟨_, fits⟩, ?_, rfl⟩
  rw [Value.add, left_eq keeps, right_eq keeps, result_of_fits fits]

theorem exists_sub (keeps : Keeps a b) (fits : (T.common U).Fits (a.toInt - b.toInt)) :
    ∃ c, a.sub b = .ok c ∧ c.toInt = a.toInt - b.toInt := by
  refine ⟨⟨_, fits⟩, ?_, rfl⟩
  rw [Value.sub, left_eq keeps, right_eq keeps, result_of_fits fits]

theorem exists_mul (keeps : Keeps a b) (fits : (T.common U).Fits (a.toInt * b.toInt)) :
    ∃ c, a.mul b = .ok c ∧ c.toInt = a.toInt * b.toInt := by
  refine ⟨⟨_, fits⟩, ?_, rfl⟩
  rw [Value.mul, left_eq keeps, right_eq keeps, result_of_fits fits]

theorem exists_div (keeps : Keeps a b) (nonzero : b.toInt ≠ 0)
    (fits : (T.common U).Fits (a.toInt.tdiv b.toInt)) :
    ∃ c, a.div b = .ok c ∧ c.toInt = a.toInt.tdiv b.toInt := by
  refine ⟨⟨_, fits⟩, ?_, rfl⟩
  rw [Value.div, left_eq keeps, right_eq keeps, if_neg nonzero, result_of_fits fits]

theorem exists_neg (fits : T.promote.Fits (-a.toInt)) :
    ∃ c, a.neg = .ok c ∧ c.toInt = -a.toInt := by
  refine ⟨⟨_, fits⟩, ?_, rfl⟩
  rw [Value.neg, Value.convert_of_fits a.fits_promote, result_of_fits fits]

theorem neg_overflow (signed : T.signed = true) (outside : ¬ T.promote.Fits (-a.toInt)) :
    a.neg = .error .overflow := by
  rw [Value.neg, Value.convert_of_fits a.fits_promote,
    result_overflow (promote_signed signed) outside]

end

/-! ## Unsigned operands -/

/-- The common type of unsigned types wraps around at a multiple of their moduli, or holds all
sums. -/
theorem common_unsigned (unsigned : T.signed = false) (unsigned' : U.signed = false) :
    (T.common U).signed = false ∧ T.width.bits ≤ (T.common U).width.bits ∨
      (T.common U).signed = true ∧ T.max + U.max ≤ (T.common U).max := by
  rcases T with ⟨_ | _, w⟩
  · rcases U with ⟨_ | _, w'⟩
    · cases w <;> cases w' <;> decide
    · cases unsigned'
  · cases unsigned

theorem result_unsigned_common (unsigned : T.signed = false) (unsigned' : U.signed = false)
    (above : -U.max ≤ v) (below : v ≤ T.max + U.max) :
    ∃ c, (T.common U).result v = .ok c ∧ c.convert T = T.wrap v := by
  rcases common_unsigned unsigned unsigned' with ⟨unsigned'', wide⟩ | ⟨signed, wide⟩
  · exact ⟨_, result_unsigned unsigned'', wrap_wrap unsigned unsigned'' wide⟩
  · have positive := @max_pos T
    have fits : (T.common U).Fits v := by
      rw [fits_signed signed]
      omega
    exact ⟨_, result_of_fits fits, rfl⟩

section
variable {a : Value T} {b : Value U} (unsigned : T.signed = false) (unsigned' : U.signed = false)
include unsigned unsigned'

theorem exists_add_unsigned :
    ∃ c, a.add b = .ok c ∧ c.convert T = T.wrap (a.toInt + b.toInt) := by
  have left := (fits_unsigned unsigned).mp a.fits
  have right := (fits_unsigned unsigned').mp b.fits
  have keeps := keeps_of_nonneg left.1 right.1
  rw [Value.add, left_eq keeps, right_eq keeps]
  exact result_unsigned_common unsigned unsigned' (by omega) (by omega)

theorem exists_sub_unsigned :
    ∃ c, a.sub b = .ok c ∧ c.convert T = T.wrap (a.toInt - b.toInt) := by
  have left := (fits_unsigned unsigned).mp a.fits
  have right := (fits_unsigned unsigned').mp b.fits
  have keeps := keeps_of_nonneg left.1 right.1
  rw [Value.sub, left_eq keeps, right_eq keeps]
  exact result_unsigned_common unsigned unsigned' (by omega) (by omega)

end

/-! ## Division -/

theorem tdiv_bounds {m a : Int} (nonneg : 0 ≤ m) (positive : 0 < a) :
    0 ≤ m.tdiv a ∧ m.tdiv a ≤ m := by
  rw [Int.tdiv_eq_ediv_of_nonneg nonneg]
  exact ⟨Int.ediv_nonneg nonneg positive.le, Int.ediv_le_self a nonneg⟩

theorem tdiv_lt_iff {m a b : Int} (nonneg : 0 ≤ m) (positive : 0 < a) :
    m.tdiv a < b ↔ m < a * b := by
  rw [Int.tdiv_eq_ediv_of_nonneg nonneg, Int.ediv_lt_iff_lt_mul positive, mul_comm]

/-- Division of a negative number rounds up. -/
theorem lt_tdiv_iff {m a b : Int} (nonneg : 0 ≤ m) (positive : 0 < b) :
    a < (-m).tdiv b ↔ a * b < -m := by
  rw [Int.neg_tdiv, lt_neg, tdiv_lt_iff nonneg positive, mul_neg, mul_comm b, lt_neg]

/-! ## Signs -/

theorem xor_lt {m n : Nat} {w : Nat} (left : m < 2 ^ w) (right : n < 2 ^ w) : m ^^^ n < 2 ^ w :=
  Nat.xor_lt_two_pow left right

/-- Exclusive or of two values of a signed type is one. -/
theorem fits_xor (signed : T.signed = true) {m n : Int} (left : T.Fits m) (right : T.Fits n) :
    T.Fits (Int.xor m n) := by
  unfold IntType.Fits IntType.min IntType.max at *
  rw [signed] at *
  simp only [if_true] at *
  generalize T.width.bits - 1 = w at *
  have power : ((2 ^ w : Nat) : Int) = 2 ^ w := by push_cast; rfl
  rcases m with m | m <;> rcases n with n | n <;>
    simp only [Int.xor, Int.ofNat_eq_natCast, Int.negSucc_eq] at * <;>
    have less := @xor_lt m n w (by omega) (by omega) <;> omega

theorem xor_nonneg {m n : Int} : 0 ≤ Int.xor m n ↔ (0 ≤ m ↔ 0 ≤ n) := by
  rcases m with m | m <;> rcases n with n | n <;>
    simp only [Int.xor, Int.ofNat_eq_natCast, Int.negSucc_eq] <;> omega

theorem toInt_xor {a : Value T} {b : Value U} (left : T.signed = true) (right : U.signed = true) :
    (a.xor b).toInt = Int.xor a.toInt b.toInt := by
  have fits := fits_xor (common_signed left right) (a.fits_left (.inr right))
    (b.fits_right (.inr left))
  rw [Value.xor, left_eq (keeps_of_signed left right), right_eq (keeps_of_signed left right),
    wrap_of_fits fits]

end NetRider.Lib.MachineInts
