import Mathlib

/-!
# Media times

A `MediaTime` is a value over a scale, or one of the special times that its flags name. `compare`
is `none` where the code's arithmetic is undefined: a division by zero, or a result that `int64_t`
does not hold.
-/

namespace NetRider.Wtf

/-! ## Arithmetic of `int64_t` -/

def InInt32 (n : Int) : Prop := -2147483648 ≤ n ∧ n ≤ 2147483647

def InInt64 (n : Int) : Prop := -9223372036854775808 ≤ n ∧ n ≤ 9223372036854775807

instance (n : Int) : Decidable (InInt32 n) := inferInstanceAs (Decidable (_ ∧ _))

instance (n : Int) : Decidable (InInt64 n) := inferInstanceAs (Decidable (_ ∧ _))

def int64 (n : Int) : Option Int := if InInt64 n then some n else none

/-- `a / b`, which is cut off toward zero. -/
def quotient (a b : Int) : Option Int := if b = 0 then none else int64 (a.tdiv b)

/-- `a % b`, which is only defined where `a / b` is. -/
def remainder (a b : Int) : Option Int := (quotient a b).map fun _ => a.tmod b

def product (a b : Int) : Option Int := int64 (a * b)

/-! ## Comparing times -/

structure MediaTime where
  timeValue : Int
  timeScale : Int
  timeFlags : BitVec 32
  valueFits : InInt64 timeValue
  scaleFits : InInt32 timeScale

inductive ComparisonFlags
  | lessThan
  | equalTo
  | greaterThan
  deriving DecidableEq, Repr

namespace MediaTime

def isValid (t : MediaTime) : Bool := t.timeFlags.getLsbD 0
def isInvalid (t : MediaTime) : Bool := !t.isValid
def hasBeenRounded (t : MediaTime) : Bool := t.timeFlags.getLsbD 1
def isPositiveInfinite (t : MediaTime) : Bool := t.timeFlags.getLsbD 2
def isNegativeInfinite (t : MediaTime) : Bool := t.timeFlags.getLsbD 3
def isIndefinite (t : MediaTime) : Bool := t.timeFlags.getLsbD 4

/-- The part of `compare` for two times with a value. -/
def compareValues (t rhs : MediaTime) : Option ComparisonFlags := do
  let rhsWhole ← quotient rhs.timeValue rhs.timeScale
  let lhsWhole ← quotient t.timeValue t.timeScale
  if lhsWhole > rhsWhole then some .greaterThan
  else if lhsWhole < rhsWhole then some .lessThan
  else
    let rhsRemain ← remainder rhs.timeValue rhs.timeScale
    let lhsRemain ← remainder t.timeValue t.timeScale
    let lhsFactor ← product lhsRemain rhs.timeScale
    let rhsFactor ← product rhsRemain t.timeScale
    if lhsFactor = rhsFactor then some .equalTo
    else if lhsFactor > rhsFactor then some .greaterThan
    else some .lessThan

def compare (t rhs : MediaTime) : Option ComparisonFlags :=
  if (t.isPositiveInfinite && rhs.isPositiveInfinite) ||
      (t.isNegativeInfinite && rhs.isNegativeInfinite) || (t.isInvalid && rhs.isInvalid) ||
      (t.isIndefinite && rhs.isIndefinite) then some .equalTo
  else if t.isInvalid then some .greaterThan
  else if rhs.isInvalid then some .lessThan
  else if rhs.isNegativeInfinite || t.isPositiveInfinite then some .greaterThan
  else if rhs.isPositiveInfinite || t.isNegativeInfinite then some .lessThan
  else if t.isIndefinite then some .greaterThan
  else if rhs.isIndefinite then some .lessThan
  else compareValues t rhs

/-- `operator<=`. -/
def le (t rhs : MediaTime) : Prop :=
  t.compare rhs = some .lessThan ∨ t.compare rhs = some .equalTo

/-! ## Kinds of times -/

/-- What is special about a time: nothing, or one thing. -/
def marks (t : MediaTime) : List Bool :=
  [t.isNegativeInfinite, t.isIndefinite, t.isPositiveInfinite, t.isInvalid]

def IsFinite (t : MediaTime) : Prop := ∀ mark ∈ t.marks, mark = false

/-- No two flags contradict each other, and a time with a value has a positive scale. -/
structure Proper (t : MediaTime) : Prop where
  single : t.marks.count true ≤ 1
  scale : t.IsFinite → 0 < t.timeScale

/-- The number that a finite time stands for. -/
def ratio (t : MediaTime) : ℚ := (t.timeValue : ℚ) / t.timeScale

end MediaTime

/-- How two elements of a linear order compare. -/
def order {α : Type} [LinearOrder α] (a b : α) : ComparisonFlags :=
  if a < b then .lessThan else if a = b then .equalTo else .greaterThan

section

variable {α : Type} [LinearOrder α] {a b : α}

theorem order_lessThan_iff : order a b = .lessThan ↔ a < b := by
  unfold order
  split_ifs with less same <;> simp [less]

theorem order_equalTo_iff : order a b = .equalTo ↔ a = b := by
  unfold order
  split_ifs with less same
  · simp [less.ne]
  · simp [same]
  · simp [same]

theorem order_greaterThan_iff : order a b = .greaterThan ↔ b < a := by
  unfold order
  split_ifs with less same
  · simp [less.le]
  · simp [same]
  · simp [lt_of_le_of_ne (not_lt.mp less) (Ne.symm same)]

theorem order_self : order a a = .equalTo := order_equalTo_iff.mpr rfl

theorem order_toLex {β : Type} [LinearOrder β] (a b : α) (x y : β) :
    order (toLex (a, x)) (toLex (b, y)) =
      if a < b then .lessThan else if b < a then .greaterThan else order x y := by
  split_ifs with less greater
  · exact order_lessThan_iff.mpr (Prod.Lex.toLex_lt_toLex.mpr (.inl less))
  · exact order_greaterThan_iff.mpr (Prod.Lex.toLex_lt_toLex.mpr (.inl greater))
  · obtain rfl := le_antisymm (not_lt.mp greater) (not_lt.mp less)
    simp [order, Prod.Lex.toLex_lt_toLex]

end

/-! ## Finite times -/

section

variable {v w s u : Int}

theorem tdiv_nonpos (negative : v ≤ 0) (positive : 0 < s) : v.tdiv s ≤ 0 := by
  have mirrored := Int.tdiv_nonneg (neg_nonneg.mpr negative) positive.le
  rw [Int.neg_tdiv] at mirrored
  exact neg_nonneg.mp mirrored

theorem tmod_nonpos (negative : v ≤ 0) (s : Int) : v.tmod s ≤ 0 := by
  have mirrored := Int.tmod_nonneg s (neg_nonneg.mpr negative)
  rw [Int.neg_tmod] at mirrored
  exact neg_nonneg.mp mirrored

theorem quotient_defined (fits : InInt64 v) (positive : 0 < s) : quotient v s = some (v.tdiv s) := by
  have smaller := Int.natAbs_tdiv_le_natAbs v s
  have least : v = -9223372036854775808 → -9223372036854775808 ≤ v.tdiv s := by
    intro eq
    omega
  have fits' : InInt64 (v.tdiv s) := by
    unfold InInt64 at fits ⊢
    refine ⟨by omega, ?_⟩
    by_cases negative : v ≤ 0
    · exact (tdiv_nonpos negative positive).trans (by decide)
    · omega
  rw [quotient, if_neg positive.ne', int64, if_pos fits']

theorem remainder_defined (fits : InInt64 v) (positive : 0 < s) : remainder v s = some (v.tmod s) := by
  rw [remainder, quotient_defined fits positive, Option.map_some]

/-- A remainder times a scale fits. -/
theorem product_defined (positive : 0 < s) (scale : InInt32 s) (scale' : InInt32 u) :
    product (v.tmod s) u = some (v.tmod s * u) := by
  have small : |v.tmod s| ≤ 2147483647 := by
    have less := Int.tmod_lt_of_pos v positive
    have more := Int.lt_tmod_of_pos v positive
    rw [abs_le]
    unfold InInt32 at scale
    omega
  have scale'' : |u| ≤ 2147483648 := by
    rw [abs_le]
    unfold InInt32 at scale'
    omega
  have bound : |v.tmod s * u| ≤ 2147483647 * 2147483648 := by
    rw [abs_mul]
    exact mul_le_mul small scale'' (abs_nonneg _) (by decide)
  have fits : InInt64 (v.tmod s * u) := by
    rw [abs_le] at bound
    exact ⟨by linarith [bound.1], by linarith [bound.2]⟩
  rw [product, int64, if_pos fits]

/-- The whole parts decide when they differ. -/
theorem whole_lt (positive : 0 < s) (positive' : 0 < u) (less : v.tdiv s < w.tdiv u) :
    v * u < w * s := by
  have first := Int.mul_tdiv_add_tmod v s
  have second := Int.mul_tdiv_add_tmod w u
  by_cases sign : 0 < w.tdiv u
  · -- `w` is positive, its remainder as well
    have w_pos : 0 ≤ w := by
      by_contra negative
      exact absurd sign (not_lt.mpr (tdiv_nonpos (not_le.mp negative).le positive'))
    have lower : u * (v.tdiv s + 1) ≤ w := by
      have rest := Int.tmod_nonneg u w_pos
      nlinarith
    have upper : v < s * (v.tdiv s + 1) := by
      have rest := Int.tmod_lt_of_pos v positive
      linarith
    calc v * u < s * (v.tdiv s + 1) * u := mul_lt_mul_of_pos_right upper positive'
      _ = s * (u * (v.tdiv s + 1)) := by ring
      _ ≤ s * w := mul_le_mul_of_nonneg_left lower positive.le
      _ = w * s := mul_comm ..
  · have v_neg : v ≤ 0 := by
      by_contra nonneg
      have := Int.tdiv_nonneg (not_le.mp nonneg).le positive.le
      omega
    have upper : v ≤ s * (w.tdiv u - 1) := by
      have rest := tmod_nonpos v_neg s
      nlinarith
    have lower : u * (w.tdiv u - 1) < w := by
      have rest := Int.lt_tmod_of_pos w positive'
      linarith
    calc v * u ≤ s * (w.tdiv u - 1) * u := mul_le_mul_of_nonneg_right upper positive'.le
      _ = s * (u * (w.tdiv u - 1)) := by ring
      _ < s * w := mul_lt_mul_of_pos_left lower positive
      _ = w * s := mul_comm ..

/-- With the same whole parts the remainders decide. -/
theorem whole_eq (same : v.tdiv s = w.tdiv u) :
    v.tmod s * u - w.tmod u * s = v * u - w * s := by
  have first := Int.mul_tdiv_add_tmod v s
  have second := Int.mul_tdiv_add_tmod w u
  rw [same] at first
  calc v.tmod s * u - w.tmod u * s
      = (s * w.tdiv u + v.tmod s) * u - (u * w.tdiv u + w.tmod u) * s := by ring
    _ = v * u - w * s := by rw [first, second]

end

namespace MediaTime

variable {t rhs : MediaTime}

theorem ratio_lt_iff (positive : 0 < t.timeScale) (positive' : 0 < rhs.timeScale) :
    t.ratio < rhs.ratio ↔ t.timeValue * rhs.timeScale < rhs.timeValue * t.timeScale := by
  rw [ratio, ratio, div_lt_div_iff₀ (by exact_mod_cast positive) (by exact_mod_cast positive')]
  exact_mod_cast Iff.rfl

theorem order_ratio (positive : 0 < t.timeScale) (positive' : 0 < rhs.timeScale) :
    order t.ratio rhs.ratio =
      order (t.timeValue * rhs.timeScale) (rhs.timeValue * t.timeScale) := by
  have less := ratio_lt_iff positive positive'
  have greater := ratio_lt_iff positive' positive
  unfold order
  have same : t.ratio = rhs.ratio ↔
      t.timeValue * rhs.timeScale = rhs.timeValue * t.timeScale := by
    rw [le_antisymm_iff, le_antisymm_iff, ← not_lt, ← not_lt, ← not_lt, ← not_lt, less, greater]
  simp only [less, same]

/-- All that is computed is defined. -/
theorem compareValues_eq (positive : 0 < t.timeScale) (positive' : 0 < rhs.timeScale) :
    compareValues t rhs = some (order t.ratio rhs.ratio) := by
  rw [order_ratio positive positive', compareValues,
    quotient_defined rhs.valueFits positive', quotient_defined t.valueFits positive,
    remainder_defined rhs.valueFits positive', remainder_defined t.valueFits positive]
  simp only [Option.bind_eq_bind, Option.bind_some,
    product_defined positive t.scaleFits rhs.scaleFits,
    product_defined positive' rhs.scaleFits t.scaleFits]
  split_ifs with greater less same more
  · exact congrArg some (order_greaterThan_iff.mpr (whole_lt positive' positive greater)).symm
  · exact congrArg some (order_lessThan_iff.mpr (whole_lt positive positive' less)).symm
  · have parts := whole_eq (le_antisymm (not_lt.mp greater) (not_lt.mp less))
    exact congrArg some (order_equalTo_iff.mpr (by omega)).symm
  · have parts := whole_eq (le_antisymm (not_lt.mp greater) (not_lt.mp less))
    exact congrArg some (order_greaterThan_iff.mpr (by omega)).symm
  · have parts := whole_eq (le_antisymm (not_lt.mp greater) (not_lt.mp less))
    exact congrArg some (order_lessThan_iff.mpr (by omega)).symm

/-! ## All times -/

/-- The place of the kind of a time. -/
def rank (t : MediaTime) : Nat :=
  if t.isInvalid then 4 else if t.isPositiveInfinite then 3 else if t.isIndefinite then 2
  else if t.isNegativeInfinite then 0 else 1

/-- Kinds first; only finite times of one kind differ. -/
def key (t : MediaTime) : ℕ ×ₗ ℚ := toLex (t.rank, if t.rank = 1 then t.ratio else 0)

/-- The marks of a proper time, one line for each kind. -/
theorem Proper.marks_cases (proper : t.Proper) :
    t.marks = [false, false, false, false] ∨ t.marks = [true, false, false, false] ∨
    t.marks = [false, true, false, false] ∨ t.marks = [false, false, true, false] ∨
    t.marks = [false, false, false, true] := by
  have single := proper.single
  simp only [marks] at single ⊢
  generalize t.isNegativeInfinite = a at *
  generalize t.isIndefinite = b at *
  generalize t.isPositiveInfinite = c at *
  generalize t.isInvalid = d at *
  revert a b c d
  decide

theorem compare_eq (proper : t.Proper) (proper' : rhs.Proper) :
    t.compare rhs = some (order t.key rhs.key) := by
  have marks := proper.marks_cases
  have marks' := proper'.marks_cases
  have scale := proper.scale
  have scale' := proper'.scale
  simp only [IsFinite, MediaTime.marks, List.cons.injEq, and_true, List.forall_mem_cons,
    List.not_mem_nil, false_implies, implies_true] at marks marks' scale scale'
  rw [key, key, order_toLex]
  unfold compare rank
  rcases marks with ⟨a, b, c, d⟩ | ⟨a, b, c, d⟩ | ⟨a, b, c, d⟩ | ⟨a, b, c, d⟩ | ⟨a, b, c, d⟩ <;>
    rcases marks' with ⟨a', b', c', d'⟩ | ⟨a', b', c', d'⟩ | ⟨a', b', c', d'⟩ | ⟨a', b', c', d'⟩ |
      ⟨a', b', c', d'⟩ <;>
    simp only [a, b, c, d, a', b', c', d', Bool.and_true, Bool.and_false, Bool.or_false,
      Bool.or_true, Bool.false_eq_true, if_true, if_false, lt_irrefl]
  case inl.inl => exact compareValues_eq (scale ⟨a, b, c, d⟩) (scale' ⟨a', b', c', d'⟩)
  all_goals simp [order_self]

theorem IsFinite.proper (finite : t.IsFinite) (positive : 0 < t.timeScale) : t.Proper := by
  refine ⟨?_, fun _ => positive⟩
  rw [List.count_eq_zero_of_not_mem]
  · exact Nat.zero_le 1
  · intro member
    exact absurd (finite _ member) Bool.noConfusion

theorem IsFinite.rank (finite : t.IsFinite) : t.rank = 1 := by
  simp only [IsFinite, marks, List.forall_mem_cons] at finite
  obtain ⟨a, b, c, d, -⟩ := finite
  simp [MediaTime.rank, a, b, c, d]

theorem le_iff (proper : t.Proper) (proper' : rhs.Proper) : t.le rhs ↔ t.key ≤ rhs.key := by
  rw [le, compare_eq proper proper', Option.some.injEq, Option.some.injEq, order_lessThan_iff,
    order_equalTo_iff]
  exact le_iff_lt_or_eq.symm

/-- **Comparing media times.** Finite times with positive scales compare as the numbers they stand
for, without overflow; over all proper times `compare` is a total preorder. -/
theorem compare_order :
    (∀ t rhs : MediaTime, t.IsFinite → rhs.IsFinite → 0 < t.timeScale → 0 < rhs.timeScale →
      t.compare rhs = some (order t.ratio rhs.ratio)) ∧
    (∀ t rhs : MediaTime, t.Proper → rhs.Proper →
      (t.compare rhs = some .greaterThan ↔ rhs.compare t = some .lessThan) ∧
      (t.compare rhs = some .equalTo ↔ t.le rhs ∧ rhs.le t)) ∧
    (∀ t : MediaTime, t.Proper → t.le t) ∧
    (∀ t rhs : MediaTime, t.Proper → rhs.Proper → t.le rhs ∨ rhs.le t) ∧
    ∀ t mid rhs : MediaTime, t.Proper → mid.Proper → rhs.Proper →
      t.le mid → mid.le rhs → t.le rhs := by
  refine ⟨?_, ?_, ?_, ?_, ?_⟩
  · intro t rhs finite finite' positive positive'
    rw [compare_eq (finite.proper positive) (finite'.proper positive'), key, key, order_toLex,
      finite.rank, finite'.rank]
    rfl
  · intro t rhs proper proper'
    rw [le_iff proper proper', le_iff proper' proper, compare_eq proper proper',
      compare_eq proper' proper]
    simp only [Option.some.injEq, order_greaterThan_iff, order_lessThan_iff, order_equalTo_iff,
      true_and]
    exact le_antisymm_iff
  · intro t proper
    exact (le_iff proper proper).mpr le_rfl
  · intro t rhs proper proper'
    rw [le_iff proper proper', le_iff proper' proper]
    exact le_total ..
  · intro t mid rhs proper proper' proper'' first second
    rw [le_iff proper proper'] at first
    rw [le_iff proper' proper''] at second
    exact (le_iff proper proper'').mpr (first.trans second)

/-- A time with the flags of the constructor. -/
def ofSmall (timeValue timeScale : Int) (valueFits : InInt64 timeValue)
    (scaleFits : InInt32 timeScale) : MediaTime :=
  ⟨timeValue, timeScale, 1, valueFits, scaleFits⟩

/-- Minus three halves and minus one. -/
theorem compare_order_halves :
    compare (ofSmall (-3) 2 (by decide) (by decide)) (ofSmall (-1) 1 (by decide) (by decide)) =
      some .lessThan := by
  have numbers := compare_order.1 (ofSmall (-3) 2 (by decide) (by decide))
    (ofSmall (-1) 1 (by decide) (by decide)) (by simp [IsFinite, marks]; decide)
    (by simp [IsFinite, marks]; decide) (by decide) (by decide)
  rw [numbers]
  exact congrArg some (order_lessThan_iff.mpr (by norm_num [ratio, ofSmall]))

/-- One over minus two is equal to minus one over two, that is below zero, and zero is below one
over minus two. -/
theorem negative_scale_not_transitive :
    ¬ ((∀ t : MediaTime, t.le t) ∧ (∀ t rhs : MediaTime, t.le rhs ∨ rhs.le t) ∧
      ∀ t mid rhs : MediaTime, t.le mid → mid.le rhs → t.le rhs) := by
  intro preorder
  have below := preorder.2.2 (ofSmall 1 (-2) (by decide) (by decide))
    (ofSmall (-1) 2 (by decide) (by decide)) (ofSmall 0 1 (by decide) (by decide))
    (.inr (by decide)) (.inl (by decide))
  rcases below with less | same
  · exact absurd less (by decide)
  · exact absurd same (by decide)

end MediaTime

end NetRider.Wtf
