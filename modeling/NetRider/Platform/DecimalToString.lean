import NetRider.Platform.DecimalComparison
import NetRider.Platform.DecimalReading

/-!
# Writing decimals

`toString` writes all digits, or a point among them, or zeros and the point in front of them, or
one digit in front of the point and an exponent. With a negative exponent it rounds to 15 digits
first and drops the zeros at the end.
-/

namespace NetRider.Platform

open DecimalPrivate Lib Wtf

namespace Decimal

def maxDigits : Nat := 15

/-- Digits are cut off until 15 are left; the last digit that was cut off comes along. -/
def cutDigits (coefficient lastDigit : Nat) (originalExponent : Int) : Nat × Nat × Int :=
  if countDigits coefficient > maxDigits then
    cutDigits (coefficient / 10) (coefficient % 10) (originalExponent + 1)
  else (coefficient, lastDigit, originalExponent)
termination_by coefficient
decreasing_by
  have some : coefficient ≠ 0 := by
    rintro rfl
    have none : countDigits 0 ≤ 15 := (countDigits_le_iff (by decide) 15).mpr (by decide)
    exact absurd none (not_le.mpr ‹_›)
  omega

def stripZeros (coefficient : Nat) (originalExponent : Int) : Nat × Int :=
  if originalExponent < 0 ∧ coefficient ≠ 0 ∧ coefficient % 10 = 0 then
    stripZeros (coefficient / 10) (originalExponent + 1)
  else (coefficient, originalExponent)
termination_by coefficient

/-- The coefficient and the exponent that are written. -/
def written (x : Decimal) : Nat × Int :=
  if x.exponent < 0 then
    let (coefficient, lastDigit, originalExponent) := cutDigits x.coefficient 0 x.exponent
    stripZeros (if lastDigit ≥ 5 then coefficient + 1 else coefficient) originalExponent
  else (x.coefficient, x.exponent)

/-- `String::number`. -/
def numberText (n : Nat) : List UChar := (digitsOf n).map digitChar

/-- `StringBuilder::appendNumber`. -/
def signedText (n : Int) : List UChar :=
  if n < 0 then 0x2D :: numberText n.natAbs else numberText n.natAbs

/-- The loop that writes the digits from the `i`-th on and a point behind one of them. -/
def withPoint (adjustedExponent : Int) (i : Nat) : List UChar → List UChar
  | [] => []
  | ch :: digits =>
    if i = adjustedExponent then ch :: 0x2E :: withPoint adjustedExponent (i + 1) digits
    else ch :: withPoint adjustedExponent (i + 1) digits

/-- The loop that leaves out zeros at the end, though not the first digit. -/
def trimLength (digits : List UChar) : Nat → Nat
  | n + 2 => if digits[n + 1]? = some 0x30 then trimLength digits (n + 1) else n + 2
  | n => n

/-- The end of `toString`. -/
def layout (coefficient : Nat) (originalExponent : Int) : List UChar :=
  let digits := numberText coefficient
  let adjustedExponent := originalExponent + digits.length - 1
  if originalExponent ≤ 0 ∧ adjustedExponent ≥ -6 then
    if originalExponent = 0 then digits
    else if adjustedExponent ≥ 0 then withPoint adjustedExponent 0 digits
    else ascii "0." ++ List.replicate (-(adjustedExponent + 1)).toNat 0x30 ++ digits
  else
    let coefficientLength := trimLength digits digits.length
    digits.take 1 ++
      (if coefficientLength ≥ 2 then 0x2E :: (digits.take coefficientLength).drop 1 else []) ++
      (if adjustedExponent ≠ 0 then
        (if adjustedExponent < 0 then ascii "e" else ascii "e+") ++ signedText adjustedExponent
      else [])

def toString (x : Decimal) : List UChar :=
  match x.formatClass with
  | .infinity => if x.sign = .negative then ascii "-Infinity" else ascii "Infinity"
  | .nan => ascii "NaN"
  | _ => (if x.sign = .negative then ascii "-" else []) ++ layout x.written.1 x.written.2

/-! ## What is written -/

variable {x y : Decimal} {coefficient : Nat} {originalExponent : Int}

theorem cutDigits_few (few : coefficient < 10 ^ 15) (lastDigit : Nat) :
    cutDigits coefficient lastDigit originalExponent =
      (coefficient, lastDigit, originalExponent) := by
  have counted : countDigits coefficient ≤ maxDigits :=
    (countDigits_le_iff (few.trans (by decide)) 15).mpr few
  rw [cutDigits, if_neg (not_lt.mpr counted)]

/-- As many zeros are dropped as there are, or as the exponent allows. -/
theorem stripZeros_spec (coefficient : Nat) (originalExponent : Int) :
    ∃ (c n : Nat), stripZeros coefficient originalExponent = (c, originalExponent + n) ∧
      coefficient = c * 10 ^ n ∧ (originalExponent + n < 0 → c ≠ 0 → c % 10 ≠ 0) ∧
      (0 < n → originalExponent + n ≤ 0) := by
  fun_induction stripZeros coefficient originalExponent with
  | case1 coefficient originalExponent zero ih =>
    obtain ⟨c, n, value, split, last, bound⟩ := ih
    have place : originalExponent + (n + 1 : Nat) = originalExponent + 1 + n := by omega
    refine ⟨c, n + 1, by rw [value, place], ?_, by rwa [place], fun _ => ?_⟩
    · rw [pow_succ, ← mul_assoc, ← split]
      omega
    · by_cases none : n = 0
      · subst none
        omega
      · have := bound (Nat.pos_of_ne_zero none)
        omega
  | case2 coefficient originalExponent last =>
    refine ⟨coefficient, 0, by simp, by simp, fun below some zero => ?_, fun impossible => ?_⟩
    · exact last ⟨by simpa using below, some, zero⟩
    · exact absurd impossible (lt_irrefl 0)

theorem withPoint_passed {adjustedExponent : Int} {i : Nat} (passed : adjustedExponent < i)
    (digits : List UChar) : withPoint adjustedExponent i digits = digits := by
  induction digits generalizing i with
  | nil => rfl
  | cons ch digits ih =>
    have other : ¬ (i : Int) = adjustedExponent := by omega
    rw [withPoint, if_neg other, ih (by omega)]

theorem withPoint_eq {k i : Nat} {digits : List UChar} (inside : k < digits.length) :
    withPoint (i + k : Nat) i digits = digits.take (k + 1) ++ 0x2E :: digits.drop (k + 1) := by
  induction digits generalizing k i with
  | nil => exact absurd inside (Nat.not_lt_zero k)
  | cons ch digits ih =>
    rw [withPoint]
    cases k with
    | zero =>
      rw [if_pos (by simp), withPoint_passed (by omega)]
      rfl
    | succ k =>
      have place : i + (k + 1) = i + 1 + k := by omega
      rw [if_neg (by omega), place, ih (by simpa using inside)]
      rfl

/-- What `trimLength` leaves out are zeros, and it stops at another digit. -/
theorem trimLength_spec (digits : List UChar) (n : Nat) :
    trimLength digits n ≤ n ∧ (0 < n → 0 < trimLength digits n) ∧
      (∀ i, trimLength digits n ≤ i → i < n → digits[i]? = some 0x30) ∧
      (2 ≤ trimLength digits n → digits[trimLength digits n - 1]? ≠ some 0x30) := by
  fun_induction trimLength digits n with
  | case1 n zero ih =>
    obtain ⟨bound, first, zeros, last⟩ := ih
    refine ⟨by omega, fun _ => first (by omega), fun i above below => ?_, last⟩
    rcases Nat.lt_succ_iff_lt_or_eq.mp below with before | rfl
    · exact zeros i above before
    · exact zero
  | case2 n other => exact ⟨le_refl _, fun _ => by omega, fun i _ _ => by omega, fun _ => other⟩
  | case3 n few =>
    refine ⟨le_refl _, id, fun i _ _ => by omega, fun many => ?_⟩
    obtain ⟨m, rfl⟩ : ∃ m, n = m + 2 := ⟨n - 2, by omega⟩
    exact absurd rfl (few m)

end Decimal

/-! ## The layouts as texts of numbers -/

namespace Literal

/-- All digits. -/
def plain (sign : Option Sign) (coefficient : Nat) : Literal :=
  ⟨sign, digitsOf coefficient, [], none, digitsOf_ne_nil coefficient⟩

/-- A point behind the `k`-th digit. -/
def pointed (sign : Option Sign) (coefficient k : Nat) : Literal :=
  ⟨sign, (digitsOf coefficient).take (k + 1), (digitsOf coefficient).drop (k + 1), none,
    by simp [digitsOf_ne_nil]⟩

/-- A point and `n` zeros in front of the digits. -/
def small (sign : Option Sign) (coefficient n : Nat) : Literal :=
  ⟨sign, [0], List.replicate n 0 ++ digitsOf coefficient, none, List.cons_ne_nil _ _⟩

/-- The first `m` digits, a point behind the first, and an exponent. -/
def scientific (sign : Option Sign) (coefficient m : Nat) (exponent : Int) : Literal :=
  ⟨sign, (digitsOf coefficient).take 1, ((digitsOf coefficient).take m).drop 1,
    if exponent = 0 then none
    else some ⟨false, some (if exponent < 0 then .negative else .positive),
      digitsOf exponent.natAbs, digitsOf_ne_nil _⟩,
    by simp [digitsOf_ne_nil]⟩

open Decimal Scan

variable {sign : Option Sign} {coefficient : Nat} {exponent : Int}

theorem plain_text : (plain sign coefficient).text = signText sign ++ layout coefficient 0 := by
  have bound : (0 : Int) + (numberText coefficient).length - 1 ≥ -6 := by omega
  unfold layout
  dsimp only
  rw [if_pos ⟨le_refl 0, bound⟩, if_pos rfl]
  simp [text, plain, numberText]

theorem pointed_text {k : Nat} (negative : exponent < 0)
    (place : exponent + (digitsOf coefficient).length - 1 = k) :
    (pointed sign coefficient k).text = signText sign ++ layout coefficient exponent := by
  have length : (numberText coefficient).length = (digitsOf coefficient).length :=
    List.length_map _
  have inside : k + 1 < (digitsOf coefficient).length := by omega
  have point := @withPoint_eq k 0 (numberText coefficient) (by omega)
  have fraction : (digitsOf coefficient).drop (k + 1) ≠ [] := by
    rw [Ne, List.drop_eq_nil_iff]
    omega
  rw [Nat.zero_add] at point
  unfold layout
  simp only [length, place]
  rw [if_pos (by omega), if_neg negative.ne, if_pos (by omega), point]
  simp only [text, pointed, if_neg fraction, Option.map_none, Option.getD_none, numberText,
    List.map_take, List.map_drop, List.append_nil, List.append_assoc]

theorem small_text {n : Nat} (place : exponent + (digitsOf coefficient).length - 1 = -(n + 1))
    (near : n ≤ 5) :
    (small sign coefficient n).text = signText sign ++ layout coefficient exponent := by
  have length : (numberText coefficient).length = (digitsOf coefficient).length :=
    List.length_map _
  have some := length_digitsOf_pos coefficient
  have zeros : (-(-((n : Int) + 1) + 1)).toNat = n := by omega
  have fraction : List.replicate n 0 ++ digitsOf coefficient ≠ [] := by
    simp [digitsOf_ne_nil]
  unfold layout
  simp only [length, place, zeros]
  rw [if_pos (by omega), if_neg (by omega), if_neg (by omega)]
  simp only [text, small, if_neg fraction, Option.map_none, Option.getD_none, numberText,
    List.map_append, List.map_replicate, digitChar_zero, List.append_nil, List.append_assoc,
    List.map_cons, List.map_nil, List.singleton_append]
  rfl

theorem signedText_eq (exponent : Int) :
    (if exponent < 0 then ascii "e" else ascii "e+") ++ signedText exponent =
      ExponentPart.text ⟨false, .some (if exponent < 0 then .negative else .positive),
        digitsOf exponent.natAbs, digitsOf_ne_nil _⟩ := by
  unfold signedText ExponentPart.text
  by_cases negative : exponent < 0
  · simp only [negative, if_true, Bool.false_eq_true, if_false]
    rfl
  · simp only [negative, Bool.false_eq_true, if_false]
    rfl

theorem scientific_text
    (far : ¬ (exponent ≤ 0 ∧ exponent + (digitsOf coefficient).length - 1 ≥ -6)) :
    (scientific sign coefficient
        (trimLength (numberText coefficient) (numberText coefficient).length)
        (exponent + (digitsOf coefficient).length - 1)).text =
      signText sign ++ layout coefficient exponent := by
  have length : (numberText coefficient).length = (digitsOf coefficient).length :=
    List.length_map _
  obtain ⟨bound, first, -⟩ :=
    trimLength_spec (numberText coefficient) (numberText coefficient).length
  have positive := first (length ▸ length_digitsOf_pos coefficient)
  unfold layout
  dsimp only
  rw [length] at bound positive ⊢
  rw [if_neg far]
  generalize trimLength (numberText coefficient) (digitsOf coefficient).length = m at *
  generalize exponent + (digitsOf coefficient).length - 1 = adjusted
  have fraction : ((digitsOf coefficient).take m).drop 1 = [] ↔ ¬ m ≥ 2 := by
    rw [List.drop_eq_nil_iff, List.length_take]
    omega
  have part : (Option.map ExponentPart.text (scientific sign coefficient m adjusted).exponentPart).getD
        [] =
      if adjusted ≠ 0 then
        (if adjusted < 0 then ascii "e" else ascii "e+") ++ signedText adjusted
      else [] := by
    by_cases zero : adjusted = 0
    · simp [scientific, zero]
    · rw [if_pos zero, signedText_eq]
      simp [scientific, zero]
  rw [text, part]
  by_cases many : m ≥ 2
  · have some : ((digitsOf coefficient).take m).drop 1 ≠ [] := fun none => fraction.mp none many
    simp only [scientific, if_pos many, if_neg some, numberText, List.map_take, List.map_drop,
      List.append_assoc]
  · simp only [scientific, if_neg many, fraction.mpr many, if_true, numberText, List.map_take,
      List.append_assoc]

/-! ## The numbers in the layouts -/

theorem significant_cons {d : Fin 10} (nonzero : d ≠ 0) (digits : List (Fin 10)) :
    significant (d :: digits) = d :: digits :=
  List.dropWhile_cons_of_neg (by simpa using nonzero)

theorem significant_take {n : Nat} (some : coefficient ≠ 0) :
    significant ((digitsOf coefficient).take (n + 1)) = (digitsOf coefficient).take (n + 1) := by
  obtain ⟨d, digits, same, nonzero⟩ := head_digitsOf some
  rw [same, List.take_succ_cons, significant_cons nonzero]

/-- With 18 digits at most only the exponent matters. -/
theorem inRange_few {l : Literal} (some : numeral l.digits ≠ 0) (few : l.digits.length ≤ 18) :
    l.InRange ↔ l.exponent.natAbs ≤ 1041 ∧ -1023 ≤ l.exponent - l.fraction.length ∧
      (1022 < l.exponent - l.fraction.length →
        l.exponent - l.fraction.length - 1022 + (significant l.whole).length ≤ 18) := by
  have lengths : l.digits.length = (significant l.whole).length + l.fraction.length :=
    List.length_append
  have place : l.resultExponent = l.exponent - l.fraction.length := by
    rw [resultExponent, kept_eq]
    omega
  have none : l.digits.drop 18 = [] := List.drop_eq_nil_of_le few
  have whole : (min 18 (significant l.whole).length : Nat) = (significant l.whole).length := by
    omega
  rw [InRange, if_neg some, place, none, whole]
  simp only [List.not_mem_nil, false_implies, implies_true, true_and]

theorem plain_value : (plain sign coefficient).value =
    signFactor (signOf sign) * (coefficient * 10 ^ (0 : Int)) := by
  rw [value, factor_eq]
  simp [plain, Literal.exponent, numeral_digitsOf]

theorem plain_inRange (some : coefficient ≠ 0) (small : coefficient < 10 ^ 18) :
    (plain sign coefficient).InRange := by
  have few := length_digitsOf_le small some
  obtain ⟨d, digits, same, nonzero⟩ := head_digitsOf some
  have whole : significant (digitsOf coefficient) = digitsOf coefficient := by
    rw [same, significant_cons nonzero]
  have all : (plain sign coefficient).digits = digitsOf coefficient := by
    simp only [Literal.digits, plain, whole, List.append_nil]
  refine (inRange_few (by rw [all, numeral_digitsOf]; exact some) (by rwa [all])).mpr ?_
  simp [plain, Literal.exponent]

theorem pointed_value {k : Nat} (place : exponent + (digitsOf coefficient).length - 1 = k)
    (negative : exponent < 0) : (pointed sign coefficient k).value =
      signFactor (signOf sign) * (coefficient * 10 ^ exponent) := by
  have fraction : (0 : Int) - ((digitsOf coefficient).drop (k + 1)).length = exponent := by
    rw [List.length_drop]
    omega
  rw [value, factor_eq]
  simp only [pointed, Literal.exponent, Option.map_none, Option.getD_none,
    List.take_append_drop, numeral_digitsOf, fraction]

theorem pointed_inRange {k : Nat} (some : coefficient ≠ 0) (small : coefficient < 10 ^ 18) :
    (pointed sign coefficient k).InRange := by
  have few := length_digitsOf_le small some
  have all : (pointed sign coefficient k).digits = digitsOf coefficient := by
    simp only [Literal.digits, pointed, significant_take some, List.take_append_drop]
  refine (inRange_few (by rw [all, numeral_digitsOf]; exact some) (by rwa [all])).mpr ?_
  simp only [pointed, Literal.exponent, Option.map_none, Option.getD_none, List.length_drop]
  omega

theorem small_value {n : Nat}
    (place : exponent + (digitsOf coefficient).length - 1 = -(n + 1)) :
    (small sign coefficient n).value =
      signFactor (signOf sign) * (coefficient * 10 ^ exponent) := by
  have fraction : (0 : Int) - (List.replicate n 0 ++ digitsOf coefficient).length = exponent := by
    rw [List.length_append, List.length_replicate]
    omega
  have number : numeral ([0] ++ (List.replicate n 0 ++ digitsOf coefficient)) = coefficient := by
    rw [numeral_append, numeral_append, numeral_zeros, numeral_digitsOf]
    simp [numeral]
  rw [value, factor_eq]
  simp only [small, Literal.exponent, Option.map_none, Option.getD_none, number, fraction]

/-- The last digit is not a zero, so it must be among the first 18. -/
theorem small_inRange_iff {n : Nat} (last : coefficient % 10 ≠ 0)
    (place : exponent + (digitsOf coefficient).length - 1 = -(n + 1)) :
    (small sign coefficient n).InRange ↔ -18 ≤ exponent := by
  have all : (small sign coefficient n).digits = List.replicate n 0 ++ digitsOf coefficient := rfl
  have number : numeral (small sign coefficient n).digits = coefficient := by
    rw [all, numeral_append, numeral_zeros, numeral_digitsOf, zero_mul, zero_add]
  have length : (small sign coefficient n).digits.length = n + (digitsOf coefficient).length := by
    rw [all, List.length_append, List.length_replicate]
  have some : numeral (small sign coefficient n).digits ≠ 0 := by
    rw [number]
    omega
  have fraction : (small sign coefficient n).fraction.length = n + (digitsOf coefficient).length := by
    rw [← length]
    rfl
  by_cases few : (small sign coefficient n).digits.length ≤ 18
  · have exponent : (small sign coefficient n).exponent = 0 := rfl
    rw [inRange_few some few, exponent, fraction]
    omega
  · obtain ⟨front, same⟩ := digitsOf_concat coefficient
    have split : (small sign coefficient n).digits =
        List.replicate n 0 ++ front ++ [Fin.ofNat 10 coefficient] := by
      rw [all, same, List.append_assoc]
    have long : 18 ≤ (List.replicate n 0 ++ front).length := by
      rw [split, List.length_append, List.length_singleton] at few
      omega
    have dropped : Fin.ofNat 10 coefficient ∈ (small sign coefficient n).digits.drop 18 := by
      rw [split, List.drop_append_of_le_length long]
      exact List.mem_append_right _ (List.mem_singleton.mpr rfl)
    refine iff_of_false (fun inRange => ?_) (by omega)
    rw [InRange, if_neg some] at inRange
    have zero := congrArg Fin.val (inRange.2.1 _ dropped)
    exact last zero

/-- The digits in front of the zeros that are left out. -/
theorem trimmed_digits (coefficient : Nat) :
    ∃ m w z : Nat, trimLength (numberText coefficient) (numberText coefficient).length = m ∧
      m + z = (digitsOf coefficient).length ∧ 0 < m ∧
      numeral ((digitsOf coefficient).take m) = w ∧ coefficient = w * 10 ^ z ∧
      (coefficient ≠ 0 → w % 10 ≠ 0) := by
  have length : (numberText coefficient).length = (digitsOf coefficient).length :=
    List.length_map _
  obtain ⟨bound, first, zeros, last⟩ :=
    trimLength_spec (numberText coefficient) (numberText coefficient).length
  have digit (i : Nat) : (numberText coefficient)[i]? = .some 0x30 ↔
      (digitsOf coefficient)[i]? = .some 0 := by
    rw [numberText, List.getElem?_map, Option.map_eq_some_iff]
    constructor
    · rintro ⟨d, found, zero⟩
      rw [found, (digitChar_eq_zero_iff d).mp zero]
    · intro found
      exact ⟨0, found, rfl⟩
  have positive := first (length ▸ length_digitsOf_pos coefficient)
  generalize trimLength (numberText coefficient) (numberText coefficient).length = m at *
  rw [length] at bound zeros
  have rest : numeral ((digitsOf coefficient).drop m) = 0 := by
    rw [numeral_eq_zero_iff]
    intro d member
    obtain ⟨i, less, found⟩ := List.mem_iff_getElem.mp member
    rw [List.length_drop] at less
    have zero := (digit (m + i)).mp (zeros (m + i) (Nat.le_add_right ..) (by omega))
    rw [← List.getElem?_drop] at zero
    rw [List.getElem?_eq_getElem (by rw [List.length_drop]; omega), found] at zero
    exact Option.some.inj zero
  have split := numeral_take_drop (digitsOf coefficient) m
  rw [numeral_digitsOf, rest, add_zero] at split
  refine ⟨m, _, (digitsOf coefficient).length - m, rfl, by omega, positive, rfl, split,
    fun some => ?_⟩
  obtain ⟨d, digits, same, nonzero⟩ := head_digitsOf some
  obtain ⟨n, place⟩ : ∃ n, m = n + 1 := ⟨m - 1, by omega⟩
  have less : n < (digitsOf coefficient).length := by omega
  have ended : (digitsOf coefficient)[n] ≠ 0 := by
    cases n with
    | zero =>
      simpa only [same, List.getElem_cons_zero] using nonzero
    | succ n =>
      intro zero
      refine last (by omega) ?_
      have index : m - 1 = n + 1 := by omega
      exact (digit (m - 1)).mpr (by rw [index, List.getElem?_eq_getElem less, zero])
  rw [place, List.take_succ_eq_append_getElem less, numeral_concat]
  have value : ((digitsOf coefficient)[n] : Nat) ≠ 0 := mt Fin.val_eq_zero_iff.mp ended
  have small := ((digitsOf coefficient)[n]).isLt
  omega

theorem scientific_exponent (sign : Option Sign) (coefficient m : Nat) (exponent : Int) :
    (scientific sign coefficient m exponent).exponent = exponent := by
  unfold Literal.exponent scientific
  by_cases zero : exponent = 0
  · simp [zero]
  · simp only [if_neg zero, Option.map_some, Option.getD_some, ExponentPart.number,
      numeral_digitsOf, Option.some.injEq]
    by_cases negative : exponent < 0
    · simp only [negative, if_true]
      omega
    · simp only [negative, if_false, reduceCtorEq]
      omega

theorem scientific_digits {m : Nat} (positive : 0 < m) :
    (digitsOf coefficient).take 1 ++ ((digitsOf coefficient).take m).drop 1 =
      (digitsOf coefficient).take m := by
  have first : (digitsOf coefficient).take 1 = ((digitsOf coefficient).take m).take 1 := by
    rw [List.take_take, Nat.min_eq_left positive]
  rw [first, List.take_append_drop]

theorem scientific_value {m w z : Nat} (length : m + z = (digitsOf coefficient).length)
    (positive : 0 < m) (number : numeral ((digitsOf coefficient).take m) = w)
    (split : coefficient = w * 10 ^ z) :
    (scientific sign coefficient m (exponent + (digitsOf coefficient).length - 1)).value =
      signFactor (signOf sign) * (coefficient * 10 ^ exponent) := by
  have fraction : exponent + (digitsOf coefficient).length - 1 -
      (((digitsOf coefficient).take m).drop 1).length = exponent + z := by
    rw [List.length_drop, List.length_take]
    omega
  have moved := shift_zeros w z exponent
  rw [← split] at moved
  rw [value, factor_eq, scientific_exponent]
  simp only [scientific, scientific_digits positive, number, fraction, moved]

theorem scientific_inRange_iff {m w z : Nat} (some : coefficient ≠ 0)
    (few : coefficient < 10 ^ 18) (length : m + z = (digitsOf coefficient).length)
    (positive : 0 < m) (number : numeral ((digitsOf coefficient).take m) = w)
    (split : coefficient = w * 10 ^ z) :
    (scientific sign coefficient m (exponent + (digitsOf coefficient).length - 1)).InRange ↔
      (exponent + (digitsOf coefficient).length - 1).natAbs ≤ 1041 ∧ -1023 ≤ exponent + z ∧
        exponent + z ≤ 1039 := by
  have short := length_digitsOf_le few some
  have whole : significant ((digitsOf coefficient).take 1) = (digitsOf coefficient).take 1 :=
    @significant_take coefficient 0 some
  have all (adjusted : Int) : (scientific sign coefficient m adjusted).digits =
      (digitsOf coefficient).take m := by
    simp only [Literal.digits, scientific, whole, scientific_digits positive]
  have counted : numeral ((digitsOf coefficient).take m) ≠ 0 := by
    rw [number]
    rintro rfl
    exact some (by rw [split, zero_mul])
  have shown := length_digitsOf_pos coefficient
  rw [inRange_few (by rwa [all]) (by rw [all, List.length_take]; omega), scientific_exponent]
  simp only [scientific, whole, List.length_drop, List.length_take]
  omega

end Literal

/-! ## The round trip -/

namespace Decimal

open Literal Scan

variable {x : Decimal} {c n : Nat} {e : Int}

/-- What is written and read again is equal. -/
def RoundTrips (x : Decimal) : Prop := eq (fromString (toString x)) x

/-- Not one digit and 17 zeros in front of the largest exponent; and a number that is not written
with an exponent, since it is at least `10 ^ -6`, has no more than 18 digits behind the point. -/
def TextSafe (x : Decimal) : Prop :=
  if 0 ≤ x.exponent then x.coefficient = 0 ∨ x.exponent ≠ 1023 ∨ ¬ 10 ^ 17 ∣ x.coefficient
  else x.coefficient < 10 ^ (-x.exponent - 6).toNat ∨ 10 ^ (-x.exponent - 18).toNat ∣ x.coefficient

theorem written_spec (printable : 0 ≤ x.exponent ∨ x.coefficient < 10 ^ 15) :
    ∃ c n : Nat, x.written = (c, x.exponent + n) ∧ x.coefficient = c * 10 ^ n ∧
      (x.exponent + n < 0 → c ≠ 0 → c % 10 ≠ 0) ∧ (0 < n → x.exponent + n ≤ 0) ∧
      (0 ≤ x.exponent → n = 0) := by
  by_cases negative : x.exponent < 0
  · have few : x.coefficient < 10 ^ 15 := printable.resolve_left (not_le.mpr negative)
    obtain ⟨c, n, value, split, last, bound⟩ := stripZeros_spec x.coefficient x.exponent
    refine ⟨c, n, ?_, split, last, bound, fun whole => absurd negative (not_lt.mpr whole)⟩
    rw [written, if_pos negative, cutDigits_few few]
    exact value
  · refine ⟨x.coefficient, 0, ?_, by simp, fun below => absurd (by simpa using below) negative, by simp,
      fun _ => rfl⟩
    rw [written, if_neg negative]
    simp

/-- `TextSafe` of what is written. -/
def LayoutSafe (c : Nat) (e : Int) : Prop :=
  (e = 1023 → ¬ 10 ^ 17 ∣ c) ∧ (-6 ≤ e + (digitsOf c).length - 1 → -18 ≤ e)

/-- The layout is the text of a number, which is read truly if the layout is safe. -/
theorem layout_literal (sign : Option Sign) (few : c < 10 ^ 18) (above : -1023 ≤ e)
    (below : e ≤ 1023) (last : e < 0 → c ≠ 0 → c % 10 ≠ 0) :
    ∃ l : Literal, l.text = signText sign ++ layout c e ∧
      l.value = signFactor (signOf sign) * (c * 10 ^ e) ∧ l.exponent < 1041 ∧
      (c ≠ 0 → (l.InRange ↔ LayoutSafe c e)) := by
  have length := length_digitsOf_pos c
  have short : c ≠ 0 → (digitsOf c).length ≤ 18 := length_digitsOf_le few
  have zero : (0 : Int) < 1041 := by decide
  have single : c = 0 → (digitsOf c).length = 1 := by
    rintro rfl
    simp [digitsOf]
  by_cases near : e ≤ 0 ∧ e + (digitsOf c).length - 1 ≥ -6
  · rcases near.1.lt_or_eq with negative | rfl
    · by_cases inside : 0 ≤ e + (digitsOf c).length - 1
      · obtain ⟨k, place⟩ := Int.eq_ofNat_of_zero_le inside
        refine ⟨pointed sign c k, pointed_text negative place, pointed_value place negative,
          zero, fun some => iff_of_true (pointed_inRange some few) ⟨by omega, fun _ => ?_⟩⟩
        have := short some
        omega
      · obtain ⟨n, place⟩ : ∃ n : Nat, e + (digitsOf c).length - 1 = -(n + 1) :=
          ⟨(-(e + (digitsOf c).length)).toNat, by omega⟩
        refine ⟨Literal.small sign c n, small_text place (by omega), small_value place,
          zero, fun some => ?_⟩
        rw [small_inRange_iff (last negative some) place, LayoutSafe]
        constructor
        · intro enough
          exact ⟨by omega, fun _ => enough⟩
        · rintro ⟨-, enough⟩
          exact enough near.2
    · exact ⟨plain sign c, plain_text, plain_value, zero, fun some =>
        iff_of_true (plain_inRange some few) ⟨by omega, by omega⟩⟩
  · obtain ⟨m, w, z, trimmed, whole, positive, number, split, ended⟩ := trimmed_digits c
    have text := @scientific_text sign c e near
    rw [trimmed] at text
    refine ⟨_, text, scientific_value whole positive number split, ?_, fun some => ?_⟩
    · rw [scientific_exponent]
      by_cases none : c = 0
      · have := single none
        omega
      · have := short none
        omega
    · have zeros (k : Nat) : 10 ^ k ∣ c ↔ k ≤ z := by
        rw [split]
        exact pow_dvd_iff (ended some) k z
      have bound := short some
      have none : e < 0 → z = 0 := by
        intro negative
        have other : ¬ 10 ^ 1 ∣ c := by
          rw [pow_one, Nat.dvd_iff_mod_eq_zero]
          exact last negative some
        rw [zeros] at other
        omega
      rw [scientific_inRange_iff some few whole positive number split, LayoutSafe, zeros]
      omega

theorem layoutSafe_iff (split : x.coefficient = c * 10 ^ n) (some : c ≠ 0)
    (last : x.exponent + n < 0 → c % 10 ≠ 0) (bound : 0 < n → x.exponent + n ≤ 0)
    (stays : 0 ≤ x.exponent → n = 0) :
    LayoutSafe c (x.exponent + n) ↔ TextSafe x := by
  have few : c < 10 ^ 18 := by
    refine lt_of_le_of_lt ?_ x.coefficient_lt
    rw [split]
    exact Nat.le_mul_of_pos_right _ (by positivity)
  have short := length_digitsOf_le few some
  have length := length_digitsOf_pos c
  unfold LayoutSafe TextSafe
  by_cases whole : 0 ≤ x.exponent
  · obtain rfl := stays whole
    rw [pow_zero, mul_one] at split
    rw [if_pos whole, split]
    simp only [some, false_or, Nat.cast_zero, add_zero]
    constructor
    · rintro ⟨safe, -⟩
      by_contra both
      obtain ⟨last, divides⟩ := not_or.mp both
      exact safe (not_not.mp last) (not_not.mp divides)
    · intro safe
      exact ⟨fun last => safe.resolve_left (not_not_intro last), by omega⟩
  · rw [if_neg whole]
    have size : x.coefficient < 10 ^ (-x.exponent - 6).toNat ↔
        x.exponent + n + (digitsOf c).length - 1 < -6 := by
      constructor
      · intro less
        by_contra near
        have large : 10 ^ (-x.exponent - 6).toNat ≤ x.coefficient := by
          rw [split]
          refine le_trans ?_ (Nat.mul_le_mul_right _ (pow_length_digitsOf_le some))
          rw [← pow_add]
          exact Nat.pow_le_pow_right (by decide) (by omega)
        exact absurd less (not_lt.mpr large)
      · intro less
        have bounded : x.coefficient < 10 ^ ((digitsOf c).length + n) := by
          rw [split, pow_add]
          exact Nat.mul_lt_mul_of_pos_right (lt_pow_length_digitsOf c) (by positivity)
        exact bounded.trans_le (Nat.pow_le_pow_right (by decide) (by omega))
    rw [size]
    by_cases zero : x.exponent + n = 0
    · have divides : 10 ^ (-x.exponent - 18).toNat ∣ x.coefficient := by
        rw [split]
        exact (Nat.pow_dvd_pow 10 (by omega)).mul_left c
      exact iff_of_true ⟨by omega, by omega⟩ (.inr divides)
    · have divides : 10 ^ (-x.exponent - 18).toNat ∣ x.coefficient ↔ -18 ≤ x.exponent + n := by
        rw [split, pow_dvd_iff (last (by omega))]
        omega
      rw [divides]
      omega

theorem toString_literal (finite : x.isFinite)
    (printable : 0 ≤ x.exponent ∨ x.coefficient < 10 ^ 15) :
    ∃ l : Literal, toString x = l.text ∧ l.value = x.toRat ∧ l.exponent < 1041 ∧
      (x.coefficient ≠ 0 → (l.InRange ↔ TextSafe x)) := by
  obtain ⟨c, n, made, split, last, bound, stays⟩ := written_spec printable
  have above := x.exponent_ge
  have below := x.exponent_le
  unfold exponentMin at above
  unfold exponentMax at below
  have few : c < 10 ^ 18 := by
    refine lt_of_le_of_lt ?_ x.coefficient_lt
    rw [split]
    exact Nat.le_mul_of_pos_right _ (by positivity)
  obtain ⟨l, text, value, exponent, safe⟩ :=
    layout_literal (if x.sign = .negative then some .negative else none) few
      (show -1023 ≤ x.exponent + n by omega)
      (show x.exponent + n ≤ 1023 by
        rcases Nat.eq_zero_or_pos n with rfl | some
        · omega
        · have := bound some
          omega) last
  refine ⟨l, ?_, ?_, exponent, fun some => ?_⟩
  · have written : toString x =
        (if x.sign = .negative then ascii "-" else []) ++ layout x.written.1 x.written.2 := by
      unfold toString
      cases kind : x.formatClass with
      | infinity | nan => simp [isFinite, isSpecial, isInfinity, isNaN, kind] at finite
      | normal | zero => rfl
    rw [written, text, made]
    split_ifs <;> rfl
  · have sign : signOf (if x.sign = .negative then some .negative else none) = x.sign := by
      cases x.sign <;> rfl
    have moved := shift_zeros c n x.exponent
    rw [value, sign, toRat_eq, magnitude, ← moved, ← split]
  · have counted : c ≠ 0 := by
      rintro rfl
      exact some (by rw [split, zero_mul])
    rw [safe counted]
    exact layoutSafe_iff split counted (fun negative => last negative counted) bound stays

end Decimal

end NetRider.Platform
