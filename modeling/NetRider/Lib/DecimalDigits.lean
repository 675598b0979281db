import Mathlib

/-!
# Decimal digits

Lists of digits, the most significant first, and the numbers they denote.
-/

namespace NetRider.Lib

/-- The number that digits denote. -/
def numeral (digits : List (Fin 10)) : Nat := digits.foldl (fun n d => n * 10 + d) 0

/-- There is a digit. -/
instance ten_neZero : NeZero 10 := ⟨by decide⟩

/-- The digits of a number, without leading zeros. -/
def digitsOf (n : Nat) : List (Fin 10) :=
  if n < 10 then [Fin.ofNat 10 n] else digitsOf (n / 10) ++ [Fin.ofNat 10 n]
termination_by n

variable {digits others : List (Fin 10)} {d : Fin 10}

theorem numeral_nil : numeral [] = 0 := rfl

theorem numeral_concat (digits : List (Fin 10)) (d : Fin 10) :
    numeral (digits ++ [d]) = numeral digits * 10 + d := by
  simp [numeral]

theorem numeral_append (digits others : List (Fin 10)) :
    numeral (digits ++ others) = numeral digits * 10 ^ others.length + numeral others := by
  induction others using List.reverseRecOn with
  | nil => simp [numeral_nil]
  | append_singleton others d ih =>
    rw [← List.append_assoc, numeral_concat, ih, numeral_concat, List.length_append,
      List.length_singleton, pow_succ]
    ring

theorem numeral_cons (d : Fin 10) (digits : List (Fin 10)) :
    numeral (d :: digits) = d * 10 ^ digits.length + numeral digits := by
  have split := numeral_append [d] digits
  simpa [numeral] using split

theorem numeral_lt (digits : List (Fin 10)) : numeral digits < 10 ^ digits.length := by
  induction digits using List.reverseRecOn with
  | nil => decide
  | append_singleton digits d ih =>
    have small := d.isLt
    rw [numeral_concat, List.length_append, List.length_singleton, pow_succ]
    omega

theorem numeral_eq_zero_iff : numeral digits = 0 ↔ ∀ d ∈ digits, d = 0 := by
  induction digits using List.reverseRecOn with
  | nil => simp [numeral_nil]
  | append_singleton digits d ih =>
    have last : (d : Nat) = 0 ↔ d = 0 := Fin.val_eq_zero_iff
    rw [numeral_concat, Nat.add_eq_zero_iff, last]
    simp only [mul_eq_zero, OfNat.ofNat_ne_zero, or_false, ih, List.mem_append,
      List.mem_singleton]
    constructor
    · rintro ⟨all, rfl⟩ other (member | rfl)
      · exact all other member
      · rfl
    · intro all
      exact ⟨fun other member => all other (.inl member), all d (.inr rfl)⟩

theorem numeral_zeros (n : Nat) : numeral (List.replicate n 0) = 0 :=
  numeral_eq_zero_iff.mpr fun _ member => List.eq_of_mem_replicate member

theorem numeral_dropWhile (digits : List (Fin 10)) :
    numeral (digits.dropWhile (· = 0)) = numeral digits := by
  induction digits with
  | nil => rfl
  | cons d digits ih =>
    by_cases zero : d = 0
    · rw [List.dropWhile_cons_of_pos (by simpa using zero), ih, numeral_cons, zero]
      simp
    · rw [List.dropWhile_cons_of_neg (by simpa using zero)]

/-- A first digit other than zero makes the number as large as its length allows. -/
theorem le_numeral_cons (nonzero : d ≠ 0) (digits : List (Fin 10)) :
    10 ^ digits.length ≤ numeral (d :: digits) := by
  have positive : 0 < (d : Nat) := Nat.pos_of_ne_zero (mt Fin.val_eq_zero_iff.mp nonzero)
  rw [numeral_cons]
  exact (Nat.le_mul_of_pos_left _ positive).trans (Nat.le_add_right ..)

/-- Dropping the last digits divides. -/
theorem numeral_take_drop (digits : List (Fin 10)) (n : Nat) :
    numeral digits = numeral (digits.take n) * 10 ^ (digits.length - n) +
      numeral (digits.drop n) := by
  conv_lhs => rw [← List.take_append_drop n digits, numeral_append, List.length_drop]

/-- Digits of one length are told by the number. -/
theorem numeral_injective (lengths : digits.length = others.length)
    (same : numeral digits = numeral others) : digits = others := by
  induction digits using List.reverseRecOn generalizing others with
  | nil => exact (List.length_eq_zero_iff.mp lengths.symm).symm
  | append_singleton digits d ih =>
    cases others using List.reverseRecOn with
    | nil => simp at lengths
    | append_singleton others e =>
      have small := d.isLt
      have otherSmall := e.isLt
      simp only [List.length_append, List.length_singleton, Nat.add_right_cancel_iff] at lengths
      rw [numeral_concat, numeral_concat] at same
      have last : d = e := Fin.ext (by omega)
      rw [ih lengths (by omega), last]

/-! ## The digits of a number -/

theorem numeral_digitsOf (n : Nat) : numeral (digitsOf n) = n := by
  fun_induction digitsOf n with
  | case1 n small => simp [numeral, Nat.mod_eq_of_lt small]
  | case2 n large ih =>
    rw [numeral_concat, ih, Fin.val_ofNat]
    omega

theorem digitsOf_ne_nil (n : Nat) : digitsOf n ≠ [] := by
  rw [digitsOf]
  split_ifs <;> simp

theorem length_digitsOf_pos (n : Nat) : 0 < (digitsOf n).length :=
  List.length_pos_iff.mpr (digitsOf_ne_nil n)

theorem lt_pow_length_digitsOf (n : Nat) : n < 10 ^ (digitsOf n).length := by
  have bound := numeral_lt (digitsOf n)
  rwa [numeral_digitsOf] at bound

theorem digitsOf_concat (n : Nat) : ∃ digits, digitsOf n = digits ++ [Fin.ofNat 10 n] := by
  rw [digitsOf]
  split_ifs
  · exact ⟨[], rfl⟩
  · exact ⟨_, rfl⟩

/-- The first digit is zero for zero only. -/
theorem head_digitsOf {n : Nat} (some : n ≠ 0) : ∃ d digits, digitsOf n = d :: digits ∧ d ≠ 0 := by
  fun_induction digitsOf n with
  | case1 n small =>
    refine ⟨_, _, rfl, fun zero => some ?_⟩
    have value := congrArg Fin.val zero
    rwa [Fin.val_ofNat, Nat.mod_eq_of_lt small] at value
  | case2 n large ih =>
    obtain ⟨d, digits, value, nonzero⟩ := ih (by omega)
    exact ⟨d, digits ++ [Fin.ofNat 10 n], by rw [value, List.cons_append], nonzero⟩

theorem pow_length_digitsOf_le {n : Nat} (some : n ≠ 0) : 10 ^ ((digitsOf n).length - 1) ≤ n := by
  obtain ⟨d, digits, value, nonzero⟩ := head_digitsOf some
  have bound := le_numeral_cons nonzero digits
  rw [← value, numeral_digitsOf] at bound
  rw [value, List.length_cons, Nat.add_sub_cancel]
  exact bound

theorem length_digitsOf_le {n digits : Nat} (small : n < 10 ^ digits) (some : n ≠ 0) :
    (digitsOf n).length ≤ digits := by
  have bound := (pow_length_digitsOf_le some).trans_lt small
  have less := (Nat.pow_lt_pow_iff_right (by decide)).mp bound
  omega

/-- How many zeros are at the end. -/
theorem pow_dvd_iff {w : Nat} (last : w % 10 ≠ 0) (k z : Nat) : 10 ^ k ∣ w * 10 ^ z ↔ k ≤ z := by
  constructor
  · intro divides
    by_contra more
    obtain ⟨j, rfl⟩ : ∃ j, k = z + (j + 1) := ⟨k - z - 1, by omega⟩
    rw [pow_add, mul_comm w] at divides
    have rest := (Nat.mul_dvd_mul_iff_left (by positivity)).mp divides
    exact last (Nat.mod_eq_zero_of_dvd ((Dvd.intro_left _ (pow_succ 10 j).symm).trans rest))
  · intro few
    exact (Nat.pow_dvd_pow 10 few).mul_left w

end NetRider.Lib
