import Mathlib

/-!
# Smearing bits

The highest bit of a number is spread to all bits below it by shifts of one, two, four and so on,
joined to the number. The result is a power of two less one.
-/

namespace NetRider.Lib

/-- `y` has a bit wherever `x` has one among that many bits from there on. -/
def Smears (count x y : Nat) : Prop :=
  ∀ i, y.testBit i = true ↔ ∃ k < count, x.testBit (i + k) = true

theorem smears_self (x : Nat) : Smears 1 x x := by
  intro i
  constructor
  · exact fun bit => ⟨0, Nat.one_pos, bit⟩
  · rintro ⟨k, few, bit⟩
    obtain rfl := Nat.lt_one_iff.mp few
    exact bit

theorem Smears.step {count x y : Nat} (smears : Smears count x y) :
    Smears (count + count) x (y ||| y >>> count) := by
  intro i
  rw [Nat.testBit_or, Nat.testBit_shiftRight, Bool.or_eq_true, smears i, smears (count + i)]
  constructor
  · rintro (⟨k, few, bit⟩ | ⟨k, few, bit⟩)
    · exact ⟨k, by omega, bit⟩
    · exact ⟨count + k, by omega, by rwa [← Nat.add_assoc, Nat.add_comm i]⟩
  · rintro ⟨k, few, bit⟩
    by_cases near : k < count
    · exact .inl ⟨k, near, bit⟩
    · refine .inr ⟨k - count, by omega, ?_⟩
      rwa [show count + i + (k - count) = i + k by omega]

/-- All bits below the highest one. -/
theorem Smears.eq {x y : Nat} (smears : Smears 32 x y) (small : x < 2 ^ 32) :
    y = 2 ^ x.size - 1 := by
  apply Nat.eq_of_testBit_eq
  intro i
  rw [Nat.testBit_two_pow_sub_one, Bool.eq_iff_iff, smears i, decide_eq_true_eq]
  constructor
  · rintro ⟨k, -, bit⟩
    have large := Nat.ge_two_pow_of_testBit bit
    exact lt_of_le_of_lt (Nat.le_add_right i k) (Nat.lt_size.mpr large)
  · intro below
    by_contra nowhere
    refine absurd (Nat.lt_size.mp below) (Nat.not_le_of_lt ?_)
    refine Nat.lt_pow_two_of_testBit x fun k least => ?_
    by_cases near : k < i + 32
    · by_contra bit
      refine nowhere ⟨k - i, by omega, ?_⟩
      rw [Nat.add_sub_cancel' least]
      exact Bool.eq_true_of_not_eq_false bit
    · have larger : (2 : Nat) ^ 32 ≤ 2 ^ k := Nat.pow_le_pow_right (by decide) (by omega)
      exact Nat.testBit_lt_two_pow (lt_of_lt_of_le small larger)

theorem smear_toNat {x : Nat} {y : BitVec 32} {count : Nat} (smears : Smears count x y.toNat)
    (small : y.toNat < 2 ^ 31) :
    Smears (count + count) x (y ||| y.sshiftRight count).toNat ∧
      (y ||| y.sshiftRight count).toNat < 2 ^ 31 := by
  have msb : y.msb = false := by
    rw [BitVec.msb_eq_false_iff_two_mul_lt]
    omega
  rw [BitVec.toNat_or, BitVec.toNat_sshiftRight_of_msb_false msb]
  refine ⟨smears.step, Nat.or_lt_two_pow small ?_⟩
  exact lt_of_le_of_lt (Nat.shiftRight_le _ _) small

theorem smear_msb {y : BitVec 32} (count : Nat) (msb : y.msb = true) :
    (y ||| y.sshiftRight count).msb = true := by
  rw [BitVec.msb_or, msb, Bool.true_or]

theorem toInt_succ {y : BitVec 32} (msb : y.msb = true) : (y + 1).toInt ≤ 0 := by
  have one : (1 : BitVec 32).toNat = 1 := rfl
  have few := y.isLt
  rw [BitVec.msb_eq_true_iff_two_mul_ge] at msb
  rw [BitVec.toInt_eq_toNat_cond, BitVec.toNat_add, one]
  split <;> omega

end NetRider.Lib
