import Mathlib

/-!
# 128-bit integers

The products of `Decimal` are computed in two halves of 64 bits, which are multiplied and divided
by way of 32-bit digits. No intermediate result reaches `2 ^ 64`.
-/

namespace NetRider.Platform

structure UInt128 where
  low : Nat
  high : Nat
  low_lt : low < 2 ^ 64
  high_lt : high < 2 ^ 64

namespace UInt128

def highUInt32 (x : Nat) : Nat := (x >>> 32) % 2 ^ 32
def lowUInt32 (x : Nat) : Nat := x % 2 ^ 32
def makeUInt64 (low high : Nat) : Nat := low ||| high <<< 32

/-- The high 64 bits of the product. -/
def multiplyHigh (u v : Nat) : Nat :=
  let uLow := lowUInt32 u
  let uHigh := highUInt32 u
  let vLow := lowUInt32 v
  let vHigh := highUInt32 v
  let partialProduct := uHigh * vLow + highUInt32 (uLow * vLow)
  uHigh * vHigh + highUInt32 partialProduct + highUInt32 (uLow * vHigh + lowUInt32 partialProduct)

/-- The number of the two halves. -/
def toNat (x : UInt128) : Nat := x.high * 2 ^ 64 + x.low

/-! ## Digits -/

theorem lowUInt32_lt (x : Nat) : lowUInt32 x < 2 ^ 32 := Nat.mod_lt _ (by decide)

theorem highUInt32_lt (x : Nat) : highUInt32 x < 2 ^ 32 := Nat.mod_lt _ (by decide)

theorem highUInt32_eq {x : Nat} (fits : x < 2 ^ 64) : highUInt32 x = x / 2 ^ 32 := by
  rw [highUInt32, Nat.shiftRight_eq_div_pow, Nat.mod_eq_of_lt]
  omega

theorem digits_eq {x : Nat} (fits : x < 2 ^ 64) : highUInt32 x * 2 ^ 32 + lowUInt32 x = x := by
  rw [highUInt32_eq fits, lowUInt32, Nat.div_add_mod']

theorem makeUInt64_eq {low : Nat} (fits : low < 2 ^ 32) (high : Nat) :
    makeUInt64 low high = high * 2 ^ 32 + low := by
  rw [makeUInt64, Nat.or_comm, ← Nat.shiftLeft_add_eq_or_of_lt fits, Nat.shiftLeft_eq]

theorem makeUInt64_lt {low high : Nat} (fits : low < 2 ^ 32) (fits' : high < 2 ^ 32) :
    makeUInt64 low high < 2 ^ 64 := by
  rw [makeUInt64_eq fits]
  omega

/-! ## Products -/

theorem digit_product_lt {a b : Nat} (fits : a < 2 ^ 32) (fits' : b < 2 ^ 32) :
    a * b ≤ (2 ^ 32 - 1) * (2 ^ 32 - 1) :=
  Nat.mul_le_mul (by omega) (by omega)

theorem multiplyHigh_eq {u v : Nat} (fits : u < 2 ^ 64) (fits' : v < 2 ^ 64) :
    multiplyHigh u v = u * v / 2 ^ 64 := by
  have uDigits := digits_eq fits
  have vDigits := digits_eq fits'
  have lowLow := digit_product_lt (lowUInt32_lt u) (lowUInt32_lt v)
  have highLow := digit_product_lt (highUInt32_lt u) (lowUInt32_lt v)
  have lowHigh := digit_product_lt (lowUInt32_lt u) (highUInt32_lt v)
  unfold multiplyHigh
  dsimp only
  generalize highUInt32 u = a at *
  generalize lowUInt32 u = b at *
  generalize highUInt32 v = c at *
  generalize lowUInt32 v = d at *
  have product : u * v = a * c * 2 ^ 64 + (a * d + b * c) * 2 ^ 32 + b * d := by
    rw [← uDigits, ← vDigits]
    ring
  generalize b * d = bd at *
  generalize a * d = ad at *
  generalize b * c = bc at *
  generalize a * c = ac at *
  rw [product]
  simp only [highUInt32, lowUInt32, Nat.shiftRight_eq_div_pow]
  omega

theorem multiplyHigh_lt {u v : Nat} (fits : u < 2 ^ 64) (fits' : v < 2 ^ 64) :
    multiplyHigh u v < 2 ^ 64 := by
  rw [multiplyHigh_eq fits fits', Nat.div_lt_iff_lt_mul (by decide)]
  exact Nat.mul_lt_mul'' fits fits'

def multiply (u v : Nat) (fits : u < 2 ^ 64) (fits' : v < 2 ^ 64) : UInt128 :=
  ⟨u * v % 2 ^ 64, multiplyHigh u v, Nat.mod_lt _ (by decide), multiplyHigh_lt fits fits'⟩

theorem toNat_multiply {u v : Nat} (fits : u < 2 ^ 64) (fits' : v < 2 ^ 64) :
    (multiply u v fits fits').toNat = u * v := by
  change multiplyHigh u v * 2 ^ 64 + u * v % 2 ^ 64 = u * v
  rw [multiplyHigh_eq fits fits', Nat.div_add_mod']

/-! ## Quotients -/

/-- One step of the loop of `operator/=`: the digit of the quotient, and the remainder. -/
def divideDigit (divisor dividend remainder : Nat) : Nat × Nat :=
  let work := makeUInt64 dividend remainder
  (work / divisor % 2 ^ 32, work % divisor % 2 ^ 32)

theorem divideDigit_lt (divisor dividend remainder : Nat) :
    (divideDigit divisor dividend remainder).1 < 2 ^ 32 :=
  Nat.mod_lt _ (by decide)

/-- `operator/=`. -/
def divide (x : UInt128) (divisor : Nat) : UInt128 :=
  if x.high = 0 then
    ⟨x.low / divisor, 0, Nat.lt_of_le_of_lt (Nat.div_le_self ..) x.low_lt, by decide⟩
  else
    let digit3 := divideDigit divisor (highUInt32 x.high) 0
    let digit2 := divideDigit divisor (lowUInt32 x.high) digit3.2
    let digit1 := divideDigit divisor (highUInt32 x.low) digit2.2
    let digit0 := divideDigit divisor (lowUInt32 x.low) digit1.2
    ⟨makeUInt64 digit0.1 digit1.1, makeUInt64 digit2.1 digit3.1,
      makeUInt64_lt (divideDigit_lt ..) (divideDigit_lt ..),
      makeUInt64_lt (divideDigit_lt ..) (divideDigit_lt ..)⟩

/-- A remainder and a digit are divided without loss. -/
theorem divideDigit_spec {divisor dividend remainder : Nat} (positive : 0 < divisor)
    (fits : divisor < 2 ^ 32) (digit : dividend < 2 ^ 32) (less : remainder < divisor) :
    remainder * 2 ^ 32 + dividend =
        (divideDigit divisor dividend remainder).1 * divisor +
          (divideDigit divisor dividend remainder).2 ∧
      (divideDigit divisor dividend remainder).2 < divisor := by
  unfold divideDigit
  dsimp only
  rw [makeUInt64_eq digit]
  have rest := Nat.mod_lt (remainder * 2 ^ 32 + dividend) positive
  have small : (remainder * 2 ^ 32 + dividend) / divisor < 2 ^ 32 := by
    rw [Nat.div_lt_iff_lt_mul positive]
    nlinarith
  rw [Nat.mod_eq_of_lt small, Nat.mod_eq_of_lt (rest.trans fits), Nat.div_add_mod']
  exact ⟨rfl, rest⟩

theorem toNat_divide {divisor : Nat} (positive : 0 < divisor) (fits : divisor < 2 ^ 32)
    (x : UInt128) : (x.divide divisor).toNat = x.toNat / divisor := by
  unfold divide
  split_ifs with small
  · simp [toNat, small]
  · have high := digits_eq x.high_lt
    have low := digits_eq x.low_lt
    obtain ⟨third, less3⟩ := divideDigit_spec positive fits (highUInt32_lt x.high) positive
    obtain ⟨second, less2⟩ := divideDigit_spec positive fits (lowUInt32_lt x.high) less3
    obtain ⟨first, less1⟩ := divideDigit_spec positive fits (highUInt32_lt x.low) less2
    obtain ⟨last, less0⟩ := divideDigit_spec positive fits (lowUInt32_lt x.low) less1
    dsimp only [toNat]
    rw [makeUInt64_eq (divideDigit_lt ..), makeUInt64_eq (divideDigit_lt ..)]
    generalize divideDigit divisor (highUInt32 x.high) 0 = digit3 at *
    generalize divideDigit divisor (lowUInt32 x.high) digit3.2 = digit2 at *
    generalize divideDigit divisor (highUInt32 x.low) digit2.2 = digit1 at *
    generalize divideDigit divisor (lowUInt32 x.low) digit1.2 = digit0 at *
    have whole : x.high * 2 ^ 64 + x.low = digit0.2 +
        ((digit3.1 * 2 ^ 32 + digit2.1) * 2 ^ 64 + (digit1.1 * 2 ^ 32 + digit0.1)) * divisor := by
      zify at high low third second first last ⊢
      linear_combination 2 ^ 96 * third + 2 ^ 64 * second + 2 ^ 32 * first + last - 2 ^ 64 * high -
        low
    rw [whole, Nat.add_mul_div_right _ _ positive, Nat.div_eq_of_lt less0, zero_add]

end UInt128

end NetRider.Platform
