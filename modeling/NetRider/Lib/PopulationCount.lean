import Mathlib.Data.Nat.Bitwise
import Mathlib.Tactic.Ring
import NetRider.Lib.Bytes

/-!
# Population count

The number of set bits of a number, and the count of 32 bits by adding up neighbouring fields: the
bytes of a word are counted independently of each other, and a multiplication adds them.
-/

namespace NetRider.Lib.PopulationCount

/-! ## Set bits -/

/-- The number of set bits among the first `k` bits of `n`. -/
def count (k n : Nat) : Nat := (List.range k).countP (n.testBit ·)

variable {b h k n : Nat}

theorem testBit_add_low {s i : Nat} (small : b < 2 ^ s) (low : i < s) :
    (b + 2 ^ s * h).testBit i = b.testBit i := by
  rw [Nat.add_comm, Nat.testBit_two_pow_mul_add h small, if_pos low]

theorem testBit_add_high {s i : Nat} (small : b < 2 ^ s) :
    (b + 2 ^ s * h).testBit (s + i) = h.testBit i := by
  rw [Nat.add_comm, Nat.testBit_two_pow_mul_add h small, if_neg (by omega), Nat.add_sub_cancel_left]

/-- The bits of two parts are counted one part after the other. -/
theorem count_add {s : Nat} (small : b < 2 ^ s) :
    count (s + k) (b + 2 ^ s * h) = count s b + count k h := by
  rw [count, List.range_add, List.countP_append, List.countP_map]
  have low : (List.range s).countP ((b + 2 ^ s * h).testBit ·) = count s b := by
    refine List.countP_congr fun i within => ?_
    rw [testBit_add_low small (List.mem_range.mp within)]
  have high : (List.range k).countP (((b + 2 ^ s * h).testBit ·) ∘ (s + ·)) = count k h := by
    refine List.countP_congr fun i _ => ?_
    rw [Function.comp_apply, testBit_add_high small]
  rw [low, high]

theorem and_parts {s m l : Nat} (small : b < 2 ^ s) (small' : m < 2 ^ s) :
    (b + 2 ^ s * h) &&& (m + 2 ^ s * l) = (b &&& m) + 2 ^ s * (h &&& l) := by
  have both : b &&& m < 2 ^ s := Nat.and_lt_two_pow b small'
  refine Nat.eq_of_testBit_eq fun i => ?_
  rw [Nat.testBit_and]
  rcases Nat.lt_or_ge i s with low | high
  · rw [testBit_add_low small low, testBit_add_low small' low, testBit_add_low both low,
      Nat.testBit_and]
  · obtain ⟨j, rfl⟩ := Nat.exists_eq_add_of_le high
    rw [testBit_add_high small, testBit_add_high small', testBit_add_high both, Nat.testBit_and]

/-! ## Bytes -/

/-- Four bytes, the lowest first. -/
def word (b0 b1 b2 b3 : Nat) : Nat := b0 + 256 * (b1 + 256 * (b2 + 256 * b3))

theorem and_word {b0 b1 b2 b3 m : Nat} (small : b0 < 256 ∧ b1 < 256 ∧ b2 < 256 ∧ b3 < 256)
    (mask : m < 256) : word b0 b1 b2 b3 &&& word m m m m =
      word (b0 &&& m) (b1 &&& m) (b2 &&& m) (b3 &&& m) := by
  have third := @and_parts b2 b3 8 m m small.2.2.1 mask
  have second := @and_parts b1 (b2 + 2 ^ 8 * b3) 8 m (m + 2 ^ 8 * m) small.2.1 mask
  have first := @and_parts b0 (b1 + 2 ^ 8 * (b2 + 2 ^ 8 * b3)) 8 m (m + 2 ^ 8 * (m + 2 ^ 8 * m))
    small.1 mask
  rw [second, third] at first
  exact first

theorem count_word {b0 b1 b2 b3 : Nat} (small : b0 < 256 ∧ b1 < 256 ∧ b2 < 256 ∧ b3 < 256) :
    count 32 (word b0 b1 b2 b3) = count 8 b0 + (count 8 b1 + (count 8 b2 + count 8 b3)) := by
  have third := @count_add b2 b3 8 8 small.2.2.1
  have second := @count_add b1 (b2 + 2 ^ 8 * b3) 16 8 small.2.1
  have first := @count_add b0 (b1 + 2 ^ 8 * (b2 + 2 ^ 8 * b3)) 24 8 small.1
  rw [second, third] at first
  exact first

/-! ## Fields -/

/-- Each field of two bits counted. -/
def pairs (b : Nat) : Nat := b - (b / 2 &&& 0x55)

/-- Each field of four bits counted. -/
def nibbles (b : Nat) : Nat := (pairs b &&& 0x33) + (pairs b / 4 &&& 0x33)

theorem pairs_facts : ∀ b < 256, (b / 2 &&& 0x55) ≤ b ∧
    (nibbles b ≤ 0x44 ∧ nibbles b % 16 ≤ 4) ∧
    (nibbles b + nibbles b / 16) % 16 = count 8 b ∧ count 8 b ≤ 8 :=
  forall_digits (by decide)

/-- The bit that a shift brings in from the next byte is masked out. -/
theorem shift_masked : (∀ b < 256, ∀ c < 2, (b / 2 + 128 * c) &&& 0x55 = b / 2 &&& 0x55) ∧
    ∀ b < 256, ∀ c < 4, (b / 4 + 64 * c) &&& 0x33 = b / 4 &&& 0x33 :=
  ⟨forall_digits (by decide), forall_digits (by decide)⟩

/-! ## The count of a word -/

variable {b0 b1 b2 b3 : Nat} (small : b0 < 256 ∧ b1 < 256 ∧ b2 < 256 ∧ b3 < 256)
include small

theorem word_pairs :
    word b0 b1 b2 b3 - (word b0 b1 b2 b3 / 2 &&& word 0x55 0x55 0x55 0x55) =
      word (pairs b0) (pairs b1) (pairs b2) (pairs b3) := by
  have shifted : word b0 b1 b2 b3 / 2 = word (b0 / 2 + 128 * (b1 % 2)) (b1 / 2 + 128 * (b2 % 2))
      (b2 / 2 + 128 * (b3 % 2)) (b3 / 2 + 128 * 0) := by
    unfold word
    omega
  have masked := shift_masked.1
  rw [shifted, and_word (by omega) (by decide), masked b0 small.1 _ (by omega),
    masked b1 small.2.1 _ (by omega), masked b2 small.2.2.1 _ (by omega),
    masked b3 small.2.2.2 _ (by omega)]
  have fits0 := (pairs_facts b0 small.1).1
  have fits1 := (pairs_facts b1 small.2.1).1
  have fits2 := (pairs_facts b2 small.2.2.1).1
  have fits3 := (pairs_facts b3 small.2.2.2).1
  unfold word pairs
  omega

theorem word_nibbles :
    (word (pairs b0) (pairs b1) (pairs b2) (pairs b3) &&& word 0x33 0x33 0x33 0x33) +
        (word (pairs b0) (pairs b1) (pairs b2) (pairs b3) / 4 &&& word 0x33 0x33 0x33 0x33) =
      word (nibbles b0) (nibbles b1) (nibbles b2) (nibbles b3) := by
  have less : pairs b0 < 256 ∧ pairs b1 < 256 ∧ pairs b2 < 256 ∧ pairs b3 < 256 := by
    unfold pairs
    omega
  have shifted : word (pairs b0) (pairs b1) (pairs b2) (pairs b3) / 4 =
      word (pairs b0 / 4 + 64 * (pairs b1 % 4)) (pairs b1 / 4 + 64 * (pairs b2 % 4))
        (pairs b2 / 4 + 64 * (pairs b3 % 4)) (pairs b3 / 4 + 64 * 0) := by
    unfold word
    omega
  have masked := shift_masked.2
  rw [shifted, and_word less (by decide), and_word (by omega) (by decide),
    masked _ less.1 _ (by omega), masked _ less.2.1 _ (by omega), masked _ less.2.2.1 _ (by omega),
    masked _ less.2.2.2 _ (by omega)]
  unfold word nibbles
  omega

theorem word_bytes :
    (word (nibbles b0) (nibbles b1) (nibbles b2) (nibbles b3) +
        word (nibbles b0) (nibbles b1) (nibbles b2) (nibbles b3) / 16) &&&
          word 0x0F 0x0F 0x0F 0x0F =
      word (count 8 b0) (count 8 b1) (count 8 b2) (count 8 b3) := by
  obtain ⟨-, most0, sum0, -⟩ := pairs_facts b0 small.1
  obtain ⟨-, most1, sum1, -⟩ := pairs_facts b1 small.2.1
  obtain ⟨-, most2, sum2, -⟩ := pairs_facts b2 small.2.2.1
  obtain ⟨-, most3, sum3, -⟩ := pairs_facts b3 small.2.2.2
  have added : word (nibbles b0) (nibbles b1) (nibbles b2) (nibbles b3) +
        word (nibbles b0) (nibbles b1) (nibbles b2) (nibbles b3) / 16 =
      word (nibbles b0 + nibbles b0 / 16 + 16 * (nibbles b1 % 16))
        (nibbles b1 + nibbles b1 / 16 + 16 * (nibbles b2 % 16))
        (nibbles b2 + nibbles b2 / 16 + 16 * (nibbles b3 % 16))
        (nibbles b3 + nibbles b3 / 16) := by
    unfold word
    omega
  have low (v : Nat) : v &&& 0x0F = v % 16 := Nat.and_two_pow_sub_one_eq_mod v 4
  rw [added, and_word (by omega) (by decide), low, low, low, low, ← sum0, ← sum1, ← sum2, ← sum3]
  unfold word
  omega

/-- The highest byte of the product is the sum of all. -/
theorem word_sum :
    word (count 8 b0) (count 8 b1) (count 8 b2) (count 8 b3) * 0x01010101 % 2 ^ 32 / 2 ^ 24 =
      count 32 (word b0 b1 b2 b3) := by
  obtain ⟨-, -, -, most0⟩ := pairs_facts b0 small.1
  obtain ⟨-, -, -, most1⟩ := pairs_facts b1 small.2.1
  obtain ⟨-, -, -, most2⟩ := pairs_facts b2 small.2.2.1
  obtain ⟨-, -, -, most3⟩ := pairs_facts b3 small.2.2.2
  rw [count_word small]
  generalize count 8 b0 = p0, count 8 b1 = p1, count 8 b2 = p2, count 8 b3 = p3 at *
  have product : word p0 p1 p2 p3 * 0x01010101 =
      p0 + 2 ^ 8 * (p0 + p1) + 2 ^ 16 * (p0 + p1 + p2) + 2 ^ 24 * (p0 + (p1 + (p2 + p3))) +
        2 ^ 32 * (p1 + p2 + p3 + 2 ^ 8 * (p2 + p3) + 2 ^ 16 * p3) := by
    unfold word
    ring
  rw [product, Nat.add_mul_mod_self_left, Nat.mod_eq_of_lt (by omega), Nat.add_mul_div_left _ _
    (by decide), Nat.div_eq_of_lt (by omega), Nat.zero_add]

end NetRider.Lib.PopulationCount
