import NetRider.Lib.Bytes
import NetRider.Wtf.UTF8

/-!
# Single UTF-8 sequences

`decodeUTF8Sequence` reads a sequence that ends with a zero byte.
-/

namespace NetRider.Wtf.Unicode

open Lib

def UTF8SequenceLength (b0 : UInt8) : Nat :=
  if isASCII b0 then 1 else inlineUTF8SequenceLengthNonASCII b0

def decodeUTF8Sequence (sequence : List UInt8) : Int :=
  let b0 := sequence.getD 0 0
  let length := inlineUTF8SequenceLength b0
  if length = 0 then -1
  else
    let b1 := sequence.getD 1 0
    if length = 1 then if b1 ≠ 0 then -1 else b0.toNat
    else if b1 &&& 0xC0 ≠ 0x80 then -1
    else
      let b2 := sequence.getD 2 0
      if length = 2 then
        if b2 ≠ 0 then -1
        else
          let c := ((b0.toNat &&& 0x1F) <<< 6) ||| (b1.toNat &&& 0x3F)
          if c < 0x80 then -1 else c
      else if b2 &&& 0xC0 ≠ 0x80 then -1
      else
        let b3 := sequence.getD 3 0
        if length = 3 then
          if b3 ≠ 0 then -1
          else
            let c := ((b0.toNat &&& 0xF) <<< 12) ||| ((b1.toNat &&& 0x3F) <<< 6) |||
              (b2.toNat &&& 0x3F)
            if c < 0x800 then -1 else if 0xD800 ≤ c ∧ c ≤ 0xDFFF then -1 else c
        else if b3 &&& 0xC0 ≠ 0x80 then -1
        else
          let b4 := sequence.getD 4 0
          if length = 4 then
            if b4 ≠ 0 then -1
            else
              let c := ((b0.toNat &&& 0x7) <<< 18) ||| ((b1.toNat &&& 0x3F) <<< 12) |||
                ((b2.toNat &&& 0x3F) <<< 6) ||| (b3.toNat &&& 0x3F)
              if c < 0x10000 ∨ c > 0x10FFFF then -1 else c
          else -1

variable {a b b0 b1 b2 b3 : UInt8} {bytes : List UInt8} {c : Char}

theorem UTF8SequenceLength_eq : UTF8SequenceLength a = inlineUTF8SequenceLength a := rfl

/-! ## Bits -/

/-- A byte `10xxxxxx`. -/
def Trails (b : UInt8) : Prop := 0x80 ≤ b.toNat ∧ b.toNat < 0xC0

instance (b : UInt8) : Decidable (Trails b) := inferInstanceAs (Decidable (_ ∧ _))

theorem trails_iff (b : UInt8) : b &&& 0xC0 ≠ 0x80 ↔ ¬ Trails b :=
  @forall_byte (fun b => b &&& 0xC0 ≠ 0x80 ↔ ¬ Trails b) (by decide) b

theorem low_bits (n : Nat) : n &&& 0x3F = n % 64 := Nat.and_two_pow_sub_one_eq_mod n 6

theorem two_bits (x y : Nat) :
    ((x &&& 0x1F) <<< 6) ||| (y &&& 0x3F) = x % 32 * 64 + y % 64 := by
  rw [low_bits, ← Nat.shiftLeft_add_eq_or_of_lt (Nat.mod_lt y (by decide) : y % 64 < 2 ^ 6),
    Nat.shiftLeft_eq, (Nat.and_two_pow_sub_one_eq_mod x 5 : x &&& 0x1F = x % 32)]

theorem three_bits (x y z : Nat) :
    ((x &&& 0xF) <<< 12) ||| ((y &&& 0x3F) <<< 6) ||| (z &&& 0x3F) =
      (x % 16 * 64 + y % 64) * 64 + z % 64 := by
  have front : ((x &&& 0xF) <<< 12) ||| ((y &&& 0x3F) <<< 6) = (x % 16 * 64 + y % 64) <<< 6 := by
    rw [low_bits, (Nat.and_two_pow_sub_one_eq_mod x 4 : x &&& 0xF = x % 16),
      show 12 = 6 + 6 from rfl, Nat.shiftLeft_add, ← Nat.shiftLeft_or_distrib,
      ← Nat.shiftLeft_add_eq_or_of_lt (Nat.mod_lt y (by decide) : y % 64 < 2 ^ 6),
      Nat.shiftLeft_eq (x % 16)]
  rw [front, low_bits,
    ← Nat.shiftLeft_add_eq_or_of_lt (Nat.mod_lt z (by decide) : z % 64 < 2 ^ 6), Nat.shiftLeft_eq]

theorem four_bits (w x y z : Nat) :
    ((w &&& 0x7) <<< 18) ||| ((x &&& 0x3F) <<< 12) ||| ((y &&& 0x3F) <<< 6) ||| (z &&& 0x3F) =
      ((w % 8 * 64 + x % 64) * 64 + y % 64) * 64 + z % 64 := by
  have front : ((w &&& 0x7) <<< 18) ||| ((x &&& 0x3F) <<< 12) =
      (w % 8 * 64 + x % 64) <<< 12 := by
    rw [low_bits, (Nat.and_two_pow_sub_one_eq_mod w 3 : w &&& 0x7 = w % 8),
      show 18 = 6 + 12 from rfl, Nat.shiftLeft_add, ← Nat.shiftLeft_or_distrib,
      ← Nat.shiftLeft_add_eq_or_of_lt (Nat.mod_lt x (by decide) : x % 64 < 2 ^ 6),
      Nat.shiftLeft_eq (w % 8)]
  have middle : (w % 8 * 64 + x % 64) <<< 12 ||| ((y &&& 0x3F) <<< 6) =
      ((w % 8 * 64 + x % 64) * 64 + y % 64) <<< 6 := by
    rw [low_bits, show 12 = 6 + 6 from rfl, Nat.shiftLeft_add, ← Nat.shiftLeft_or_distrib,
      ← Nat.shiftLeft_add_eq_or_of_lt (Nat.mod_lt y (by decide) : y % 64 < 2 ^ 6),
      Nat.shiftLeft_eq (w % 8 * 64 + x % 64)]
  rw [front, middle, low_bits,
    ← Nat.shiftLeft_add_eq_or_of_lt (Nat.mod_lt z (by decide) : z % 64 < 2 ^ 6), Nat.shiftLeft_eq]

/-! ## By length -/

theorem length_one (first : b0.toNat < 0x80) : inlineUTF8SequenceLength b0 = 1 := by
  rw [inlineUTF8SequenceLength_eq, if_pos first]

theorem length_two (first : 0xC0 ≤ b0.toNat) (first' : b0.toNat < 0xE0) :
    inlineUTF8SequenceLength b0 = 2 := by
  rw [inlineUTF8SequenceLength_eq, if_neg (by omega), if_neg (by omega), if_pos first']

theorem length_three (first : 0xE0 ≤ b0.toNat) (first' : b0.toNat < 0xF0) :
    inlineUTF8SequenceLength b0 = 3 := by
  rw [inlineUTF8SequenceLength_eq, if_neg (by omega), if_neg (by omega), if_neg (by omega),
    if_pos first']

theorem length_four (first : 0xF0 ≤ b0.toNat) (first' : b0.toNat < 0xF8) :
    inlineUTF8SequenceLength b0 = 4 := by
  rw [inlineUTF8SequenceLength_eq, if_neg (by omega), if_neg (by omega), if_neg (by omega),
    if_neg (by omega), if_pos first']

theorem decode_one (first : b0.toNat < 0x80) : decodeUTF8Sequence [b0, 0] = b0.toNat := by
  have length := length_one first
  simp [decodeUTF8Sequence, length]

theorem decode_two (first : 0xC0 ≤ b0.toNat) (first' : b0.toNat < 0xE0) :
    decodeUTF8Sequence [b0, b1, 0] =
      if ¬ Trails b1 then (-1 : Int)
      else if b0.toNat % 32 * 64 + b1.toNat % 64 < 0x80 then -1
      else (b0.toNat % 32 * 64 + b1.toNat % 64 : Nat) := by
  have length := length_two first first'
  have same : [b0, b1, 0].getD 0 0 = b0 := rfl
  rw [decodeUTF8Sequence, same, length]
  simp only [trails_iff, two_bits, List.getD_cons_succ, List.getD_cons_zero, OfNat.ofNat_ne_zero,
    OfNat.ofNat_ne_one, if_true, if_false, ne_eq, not_true_eq_false]

theorem decode_three (first : 0xE0 ≤ b0.toNat) (first' : b0.toNat < 0xF0) {v : Nat}
    (value : v = (b0.toNat % 16 * 64 + b1.toNat % 64) * 64 + b2.toNat % 64) :
    decodeUTF8Sequence [b0, b1, b2, 0] =
      if ¬ Trails b1 then (-1 : Int)
      else if ¬ Trails b2 then -1
      else if v < 0x800 then -1 else if 0xD800 ≤ v ∧ v ≤ 0xDFFF then -1 else v := by
  have length := length_three first first'
  have same : [b0, b1, b2, 0].getD 0 0 = b0 := rfl
  subst value
  rw [decodeUTF8Sequence, same, length]
  simp only [trails_iff, three_bits, List.getD_cons_succ, List.getD_cons_zero,
    OfNat.ofNat_ne_zero, OfNat.ofNat_ne_one, if_true, if_false, ne_eq, not_true_eq_false]
  rfl

theorem decode_four (first : 0xF0 ≤ b0.toNat) (first' : b0.toNat < 0xF8) {v : Nat}
    (value : v = ((b0.toNat % 8 * 64 + b1.toNat % 64) * 64 + b2.toNat % 64) * 64 +
      b3.toNat % 64) :
    decodeUTF8Sequence [b0, b1, b2, b3, 0] =
      if ¬ Trails b1 then (-1 : Int)
      else if ¬ Trails b2 then -1
      else if ¬ Trails b3 then -1
      else if v < 0x10000 ∨ v > 0x10FFFF then -1 else v := by
  have length := length_four first first'
  have same : [b0, b1, b2, b3, 0].getD 0 0 = b0 := rfl
  subst value
  rw [decodeUTF8Sequence, same, length]
  simp only [trails_iff, four_bits, List.getD_cons_succ, List.getD_cons_zero,
    OfNat.ofNat_ne_zero, OfNat.ofNat_ne_one, if_true, if_false, ne_eq, not_true_eq_false]
  rfl

/-! ## Characters -/

/-- The sequence of a character is decoded. -/
theorem decodeUTF8Sequence_char (c : Char) :
    decodeUTF8Sequence (String.utf8EncodeChar c ++ [0]) = c.val.toNat ∧
    ∃ b0 more, String.utf8EncodeChar c = b0 :: more ∧
      UTF8SequenceLength b0 = more.length + 1 := by
  have valid := scalar_cases c
  have encodes := encodes_utf8EncodeChar c
  generalize String.utf8EncodeChar c = bytes at encodes ⊢
  generalize c.val.toNat = v at encodes valid ⊢
  generalize numbers : bytes.map UInt8.toNat = listed at encodes
  cases encodes with
  | one small =>
    obtain ⟨b0, rfl, is0⟩ := List.map_eq_singleton_iff.mp numbers
    exact ⟨by rw [← is0]; exact decode_one (by omega), b0, [], rfl, length_one (by omega)⟩
  | two least most =>
    obtain ⟨b0, more, rfl, is0, others⟩ := List.map_eq_cons_iff.mp numbers
    obtain ⟨b1, rfl, is1⟩ := List.map_eq_singleton_iff.mp others
    refine ⟨?_, b0, [b1], rfl, length_two (by omega) (by omega)⟩
    have decoded := @decode_two b0 b1 (by omega) (by omega)
    rw [if_neg (not_not.mpr ⟨by omega, by omega⟩), if_neg (by omega)] at decoded
    refine decoded.trans (congrArg Nat.cast ?_)
    omega
  | three least most =>
    obtain ⟨b0, more, rfl, is0, others⟩ := List.map_eq_cons_iff.mp numbers
    obtain ⟨b1, more, rfl, is1, others⟩ := List.map_eq_cons_iff.mp others
    obtain ⟨b2, rfl, is2⟩ := List.map_eq_singleton_iff.mp others
    refine ⟨?_, b0, [b1, b2], rfl, length_three (by omega) (by omega)⟩
    have decoded := @decode_three b0 b1 b2 (by omega) (by omega) v (by omega)
    rwa [if_neg (not_not.mpr ⟨by omega, by omega⟩), if_neg (not_not.mpr ⟨by omega, by omega⟩),
      if_neg (by omega), if_neg (by omega)] at decoded
  | four least most =>
    obtain ⟨b0, more, rfl, is0, others⟩ := List.map_eq_cons_iff.mp numbers
    obtain ⟨b1, more, rfl, is1, others⟩ := List.map_eq_cons_iff.mp others
    obtain ⟨b2, more, rfl, is2, others⟩ := List.map_eq_cons_iff.mp others
    obtain ⟨b3, rfl, is3⟩ := List.map_eq_singleton_iff.mp others
    refine ⟨?_, b0, [b1, b2, b3], rfl, length_four (by omega) (by omega)⟩
    have decoded := @decode_four b0 b1 b2 b3 (by omega) (by omega) v (by omega)
    rwa [if_neg (not_not.mpr ⟨by omega, by omega⟩), if_neg (not_not.mpr ⟨by omega, by omega⟩),
      if_neg (not_not.mpr ⟨by omega, by omega⟩), if_neg (by omega)] at decoded
theorem encodes_char {v : Nat} (valid : v < 0xD800 ∨ 0xDFFF < v ∧ v < 0x110000)
    (encodes : Encodes (bytes.map UInt8.toNat) v) :
    ∃ c : Char, bytes = String.utf8EncodeChar c ∧ c.val.toNat = v := by
  have value := val_ofNat valid
  rw [← value] at encodes
  exact ⟨Char.ofNat v, eq_utf8EncodeChar encodes, value⟩

/-- Nothing but the sequences of characters is decoded. -/
theorem decodeUTF8Sequence_cases {more : List UInt8}
    (length : UTF8SequenceLength b0 = more.length + 1) :
    decodeUTF8Sequence (b0 :: more ++ [0]) = -1 ∨
    ∃ c : Char, b0 :: more = String.utf8EncodeChar c ∧
      decodeUTF8Sequence (b0 :: more ++ [0]) = c.val.toNat := by
  rw [UTF8SequenceLength_eq, inlineUTF8SequenceLength_eq] at length
  rcases more with _ | ⟨b1, _ | ⟨b2, _ | ⟨b3, _ | ⟨b4, more⟩⟩⟩⟩
  · rw [List.length_nil] at length
    have first : b0.toNat < 0x80 := by split_ifs at length <;> omega
    obtain ⟨c, same, value⟩ := @encodes_char [b0] b0.toNat (.inl (by omega)) (.one first)
    exact .inr ⟨c, same, by rw [value]; exact decode_one first⟩
  · rw [List.length_singleton] at length
    have first : 0xC0 ≤ b0.toNat ∧ b0.toNat < 0xE0 := by split_ifs at length <;> omega
    have decoded := @decode_two b0 b1 first.1 first.2
    split_ifs at decoded with trails small
    · exact .inl decoded
    · obtain ⟨least, most⟩ := trails
      have parts : [b0, b1].map UInt8.toNat =
          [0xC0 + (b0.toNat % 32 * 64 + b1.toNat % 64) / 64,
            0x80 + (b0.toNat % 32 * 64 + b1.toNat % 64) % 64] := by
        simp only [List.map_cons, List.map_nil, List.cons.injEq, and_true]
        omega
      have encodes := Encodes.two (Nat.le_of_not_lt small) (by omega)
      rw [← parts] at encodes
      obtain ⟨c, same, value⟩ := encodes_char (.inl (by omega)) encodes
      exact .inr ⟨c, same, by rw [value]; exact decoded⟩
    · exact .inl decoded
  · simp only [List.length_cons, List.length_nil] at length
    have first : 0xE0 ≤ b0.toNat ∧ b0.toNat < 0xF0 := by split_ifs at length <;> omega
    obtain ⟨v, sum⟩ : ∃ v, v = (b0.toNat % 16 * 64 + b1.toNat % 64) * 64 + b2.toNat % 64 :=
      ⟨_, rfl⟩
    have decoded := decode_three first.1 first.2 sum
    by_cases trails : Trails b1 ∧ Trails b2
    · obtain ⟨⟨least, most⟩, least', most'⟩ := trails
      split_ifs at decoded with trail1 trail2 small surrogate
      all_goals first | exact .inl decoded | skip
      have parts : [b0, b1, b2].map UInt8.toNat =
          [0xE0 + v / 4096, 0x80 + v / 64 % 64, 0x80 + v % 64] := by
        simp only [List.map_cons, List.map_nil, List.cons.injEq, and_true]
        omega
      have encodes := Encodes.three (Nat.le_of_not_lt small) (by omega)
      rw [← parts] at encodes
      obtain ⟨c, same, value⟩ := encodes_char (by omega) encodes
      exact .inr ⟨c, same, by rw [value]; exact decoded⟩
    · refine .inl (decoded.trans ?_)
      split_ifs with trail1 trail2 <;> first | rfl | exact absurd ⟨trail1, trail2⟩ trails
  · simp only [List.length_cons, List.length_nil] at length
    have first : 0xF0 ≤ b0.toNat ∧ b0.toNat < 0xF8 := by split_ifs at length <;> omega
    obtain ⟨v, sum⟩ : ∃ v, v = ((b0.toNat % 8 * 64 + b1.toNat % 64) * 64 + b2.toNat % 64) * 64 +
      b3.toNat % 64 := ⟨_, rfl⟩
    have decoded := decode_four first.1 first.2 sum
    by_cases trails : Trails b1 ∧ Trails b2 ∧ Trails b3
    · obtain ⟨⟨least, most⟩, ⟨least', most'⟩, least'', most''⟩ := trails
      split_ifs at decoded with trail1 trail2 trail3 range
      all_goals first | exact .inl decoded | skip
      have parts : [b0, b1, b2, b3].map UInt8.toNat =
          [0xF0 + v / 262144, 0x80 + v / 4096 % 64, 0x80 + v / 64 % 64, 0x80 + v % 64] := by
        simp only [List.map_cons, List.map_nil, List.cons.injEq, and_true]
        omega
      have encodes : Encodes _ v := Encodes.four (by omega) (by omega)
      rw [← parts] at encodes
      obtain ⟨c, same, value⟩ := encodes_char (by omega) encodes
      exact .inr ⟨c, same, by rw [value]; exact decoded⟩
    · refine .inl (decoded.trans ?_)
      split_ifs with trail1 trail2 trail3 <;>
        first | rfl | exact absurd ⟨trail1, trail2, trail3⟩ trails
  · simp only [List.length_cons] at length
    split_ifs at length <;> omega

end NetRider.Wtf.Unicode
