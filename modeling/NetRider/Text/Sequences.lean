import NetRider.Lib.Replacement
import NetRider.Text.Codec

/-!
# Sequences and characters

What `nonASCIISequenceLength` and `decodeNonASCIISequence` say of the characters that may start.
-/

namespace NetRider.Text

open Lib
open Url (isASCII nonASCIISequenceLength decodeNonASCIISequence secondByteRange isTrail isTrail_iff
  secondByteRange_spec isASCII_false_iff)

variable {a b c d byte : UInt8} {bytes rest : List UInt8} {character : Nat} {ch : Char}

theorem isASCII_iff : isASCII byte = true ↔ byte.toNat < 0x80 := by
  rw [isASCII, decide_eq_true_eq, UInt8.lt_iff_toNat_lt]
  rfl

theorem nonASCIISequenceLength_eq (byte : UInt8) : nonASCIISequenceLength byte =
    if byte.toNat < 0x80 then 0
    else if byte.toNat < 0xE0 then 2
    else if byte.toNat < 0xF0 then 3
    else if byte.toNat < 0xF5 then 4
    else 0 := by
  simp only [nonASCIISequenceLength, UInt8.lt_iff_toNat_lt, UInt8.reduceToNat]

theorem nonASCIISequenceLength_le (byte : UInt8) : nonASCIISequenceLength byte ≤ maxLength := by
  rw [nonASCIISequenceLength_eq, maxLength]
  split_ifs <;> omega

/-- A byte that begins a sequence is not ASCII, and the sequence has two bytes or more. -/
theorem nonASCII_of_length (some_ : nonASCIISequenceLength byte ≠ 0) :
    isASCII byte = false ∧ 2 ≤ nonASCIISequenceLength byte := by
  rw [isASCII_false_iff]
  rw [nonASCIISequenceLength_eq] at some_ ⊢
  split_ifs at some_ ⊢ <;> omega

/-! ## Legal bytes -/

theorem secondByteRange_iff : isTrail b (secondByteRange a) = true ↔
    (0x80 ≤ b.toNat ∧ b.toNat ≤ 0xBF) ∧ (a.toNat = 0xE0 → 0xA0 ≤ b.toNat) ∧
      (a.toNat = 0xED → b.toNat ≤ 0x9F) ∧ (a.toNat = 0xF0 → 0x90 ≤ b.toNat) ∧
      (a.toNat = 0xF4 → b.toNat ≤ 0x8F) := by
  refine ⟨secondByteRange_spec, ?_⟩
  rintro ⟨trail, e0, ed, f0, f4⟩
  unfold secondByteRange
  split_ifs with first second third fourth
  · exact isTrail_iff.mpr ⟨e0 (congrArg UInt8.toNat first), trail.2⟩
  · exact isTrail_iff.mpr ⟨trail.1, ed (congrArg UInt8.toNat second)⟩
  · exact isTrail_iff.mpr ⟨f0 (congrArg UInt8.toNat third), trail.2⟩
  · exact isTrail_iff.mpr ⟨trail.1, f4 (congrArg UInt8.toNat fourth)⟩
  · exact isTrail_iff.mpr trail

theorem decode_two : decodeNonASCIISequence [a, b] = some character ↔
    0xC2 ≤ a.toNat ∧ (0x80 ≤ b.toNat ∧ b.toNat ≤ 0xBF) ∧
      a.toNat * 64 + b.toNat - 0x3080 = character := by
  have trail : isTrail b (0x80, 0xBF) = true ↔ 0x80 ≤ b.toNat ∧ b.toNat ≤ 0xBF := isTrail_iff
  have head : 0xC2 ≤ a ↔ 0xC2 ≤ a.toNat := by
    rw [UInt8.le_iff_toNat_le]
    rfl
  rw [← trail, ← head]
  simp [decodeNonASCIISequence]

theorem decode_three : decodeNonASCIISequence [a, b, c] = some character ↔
    isTrail b (secondByteRange a) = true ∧ (0x80 ≤ c.toNat ∧ c.toNat ≤ 0xBF) ∧
      a.toNat * 4096 + b.toNat * 64 + c.toNat - 0xE2080 = character := by
  have trail : isTrail c (0x80, 0xBF) = true ↔ 0x80 ≤ c.toNat ∧ c.toNat ≤ 0xBF := isTrail_iff
  rw [← trail]
  simp [decodeNonASCIISequence]

theorem decode_four : decodeNonASCIISequence [a, b, c, d] = some character ↔
    isTrail b (secondByteRange a) = true ∧ (0x80 ≤ c.toNat ∧ c.toNat ≤ 0xBF) ∧
      (0x80 ≤ d.toNat ∧ d.toNat ≤ 0xBF) ∧
      a.toNat * 262144 + b.toNat * 4096 + c.toNat * 64 + d.toNat - 0x3C82080 = character := by
  have trail : isTrail c (0x80, 0xBF) = true ↔ 0x80 ≤ c.toNat ∧ c.toNat ≤ 0xBF := isTrail_iff
  have trail' : isTrail d (0x80, 0xBF) = true ↔ 0x80 ≤ d.toNat ∧ d.toNat ≤ 0xBF := isTrail_iff
  rw [← trail, ← trail']
  simp [decodeNonASCIISequence]

/-! ## Characters -/

/-- A character from its number and its bytes. -/
theorem exists_char (valid : character < 0xD800 ∨ 0xDFFF < character ∧ character < 0x110000)
    (encodes : Encodes (bytes.map UInt8.toNat) character) :
    ∃ ch : Char, bytes = String.utf8EncodeChar ch ∧ ch.val.toNat = character := by
  have value := val_ofNat valid
  exact ⟨Char.ofNat character, eq_utf8EncodeChar (value.symm ▸ encodes), value⟩

theorem char_of_two (before : a.toNat < 0xE0)
    (decodes : decodeNonASCIISequence [a, b] = some character) :
    ∃ ch : Char, [a, b] = String.utf8EncodeChar ch ∧ ch.val.toNat = character := by
  obtain ⟨head, trail, value⟩ := decode_two.mp decodes
  refine exists_char (by omega) ?_
  have first : a.toNat = 0xC0 + character / 64 := by omega
  have second : b.toNat = 0x80 + character % 64 := by omega
  rw [List.map_cons, List.map_singleton, first, second]
  exact .two (by omega) (by omega)

theorem char_of_three (behind : 0xE0 ≤ a.toNat) (before : a.toNat < 0xF0)
    (decodes : decodeNonASCIISequence [a, b, c] = some character) :
    ∃ ch : Char, [a, b, c] = String.utf8EncodeChar ch ∧ ch.val.toNat = character := by
  obtain ⟨head, trail, value⟩ := decode_three.mp decodes
  obtain ⟨range, e0, ed, -⟩ := secondByteRange_iff.mp head
  refine exists_char (by omega) ?_
  have first : a.toNat = 0xE0 + character / 4096 := by omega
  have second : b.toNat = 0x80 + character / 64 % 64 := by omega
  have third : c.toNat = 0x80 + character % 64 := by omega
  rw [List.map_cons, List.map_cons, List.map_singleton, first, second, third]
  exact .three (by omega) (by omega)

theorem char_of_four (behind : 0xF0 ≤ a.toNat) (before : a.toNat < 0xF5)
    (decodes : decodeNonASCIISequence [a, b, c, d] = some character) :
    ∃ ch : Char, [a, b, c, d] = String.utf8EncodeChar ch ∧ ch.val.toNat = character := by
  obtain ⟨head, trail, trail', value⟩ := decode_four.mp decodes
  obtain ⟨range, -, -, f0, f4⟩ := secondByteRange_iff.mp head
  refine exists_char (by omega) ?_
  have first : a.toNat = 0xF0 + character / 262144 := by omega
  have second : b.toNat = 0x80 + character / 4096 % 64 := by omega
  have third : c.toNat = 0x80 + character / 64 % 64 := by omega
  have fourth : d.toNat = 0x80 + character % 64 := by omega
  rw [List.map_cons, List.map_cons, List.map_cons, List.map_singleton, first, second, third,
    fourth]
  exact .four (by omega) (by omega)

/-- A sequence that decodes is a character. -/
theorem sequence_char (other : isASCII byte = false)
    (length : (byte :: bytes).length = nonASCIISequenceLength byte)
    (decodes : decodeNonASCIISequence (byte :: bytes) = some character) :
    ∃ ch : Char, byte :: bytes = String.utf8EncodeChar ch ∧ ch.val.toNat = character := by
  have behind := isASCII_false_iff.mp other
  rw [nonASCIISequenceLength_eq, if_neg (by omega)] at length
  split_ifs at length with two three four
  · obtain ⟨b, rfl⟩ := List.length_eq_one_iff.mp (Nat.succ.inj length)
    exact char_of_two two decodes
  · obtain ⟨b, c, rfl⟩ := List.length_eq_two.mp (Nat.succ.inj length)
    exact char_of_three (not_lt.mp two) three decodes
  · obtain ⟨b, c, d, rfl⟩ := List.length_eq_three.mp (Nat.succ.inj length)
    exact char_of_four (not_lt.mp three) four decodes

/-- And a character behind ASCII is a sequence. -/
theorem char_sequence (behind : 0x80 ≤ ch.val.toNat) : ∃ byte bytes,
    String.utf8EncodeChar ch = byte :: bytes ∧ isASCII byte = false ∧
      (byte :: bytes).length = nonASCIISequenceLength byte ∧
      decodeNonASCIISequence (byte :: bytes) = some ch.val.toNat := by
  have valid := scalar_cases ch
  have encodes := encodes_utf8EncodeChar ch
  generalize String.utf8EncodeChar ch = bytes at encodes ⊢
  generalize ch.val.toNat = v at valid behind encodes ⊢
  generalize numbers : bytes.map UInt8.toNat = list at encodes
  cases encodes with
  | one small => omega
  | two low high =>
    obtain ⟨a, rest, rfl, first, more⟩ := List.map_eq_cons_iff.mp numbers
    obtain ⟨b, rest, rfl, second, more⟩ := List.map_eq_cons_iff.mp more
    obtain rfl := List.map_eq_nil_iff.mp more
    refine ⟨a, [b], rfl, isASCII_false_iff.mpr (by omega), ?_, decode_two.mpr (by omega)⟩
    rw [nonASCIISequenceLength_eq, if_neg (by omega), if_pos (by omega)]
    rfl
  | three low high =>
    obtain ⟨a, rest, rfl, first, more⟩ := List.map_eq_cons_iff.mp numbers
    obtain ⟨b, rest, rfl, second, more⟩ := List.map_eq_cons_iff.mp more
    obtain ⟨c, rest, rfl, third, more⟩ := List.map_eq_cons_iff.mp more
    obtain rfl := List.map_eq_nil_iff.mp more
    refine ⟨a, [b, c], rfl, isASCII_false_iff.mpr (by omega), ?_,
      decode_three.mpr ⟨secondByteRange_iff.mpr ?_, by omega, by omega⟩⟩
    · rw [nonASCIISequenceLength_eq, if_neg (by omega), if_neg (by omega), if_pos (by omega)]
      rfl
    · omega
  | four low high =>
    obtain ⟨a, rest, rfl, first, more⟩ := List.map_eq_cons_iff.mp numbers
    obtain ⟨b, rest, rfl, second, more⟩ := List.map_eq_cons_iff.mp more
    obtain ⟨c, rest, rfl, third, more⟩ := List.map_eq_cons_iff.mp more
    obtain ⟨d, rest, rfl, fourth, more⟩ := List.map_eq_cons_iff.mp more
    obtain rfl := List.map_eq_nil_iff.mp more
    refine ⟨a, [b, c, d], rfl, isASCII_false_iff.mpr (by omega), ?_,
      decode_four.mpr ⟨secondByteRange_iff.mpr ?_, by omega, by omega, by omega⟩⟩
    · rw [nonASCIISequenceLength_eq, if_neg (by omega), if_neg (by omega), if_neg (by omega),
        if_pos (by omega)]
      rfl
    · omega

/-! ## What starts -/

/-- The first byte is the beginning of a sequence that is whole but for its first `size` bytes. -/
theorem front_eq (other : isASCII byte = false)
    (front : String.utf8EncodeChar ch <+: byte :: rest) :
    nonASCIISequenceLength byte ≤ (byte :: rest).length ∧
      String.utf8EncodeChar ch = (byte :: rest).take (nonASCIISequenceLength byte) ∧
      decodeNonASCIISequence ((byte :: rest).take (nonASCIISequenceLength byte)) =
        some ch.val.toNat := by
  have behind : 0x80 ≤ ch.val.toNat := by
    by_contra small
    have encoded : [UInt8.ofNat ch.val.toNat] = String.utf8EncodeChar ch := by
      refine eq_utf8EncodeChar ?_
      rw [List.map_singleton, toNat_ofNat (by omega)]
      exact .one (by omega)
    rw [← encoded, List.cons_prefix_cons] at front
    have value := isASCII_false_iff.mp other
    rw [← front.1, toNat_ofNat (by omega)] at value
    omega
  obtain ⟨first, bytes, encoded, -, length, decodes⟩ := char_sequence behind
  rw [encoded] at front ⊢
  obtain ⟨rfl, -⟩ := List.cons_prefix_cons.mp front
  have size := front.length_le
  have taken : (first :: rest).take (nonASCIISequenceLength first) = first :: bytes := by
    rw [← length]
    exact (List.prefix_iff_eq_take.mp front).symm
  rw [taken]
  exact ⟨length ▸ size, rfl, decodes⟩

/-- Neither a sequence that is cut off nor one that does not decode is a character. -/
theorem not_starts (other : isASCII byte = false)
    (bad : nonASCIISequenceLength byte = 0 ∨
      (byte :: rest).length < nonASCIISequenceLength byte ∨
      decodeNonASCIISequence ((byte :: rest).take (nonASCIISequenceLength byte)) = none) :
    ¬ Starts (byte :: rest) := by
  rintro ⟨ch, front⟩
  obtain ⟨fits, -, decodes⟩ := front_eq other front
  rcases bad with none | short | none
  · rw [none, List.take_zero] at decodes
    cases decodes
  · omega
  · rw [none] at decodes
    cases decodes

theorem appendCharacter_eq (ch : Char) : appendCharacter ch.val.toNat = utf16Units ch := rfl

end NetRider.Text
