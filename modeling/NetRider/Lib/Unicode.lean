import Mathlib

/-!
# UTF-8 and UTF-16

The two forms of a text, which is a list of Unicode scalar values.
-/

namespace NetRider.Lib

/-- The standard UTF-8 form. -/
def utf8 (text : List Char) : List UInt8 := text.flatMap String.utf8EncodeChar

/-- One unit, or a surrogate pair. -/
def utf16Units (c : Char) : List UInt16 :=
  let v := c.val.toNat
  if v < 0x10000 then [UInt16.ofNat v]
  else [UInt16.ofNat (0xD800 + (v - 0x10000) / 0x400), UInt16.ofNat (0xDC00 + (v - 0x10000) % 0x400)]

/-- The standard UTF-16 form. -/
def utf16 (text : List Char) : List UInt16 := text.flatMap utf16Units

def WellFormed (bytes : List UInt8) : Prop := ∃ text, utf8 text = bytes

variable {c : Char}

theorem scalar_cases (c : Char) :
    c.val.toNat < 0xD800 ∨ 0xDFFF < c.val.toNat ∧ c.val.toNat < 0x110000 := c.valid

theorem val_ofNat {n : Nat} (valid : n < 0xD800 ∨ 0xDFFF < n ∧ n < 0x110000) :
    (Char.ofNat n).val.toNat = n := by
  have is : n.isValidChar := valid
  rw [Char.ofNat, dif_pos is]
  rfl

theorem char_eq {c d : Char} (same : c.val.toNat = d.val.toNat) : c = d :=
  Char.ext (UInt32.toNat_inj.mp same)

/-- The bytes of a character, as numbers. -/
inductive Encodes : List Nat → Nat → Prop
  | one {v} : v < 0x80 → Encodes [v] v
  | two {v} : 0x80 ≤ v → v < 0x800 → Encodes [0xC0 + v / 64, 0x80 + v % 64] v
  | three {v} : 0x800 ≤ v → v < 0x10000 →
    Encodes [0xE0 + v / 4096, 0x80 + v / 64 % 64, 0x80 + v % 64] v
  | four {v} : 0x10000 ≤ v → v < 0x110000 →
    Encodes [0xF0 + v / 262144, 0x80 + v / 4096 % 64, 0x80 + v / 64 % 64, 0x80 + v % 64] v

theorem toNat_ofNat {n : Nat} (small : n < 256) : (UInt8.ofNat n).toNat = n := by
  rw [UInt8.toNat_ofNat', Nat.mod_eq_of_lt small]

theorem encodes_utf8EncodeChar (c : Char) :
    Encodes ((String.utf8EncodeChar c).map UInt8.toNat) c.val.toNat := by
  have valid := scalar_cases c
  unfold String.utf8EncodeChar
  dsimp only
  generalize c.val.toNat = v at valid ⊢
  split_ifs with one two three
  · rw [List.map_singleton, toNat_ofNat (by omega)]
    exact .one (by omega)
  · rw [List.map_cons, List.map_singleton, toNat_ofNat (by omega), toNat_ofNat (by omega),
      show v / 64 % 32 + 192 = 0xC0 + v / 64 by omega, Nat.add_comm (v % 64)]
    exact .two (by omega) (by omega)
  · rw [List.map_cons, List.map_cons, List.map_singleton, toNat_ofNat (by omega),
      toNat_ofNat (by omega), toNat_ofNat (by omega),
      show v / 4096 % 16 + 224 = 0xE0 + v / 4096 by omega, Nat.add_comm (v / 64 % 64),
      Nat.add_comm (v % 64)]
    exact .three (by omega) (by omega)
  · rw [List.map_cons, List.map_cons, List.map_cons, List.map_singleton, toNat_ofNat (by omega),
      toNat_ofNat (by omega), toNat_ofNat (by omega), toNat_ofNat (by omega),
      show v / 262144 % 8 + 240 = 0xF0 + v / 262144 by omega, Nat.add_comm (v / 4096 % 64),
      Nat.add_comm (v / 64 % 64), Nat.add_comm (v % 64)]
    exact .four (by omega) (by omega)

/-- The bytes determine the character and the character the bytes. -/
theorem eq_utf8EncodeChar {bytes : List UInt8} (same : Encodes (bytes.map UInt8.toNat) c.val.toNat) :
    bytes = String.utf8EncodeChar c := by
  have encoded := encodes_utf8EncodeChar c
  have injective : Function.Injective UInt8.toNat := fun a b => UInt8.toNat_inj.mp
  refine injective.list_map ?_
  generalize bytes.map UInt8.toNat = numbers at same ⊢
  generalize (String.utf8EncodeChar c).map UInt8.toNat = numbers' at encoded ⊢
  generalize c.val.toNat = v at same encoded
  cases same <;> cases encoded <;> first | rfl | omega

theorem utf8EncodeChar_injective {d : Char}
    (same : String.utf8EncodeChar c = String.utf8EncodeChar d) : c = d := by
  have first := encodes_utf8EncodeChar c
  have second := encodes_utf8EncodeChar d
  rw [← same] at second
  refine char_eq ?_
  generalize (String.utf8EncodeChar c).map UInt8.toNat = numbers at first second
  generalize c.val.toNat = v at first
  generalize d.val.toNat = w at second
  generalize copy : numbers = numbers' at second
  cases first <;> cases second <;> simp only [List.cons.injEq, reduceCtorEq, and_false,
    and_true] at copy <;> omega

theorem utf16Units_length_pos (c : Char) : 0 < (utf16Units c).length := by
  unfold utf16Units
  dsimp only
  split_ifs <;> exact Nat.zero_lt_succ _

/-- A character has no more units than bytes, and at most three bytes for each unit. -/
theorem lengths (c : Char) : (utf16Units c).length ≤ (String.utf8EncodeChar c).length ∧
    (utf16Units c).length ≤ 2 ∧ (String.utf8EncodeChar c).length ≤ 3 * (utf16Units c).length ∧
    (String.utf8EncodeChar c).length ≤ 4 := by
  unfold utf16Units String.utf8EncodeChar
  dsimp only
  split_ifs <;> simp <;> omega

end NetRider.Lib
