import NetRider.Wtf.UTF8Keys

/-!
# Strings from UTF-8

`fromUTF8` of `String` and `AtomicString`. A pointer is the bytes at it; a null pointer and a null
string are `none`. An atomic string is looked up under its hash among those that are there.
-/

namespace NetRider.Wtf.Unicode

open Lib

inductive StringFault
  | crash
  | outsideString
  | uninitialized
  deriving DecidableEq, Repr

/-- An 8-bit string. -/
def widen (bytes : List UInt8) : List UInt16 := bytes.map UInt8.toUInt16

/-- `String::fromUTF8` -/
def stringFromUTF8 : Option (List UInt8) → Except StringFault (Option (List UInt16))
  | none => .ok none
  | some bytes =>
    if bytes.length ≥ 2 ^ 32 then .error .crash
    else if bytes = [] then .ok (some [])
    else if bytes.all isASCII then .ok (some (widen bytes))
    else
      let converted := convertUTF8ToUTF16 true bytes.length bytes
      if converted.result = .conversionOK then .ok (some converted.target) else .ok none

/-- `HashAndUTF8CharactersTranslator::equal`; nothing if the string is read at its end. -/
def translatorEqual (string : List UInt16) (bytes : List UInt8) (length utf16Length : Nat) :
    Option Bool :=
  if utf16Length ≠ string.length then some false
  else if utf16Length ≠ length then equalUTF16WithUTF8 string (bytes.take length)
  else some (string == widen (bytes.take length))

/-- `HashAndUTF8CharactersTranslator::translate` -/
def translate (bytes : List UInt8) (length utf16Length : Nat) :
    Except StringFault (List UInt16) :=
  let converted := convertUTF8ToUTF16 true utf16Length (bytes.take length)
  if converted.target.length < utf16Length then .error .uninitialized
  else if sourceAllASCII converted.target then .ok (widen (bytes.take length))
  else .ok converted.target

/-- `addToStringTable`, for the strings under the hash. -/
def addToStringTable (bytes : List UInt8) (length utf16Length : Nat) :
    List (List UInt16) → Except StringFault (List UInt16)
  | [] => translate bytes length utf16Length
  | string :: strings =>
    match translatorEqual string bytes length utf16Length with
    | none => .error .outsideString
    | some true => .ok string
    | some false => addToStringTable bytes length utf16Length strings

/-- `AtomicString::fromUTF8` -/
def atomicStringFromUTF8 (stringTable : List (List UInt16)) :
    Option (List UInt8) → Except StringFault (Option (List UInt16))
  | none => .ok none
  | some bytes =>
    if bytes = [] then .ok (some [])
    else
      let buffer := calculateStringHashAndLengthFromUTF8MaskingTop8Bits bytes
      if buffer.hash = 0 then .ok none
      else
        (addToStringTable bytes buffer.dataLength.toNat buffer.utf16Length.toNat stringTable).map
          some

/-! ## ASCII -/

variable {bytes : List UInt8} {text : List Char}

theorem reads_length (reads : Reads bytes text) : (utf16 text).length ≤ bytes.length := by
  induction reads with
  | nil => exact le_rfl
  | @cons bytes character rest text takes _ ih =>
    rw [utf16, List.flatMap_cons, List.length_append, List.length_append]
    exact Nat.add_le_add (takes_length takes) ih

theorem exists_reads_ascii (ascii : ∀ b ∈ bytes, isASCII b = true) :
    ∃ text, Reads bytes text := by
  induction bytes with
  | nil => exact ⟨[], .nil⟩
  | cons b bytes ih =>
    obtain ⟨first, later⟩ := List.forall_mem_cons.mp ascii
    obtain ⟨text, reads⟩ := ih later
    have small := isASCII_iff.mp first
    have value : (Char.ofNat b.toNat).val.toNat = b.toNat := val_ofNat (.inl (by omega))
    have takes := takes_char (Char.ofNat b.toNat)
    have one : String.utf8EncodeChar (Char.ofNat b.toNat) = [b] := by
      unfold String.utf8EncodeChar
      dsimp only
      rw [value, if_pos (by omega), UInt8.ofNat_toNat]
    rw [one] at takes
    exact ⟨_, .cons takes reads⟩

/-- The string of ASCII characters. -/
theorem widen_reads (reads : Reads bytes text) (ascii : ∀ b ∈ bytes, isASCII b = true) :
    widen bytes = utf16 text := by
  induction reads with
  | nil => rfl
  | @cons bytes character rest text takes _ ih =>
    obtain ⟨first, later⟩ := List.forall_mem_append.mp ascii
    obtain ⟨b0, more, rfl⟩ := takes.1.exists_cons
    obtain ⟨rfl, units⟩ := takes_ascii takes (first b0 List.mem_cons_self)
    rw [utf16, List.flatMap_cons, units, ← utf16, ← ih later]
    rfl

theorem ascii_of_char {character : Char}
    (short : (String.utf8EncodeChar character).length ≤ (utf16Units character).length) :
    ∀ b ∈ String.utf8EncodeChar character, isASCII b = true := by
  unfold String.utf8EncodeChar utf16Units at *
  dsimp only at *
  split_ifs at short ⊢ with one
  · intro b member
    rw [List.mem_singleton.mp member, isASCII_iff, toNat_ofNat (by omega)]
    omega
  all_goals simp only [List.length_cons, List.length_nil] at short; omega

/-- Only ASCII characters have as many units as bytes. -/
theorem ascii_of_length (reads : Reads bytes text)
    (same : (utf16 text).length = bytes.length) : ∀ b ∈ bytes, isASCII b = true := by
  induction reads with
  | nil => simp
  | @cons bytes character rest text takes reads ih =>
    rw [utf16, List.flatMap_cons, List.length_append, List.length_append, ← utf16] at same
    have fewer := reads_length reads
    have fewer' := takes_length takes
    have short : bytes.length ≤ (utf16Units character).length := by omega
    refine List.forall_mem_append.mpr ⟨?_, ih (by omega)⟩
    rcases takes_cases takes with rfl | low
    · exact ascii_of_char short
    · have two := (lengths character).2.1
      cases low <;> simp only [List.length_cons, List.length_nil] at short <;> omega

theorem small_of_mask {u : UInt16} (masked : u &&& ~~~0x7F = 0) : u < 0x80 := by
  have numbers : u.toNat &&& 0xFF80 = 0 := congrArg UInt16.toNat masked
  have shifted : (u.toNat &&& 0xFF80) >>> 7 = u.toNat >>> 7 := by
    have range := UInt16.toNat_lt u
    rw [Nat.shiftRight_and_distrib, show 0xFF80 >>> 7 = 2 ^ 9 - 1 from rfl,
      Nat.and_two_pow_sub_one_eq_mod, Nat.mod_eq_of_lt]
    rw [Nat.shiftRight_eq_div_pow]
    omega
  rw [numbers, Nat.shiftRight_eq_div_pow, Nat.shiftRight_eq_div_pow] at shifted
  rw [UInt16.lt_iff_toNat_lt]
  change u.toNat < 128
  omega

theorem mask_or {u v : UInt16} (masked : (u ||| v) &&& ~~~0x7F = 0) :
    u &&& ~~~0x7F = 0 ∧ v &&& ~~~0x7F = 0 := by
  have split : (u &&& ~~~0x7F) ||| (v &&& ~~~0x7F) = 0 := by
    rw [← masked]
    apply UInt16.toNat_inj.mp
    simp only [UInt16.toNat_or, UInt16.toNat_and]
    exact Nat.and_or_distrib_right _ _ _ |>.symm
  have numbers : (u &&& ~~~0x7F).toNat ||| (v &&& ~~~0x7F).toNat = 0 := congrArg UInt16.toNat split
  obtain ⟨left, right⟩ := Nat.or_eq_zero_iff.mp numbers
  exact ⟨UInt16.toNat_inj.mp left, UInt16.toNat_inj.mp right⟩

/-- A bit above ASCII stays set. -/
theorem small_of_sourceAllASCII {target : List UInt16} (all : sourceAllASCII target = true) :
    ∀ u ∈ target, u < 0x80 := by
  have kept : ∀ orAllData : UInt16, target.foldl
      (fun orAllData unit => if isSurrogate unit.toNat then 0xFFFF else orAllData ||| unit)
      orAllData &&& ~~~0x7F = 0 → orAllData &&& ~~~0x7F = 0 ∧ ∀ u ∈ target, u < 0x80 := by
    clear all
    induction target with
    | nil => exact fun orAllData masked => ⟨masked, by simp⟩
    | cons u target ih =>
      intro orAllData masked
      obtain ⟨first, later⟩ := ih _ masked
      dsimp only at first
      split_ifs at first
      · exact absurd first (by decide)
      · obtain ⟨before, unit⟩ := mask_or first
        exact ⟨before, List.forall_mem_cons.mpr ⟨small_of_mask unit, later⟩⟩
  exact (kept 0 (of_decide_eq_true all)).2

theorem ascii_of_units (reads : Reads bytes text) (small : ∀ u ∈ utf16 text, u < 0x80) :
    ∀ b ∈ bytes, isASCII b = true := by
  induction reads with
  | nil => simp
  | @cons bytes character rest text takes reads ih =>
    rw [utf16, List.flatMap_cons, ← utf16] at small
    obtain ⟨first, later⟩ := List.forall_mem_append.mp small
    refine List.forall_mem_append.mpr ⟨?_, ih later⟩
    have value : character.val.toNat < 0x80 := by
      have valid := scalar_cases character
      unfold utf16Units at first
      dsimp only at first
      split_ifs at first
      · have unit := UInt16.lt_iff_toNat_lt.mp (first _ List.mem_cons_self)
        rw [UInt16.toNat_ofNat'] at unit
        change _ < 128 at unit
        omega
      · have unit := UInt16.lt_iff_toNat_lt.mp (first _ List.mem_cons_self)
        rw [UInt16.toNat_ofNat'] at unit
        change _ < 128 at unit
        omega
    rcases takes_cases takes with rfl | low
    · apply ascii_of_char
      unfold String.utf8EncodeChar utf16Units
      dsimp only
      rw [if_pos (by omega), if_pos (by omega)]
      exact le_rfl
    · have read := takes.2.2
      have same : character.val.toNat = character.toNat := rfl
      cases low <;> simp [readUTF8Sequence, offsetsFromUTF8] at read <;> omega

/-! ## Strings -/

/-- The string, if the bytes can be read. -/
theorem stringFromUTF8_reads (reads : Reads bytes text) (nonempty : bytes ≠ [])
    (short : bytes.length < 2 ^ 32) : stringFromUTF8 (some bytes) = .ok (some (utf16 text)) := by
  rw [stringFromUTF8, if_neg (not_le.mpr short), if_neg nonempty]
  split_ifs with ascii
  · rw [widen_reads reads (List.all_eq_true.mp ascii)]
  · have made : convertUTF8ToUTF16 true bytes.length bytes = _ :=
      convert_done (utf8Turn_bounded true) (turns_reads true reads) (reads_length reads)
    rw [made]
    rfl

theorem stringFromUTF8_other (unread : ¬ ∃ text, Reads bytes text)
    (short : bytes.length < 2 ^ 32) : stringFromUTF8 (some bytes) = .ok none := by
  have nonempty : bytes ≠ [] := by
    rintro rfl
    exact unread ⟨[], .nil⟩
  have plain : bytes.all isASCII = false := by
    rw [← Bool.not_eq_true, List.all_eq_true]
    exact fun ascii => unread (exists_reads_ascii ascii)
  have failed := (converts_iff true (le_refl bytes.length)).not.mpr
    (readable_iff.not.mp unread)
  rw [stringFromUTF8, if_neg (not_le.mpr short), if_neg nonempty, if_neg (by simp [plain])]
  exact if_neg failed

/-! ## Atomic strings -/

theorem translatorEqual_reads (reads : Reads bytes text) (string : List UInt16) :
    translatorEqual string bytes bytes.length (utf16 text).length =
      some (decide (string = utf16 text)) := by
  unfold translatorEqual
  rw [List.take_length]
  split_ifs with other units
  · rw [eq_comm, Option.some.injEq, decide_eq_false_iff_not]
    rintro rfl
    exact other rfl
  · exact equalLoop_reads reads le_rfl (not_not.mp other).le
  · rw [widen_reads reads (ascii_of_length reads (not_not.mp units))]
    exact congrArg some (beq_eq_decide _ _)

theorem translate_reads (reads : Reads bytes text) :
    translate bytes bytes.length (utf16 text).length = .ok (utf16 text) := by
  have made : convertUTF8ToUTF16 true (utf16 text).length bytes = _ :=
    convert_done (utf8Turn_bounded true) (turns_reads true reads) le_rfl
  rw [translate, List.take_length, made]
  dsimp only
  rw [if_neg (lt_irrefl _)]
  split_ifs with ascii
  · rw [widen_reads reads (ascii_of_units reads (small_of_sourceAllASCII ascii))]
  · rfl

theorem addToStringTable_reads (reads : Reads bytes text) (stringTable : List (List UInt16)) :
    addToStringTable bytes bytes.length (utf16 text).length stringTable = .ok (utf16 text) := by
  induction stringTable with
  | nil => exact translate_reads reads
  | cons string strings ih =>
    rw [addToStringTable, translatorEqual_reads reads]
    by_cases same : string = utf16 text
    · rw [decide_eq_true same, same]
    · rw [decide_eq_false same]
      exact ih

theorem dataLength_reads (reads : Reads bytes text) :
    (calculateStringHashAndLengthFromUTF8MaskingTop8Bits bytes).dataLength.toNat =
      bytes.length % 2 ^ 32 := by
  unfold calculateStringHashAndLengthFromUTF8MaskingTop8Bits
  rw [calculateLoop_reads reads le_rfl]
  simp [Calculation.add]

/-- Whatever strings are there. -/
theorem atomicStringFromUTF8_reads (reads : Reads bytes text) (nonempty : bytes ≠ [])
    (short : bytes.length < 2 ^ 32) (stringTable : List (List UInt16)) :
    atomicStringFromUTF8 stringTable (some bytes) = .ok (some (utf16 text)) := by
  have hashed := (hash_eq_zero_iff bytes).not.mpr (not_not_intro ⟨text, reads⟩)
  have fewer := reads_length reads
  rw [atomicStringFromUTF8, if_neg nonempty]
  dsimp only
  rw [if_neg hashed, dataLength_reads reads, (hash_reads reads).2, Nat.mod_eq_of_lt short,
    Nat.mod_eq_of_lt (by omega), addToStringTable_reads reads]
  rfl

theorem atomicStringFromUTF8_other (unread : ¬ ∃ text, Reads bytes text)
    (stringTable : List (List UInt16)) : atomicStringFromUTF8 stringTable (some bytes) = .ok none := by
  have nonempty : bytes ≠ [] := by
    rintro rfl
    exact unread ⟨[], .nil⟩
  rw [atomicStringFromUTF8, if_neg nonempty]
  exact if_pos ((hash_eq_zero_iff bytes).mpr unread)

end NetRider.Wtf.Unicode
