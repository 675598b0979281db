import NetRider.Wtf.StringHasher
import NetRider.Wtf.UTF8Conversion

/-!
# UTF-8 keys

A table of UTF-16 strings is asked for a UTF-8 string: its hash and its length are taken without
decoding it first, and an entry is compared with it in the same way.
-/

namespace NetRider.Wtf.Unicode

open Lib

/-- The variables of `calculateStringHashAndLengthFromUTF8MaskingTop8Bits`; lengths are `unsigned`. -/
structure Calculation where
  stringHasher : StringHasher
  dataLength : UInt32
  utf16Length : UInt32

/-- One turn of the loop; an error is a return of 0. -/
def calculateTurn (state : Calculation) :
    List UInt8 → Except Calculation (Calculation × List UInt8)
  | [] => .error state
  | b0 :: data =>
    if isASCII b0 then
      .ok (⟨state.stringHasher.addCharacter b0.toUInt16, state.dataLength + 1,
        state.utf16Length + 1⟩, data)
    else
      let utf8SequenceLength := inlineUTF8SequenceLengthNonASCII b0
      let state := { state with dataLength := state.dataLength + UInt32.ofNat utf8SequenceLength }
      if (b0 :: data).length < utf8SequenceLength then .error state
      else if !isLegalUTF8 ((b0 :: data).take utf8SequenceLength) then .error state
      else
        let character := readUTF8Sequence ((b0 :: data).take utf8SequenceLength)
        let rest := (b0 :: data).drop utf8SequenceLength
        if isBMP character then
          if isSurrogate character then .error state
          else
            .ok ({ state with
              stringHasher := state.stringHasher.addCharacter (UInt16.ofNat character.toNat)
              utf16Length := state.utf16Length + 1 }, rest)
        else if isSupplementary character then
          .ok ({ state with
            stringHasher := state.stringHasher.addCharacters
              (u16Lead character.toNat) (u16Trail character.toNat)
            utf16Length := state.utf16Length + 2 }, rest)
        else .error state

def calculateLoop : Nat → Calculation → List UInt8 → Except Calculation Calculation
  | 0, state, _ => .ok state
  | fuel + 1, state, data =>
    if data.isEmpty then .ok state
    else
      match calculateTurn state data with
      | .error state => .error state
      | .ok (state, data) => calculateLoop fuel state data

structure HashAndLength where
  hash : UInt32
  dataLength : UInt32
  utf16Length : UInt32

/-- For a range with an end. -/
def calculateStringHashAndLengthFromUTF8MaskingTop8Bits (data : List UInt8) : HashAndLength :=
  match calculateLoop data.length ⟨.initial, 0, 0⟩ data with
  | .error state => ⟨0, state.dataLength, state.utf16Length⟩
  | .ok state =>
    ⟨state.stringHasher.hashWithTop8BitsMasked, state.dataLength, state.utf16Length⟩

/-- `*a++ != unit` for some units: nothing if `a` is read at its end, `.error` for another unit. -/
def compareUnits : List UInt16 → List UInt16 → Option (Except Unit (List UInt16))
  | a, [] => some (.ok a)
  | [], _ :: _ => none
  | unit' :: a, unit :: units => if unit' ≠ unit then some (.error ()) else compareUnits a units

/-- The units that the next turn of `equalUTF16WithUTF8` expects. -/
def equalTurn : List UInt8 → Except Unit (List UInt16 × List UInt8)
  | [] => .error ()
  | b0 :: b =>
    if isASCII b0 then .ok ([b0.toUInt16], b)
    else
      let utf8SequenceLength := inlineUTF8SequenceLengthNonASCII b0
      if (b0 :: b).length < utf8SequenceLength then .error ()
      else if !isLegalUTF8 ((b0 :: b).take utf8SequenceLength) then .error ()
      else
        let character := readUTF8Sequence ((b0 :: b).take utf8SequenceLength)
        let rest := (b0 :: b).drop utf8SequenceLength
        if isBMP character then
          if isSurrogate character then .error () else .ok ([UInt16.ofNat character.toNat], rest)
        else if isSupplementary character then
          .ok ([u16Lead character.toNat, u16Trail character.toNat], rest)
        else .error ()

def equalLoop : Nat → List UInt16 → List UInt8 → Option Bool
  | 0, a, _ => some a.isEmpty
  | fuel + 1, a, b =>
    if b.isEmpty then some a.isEmpty
    else
      match equalTurn b with
      | .error _ => some false
      | .ok (units, b) =>
        match compareUnits a units with
        | none => none
        | some (.error _) => some false
        | some (.ok a) => equalLoop fuel a b

/-- Nothing if `a` is read at its end. -/
def equalUTF16WithUTF8 (a : List UInt16) (b : List UInt8) : Option Bool := equalLoop b.length a b

variable {bytes : List UInt8} {character : Char} {text : List Char}

/-! ## One character -/

theorem takes_ascii {b0 : UInt8} {more : List UInt8} (takes : Takes (b0 :: more) character)
    (ascii : isASCII b0) : more = [] ∧ utf16Units character = [b0.toUInt16] := by
  obtain ⟨announced, legal, read⟩ := takes
  have small := isASCII_iff.mp ascii
  cases announced with
  | one =>
    have value : character.val.toNat = b0.toNat := by
      simp only [readUTF8Sequence, offsetsFromUTF8, List.foldl_cons, List.foldl_nil,
        List.length_singleton] at read
      omega
    have units : utf16Units character = [UInt16.ofNat character.val.toNat] := if_pos (by omega)
    exact ⟨rfl, by rw [units, value]; simp⟩
  | two | three | four => omega

theorem takes_other {b0 : UInt8} {more : List UInt8} (takes : Takes (b0 :: more) character)
    (other : ¬ isASCII b0) (rest : List UInt8) :
    ¬ (b0 :: (more ++ rest)).length < inlineUTF8SequenceLengthNonASCII b0 ∧
      (b0 :: (more ++ rest)).take (inlineUTF8SequenceLengthNonASCII b0) = b0 :: more ∧
      (b0 :: (more ++ rest)).drop (inlineUTF8SequenceLengthNonASCII b0) = rest := by
  have length := takes.1.length
  rw [inlineUTF8SequenceLength_nonASCII other] at length
  refine ⟨?_, ?_, ?_⟩
  · rw [← length, ← List.cons_append, List.length_append]
    omega
  · rw [← List.cons_append, List.take_left' length]
  · rw [← List.cons_append, List.drop_left' length]

/-- Where nothing can be read there is no ASCII character. -/
theorem not_takes_other {b0 : UInt8} {more : List UInt8}
    (stuck : (b0 :: more).length < inlineUTF8SequenceLength b0 ∨
      isLegalUTF8 ((b0 :: more).take (inlineUTF8SequenceLength b0)) = false) :
    ¬ isASCII b0 ∧ ((b0 :: more).length < inlineUTF8SequenceLengthNonASCII b0 ∨
      isLegalUTF8 ((b0 :: more).take (inlineUTF8SequenceLengthNonASCII b0)) = false) := by
  have other : ¬ isASCII b0 := by
    intro ascii
    have one : inlineUTF8SequenceLength b0 = 1 := if_pos ascii
    have legal : firstLegal b0 := by
      rw [isASCII_iff] at ascii
      exact firstLegal_iff.mpr (by omega)
    rw [one] at stuck
    rcases stuck with short | illegal
    · rw [List.length_cons] at short
      omega
    · exact absurd (legal.symm.trans illegal) Bool.noConfusion
  rw [inlineUTF8SequenceLength_nonASCII other] at stuck
  exact ⟨other, stuck⟩

/-! ## Hash and length -/

/-- Some units are hashed and counted. -/
def Calculation.add (state : Calculation) (bytes : List UInt8) (units : List UInt16) : Calculation :=
  ⟨units.foldl StringHasher.addCharacter state.stringHasher,
    state.dataLength + UInt32.ofNat bytes.length, state.utf16Length + UInt32.ofNat units.length⟩

theorem calculateTurn_takes (takes : Takes bytes character) (state : Calculation)
    (rest : List UInt8) : calculateTurn state (bytes ++ rest) =
      .ok (state.add bytes (utf16Units character), rest) := by
  obtain ⟨b0, more, rfl⟩ := takes.1.exists_cons
  rw [List.cons_append, calculateTurn]
  by_cases ascii : isASCII b0
  · obtain ⟨rfl, units⟩ := takes_ascii takes ascii
    rw [if_pos ascii, units]
    rfl
  · obtain ⟨enough, first, last⟩ := takes_other takes ascii rest
    have length := takes.1.length
    rw [inlineUTF8SequenceLength_nonASCII ascii] at length
    obtain ⟨-, legal, read⟩ := takes
    rw [if_neg ascii]
    dsimp only
    rw [if_neg enough, first, legal, last, read]
    rcases units_cases character with ⟨bmp, other, units⟩ | ⟨bmp, supplementary, units⟩
    · simp only [bmp, other, units, Int.toNat_natCast, Calculation.add, length]
      rfl
    · simp only [bmp, supplementary, units, Int.toNat_natCast, Calculation.add, length,
        StringHasher.addCharacters_eq]
      rfl

theorem calculateTurn_stuck {b0 : UInt8} {more : List UInt8}
    (stuck : (b0 :: more).length < inlineUTF8SequenceLength b0 ∨
      isLegalUTF8 ((b0 :: more).take (inlineUTF8SequenceLength b0)) = false)
    (state : Calculation) : ∃ state', calculateTurn state (b0 :: more) = .error state' := by
  obtain ⟨other, short | illegal⟩ := not_takes_other stuck
  · exact ⟨_, (if_neg other).trans (if_pos short)⟩
  · rw [calculateTurn, if_neg other]
    dsimp only
    rw [illegal]
    by_cases short : (b0 :: more).length < inlineUTF8SequenceLengthNonASCII b0
    · exact ⟨_, if_pos short⟩
    · exact ⟨_, (if_neg short).trans (if_pos rfl)⟩

theorem Calculation.add_append (state : Calculation) (bytes rest : List UInt8)
    (units more : List UInt16) :
    (state.add bytes units).add rest more = state.add (bytes ++ rest) (units ++ more) := by
  simp only [Calculation.add, List.foldl_append, List.length_append, UInt32.ofNat_add, add_assoc]

theorem calculateLoop_reads (reads : Reads bytes text) {fuel : Nat} (enough : bytes.length ≤ fuel)
    (state : Calculation) :
    calculateLoop fuel state bytes = .ok (state.add bytes (utf16 text)) := by
  induction reads generalizing fuel state with
  | nil =>
    have same : state.add [] (utf16 []) = state := by simp [Calculation.add, utf16]
    rw [same]
    cases fuel <;> rfl
  | @cons bytes character rest text takes reads ih =>
    obtain ⟨b0, more, rfl⟩ := takes.1.exists_cons
    have turn := calculateTurn_takes takes state rest
    rw [List.length_append, List.length_cons] at enough
    obtain ⟨fuel, rfl⟩ : ∃ n, fuel = n + 1 := ⟨fuel - 1, by omega⟩
    rw [calculateLoop, turn]
    dsimp only
    rw [ih (by omega), Calculation.add_append]
    rfl

theorem calculateLoop_ok {fuel : Nat} (enough : bytes.length ≤ fuel) {state state' : Calculation}
    (done : calculateLoop fuel state bytes = .ok state') : ∃ text, Reads bytes text := by
  induction fuel generalizing bytes state with
  | zero =>
    rw [List.length_eq_zero_iff.mp (Nat.le_zero.mp enough)]
    exact ⟨[], .nil⟩
  | succ fuel ih =>
    cases bytes with
    | nil => exact ⟨[], .nil⟩
    | cons b0 more =>
      rw [calculateLoop, List.isEmpty_cons, if_neg Bool.false_ne_true] at done
      rcases takes_or_not b0 more with short | illegal | ⟨bytes, character, rest, takes, same⟩
      · obtain ⟨stopped, turn⟩ := calculateTurn_stuck (.inl short) state
        rw [turn] at done
        cases done
      · obtain ⟨stopped, turn⟩ := calculateTurn_stuck (.inr illegal) state
        rw [turn] at done
        cases done
      · rw [same, calculateTurn_takes takes] at done
        obtain ⟨a, more', rfl⟩ := takes.1.exists_cons
        rw [same, List.length_append, List.length_cons] at enough
        obtain ⟨text, reads⟩ := ih (by omega) done
        exact ⟨character :: text, same ▸ .cons takes reads⟩

/-! ## Comparison -/

theorem equalTurn_takes (takes : Takes bytes character) (rest : List UInt8) :
    equalTurn (bytes ++ rest) = .ok (utf16Units character, rest) := by
  obtain ⟨b0, more, rfl⟩ := takes.1.exists_cons
  rw [List.cons_append, equalTurn]
  by_cases ascii : isASCII b0
  · obtain ⟨rfl, units⟩ := takes_ascii takes ascii
    rw [if_pos ascii, units]
    rfl
  · obtain ⟨enough, first, last⟩ := takes_other takes ascii rest
    obtain ⟨-, legal, read⟩ := takes
    rw [if_neg ascii]
    dsimp only
    rw [if_neg enough, first, legal, last, read]
    rcases units_cases character with ⟨bmp, other, units⟩ | ⟨bmp, supplementary, units⟩
    · simp only [bmp, other, units, Int.toNat_natCast]
      rfl
    · simp only [bmp, supplementary, units, Int.toNat_natCast]
      rfl

theorem compareUnits_eq {a units : List UInt16} (enough : units.length ≤ a.length) :
    compareUnits a units =
      some (if units <+: a then .ok (a.drop units.length) else .error ()) := by
  induction units generalizing a with
  | nil => cases a <;> simp [compareUnits]
  | cons unit units ih =>
    cases a with
    | nil => exact absurd enough (by simp)
    | cons unit' a =>
      rw [compareUnits]
      by_cases same : unit' = unit
      · subst same
        rw [if_neg (not_not_intro rfl), ih (by simpa using enough)]
        simp [List.cons_prefix_cons]
      · have other : ¬ (unit :: units) <+: unit' :: a := by
          rw [List.cons_prefix_cons]
          exact fun both => same both.1.symm
        rw [if_pos same, if_neg other]

/-- Nothing behind the end is read if the string is long enough. -/
theorem equalLoop_reads (reads : Reads bytes text) {fuel : Nat} (enough : bytes.length ≤ fuel)
    {a : List UInt16} (long : (utf16 text).length ≤ a.length) :
    equalLoop fuel a bytes = some (decide (a = utf16 text)) := by
  induction reads generalizing fuel a with
  | nil =>
    have empty : a.isEmpty = decide (a = utf16 []) := by cases a <;> simp [utf16]
    rw [← empty]
    cases fuel <;> rfl
  | @cons bytes character rest text takes reads ih =>
    obtain ⟨b0, more, rfl⟩ := takes.1.exists_cons
    have turn := equalTurn_takes takes rest
    have units : utf16 (character :: text) = utf16Units character ++ utf16 text := rfl
    rw [units, List.length_append] at long
    rw [List.length_append, List.length_cons] at enough
    obtain ⟨fuel, rfl⟩ : ∃ n, fuel = n + 1 := ⟨fuel - 1, by omega⟩
    rw [equalLoop, turn, units]
    dsimp only
    rw [compareUnits_eq (by omega)]
    by_cases front : utf16Units character <+: a
    · obtain ⟨last, rfl⟩ := front
      rw [List.length_append] at long
      simp only [List.prefix_append, if_true, List.drop_left', List.append_cancel_left_eq]
      exact ih (by omega) (by omega)
    · have other : a ≠ utf16Units character ++ utf16 text := by
        rintro rfl
        exact front (List.prefix_append _ _)
      simp only [front, if_false, other, decide_false]
      rfl

/-! ## Keys -/

/-- What is expected for a byte string: no hash if it is not well-formed, else the hash and the
length of its text, and only its text is equal to it. -/
structure KeyRight (bytes : List UInt8) : Prop where
  fails_iff : (calculateStringHashAndLengthFromUTF8MaskingTop8Bits bytes).hash = 0 ↔
    ¬ WellFormed bytes
  hashes : ∀ text, utf8 text = bytes →
    (calculateStringHashAndLengthFromUTF8MaskingTop8Bits bytes).hash =
        StringHasher.computeHashAndMaskTop8Bits (utf16 text) ∧
      (calculateStringHashAndLengthFromUTF8MaskingTop8Bits bytes).utf16Length.toNat =
        (utf16 text).length
  compares : ∀ text, utf8 text = bytes → ∀ a : List UInt16, a.length = (utf16 text).length →
    equalUTF16WithUTF8 a bytes = some (decide (a = utf16 text))

theorem hash_eq_zero_iff (bytes : List UInt8) :
    (calculateStringHashAndLengthFromUTF8MaskingTop8Bits bytes).hash = 0 ↔
      ¬ ∃ text, Reads bytes text := by
  unfold calculateStringHashAndLengthFromUTF8MaskingTop8Bits
  cases done : calculateLoop bytes.length ⟨.initial, 0, 0⟩ bytes with
  | error state =>
    refine iff_of_true rfl ?_
    rintro ⟨text, reads⟩
    rw [calculateLoop_reads reads le_rfl] at done
    cases done
  | ok state =>
    exact iff_of_false (StringHasher.hashWithTop8BitsMasked_ne_zero _)
      (not_not_intro (calculateLoop_ok le_rfl done))

theorem hash_reads (reads : Reads bytes text) :
    (calculateStringHashAndLengthFromUTF8MaskingTop8Bits bytes).hash =
        StringHasher.computeHashAndMaskTop8Bits (utf16 text) ∧
      (calculateStringHashAndLengthFromUTF8MaskingTop8Bits bytes).utf16Length.toNat =
        (utf16 text).length % 2 ^ 32 := by
  unfold calculateStringHashAndLengthFromUTF8MaskingTop8Bits
  rw [calculateLoop_reads reads le_rfl, StringHasher.computeHash_eq]
  refine ⟨rfl, ?_⟩
  simp [Calculation.add]

/-- **Keys are found but for low second bytes and lengths that do not fit.** -/
theorem key_right_iff (bytes : List UInt8) : KeyRight bytes ↔
    ¬ LowSecondRead bytes ∧ ∀ text, utf8 text = bytes → (utf16 text).length < 2 ^ 32 := by
  constructor
  · rintro ⟨fails, hashes, -⟩
    refine ⟨fun low => ?_, fun text same => ?_⟩
    · have failed := fails.mpr (lowSecondRead_not_wellFormed low)
      exact (hash_eq_zero_iff bytes).mp failed (readable_iff.mpr (.inr low))
    · obtain ⟨-, length⟩ := hashes text same
      rw [← length]
      exact UInt32.toNat_lt _
  · rintro ⟨safe, short⟩
    refine ⟨?_, fun text same => ?_, fun text same a length => ?_⟩
    · rw [hash_eq_zero_iff, readable_iff, or_iff_left safe]
    · obtain ⟨hash, length⟩ := hash_reads (reads_utf8 text)
      rw [same, Nat.mod_eq_of_lt (short text same)] at length
      exact ⟨same ▸ hash, length⟩
    · rw [← same]
      exact equalLoop_reads (reads_utf8 text) le_rfl length.ge

/-- `ED 41 80` has a hash. -/
theorem low_second_has_hash : ¬ ∀ bytes, KeyRight bytes := by
  intro all
  have is : LowSecond [0xED, 0x41, 0x80] := .three (by decide) (by decide)
  have low : LowSecondRead [0xED, 0x41, 0x80] :=
    ⟨[[0xED, 0x41, 0x80]], rfl, by simpa using .inr is, _, List.mem_singleton.mpr rfl, is⟩
  have failed := (all [0xED, 0x41, 0x80]).fails_iff.mpr (lowSecondRead_not_wellFormed low)
  revert failed
  decide

end NetRider.Wtf.Unicode
