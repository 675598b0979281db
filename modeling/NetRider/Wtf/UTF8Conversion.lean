import NetRider.Lib.Transcoding
import NetRider.Wtf.UTF8

/-!
# Conversions between UTF-8 and UTF-16

Both converters read one character a turn and go back in front of it when the target is full.
-/

namespace NetRider.Wtf.Unicode

open Lib

inductive ConversionResult
  | conversionOK
  | sourceExhausted
  | targetExhausted
  | sourceIllegal
  deriving DecidableEq, Repr

def replacementCharacter : Nat := 0xFFFD

/-! ## From UTF-16 -/

def isLead (ch : Nat) : Bool := 0xD800 ≤ ch ∧ ch ≤ 0xDBFF
def isTrail (ch : Nat) : Bool := 0xDC00 ≤ ch ∧ ch ≤ 0xDFFF

/-- The character behind `source` and what follows it. -/
def readUTF16 (strict : Bool) (unit : UInt16) (source : List UInt16) :
    Except ConversionResult (Nat × List UInt16) :=
  let ch := unit.toNat
  if isLead ch then
    match source with
    | [] => .error .sourceExhausted
    | unit2 :: rest =>
      let ch2 := unit2.toNat
      if isTrail ch2 then .ok (((ch - 0xD800) <<< 10) + (ch2 - 0xDC00) + 0x10000, rest)
      else if strict then .error .sourceIllegal
      else .ok (ch, source)
  else if strict && isTrail ch then .error .sourceIllegal
  else .ok (ch, source)

def firstByteMark : Nat → Nat
  | 2 => 0xC0
  | 3 => 0xE0
  | 4 => 0xF0
  | _ => 0x00

/-- `(ch | byteMark) & byteMask`. -/
def trailByte (ch : Nat) : UInt8 := UInt8.ofNat ((ch ||| 0x80) &&& 0xBF)

def firstByte (ch bytesToWrite : Nat) : UInt8 := UInt8.ofNat (ch ||| firstByteMark bytesToWrite)

def writeUTF8 (ch : Nat) : List UInt8 :=
  if ch < 0x80 then [firstByte ch 1]
  else if ch < 0x800 then [firstByte (ch >>> 6) 2, trailByte ch]
  else if ch < 0x10000 then [firstByte (ch >>> 12) 3, trailByte (ch >>> 6), trailByte ch]
  else if ch < 0x110000 then
    [firstByte (ch >>> 18) 4, trailByte (ch >>> 12), trailByte (ch >>> 6), trailByte ch]
  else
    let ch := replacementCharacter
    [firstByte (ch >>> 12) 3, trailByte (ch >>> 6), trailByte ch]

/-- One turn of `convertUTF16ToUTF8`. -/
def utf16Turn (strict : Bool) (room : Nat) :
    List UInt16 → Except ConversionResult (List UInt8 × List UInt16)
  | [] => .error .sourceExhausted
  | unit :: source =>
    match readUTF16 strict unit source with
    | .error result => .error result
    | .ok (ch, rest) =>
      if (writeUTF8 ch).length > room then .error .targetExhausted else .ok (writeUTF8 ch, rest)

def convertUTF16ToUTF8 (strict : Bool) (room : Nat) (source : List UInt16) :
    Conversion UInt16 UInt8 ConversionResult :=
  convert .conversionOK (utf16Turn strict) room source

/-! ## From UTF-8 -/

def isBMP (c : Int) : Bool := 0 ≤ c ∧ c ≤ 0xFFFF
def isSurrogate (c : Int) : Bool := 0xD800 ≤ c ∧ c ≤ 0xDFFF
def isSupplementary (c : Int) : Bool := 0x10000 ≤ c ∧ c ≤ 0x10FFFF
def u16Lead (supplementary : Nat) : UInt16 := UInt16.ofNat ((supplementary >>> 10) + 0xD7C0)
def u16Trail (supplementary : Nat) : UInt16 := UInt16.ofNat ((supplementary &&& 0x3FF) ||| 0xDC00)

def writeUTF16 (strict : Bool) (room : Nat) (character : Int) :
    Except ConversionResult (List UInt16) :=
  if room = 0 then .error .targetExhausted
  else if isBMP character then
    if isSurrogate character then
      if strict then .error .sourceIllegal else .ok [UInt16.ofNat replacementCharacter]
    else .ok [UInt16.ofNat character.toNat]
  else if isSupplementary character then
    if room ≤ 1 then .error .targetExhausted
    else .ok [u16Lead character.toNat, u16Trail character.toNat]
  else if strict then .error .sourceIllegal
  else .ok [UInt16.ofNat replacementCharacter]

/-- One turn of `convertUTF8ToUTF16`. -/
def utf8Turn (strict : Bool) (room : Nat) :
    List UInt8 → Except ConversionResult (List UInt16 × List UInt8)
  | [] => .error .sourceExhausted
  | b0 :: bytes =>
    let source := b0 :: bytes
    let utf8SequenceLength := inlineUTF8SequenceLength b0
    if source.length < utf8SequenceLength then .error .sourceExhausted
    else if !isLegalUTF8 (source.take utf8SequenceLength) then .error .sourceIllegal
    else
      match writeUTF16 strict room (readUTF8Sequence (source.take utf8SequenceLength)) with
      | .error result => .error result
      | .ok units => .ok (units, source.drop utf8SequenceLength)

def convertUTF8ToUTF16 (strict : Bool) (room : Nat) (source : List UInt8) :
    Conversion UInt8 UInt16 ConversionResult :=
  convert .conversionOK (utf8Turn strict) room source

/-- `sourceAllASCII`, of what has been written; for a pair all bits are set. -/
def sourceAllASCII (target : List UInt16) : Bool :=
  let orAllData : UInt16 := target.foldl
    (fun orAllData unit => if isSurrogate unit.toNat then 0xFFFF else orAllData ||| unit) 0
  orAllData &&& ~~~0x7F = 0

variable {strict : Bool} {room : Nat} {character : Char}

/-! ## The units of a character -/

theorem u16Units_eq (large : 0x10000 ≤ character.val.toNat) :
    [u16Lead character.val.toNat, u16Trail character.val.toNat] = utf16Units character := by
  have valid := scalar_cases character
  unfold u16Lead u16Trail utf16Units
  dsimp only
  generalize character.val.toNat = v at *
  have low : v &&& 0x3FF = v % 0x400 := Nat.and_two_pow_sub_one_eq_mod v 10
  have joined : 2 ^ 10 * 55 ||| (v % 0x400) = 2 ^ 10 * 55 + v % 0x400 :=
    (Nat.two_pow_add_eq_or_of_lt (Nat.mod_lt v (by decide)) 55).symm
  have trail : (v &&& 0x3FF) ||| 0xDC00 = 0xDC00 + (v - 0x10000) % 0x400 := by
    rw [low, Nat.or_comm]
    exact joined.trans (by omega)
  rw [if_neg (by omega), trail, Nat.shiftRight_eq_div_pow]
  congr 2
  omega

/-- One unit or a pair. -/
theorem units_cases (character : Char) :
    (isBMP character.val.toNat = true ∧ isSurrogate character.val.toNat = false ∧
      utf16Units character = [UInt16.ofNat character.val.toNat]) ∨
    (isBMP character.val.toNat = false ∧ isSupplementary character.val.toNat = true ∧
      utf16Units character = [u16Lead character.val.toNat, u16Trail character.val.toNat]) := by
  have valid := scalar_cases character
  by_cases small : character.val.toNat < 0x10000
  · refine .inl ⟨?_, ?_, if_pos small⟩
    · simp only [isBMP, decide_eq_true_eq]
      omega
    · simp only [isSurrogate, decide_eq_false_iff_not]
      omega
  · refine .inr ⟨?_, ?_, (u16Units_eq (not_lt.mp small)).symm⟩
    · simp only [isBMP, decide_eq_false_iff_not]
      omega
    · simp only [isSupplementary, decide_eq_true_eq]
      omega

/-- A character that is not a surrogate is written as it is. -/
theorem writeUTF16_char (strict : Bool) (room : Nat) (character : Char) :
    writeUTF16 strict room character.val.toNat =
      if (utf16Units character).length ≤ room then .ok (utf16Units character)
      else .error .targetExhausted := by
  unfold writeUTF16
  by_cases none : room = 0
  · rw [if_pos none, if_neg]
    have := utf16Units_length_pos character
    omega
  rw [if_neg none]
  rcases units_cases character with ⟨bmp, other, units⟩ | ⟨bmp, supplementary, units⟩
  · rw [if_pos bmp, other, if_neg Bool.false_ne_true, units, Int.toNat_natCast, if_pos]
    exact Nat.one_le_iff_ne_zero.mpr none
  · rw [bmp, if_neg Bool.false_ne_true, if_pos supplementary, Int.toNat_natCast, units]
    by_cases short : room ≤ 1
    · rw [if_pos short, if_neg]
      exact not_le.mpr (Nat.lt_of_le_of_lt short (Nat.lt_succ_self 1))
    · rw [if_neg short, if_pos]
      exact not_le.mp short

theorem and_mask (ch : Nat) : (ch ||| 0x80) &&& 0xBF = 0x80 + ch % 64 := by
  have small : ∀ n < 256, (n ||| 0x80) &&& 0xBF = 0x80 + n % 64 := forall_digits (by decide)
  have low : (ch ||| 0x80) &&& 0xBF = (ch % 2 ^ 8 ||| 0x80) &&& 0xBF := by
    have cut := @Nat.and_mod_two_pow (ch ||| 0x80) 0xBF 8
    rw [Nat.or_mod_two_pow] at cut
    have bound : (ch ||| 0x80) &&& 0xBF < 2 ^ 8 := Nat.and_lt_two_pow _ (by decide)
    rwa [Nat.mod_eq_of_lt bound] at cut
  rw [low]
  exact (small (ch % 2 ^ 8) (Nat.mod_lt _ (by decide))).trans (by simp)

theorem trailByte_toNat (ch : Nat) : (trailByte ch).toNat = 0x80 + ch % 64 := by
  rw [trailByte, and_mask, toNat_ofNat (by omega)]

theorem firstByte_two {ch : Nat} (small : ch < 0x20) : (firstByte ch 2).toNat = 0xC0 + ch := by
  revert ch
  decide

theorem firstByte_three {ch : Nat} (small : ch < 0x10) : (firstByte ch 3).toNat = 0xE0 + ch := by
  revert ch
  decide

theorem firstByte_four {ch : Nat} (small : ch < 0x08) : (firstByte ch 4).toNat = 0xF0 + ch := by
  revert ch
  decide

theorem firstByte_one {ch : Nat} (small : ch < 0x80) : (firstByte ch 1).toNat = ch := by
  revert ch
  decide

theorem writeUTF8_char (character : Char) :
    writeUTF8 character.val.toNat = String.utf8EncodeChar character := by
  have valid := scalar_cases character
  refine eq_utf8EncodeChar ?_
  generalize character.val.toNat = v at valid ⊢
  unfold writeUTF8
  split_ifs with one two three four
  · rw [List.map_singleton, firstByte_one one]
    exact .one one
  · have lead := @firstByte_two (v / 64) (by omega)
    simp only [Nat.shiftRight_eq_div_pow, List.map_cons, List.map_nil, trailByte_toNat,
      Nat.reducePow, lead]
    exact .two (by omega) two
  · have lead := @firstByte_three (v / 4096) (by omega)
    simp only [Nat.shiftRight_eq_div_pow, List.map_cons, List.map_nil, trailByte_toNat,
      Nat.reducePow, lead]
    exact .three (by omega) three
  · have lead := @firstByte_four (v / 262144) (by omega)
    simp only [Nat.shiftRight_eq_div_pow, List.map_cons, List.map_nil, trailByte_toNat,
      Nat.reducePow, lead]
    exact .four (by omega) four
  · omega

theorem writeUTF8_length (ch : Nat) : 0 < (writeUTF8 ch).length ∧ (writeUTF8 ch).length ≤ 4 := by
  unfold writeUTF8
  split_ifs <;> simp

/-! ## Turns of `convertUTF8ToUTF16` -/

variable {bytes : List UInt8}

theorem utf8Turn_takes (takes : Takes bytes character) (strict : Bool) (room : Nat)
    (rest : List UInt8) : utf8Turn strict room (bytes ++ rest) =
      if (utf16Units character).length ≤ room then .ok (utf16Units character, rest)
      else .error .targetExhausted := by
  obtain ⟨announced, legal, read⟩ := takes
  obtain ⟨a, more, rfl⟩ := announced.exists_cons
  have length := announced.length
  have enough : ¬ (a :: more ++ rest).length < (a :: more).length := by
    rw [List.length_append]
    omega
  rw [List.cons_append] at enough
  rw [List.cons_append, utf8Turn, ← length, if_neg enough, ← List.cons_append, List.take_left' rfl, legal, List.drop_left' rfl,
    read, writeUTF16_char]
  by_cases fits : (utf16Units character).length ≤ room
  · simp only [if_pos fits, Bool.not_true, Bool.false_eq_true, if_false]
  · simp only [if_neg fits, Bool.not_true, Bool.false_eq_true, if_false]

/-- A turn stops whatever the room, or reads a character. -/
theorem utf8Turn_cases (source : List UInt8) :
    (∃ result, (result = .sourceExhausted ∨ result = .sourceIllegal) ∧
      ∀ strict room, utf8Turn strict room source = .error result) ∨
    ∃ bytes character rest, Takes bytes character ∧ source = bytes ++ rest := by
  cases source with
  | nil => exact .inl ⟨_, .inl rfl, fun _ _ => rfl⟩
  | cons b0 more =>
    by_cases short : (b0 :: more).length < inlineUTF8SequenceLength b0
    · exact .inl ⟨_, .inl rfl, fun _ _ => if_pos short⟩
    · rcases (takes_or_not b0 more).resolve_left short with illegal | read
      · refine .inl ⟨_, .inr rfl, fun _ _ => (if_neg short).trans (if_pos ?_)⟩
        rw [illegal]
        rfl
      · exact .inr read

theorem utf8Turn_ok {source rest : List UInt8} {units : List UInt16}
    (taken : utf8Turn strict room source = .ok (units, rest)) :
    ∃ bytes character, Takes bytes character ∧ source = bytes ++ rest ∧
      units = utf16Units character := by
  rcases utf8Turn_cases source with ⟨result, -, stops⟩ | ⟨bytes, character, rest', takes, rfl⟩
  · rw [stops] at taken
    cases taken
  · rw [utf8Turn_takes takes] at taken
    split_ifs at taken
    obtain ⟨rfl, rfl⟩ := Prod.mk.inj (Except.ok.inj taken)
    exact ⟨bytes, character, takes, rfl, rfl⟩

theorem utf8Turn_bounded (strict : Bool) :
    Bounded .targetExhausted (utf8Turn strict) (utf8Turn strict 2) where
  turn_eq room source some := by
    rcases utf8Turn_cases source with ⟨result, -, stops⟩ | ⟨bytes, character, rest, takes, rfl⟩
    · rw [stops, stops]
    · rw [utf8Turn_takes takes, utf8Turn_takes takes, if_pos (lengths character).2.1]
  consumes source units rest taken := by
    obtain ⟨bytes, character, takes, split, -⟩ := utf8Turn_ok taken
    obtain ⟨a, more, rfl⟩ := takes.1.exists_cons
    exact ⟨_, List.cons_ne_nil _ _, split⟩
  honest source := by
    rcases utf8Turn_cases source with ⟨result, kind, stops⟩ | ⟨bytes, character, rest, takes, rfl⟩
    · rw [stops]
      rcases kind with rfl | rfl <;> decide
    · rw [utf8Turn_takes takes, if_pos (lengths character).2.1]
      simp

theorem utf8Turn_short (source : List UInt8) (units : List UInt16) (rest : List UInt8)
    (taken : utf8Turn strict room source = .ok (units, rest)) :
    units.length + 1 * rest.length ≤ 1 * source.length := by
  obtain ⟨bytes, character, takes, rfl, rfl⟩ := utf8Turn_ok taken
  have := takes_length takes
  rw [List.length_append]
  omega

/-! ## Turns of `convertUTF16ToUTF8` -/

/-- What is written for one or two units: a character, or in lenient mode a lone surrogate. -/
def TakesUnits (strict : Bool) (units : List UInt16) (bytes : List UInt8) : Prop :=
  (∃ character, units = utf16Units character ∧ bytes = String.utf8EncodeChar character) ∨
    strict = false ∧ ∃ unit, isSurrogate (unit.toNat : Nat) ∧ units = [unit] ∧
      bytes = writeUTF8 unit.toNat

/-- A lead surrogate is cut off its trail surrogate. -/
def SplitsPair (units rest : List UInt16) : Prop :=
  ∃ front lead trail more, units = front ++ [lead] ∧ rest = trail :: more ∧
    isLead lead.toNat ∧ isTrail trail.toNat

theorem isLead_iff {ch : Nat} : isLead ch ↔ 0xD800 ≤ ch ∧ ch ≤ 0xDBFF := by simp [isLead]

theorem isTrail_iff {ch : Nat} : isTrail ch ↔ 0xDC00 ≤ ch ∧ ch ≤ 0xDFFF := by simp [isTrail]

theorem takesUnits_length {units : List UInt16} (takes : TakesUnits strict units bytes) :
    0 < units.length ∧ bytes.length ≤ 4 ∧ bytes.length ≤ 3 * units.length := by
  rcases takes with ⟨character, rfl, rfl⟩ | ⟨-, unit, surrogate, rfl, rfl⟩
  · obtain ⟨-, -, third, fourth⟩ := lengths character
    exact ⟨utf16Units_length_pos character, fourth, third⟩
  · have bounds : unit.toNat < 0x10000 := unit.toNat_lt
    refine ⟨Nat.one_pos, (writeUTF8_length _).2, ?_⟩
    unfold writeUTF8
    split_ifs <;> simp

/-- The pair of a character. -/
theorem pair_eq {unit unit2 : UInt16} (lead : isLead unit.toNat) (trail : isTrail unit2.toNat) :
    ∃ character : Char, utf16Units character = [unit, unit2] ∧
      character.val.toNat =
        ((unit.toNat - 0xD800) <<< 10) + (unit2.toNat - 0xDC00) + 0x10000 := by
  rw [isLead_iff] at lead
  rw [isTrail_iff] at trail
  have shifted : (unit.toNat - 0xD800) <<< 10 = (unit.toNat - 0xD800) * 1024 :=
    Nat.shiftLeft_eq _ 10
  rw [shifted]
  obtain ⟨v, sum⟩ : ∃ v, v = (unit.toNat - 0xD800) * 1024 + (unit2.toNat - 0xDC00) + 0x10000 :=
    ⟨_, rfl⟩
  have value := @val_ofNat v (by omega)
  refine ⟨Char.ofNat v, ?_, by rw [value, sum]⟩
  unfold utf16Units
  rw [value]
  dsimp only
  rw [if_neg (by omega), show 0xD800 + (v - 0x10000) / 0x400 = unit.toNat by omega,
    show 0xDC00 + (v - 0x10000) % 0x400 = unit2.toNat by omega, UInt16.ofNat_toNat,
    UInt16.ofNat_toNat]

theorem single_eq {unit : UInt16} (other : ¬ isLead unit.toNat) (other' : ¬ isTrail unit.toNat) :
    ∃ character : Char, utf16Units character = [unit] ∧ character.val.toNat = unit.toNat := by
  rw [isLead_iff] at other
  rw [isTrail_iff] at other'
  have bound : unit.toNat < 0x10000 := unit.toNat_lt
  have value := @val_ofNat unit.toNat (by omega)
  refine ⟨Char.ofNat unit.toNat, ?_, value⟩
  unfold utf16Units
  rw [value]
  dsimp only
  rw [if_pos bound, UInt16.ofNat_toNat]

/-- What `readUTF16` reads can be written, and it does not split a pair. -/
theorem readUTF16_ok {unit : UInt16} {source rest : List UInt16} {ch : Nat}
    (read : readUTF16 strict unit source = .ok (ch, rest)) :
    ∃ units, TakesUnits strict units (writeUTF8 ch) ∧ unit :: source = units ++ rest ∧
      ¬ SplitsPair units rest := by
  unfold readUTF16 at read
  dsimp only at read
  by_cases lead : isLead unit.toNat
  · rw [if_pos lead] at read
    have surrogate : isSurrogate (unit.toNat : Nat) = true := by
      rw [isLead_iff] at lead
      simp only [isSurrogate, decide_eq_true_eq]
      omega
    cases source with
    | nil => cases read
    | cons unit2 more =>
      dsimp only at read
      by_cases trail : isTrail unit2.toNat
      · rw [if_pos trail] at read
        obtain ⟨rfl, rfl⟩ := Prod.mk.inj (Except.ok.inj read)
        obtain ⟨character, units, value⟩ := pair_eq lead trail
        rw [← value, writeUTF8_char]
        refine ⟨[unit, unit2], .inl ⟨character, units.symm, rfl⟩, rfl, ?_⟩
        rintro ⟨front, lead', -, -, same, -, last, -⟩
        have ended : some unit2 = some lead' :=
          (congrArg List.getLast? same).trans List.getLast?_concat
        rw [← Option.some.inj ended, isLead_iff] at last
        rw [isTrail_iff] at trail
        omega
      · rw [if_neg trail] at read
        cases mode : strict with
        | true =>
          rw [mode, if_pos rfl] at read
          cases read
        | false =>
          rw [mode, if_neg Bool.false_ne_true] at read
          obtain ⟨rfl, rfl⟩ := Prod.mk.inj (Except.ok.inj read)
          refine ⟨[unit], .inr ⟨rfl, unit, surrogate, rfl, rfl⟩, rfl, ?_⟩
          rintro ⟨-, -, trail', more', -, same, -, is⟩
          rw [← (List.cons.inj same).1] at is
          exact trail is
  · rw [if_neg lead] at read
    have stays (units rest : List UInt16) (single : units = [unit]) : ¬ SplitsPair units rest := by
      rintro ⟨front, lead', -, -, same, -, last, -⟩
      have ended : some unit = some lead' :=
        (congrArg List.getLast? (single.symm.trans same)).trans List.getLast?_concat
      rw [← Option.some.inj ended] at last
      exact lead last
    by_cases trail : isTrail unit.toNat
    · cases mode : strict with
      | true =>
        rw [mode, Bool.true_and, if_pos trail] at read
        cases read
      | false =>
        rw [mode, Bool.false_and, if_neg Bool.false_ne_true] at read
        obtain ⟨rfl, rfl⟩ := Prod.mk.inj (Except.ok.inj read)
        have surrogate : isSurrogate (unit.toNat : Nat) = true := by
          rw [isTrail_iff] at trail
          simp only [isSurrogate, decide_eq_true_eq]
          omega
        exact ⟨[unit], .inr ⟨rfl, unit, surrogate, rfl, rfl⟩, rfl, stays _ _ rfl⟩
    · have other : ¬ ((strict && isTrail unit.toNat) = true) := by
        rw [Bool.and_eq_true]
        exact fun both => trail both.2
      rw [if_neg other] at read
      obtain ⟨rfl, rfl⟩ := Prod.mk.inj (Except.ok.inj read)
      obtain ⟨character, units, value⟩ := single_eq lead trail
      rw [← value, writeUTF8_char]
      exact ⟨[unit], .inl ⟨character, units.symm, rfl⟩, rfl, stays _ _ rfl⟩

theorem readUTF16_char (strict : Bool) (character : Char) (rest : List UInt16) :
    ∃ unit source, utf16Units character ++ rest = unit :: source ∧
      readUTF16 strict unit source = .ok (character.val.toNat, rest) := by
  have valid := scalar_cases character
  unfold utf16Units
  dsimp only
  generalize character.val.toNat = v at valid ⊢
  by_cases small : v < 0x10000
  · rw [if_pos small]
    have value : (UInt16.ofNat v).toNat = v := by
      rw [UInt16.toNat_ofNat', Nat.mod_eq_of_lt small]
    have lead : ¬ isLead v := by
      rw [isLead_iff]
      omega
    have trail : ¬ ((strict && isTrail v) = true) := by
      rw [Bool.and_eq_true, isTrail_iff]
      omega
    refine ⟨UInt16.ofNat v, rest, rfl, ?_⟩
    unfold readUTF16
    dsimp only
    rw [value, if_neg lead, if_neg trail]
  · rw [if_neg small]
    have value : (UInt16.ofNat (0xD800 + (v - 0x10000) / 0x400)).toNat =
        0xD800 + (v - 0x10000) / 0x400 := by
      rw [UInt16.toNat_ofNat', Nat.mod_eq_of_lt (by omega)]
    have value' : (UInt16.ofNat (0xDC00 + (v - 0x10000) % 0x400)).toNat =
        0xDC00 + (v - 0x10000) % 0x400 := by
      rw [UInt16.toNat_ofNat', Nat.mod_eq_of_lt (by omega)]
    have lead : isLead (0xD800 + (v - 0x10000) / 0x400) := by
      rw [isLead_iff]
      omega
    have trail : isTrail (0xDC00 + (v - 0x10000) % 0x400) := by
      rw [isTrail_iff]
      omega
    refine ⟨_, UInt16.ofNat (0xDC00 + (v - 0x10000) % 0x400) :: rest, rfl, ?_⟩
    unfold readUTF16
    dsimp only
    rw [value, if_pos lead, value', if_pos trail, Nat.shiftLeft_eq]
    have sum : (0xD800 + (v - 0x10000) / 0x400 - 0xD800) * 2 ^ 10 +
        (0xDC00 + (v - 0x10000) % 0x400 - 0xDC00) + 0x10000 = v := by omega
    rw [sum]

theorem readUTF16_error {unit : UInt16} {source : List UInt16} {result : ConversionResult}
    (read : readUTF16 strict unit source = .error result) :
    result = .sourceExhausted ∨ result = .sourceIllegal := by
  unfold readUTF16 at read
  dsimp only at read
  by_cases lead : isLead unit.toNat
  · rw [if_pos lead] at read
    cases source with
    | nil => exact .inl (Except.error.inj read).symm
    | cons unit2 rest =>
      dsimp only at read
      split_ifs at read
      exact .inr (Except.error.inj read).symm
  · rw [if_neg lead] at read
    split_ifs at read
    exact .inr (Except.error.inj read).symm

theorem utf16Turn_char (strict : Bool) (room : Nat) (character : Char) (rest : List UInt16) :
    utf16Turn strict room (utf16Units character ++ rest) =
      if (String.utf8EncodeChar character).length ≤ room then
        .ok (String.utf8EncodeChar character, rest)
      else .error .targetExhausted := by
  obtain ⟨unit, source, same, read⟩ := readUTF16_char strict character rest
  rw [same, utf16Turn, read]
  dsimp only
  rw [writeUTF8_char]
  by_cases fits : (String.utf8EncodeChar character).length ≤ room
  · rw [if_neg (not_lt.mpr fits), if_pos fits]
  · rw [if_pos (not_le.mp fits), if_neg fits]

theorem utf16Turn_ok {source rest : List UInt16}
    (taken : utf16Turn strict room source = .ok (bytes, rest)) :
    ∃ units, TakesUnits strict units bytes ∧ source = units ++ rest ∧
      ¬ SplitsPair units rest := by
  cases source with
  | nil => cases taken
  | cons unit source =>
    rw [utf16Turn] at taken
    cases read : readUTF16 strict unit source with
    | error result => rw [read] at taken; cases taken
    | ok pair =>
      obtain ⟨ch, rest'⟩ := pair
      rw [read] at taken
      dsimp only at taken
      split_ifs at taken
      obtain ⟨rfl, rfl⟩ := Prod.mk.inj (Except.ok.inj taken)
      exact readUTF16_ok read

theorem utf16Turn_bounded (strict : Bool) :
    Bounded .targetExhausted (utf16Turn strict) (utf16Turn strict 4) where
  turn_eq room source some := by
    cases source with
    | nil => exact absurd rfl some
    | cons unit source =>
      rw [utf16Turn, utf16Turn]
      cases readUTF16 strict unit source with
      | error result => rfl
      | ok pair =>
        obtain ⟨ch, rest⟩ := pair
        dsimp only
        rw [if_neg (not_lt.mpr (writeUTF8_length ch).2)]
        by_cases fits : (writeUTF8 ch).length ≤ room
        · rw [if_neg (not_lt.mpr fits)]
          exact (if_pos fits).symm
        · rw [if_pos (not_le.mp fits)]
          exact (if_neg fits).symm
  consumes source units rest taken := by
    obtain ⟨used, takes, split, -⟩ := utf16Turn_ok taken
    exact ⟨used, List.ne_nil_of_length_pos (takesUnits_length takes).1, split⟩
  honest source := by
    cases source with
    | nil => simp [utf16Turn]
    | cons unit source =>
      rw [utf16Turn]
      cases read : readUTF16 strict unit source with
      | error result => rcases readUTF16_error read with rfl | rfl <;> simp
      | ok pair => simp [(writeUTF8_length pair.1).2]

theorem utf16Turn_short (source : List UInt16) (units : List UInt8) (rest : List UInt16)
    (taken : utf16Turn strict room source = .ok (units, rest)) :
    units.length + 3 * rest.length ≤ 3 * source.length := by
  obtain ⟨used, takes, rfl, -⟩ := utf16Turn_ok taken
  have := (takesUnits_length takes).2.2
  rw [List.length_append]
  omega

/-! ## Whole conversions -/

theorem turns_reads (strict : Bool) {text : List Char} (reads : Reads bytes text) :
    Turns (utf8Turn strict 2) bytes (utf16 text) [] := by
  induction reads with
  | nil => exact .done []
  | @cons bytes character rest text takes _ ih =>
    have taken := utf8Turn_takes takes strict 2 rest
    rw [if_pos (lengths character).2.1] at taken
    exact .turn taken ih

theorem turns_utf16 (strict : Bool) (text : List Char) :
    Turns (utf16Turn strict 4) (utf16 text) (utf8 text) [] := by
  induction text with
  | nil => exact .done []
  | cons character text ih =>
    have taken := utf16Turn_char strict 4 character (utf16 text)
    rw [if_pos (lengths character).2.2.2] at taken
    exact .turn taken ih

/-- The sequences that have been read. -/
theorem utf8_parts {source rest : List UInt8} {out : List UInt16}
    (turns : Turns (utf8Turn strict 2) source out rest) :
    ∃ parts : List (List UInt8 × Char), source = parts.flatMap Prod.fst ++ rest ∧
      out = utf16 (parts.map Prod.snd) ∧ ∀ part ∈ parts, Takes part.1 part.2 := by
  induction turns with
  | done source => exact ⟨[], rfl, rfl, fun _ member => absurd member List.not_mem_nil⟩
  | turn taken _ ih =>
    obtain ⟨bytes, character, takes, rfl, rfl⟩ := utf8Turn_ok taken
    obtain ⟨parts, split, written, all⟩ := ih
    refine ⟨(bytes, character) :: parts, ?_, ?_, List.forall_mem_cons.mpr ⟨takes, all⟩⟩
    · rw [split, List.flatMap_cons, List.append_assoc]
    · rw [written]
      rfl

theorem utf16_parts {source rest : List UInt16} {out : List UInt8}
    (turns : Turns (utf16Turn strict 4) source out rest) :
    ∃ parts : List (List UInt16 × List UInt8), source = parts.flatMap Prod.fst ++ rest ∧
      out = parts.flatMap Prod.snd ∧ (∀ part ∈ parts, TakesUnits strict part.1 part.2) ∧
      ¬ SplitsPair (parts.flatMap Prod.fst) rest := by
  induction turns with
  | done source =>
    refine ⟨[], rfl, rfl, fun _ member => absurd member List.not_mem_nil, ?_⟩
    rintro ⟨front, lead, -, -, same, -⟩
    exact absurd same (by simp)
  | @turn source bytes next out last taken more ih =>
    obtain ⟨units, takes, rfl, whole⟩ := utf16Turn_ok taken
    obtain ⟨parts, split, written, all, stays⟩ := ih
    refine ⟨(units, bytes) :: parts, ?_, ?_, List.forall_mem_cons.mpr ⟨takes, all⟩, ?_⟩
    · rw [split, List.flatMap_cons, List.append_assoc]
    · rw [written]
      rfl
    · rintro ⟨front, lead, trail, behind, same, start, isLead, isTrail⟩
      rcases List.eq_nil_or_concat (parts.flatMap Prod.fst) with empty | ⟨front', lead', ended⟩
      · rw [List.flatMap_cons, empty, List.append_nil] at same
        rw [empty, List.nil_append] at split
        exact whole ⟨front, lead, trail, behind, same, split.trans start, isLead, isTrail⟩
      · rw [List.concat_eq_append] at ended
        rw [List.flatMap_cons, ended, ← List.append_assoc] at same
        obtain ⟨-, equal⟩ := List.append_inj' same rfl
        refine stays ⟨front', lead', trail, behind, ended, start, ?_, isTrail⟩
        rw [List.singleton_inj.mp equal]
        exact isLead

/-- Everything is read in well-formed strings and in those with low second bytes. -/
theorem converts_iff (strict : Bool) {room : Nat} (enough : bytes.length ≤ room) :
    (convertUTF8ToUTF16 strict room bytes).result = .conversionOK ↔
      WellFormed bytes ∨ LowSecondRead bytes := by
  constructor
  · intro done
    obtain ⟨turns, -, ends⟩ := @convert_spec _ _ _ .conversionOK _ _ _
      (utf8Turn_bounded strict) room bytes
    obtain ⟨parts, split, -, all⟩ := utf8_parts turns
    have whole : (convertUTF8ToUTF16 strict room bytes).source = [] := by
      unfold Stops at ends
      split_ifs at ends with empty
      · exact empty
      · rcases utf8Turn_cases (convertUTF8ToUTF16 strict room bytes).source with
          ⟨result, kind, stops⟩ | ⟨used, character, rest, takes, same⟩
        · have stopped := stops strict 2
          unfold convertUTF8ToUTF16 at stopped done
          rw [stopped, done] at ends
          rcases kind with rfl | rfl <;> cases ends
        · have taken := utf8Turn_takes takes strict 2 rest
          rw [if_pos (lengths character).2.1, ← same] at taken
          unfold convertUTF8ToUTF16 at taken done
          rw [taken, done] at ends
          cases ends.2
    unfold convertUTF8ToUTF16 at whole
    rw [whole, List.append_nil] at split
    refine readable_iff.mp ⟨parts.map Prod.snd, ?_⟩
    rw [split]
    clear split
    induction parts with
    | nil => exact .nil
    | cons part parts ih =>
      obtain ⟨takes, others⟩ := List.forall_mem_cons.mp all
      exact .cons takes (ih others)
  · intro either
    obtain ⟨text, reads⟩ := readable_iff.mpr either
    have turns := turns_reads strict reads
    have bound := turns.length_le utf8Turn_short
    rw [List.length_nil] at bound
    have made : convertUTF8ToUTF16 strict room _ = _ :=
      convert_done (utf8Turn_bounded strict) turns (by omega)
    rw [made]

/-- Stopped for want of room, a converter stands at a boundary, and what it makes of the rest with
enough room completes what it would have made of everything. -/
def Resumes {σ τ : Type} (k : Nat) (converter : Nat → List σ → Conversion σ τ ConversionResult)
    (boundary : List τ → List σ → Prop) (source : List σ) : Prop :=
  ∀ room, (converter room source).result = .targetExhausted →
    boundary (converter room source).target (converter room source).source ∧
    ∀ enough enough', k * source.length ≤ enough →
      k * (converter room source).source.length ≤ enough' →
      converter enough source =
        (converter enough' (converter room source).source).after (converter room source).target

/-- Between two sequences, and between the units of two characters. -/
def UTF8Boundary (bytes : List UInt8) (written : List UInt16) (rest : List UInt8) : Prop :=
  ∃ parts : List (List UInt8 × Char), bytes = parts.flatMap Prod.fst ++ rest ∧
    written = utf16 (parts.map Prod.snd) ∧
    ∀ part ∈ parts, part.1 = String.utf8EncodeChar part.2 ∨ LowSecond part.1

/-- Between two characters or lone surrogates, not in a pair. -/
def UTF16Boundary (strict : Bool) (units : List UInt16) (written : List UInt8)
    (rest : List UInt16) : Prop :=
  ∃ parts : List (List UInt16 × List UInt8), units = parts.flatMap Prod.fst ++ rest ∧
    written = parts.flatMap Prod.snd ∧ (∀ part ∈ parts, TakesUnits strict part.1 part.2) ∧
    ¬ SplitsPair (parts.flatMap Prod.fst) rest

/-- What is expected of the converters for a text, a byte string and a string of UTF-16 units. -/
structure ConvertsRightly (text : List Char) (bytes : List UInt8) (units : List UInt16) : Prop where
  encodes : ∀ room, (utf8 text).length ≤ room →
    convertUTF16ToUTF8 true room (utf16 text) = ⟨.conversionOK, [], utf8 text⟩
  decodes : ∀ strict room, (utf16 text).length ≤ room →
    convertUTF8ToUTF16 strict room (utf8 text) = ⟨.conversionOK, [], utf16 text⟩
  accepts : ∀ strict room, bytes.length ≤ room →
    ((convertUTF8ToUTF16 strict room bytes).result = .conversionOK ↔ WellFormed bytes)
  resumesUTF8 : ∀ strict,
    Resumes 1 (convertUTF8ToUTF16 strict) (UTF8Boundary bytes) bytes
  resumesUTF16 : ∀ strict,
    Resumes 3 (convertUTF16ToUTF8 strict) (UTF16Boundary strict units) units

theorem utf8_resumes (strict : Bool) (bytes : List UInt8) :
    Resumes 1 (convertUTF8ToUTF16 strict) (UTF8Boundary bytes) bytes := by
  intro room _
  have bounded := utf8Turn_bounded strict
  refine ⟨?_, fun enough enough' => convert_resume_enough bounded (by decide) utf8Turn_short⟩
  obtain ⟨turns, -⟩ := @convert_spec _ _ _ .conversionOK _ _ _ bounded room bytes
  obtain ⟨parts, split, written, all⟩ := utf8_parts turns
  exact ⟨parts, split, written, fun part member => takes_cases (all part member)⟩

theorem utf16_resumes (strict : Bool) (units : List UInt16) :
    Resumes 3 (convertUTF16ToUTF8 strict) (UTF16Boundary strict units) units := by
  intro room _
  have bounded := utf16Turn_bounded strict
  refine ⟨?_, fun enough enough' => convert_resume_enough bounded (by decide) utf16Turn_short⟩
  obtain ⟨turns, -⟩ := @convert_spec _ _ _ .conversionOK _ _ _ bounded room units
  exact utf16_parts turns

/-- **Only low second bytes are taken for well-formed.** -/
theorem converts_rightly_iff (text : List Char) (bytes : List UInt8) (units : List UInt16) :
    ConvertsRightly text bytes units ↔ ¬ LowSecondRead bytes := by
  constructor
  · rintro ⟨-, -, accepts, -, -⟩ low
    have done := (converts_iff true le_rfl).mpr (.inr low)
    exact lowSecondRead_not_wellFormed low ((accepts true _ le_rfl).mp done)
  · intro safe
    refine ⟨?_, ?_, ?_, fun strict => utf8_resumes strict bytes,
      fun strict => utf16_resumes strict units⟩
    · intro room enough
      exact convert_done (utf16Turn_bounded true) (turns_utf16 true text) enough
    · intro strict room enough
      exact convert_done (utf8Turn_bounded strict) (turns_reads strict (reads_utf8 text)) enough
    · intro strict room enough
      rw [converts_iff strict enough]
      exact or_iff_left safe

/-- The bytes `ED 41 80` are converted to U+C040. -/
theorem low_second_converted :
    ¬ ∀ text bytes units, ConvertsRightly text bytes units := by
  intro all
  have wellFormed := ((all [] [0xED, 0x41, 0x80] []).accepts true 3 (by decide)).mp (by decide)
  have low : LowSecondRead [0xED, 0x41, 0x80] := by
    have is : LowSecond [0xED, 0x41, 0x80] := .three (by decide) (by decide)
    exact ⟨[[0xED, 0x41, 0x80]], rfl, by simpa using .inr is, _, List.mem_singleton.mpr rfl, is⟩
  exact lowSecondRead_not_wellFormed low wellFormed

end NetRider.Wtf.Unicode
