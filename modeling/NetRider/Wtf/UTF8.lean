import NetRider.Lib.Bytes
import NetRider.Lib.Unicode

/-!
# UTF-8 sequences

The tests and the arithmetic that all functions on UTF-8 share. The test of the second byte has no
lower bound for the lead bytes `0xED` and `0xF4`.
-/

namespace NetRider.Wtf.Unicode

open Lib

def isASCII (c : UInt8) : Bool := c < 0x80

def inlineUTF8SequenceLengthNonASCII (b0 : UInt8) : Nat :=
  if b0 &&& 0xC0 ≠ 0xC0 then 0
  else if b0 &&& 0xE0 = 0xC0 then 2
  else if b0 &&& 0xF0 = 0xE0 then 3
  else if b0 &&& 0xF8 = 0xF0 then 4
  else 0

def inlineUTF8SequenceLength (b0 : UInt8) : Nat :=
  if isASCII b0 then 1 else inlineUTF8SequenceLengthNonASCII b0

/-- `case 4` and `case 3` of `isLegalUTF8`. -/
def trailLegal (a : UInt8) : Bool := !(a < 0x80 || a > 0xBF)

/-- `case 2` of `isLegalUTF8`. -/
def secondLegal (source a : UInt8) : Bool :=
  if a > 0xBF then false
  else if source = 0xE0 then !(a < 0xA0)
  else if source = 0xED then !(a > 0x9F)
  else if source = 0xF0 then !(a < 0x90)
  else if source = 0xF4 then !(a > 0x8F)
  else !(a < 0x80)

/-- `case 1` of `isLegalUTF8` and what follows it. -/
def firstLegal (source : UInt8) : Bool :=
  if source ≥ 0x80 ∧ source < 0xC2 then false else !(source > 0xF4)

/-- All cases fall through. -/
def isLegalUTF8 : List UInt8 → Bool
  | [a] => firstLegal a
  | [a, b] => secondLegal a b && firstLegal a
  | [a, b, c] => trailLegal c && secondLegal a b && firstLegal a
  | [a, b, c, d] => trailLegal d && trailLegal c && secondLegal a b && firstLegal a
  | _ => false

def offsetsFromUTF8 : Nat → Int
  | 2 => 0x3080
  | 3 => 0xE2080
  | 4 => 0x3C82080
  | _ => 0

def readUTF8Sequence (sequence : List UInt8) : Int :=
  sequence.foldl (fun character b => character * 64 + (b.toNat : Int)) 0 - offsetsFromUTF8 sequence.length

/-- A lead byte that needs a second byte of at least `0x80`, without one. -/
inductive LowSecond : List UInt8 → Prop
  | three {b c} : b < 0x80 → trailLegal c → LowSecond [0xED, b, c]
  | four {b c d} : b < 0x80 → trailLegal c → trailLegal d → LowSecond [0xF4, b, c, d]

/-- A sequence whose length is the one its first byte announces. -/
inductive Announced : List UInt8 → Prop
  | one {a} : a.toNat < 0x80 → Announced [a]
  | two {a b} : 0xC0 ≤ a.toNat → a.toNat < 0xE0 → Announced [a, b]
  | three {a b c} : 0xE0 ≤ a.toNat → a.toNat < 0xF0 → Announced [a, b, c]
  | four {a b c d} : 0xF0 ≤ a.toNat → a.toNat < 0xF8 → Announced [a, b, c, d]

/-! ## The tests as bounds -/

variable {a b c d : UInt8}

theorem isASCII_iff : isASCII a ↔ a.toNat < 0x80 := by
  rw [isASCII, decide_eq_true_iff, UInt8.lt_iff_toNat_lt]
  rfl

theorem trailLegal_iff : trailLegal a ↔ 0x80 ≤ a.toNat ∧ a.toNat ≤ 0xBF := by
  simp [trailLegal, UInt8.lt_iff_toNat_lt]

theorem firstLegal_iff :
    firstLegal a ↔ (a.toNat < 0x80 ∨ 0xC2 ≤ a.toNat) ∧ a.toNat ≤ 0xF4 := by
  unfold firstLegal
  simp only [ge_iff_le, gt_iff_lt, UInt8.le_iff_toNat_le, UInt8.lt_iff_toNat_lt,
    UInt8.reduceToNat]
  split_ifs
  · simp only [false_iff]
    omega
  · simp only [Bool.not_eq_true', decide_eq_false_iff_not]
    omega

theorem secondLegal_iff : secondLegal a b ↔
    b.toNat ≤ 0xBF ∧ (a.toNat = 0xE0 → 0xA0 ≤ b.toNat) ∧ (a.toNat = 0xED → b.toNat ≤ 0x9F) ∧
      (a.toNat = 0xF0 → 0x90 ≤ b.toNat) ∧ (a.toNat = 0xF4 → b.toNat ≤ 0x8F) ∧
      (a.toNat ≠ 0xED → a.toNat ≠ 0xF4 → 0x80 ≤ b.toNat) := by
  unfold secondLegal
  simp only [gt_iff_lt, UInt8.lt_iff_toNat_lt, ← UInt8.toNat_inj, UInt8.reduceToNat]
  split_ifs <;> simp only [false_iff, Bool.not_eq_true', decide_eq_false_iff_not] <;> omega

theorem inlineUTF8SequenceLength_eq (a : UInt8) : inlineUTF8SequenceLength a =
    if a.toNat < 0x80 then 1 else if a.toNat < 0xC0 then 0 else if a.toNat < 0xE0 then 2
    else if a.toNat < 0xF0 then 3 else if a.toNat < 0xF8 then 4 else 0 := by
  revert a
  exact forall_byte (by decide)

theorem inlineUTF8SequenceLength_nonASCII (other : ¬ isASCII a) :
    inlineUTF8SequenceLength a = inlineUTF8SequenceLengthNonASCII a :=
  if_neg other

/-! ## Legal sequences -/

theorem announced_of_length {bytes : List UInt8} (legal : isLegalUTF8 (a :: bytes))
    (length : (a :: bytes).length = inlineUTF8SequenceLength a) : Announced (a :: bytes) := by
  rw [inlineUTF8SequenceLength_eq] at length
  rcases bytes with _ | ⟨b, _ | ⟨c, _ | ⟨d, _ | _⟩⟩⟩
  · simp only [List.length_cons, List.length_nil] at length
    split_ifs at length <;> first | exact .one ‹_› | omega
  · simp only [List.length_cons, List.length_nil] at length
    split_ifs at length <;> first | exact .two (by omega) ‹_› | omega
  · simp only [List.length_cons, List.length_nil] at length
    split_ifs at length <;> first | exact .three (by omega) ‹_› | omega
  · simp only [List.length_cons, List.length_nil] at length
    split_ifs at length <;> first | exact .four (by omega) ‹_› | omega
  · exact absurd legal Bool.noConfusion

theorem Announced.length {bytes : List UInt8} (announced : Announced (a :: bytes)) :
    (a :: bytes).length = inlineUTF8SequenceLength a := by
  rw [inlineUTF8SequenceLength_eq]
  cases announced <;> simp only [List.length_cons, List.length_nil] <;> split_ifs <;> omega

/-- A legal sequence is the form of a character, or has a low second byte and is taken for one. -/
theorem legal_cases {bytes : List UInt8} (announced : Announced bytes) (legal : isLegalUTF8 bytes) :
    ∃ character : Char, readUTF8Sequence bytes = character.val.toNat ∧
      (bytes = String.utf8EncodeChar character ∨
        LowSecond bytes ∧ 0x80 ≤ character.val.toNat) := by
  cases announced with
  | @one a small =>
    have value := @val_ofNat a.toNat (by omega)
    refine ⟨Char.ofNat a.toNat, by simp [readUTF8Sequence, offsetsFromUTF8, value], .inl ?_⟩
    refine eq_utf8EncodeChar ?_
    rw [value]
    exact .one small
  | @two a b above below =>
    obtain ⟨second, first⟩ := Bool.and_eq_true_iff.mp legal
    rw [firstLegal_iff] at first
    rw [secondLegal_iff] at second
    have value := @val_ofNat ((a.toNat - 0xC0) * 64 + (b.toNat - 0x80)) (by omega)
    refine ⟨Char.ofNat ((a.toNat - 0xC0) * 64 + (b.toNat - 0x80)), ?_, .inl ?_⟩
    · simp only [readUTF8Sequence, offsetsFromUTF8, List.foldl_cons, List.foldl_nil,
        List.length_cons, List.length_nil, value]
      omega
    · refine eq_utf8EncodeChar ?_
      rw [value]
      have encoded := @Encodes.two ((a.toNat - 0xC0) * 64 + (b.toNat - 0x80)) (by omega) (by omega)
      rwa [show 0xC0 + ((a.toNat - 0xC0) * 64 + (b.toNat - 0x80)) / 64 = a.toNat by omega,
        show 0x80 + ((a.toNat - 0xC0) * 64 + (b.toNat - 0x80)) % 64 = b.toNat by omega] at encoded
  | @three a b c above below =>
    obtain ⟨both, first⟩ := Bool.and_eq_true_iff.mp legal
    obtain ⟨third, second⟩ := Bool.and_eq_true_iff.mp both
    rw [firstLegal_iff] at first
    rw [secondLegal_iff] at second
    rw [trailLegal_iff] at third
    obtain ⟨v, sum⟩ : ∃ v, v + 0xE2080 = a.toNat * 4096 + b.toNat * 64 + c.toNat :=
      ⟨a.toNat * 4096 + b.toNat * 64 + c.toNat - 0xE2080, by omega⟩
    have value := @val_ofNat v (by omega)
    refine ⟨Char.ofNat v, ?_, ?_⟩
    · simp only [readUTF8Sequence, offsetsFromUTF8, List.foldl_cons, List.foldl_nil,
        List.length_cons, List.length_nil, value]
      omega
    · rw [value]
      by_cases low : b.toNat < 0x80
      · have lead : a.toNat = 0xED := by omega
        obtain rfl : a = 0xED := UInt8.toNat_inj.mp lead
        exact .inr ⟨.three (UInt8.lt_iff_toNat_lt.mpr low) (trailLegal_iff.mpr third), by omega⟩
      · refine .inl (eq_utf8EncodeChar ?_)
        rw [value]
        have encoded := @Encodes.three v (by omega) (by omega)
        rwa [show 0xE0 + v / 4096 = a.toNat by omega,
          show 0x80 + v / 64 % 64 = b.toNat by omega,
          show 0x80 + v % 64 = c.toNat by omega] at encoded
  | @four a b c d above below =>
    obtain ⟨both, first⟩ := Bool.and_eq_true_iff.mp legal
    obtain ⟨trails, second⟩ := Bool.and_eq_true_iff.mp both
    obtain ⟨fourth, third⟩ := Bool.and_eq_true_iff.mp trails
    rw [firstLegal_iff] at first
    rw [secondLegal_iff] at second
    rw [trailLegal_iff] at third fourth
    obtain ⟨v, sum⟩ :
        ∃ v, v + 0x3C82080 = a.toNat * 262144 + b.toNat * 4096 + c.toNat * 64 + d.toNat :=
      ⟨a.toNat * 262144 + b.toNat * 4096 + c.toNat * 64 + d.toNat - 0x3C82080, by omega⟩
    have value := @val_ofNat v (by omega)
    refine ⟨Char.ofNat v, ?_, ?_⟩
    · simp only [readUTF8Sequence, offsetsFromUTF8, List.foldl_cons, List.foldl_nil,
        List.length_cons, List.length_nil, value]
      omega
    · rw [value]
      by_cases low : b.toNat < 0x80
      · have lead : a.toNat = 0xF4 := by omega
        obtain rfl : a = 0xF4 := UInt8.toNat_inj.mp lead
        exact .inr ⟨.four (UInt8.lt_iff_toNat_lt.mpr low) (trailLegal_iff.mpr third)
          (trailLegal_iff.mpr fourth), by omega⟩
      · refine .inl (eq_utf8EncodeChar ?_)
        rw [value]
        have encoded := @Encodes.four v (by omega) (by omega)
        rwa [show 0xF0 + v / 262144 = a.toNat by omega,
          show 0x80 + v / 4096 % 64 = b.toNat by omega,
          show 0x80 + v / 64 % 64 = c.toNat by omega,
          show 0x80 + v % 64 = d.toNat by omega] at encoded

theorem lowSecond_legal {bytes : List UInt8} (low : LowSecond bytes) :
    Announced bytes ∧ isLegalUTF8 bytes := by
  cases low with
  | @three b c second third =>
    rw [UInt8.lt_iff_toNat_lt] at second
    have small : b.toNat < 0x80 := second
    refine ⟨.three (by decide) (by decide), ?_⟩
    have legal : secondLegal 0xED b := by
      rw [secondLegal_iff]
      simp only [UInt8.reduceToNat]
      omega
    rw [isLegalUTF8, third, legal]
    rfl
  | @four b c d second third fourth =>
    rw [UInt8.lt_iff_toNat_lt] at second
    have small : b.toNat < 0x80 := second
    refine ⟨.four (by decide) (by decide), ?_⟩
    have legal : secondLegal 0xF4 b := by
      rw [secondLegal_iff]
      simp only [UInt8.reduceToNat]
      omega
    rw [isLegalUTF8, fourth, third, legal]
    rfl

/-- The form of a character is announced and legal. -/
theorem utf8EncodeChar_legal (character : Char) :
    Announced (String.utf8EncodeChar character) ∧
      isLegalUTF8 (String.utf8EncodeChar character) := by
  have valid := scalar_cases character
  have encoded := encodes_utf8EncodeChar character
  generalize String.utf8EncodeChar character = bytes at encoded ⊢
  generalize character.val.toNat = v at valid encoded
  generalize same : bytes.map UInt8.toNat = numbers at encoded
  cases encoded with
  | one small =>
    obtain ⟨a, rfl, rfl⟩ := List.map_eq_singleton_iff.mp same
    exact ⟨.one small, firstLegal_iff.mpr (by omega)⟩
  | two above below =>
    obtain ⟨a, more, rfl, first, rest⟩ := List.map_eq_cons_iff.mp same
    obtain ⟨b, rfl, second⟩ := List.map_eq_singleton_iff.mp rest
    refine ⟨.two (by omega) (by omega), ?_⟩
    rw [isLegalUTF8, secondLegal_iff.mpr (by omega), firstLegal_iff.mpr (by omega)]
    rfl
  | three above below =>
    obtain ⟨a, more, rfl, first, rest⟩ := List.map_eq_cons_iff.mp same
    obtain ⟨b, more', rfl, second, rest'⟩ := List.map_eq_cons_iff.mp rest
    obtain ⟨c, rfl, third⟩ := List.map_eq_singleton_iff.mp rest'
    refine ⟨.three (by omega) (by omega), ?_⟩
    rw [isLegalUTF8, trailLegal_iff.mpr (by omega), secondLegal_iff.mpr (by omega),
      firstLegal_iff.mpr (by omega)]
    rfl
  | four above below =>
    obtain ⟨a, more, rfl, first, rest⟩ := List.map_eq_cons_iff.mp same
    obtain ⟨b, more', rfl, second, rest'⟩ := List.map_eq_cons_iff.mp rest
    obtain ⟨c, more'', rfl, third, rest''⟩ := List.map_eq_cons_iff.mp rest'
    obtain ⟨d, rfl, fourth⟩ := List.map_eq_singleton_iff.mp rest''
    refine ⟨.four (by omega) (by omega), ?_⟩
    rw [isLegalUTF8, trailLegal_iff.mpr (by omega), trailLegal_iff.mpr (by omega),
      secondLegal_iff.mpr (by omega), firstLegal_iff.mpr (by omega)]
    rfl

/-- The second byte of a character is not low. -/
theorem utf8EncodeChar_not_low (character : Char) :
    ¬ LowSecond (String.utf8EncodeChar character) := by
  have encoded := encodes_utf8EncodeChar character
  intro low
  generalize String.utf8EncodeChar character = bytes at encoded low
  generalize same : bytes.map UInt8.toNat = numbers at encoded
  cases low with
  | @three b c second _ =>
    have small : b.toNat < 0x80 := UInt8.lt_iff_toNat_lt.mp second
    cases encoded <;> simp only [List.map_cons, List.map_nil, List.cons.injEq, reduceCtorEq,
      and_false] at same
    omega
  | @four b c d second _ _ =>
    have small : b.toNat < 0x80 := UInt8.lt_iff_toNat_lt.mp second
    cases encoded <;> simp only [List.map_cons, List.map_nil, List.cons.injEq, reduceCtorEq,
      and_false] at same
    omega

/-! ## Readable strings -/

variable {bytes : List UInt8} {character : Char} {text : List Char}

/-- What is read as a character. -/
def Takes (bytes : List UInt8) (character : Char) : Prop :=
  Announced bytes ∧ isLegalUTF8 bytes ∧ readUTF8Sequence bytes = character.val.toNat

theorem takes_cases (takes : Takes bytes character) :
    bytes = String.utf8EncodeChar character ∨ LowSecond bytes := by
  obtain ⟨announced, legal, read⟩ := takes
  obtain ⟨other, read', either⟩ := legal_cases announced legal
  have same : character = other := char_eq (Int.ofNat_inj.mp (read.symm.trans read'))
  rw [same]
  exact either.imp_right And.left

theorem takes_char (character : Char) : Takes (String.utf8EncodeChar character) character := by
  obtain ⟨announced, legal⟩ := utf8EncodeChar_legal character
  obtain ⟨other, read, either⟩ := legal_cases announced legal
  have same := utf8EncodeChar_injective
    (either.resolve_right fun low => utf8EncodeChar_not_low character low.1)
  exact ⟨announced, legal, by rw [read, same]⟩

theorem takes_low (low : LowSecond bytes) : ∃ character, Takes bytes character := by
  obtain ⟨announced, legal⟩ := lowSecond_legal low
  obtain ⟨character, read, -⟩ := legal_cases announced legal
  exact ⟨character, announced, legal, read⟩

theorem Announced.exists_cons (announced : Announced bytes) : ∃ a more, bytes = a :: more := by
  cases announced <;> exact ⟨_, _, rfl⟩

theorem takes_length (takes : Takes bytes character) :
    (utf16Units character).length ≤ bytes.length := by
  obtain ⟨first, second, -⟩ := lengths character
  rcases takes_cases takes with rfl | low
  · exact first
  · cases low with
    | three => exact second.trans (Nat.le_succ 2)
    | four => exact second.trans (by decide : 2 ≤ 4)

/-- The sequence at the beginning is cut off or not legal, or a character is read. -/
theorem takes_or_not (b0 : UInt8) (more : List UInt8) :
    (b0 :: more).length < inlineUTF8SequenceLength b0 ∨
    isLegalUTF8 ((b0 :: more).take (inlineUTF8SequenceLength b0)) = false ∨
    ∃ bytes character rest, Takes bytes character ∧ b0 :: more = bytes ++ rest := by
  by_cases short : (b0 :: more).length < inlineUTF8SequenceLength b0
  · exact .inl short
  cases legal : isLegalUTF8 ((b0 :: more).take (inlineUTF8SequenceLength b0)) with
  | false => exact .inr (.inl rfl)
  | true =>
    have size : ((b0 :: more).take (inlineUTF8SequenceLength b0)).length =
        inlineUTF8SequenceLength b0 := List.length_take_of_le (not_lt.mp short)
    have split := (List.take_append_drop (inlineUTF8SequenceLength b0) (b0 :: more)).symm
    obtain ⟨n, length⟩ : ∃ n, inlineUTF8SequenceLength b0 = n + 1 := by
      refine Nat.exists_eq_succ_of_ne_zero fun zero => ?_
      rw [zero] at legal
      exact Bool.noConfusion legal
    have head : (b0 :: more).take (inlineUTF8SequenceLength b0) = b0 :: more.take n := by
      rw [length, List.take_succ_cons]
    rw [head] at legal size
    have announced := announced_of_length legal size
    obtain ⟨character, read, -⟩ := legal_cases announced legal
    exact .inr (.inr ⟨_, character, _, ⟨announced, legal, read⟩, by rwa [head] at split⟩)

/-- Characters are read to the end. -/
inductive Reads : List UInt8 → List Char → Prop
  | nil : Reads [] []
  | cons {bytes character rest text} : Takes bytes character → Reads rest text →
    Reads (bytes ++ rest) (character :: text)

/-- A string in which everything can be read, though not as characters only. -/
def LowSecondRead (bytes : List UInt8) : Prop :=
  ∃ parts : List (List UInt8), parts.flatten = bytes ∧
    (∀ part ∈ parts, (∃ character, part = String.utf8EncodeChar character) ∨ LowSecond part) ∧
    ∃ part ∈ parts, LowSecond part

/-- The first byte of a sequence determines where it ends. -/
theorem announced_unique {first second rest rest' : List UInt8} (announced : Announced first)
    (announced' : Announced second) (same : first ++ rest = second ++ rest') :
    first = second ∧ rest = rest' := by
  refine List.append_inj same ?_
  obtain ⟨a, more, rfl⟩ := announced.exists_cons
  obtain ⟨b, more', rfl⟩ := announced'.exists_cons
  rw [announced.length, announced'.length, (List.cons.inj same).1]

theorem lowSecondRead_not_wellFormed (low : LowSecondRead bytes) : ¬ WellFormed bytes := by
  obtain ⟨parts, rfl, all, part, member, is⟩ := low
  rintro ⟨text, same⟩
  induction parts generalizing text with
  | nil => exact absurd member List.not_mem_nil
  | cons first parts ih =>
    obtain ⟨head, others⟩ := List.forall_mem_cons.mp all
    have announced : Announced first := by
      rcases head with ⟨character, rfl⟩ | low
      · exact (utf8EncodeChar_legal character).1
      · exact (lowSecond_legal low).1
    cases text with
    | nil =>
      obtain ⟨a, more, rfl⟩ := announced.exists_cons
      exact absurd same (by simp [utf8])
    | cons character text =>
      obtain ⟨rfl, rest⟩ :=
        announced_unique (utf8EncodeChar_legal character).1 announced same
      rcases List.mem_cons.mp member with rfl | later
      · exact utf8EncodeChar_not_low character is
      · exact ih others later text rest

theorem reads_utf8 (text : List Char) : Reads (utf8 text) text := by
  induction text with
  | nil => exact .nil
  | cons character text ih => exact .cons (takes_char character) ih

/-- What is read has been written as it should be, or has a low second byte. -/
theorem reads_cases (reads : Reads bytes text) : bytes = utf8 text ∨ LowSecondRead bytes := by
  induction reads with
  | nil => exact .inl rfl
  | @cons first character rest text takes _ ih =>
    have head := takes_cases takes
    rcases ih with rfl | ⟨parts, rfl, all, part, member, is⟩
    · rcases head with rfl | low
      · exact .inl rfl
      · refine .inr ⟨first :: text.map String.utf8EncodeChar, ?_, ?_, first,
          List.mem_cons_self .., low⟩
        · rw [List.flatten_cons, utf8, List.flatMap_def]
        · refine List.forall_mem_cons.mpr ⟨.inr low, ?_⟩
          rw [List.forall_mem_map]
          exact fun character _ => .inl ⟨character, rfl⟩
    · refine .inr ⟨first :: parts, rfl, List.forall_mem_cons.mpr ⟨?_, all⟩, part,
        List.mem_cons_of_mem _ member, is⟩
      exact head.imp_left fun same => ⟨character, same⟩

theorem lowSecondRead_reads (low : LowSecondRead bytes) : ∃ text, Reads bytes text := by
  obtain ⟨parts, rfl, all, -⟩ := low
  induction parts with
  | nil => exact ⟨[], .nil⟩
  | cons first parts ih =>
    obtain ⟨head, others⟩ := List.forall_mem_cons.mp all
    obtain ⟨text, reads⟩ := ih others
    rcases head with ⟨character, rfl⟩ | low
    · exact ⟨_, .cons (takes_char character) reads⟩
    · obtain ⟨character, takes⟩ := takes_low low
      exact ⟨_, .cons takes reads⟩

theorem readable_iff : (∃ text, Reads bytes text) ↔ WellFormed bytes ∨ LowSecondRead bytes := by
  constructor
  · rintro ⟨text, reads⟩
    exact (reads_cases reads).imp_left fun same => ⟨text, same.symm⟩
  · rintro (⟨text, rfl⟩ | low)
    · exact ⟨text, reads_utf8 text⟩
    · exact lowSecondRead_reads low

end NetRider.Wtf.Unicode
