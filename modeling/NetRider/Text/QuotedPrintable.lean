import NetRider.Wtf.HexNumber

/-!
# Quoted-printable

The encoder keeps the length of the current line. A character that is not the last one leaves
room for the equals sign of a soft line break.
-/

namespace NetRider.Text.QuotedPrintable

open NetRider.Lib NetRider.Wtf.HexNumber

def maximumLineLength : Nat := 76

def crlfLineEnding : List UInt8 := [0x0D, 0x0A]

/-- `lengthOfLineEndingAtIndex`, for the input from the index on. -/
def lengthOfLineEnding : List UInt8 → Nat
  | [] => 0
  | c :: rest =>
    if c = 0x0A then 1
    else if c = 0x0D then if rest.head? = some 0x0A then 2 else 1
    else 0

def isBlank (c : UInt8) : Bool := c == 0x09 || c == 0x20

/-- The character is not printable, or an equals sign, or white space at the end of a line. A
`char` above 0x7F is below the space where it is signed. -/
def requiresEncoding (c : UInt8) (rest : List UInt8) : Bool :=
  ((c < 0x20 || c > 0x7E || c == 0x3D) && c != 0x09) ||
    (isBlank c && (rest = [] || lengthOfLineEnding rest ≠ 0))

/-- What is inserted for a character. -/
def encodeCharacter (c : UInt8) (encodes : Bool) : List UInt8 :=
  if encodes then [0x3D, upperNibbleToASCIIHexDigit c, lowerNibbleToASCIIHexDigit c] else [c]

def encodedLength (encodes : Bool) : Nat := if encodes then 3 else 1

/-- The loop of `quotedPrintableEncode`. -/
def encodeLoop (currentLineLength : Nat) : List UInt8 → List UInt8
  | [] => []
  | c :: rest =>
    if rest ≠ [] ∧ lengthOfLineEnding (c :: rest) ≠ 0 then
      crlfLineEnding ++ encodeLoop 0 (rest.drop (lengthOfLineEnding (c :: rest) - 1))
    else
      let encodes := requiresEncoding c rest
      let lengthOfEncodedCharacter := encodedLength encodes + if rest = [] then 0 else 1
      if currentLineLength + lengthOfEncodedCharacter > maximumLineLength then
        0x3D :: crlfLineEnding ++ encodeCharacter c encodes ++
          encodeLoop (encodedLength encodes) rest
      else
        encodeCharacter c encodes ++ encodeLoop (currentLineLength + encodedLength encodes) rest
termination_by input => input.length
decreasing_by all_goals (simp only [List.length_cons, List.length_drop]; omega)

def quotedPrintableEncode (input : List UInt8) : List UInt8 := encodeLoop 0 input

def quotedPrintableDecode : List UInt8 → List UInt8
  | [] => []
  | [c] => [c]
  | [c, d] => c :: quotedPrintableDecode [d]
  | c :: upperCharacter :: lowerCharacter :: rest =>
    if c ≠ 0x3D then c :: quotedPrintableDecode (upperCharacter :: lowerCharacter :: rest)
    else if upperCharacter = 0x0D ∧ lowerCharacter = 0x0A then quotedPrintableDecode rest
    else if !isASCIIHexDigit upperCharacter || !isASCIIHexDigit lowerCharacter then
      0x3D :: upperCharacter :: lowerCharacter :: quotedPrintableDecode rest
    else hexByte upperCharacter lowerCharacter :: quotedPrintableDecode rest

/-! ## Lines -/

/-- The lines of a text, split at CRLF. -/
def splitLines : List UInt8 → List (List UInt8)
  | [] => [[]]
  | [c] => [[c]]
  | c :: d :: rest =>
    if c = 0x0D ∧ d = 0x0A then [] :: splitLines rest
    else (splitLines (d :: rest)).modifyHead (c :: ·)

/-- Printable ASCII, tab, CR or LF. -/
def Printable (c : UInt8) : Prop := 0x20 ≤ c ∧ c ≤ 0x7E ∨ c = 0x09 ∨ c = 0x0D ∨ c = 0x0A

instance (c : UInt8) : Decidable (Printable c) := inferInstanceAs (Decidable (_ ∨ _))

def EndsBlank (line : List UInt8) : Prop := ∃ c ∈ line.getLast?, isBlank c = true

/-- At most 76 characters, no white space at the end. -/
def GoodLine (line : List UInt8) : Prop := line.length ≤ 76 ∧ ¬ EndsBlank line

/-- Every line ending as CRLF, but for a CR or LF that is the last byte. -/
def normalizeLineEndings : List UInt8 → List UInt8
  | [] => []
  | [c] => [c]
  | c :: d :: rest =>
    if c = 0x0D ∧ d = 0x0A then 0x0D :: 0x0A :: normalizeLineEndings rest
    else if c = 0x0D ∨ c = 0x0A then 0x0D :: 0x0A :: normalizeLineEndings (d :: rest)
    else c :: normalizeLineEndings (d :: rest)

/-! ## One character -/

variable {c : UInt8} {encodes : Bool} {currentLineLength : Nat} {line rest input : List UInt8}

/-- Within a line. -/
def Inner (c : UInt8) : Prop := Printable c ∧ c ≠ 0x0D ∧ c ≠ 0x0A

instance : Decidable (Inner c) := inferInstanceAs (Decidable (_ ∧ _))

theorem length_encodeCharacter : (encodeCharacter c encodes).length = encodedLength encodes := by
  cases encodes <;> rfl

theorem encodedLength_le : encodedLength encodes ≤ 3 := by
  cases encodes <;> decide

theorem nibble_characters (c : UInt8) :
    Inner (upperNibbleToASCIIHexDigit c) ∧ Inner (lowerNibbleToASCIIHexDigit c) ∧
      isBlank (lowerNibbleToASCIIHexDigit c) = false := by
  revert c
  exact forall_byte (by decide)

theorem raw_character (c : UInt8) :
    ((c < 0x20 || c > 0x7E || c == 0x3D) && c != 0x09) = false → Inner c ∧ c ≠ 0x3D := by
  revert c
  exact forall_byte (by decide)

theorem requiresEncoding_false (raw : requiresEncoding c rest = false) :
    Inner c ∧ c ≠ 0x3D ∧ (isBlank c = true → rest ≠ [] ∧ lengthOfLineEnding rest = 0) := by
  simp only [requiresEncoding, Bool.or_eq_false_iff] at raw
  obtain ⟨printable, blank⟩ := raw
  obtain ⟨inner, plain⟩ := raw_character c printable
  refine ⟨inner, plain, fun isBlank => ?_⟩
  simpa [isBlank] using blank

theorem encodeCharacter_inner : ∀ d ∈ encodeCharacter c (requiresEncoding c rest), Inner d := by
  intro d member
  cases encodes : requiresEncoding c rest with
  | false =>
    rw [encodes] at member
    rw [List.mem_singleton.mp member]
    exact (requiresEncoding_false encodes).1
  | true =>
    rw [encodes] at member
    obtain ⟨upper, lower, -⟩ := nibble_characters c
    simp only [encodeCharacter, if_true, List.mem_cons, List.not_mem_nil, or_false] at member
    rcases member with rfl | rfl | rfl
    · decide
    · exact upper
    · exact lower

/-- White space is left only where the line goes on. -/
theorem encodeCharacter_blank (line : List UInt8)
    (blank : EndsBlank (line ++ encodeCharacter c (requiresEncoding c rest))) :
    rest ≠ [] ∧ lengthOfLineEnding rest = 0 := by
  obtain ⟨d, last, blank⟩ := blank
  cases encodes : requiresEncoding c rest with
  | false =>
    rw [encodes] at last
    simp only [encodeCharacter, Bool.false_eq_true, if_false, List.getLast?_concat,
      Option.mem_def, Option.some.injEq] at last
    exact (requiresEncoding_false encodes).2.2 (last ▸ blank)
  | true =>
    rw [encodes] at last
    simp [encodeCharacter] at last
    rw [← last, (nibble_characters c).2.2] at blank
    cases blank

/-! ## The lines of the output -/

theorem splitLines_cons (other : c ≠ 0x0D) :
    splitLines (c :: rest) = (splitLines rest).modifyHead (c :: ·) := by
  cases rest with
  | nil => rfl
  | cons d rest => rw [splitLines, if_neg fun both => other both.1]

theorem splitLines_line (inner : ∀ d ∈ line, Inner d) : splitLines line = [line] := by
  induction line with
  | nil => rfl
  | cons c line ih =>
    rw [splitLines_cons (inner c List.mem_cons_self).2.1,
      ih fun d member => inner d (List.mem_cons_of_mem c member)]
    rfl

theorem splitLines_crlf (inner : ∀ d ∈ line, Inner d) :
    splitLines (line ++ (crlfLineEnding ++ rest)) = line :: splitLines rest := by
  induction line with
  | nil => rw [List.nil_append, crlfLineEnding, List.cons_append, List.cons_append, splitLines]; rfl
  | cons c line ih =>
    rw [List.cons_append, splitLines_cons (inner c List.mem_cons_self).2.1,
      ih fun d member => inner d (List.mem_cons_of_mem c member)]
    rfl

/-- The current line: its last character is white space only before another character, and it
leaves room for a soft line break. -/
structure Current (line input : List UInt8) : Prop where
  inner : ∀ d ∈ line, Inner d
  room : line.length ≤ if input = [] then 76 else 75
  blank : EndsBlank line → input ≠ [] ∧ lengthOfLineEnding input = 0

theorem inner_equals : ∀ d ∈ [0x3D], Inner d := by
  rw [List.forall_mem_singleton]
  decide

theorem current_nil : Current [] input := by
  refine ⟨by simp, by simp, ?_⟩
  rintro ⟨d, last, -⟩
  cases last

theorem current_append (inner : ∀ d ∈ line, Inner d)
    (room : line.length + (encodedLength (requiresEncoding c rest) + if rest = [] then 0 else 1)
      ≤ maximumLineLength) :
    Current (line ++ encodeCharacter c (requiresEncoding c rest)) rest := by
  refine ⟨List.forall_mem_append.mpr ⟨inner, encodeCharacter_inner⟩, ?_,
    encodeCharacter_blank line⟩
  rw [List.length_append, length_encodeCharacter]
  unfold maximumLineLength at room
  split_ifs at room ⊢ <;> omega

theorem goodLine_soft (current : Current line (c :: rest)) : GoodLine (line ++ [0x3D]) := by
  constructor
  · have room := current.room
    simp at room ⊢
    omega
  · rintro ⟨d, last, blank⟩
    rw [List.getLast?_concat] at last
    cases last
    cases blank

theorem goodLine_hard (current : Current line input) (ends : lengthOfLineEnding input ≠ 0) :
    GoodLine line := by
  refine ⟨current.room.trans ?_, fun blank => ends (current.blank blank).2⟩
  split_ifs <;> decide

theorem lines_good (length : line.length = currentLineLength) (current : Current line input) :
    ∀ l ∈ splitLines (line ++ encodeLoop currentLineLength input), GoodLine l := by
  fun_induction encodeLoop currentLineLength input generalizing line with
  | case1 =>
    have last : GoodLine line :=
      ⟨by simpa using current.room, fun blank => (current.blank blank).1 rfl⟩
    rw [List.append_nil, splitLines_line current.inner]
    simpa using last
  | case2 _ c rest hard ih =>
    rw [splitLines_crlf current.inner]
    exact List.forall_mem_cons.mpr ⟨goodLine_hard current hard.2, ih rfl current_nil⟩
  | case3 _ c rest soft encodes _ full =>
    rename_i ih
    have next : Current (encodeCharacter c encodes) rest := by
      refine @current_append _ [] _ (by simp) ?_
      have short := @encodedLength_le encodes
      change 0 + (encodedLength encodes + _) ≤ 76
      split_ifs <;> omega
    have split : line ++ (0x3D :: crlfLineEnding ++ encodeCharacter c encodes ++
        encodeLoop (encodedLength encodes) rest) = line ++ [0x3D] ++ (crlfLineEnding ++
          (encodeCharacter c encodes ++ encodeLoop (encodedLength encodes) rest)) := by simp
    rw [split, splitLines_crlf (List.forall_mem_append.mpr ⟨current.inner, inner_equals⟩)]
    exact List.forall_mem_cons.mpr ⟨goodLine_soft current, ih length_encodeCharacter next⟩
  | case4 _ c rest soft encodes _ fits =>
    rename_i ih
    subst length
    rw [← List.append_assoc]
    apply ih
    · rw [List.length_append, length_encodeCharacter]
    · exact current_append current.inner (not_lt.mp fits)

theorem encodeLoop_printable : ∀ d ∈ encodeLoop currentLineLength input, Printable d := by
  have crlf : ∀ d ∈ 0x3D :: crlfLineEnding, Printable d := by
    simp only [crlfLineEnding, List.forall_mem_cons, List.not_mem_nil, false_implies,
      implies_true, and_true]
    decide
  fun_induction encodeLoop currentLineLength input with
  | case1 => simp
  | case2 _ c rest hard ih =>
    exact List.forall_mem_append.mpr ⟨fun d member => crlf d (List.mem_cons_of_mem _ member), ih⟩
  | case3 _ c rest soft encodes lengthOfEncodedCharacter full ih =>
    exact List.forall_mem_append.mpr ⟨List.forall_mem_append.mpr
      ⟨crlf, fun d member => (encodeCharacter_inner d member).1⟩, ih⟩
  | case4 _ c rest soft encodes lengthOfEncodedCharacter fits ih =>
    exact List.forall_mem_append.mpr ⟨fun d member => (encodeCharacter_inner d member).1, ih⟩

/-! ## Decoding -/

theorem decode_cons (plain : c ≠ 0x3D) :
    quotedPrintableDecode (c :: rest) = c :: quotedPrintableDecode rest := by
  match rest with
  | [] => rfl
  | [d] => rfl
  | d :: e :: rest => rw [quotedPrintableDecode, if_pos plain]

theorem decode_soft :
    quotedPrintableDecode (0x3D :: crlfLineEnding ++ rest) = quotedPrintableDecode rest := by
  rw [crlfLineEnding, List.cons_append, List.cons_append, List.cons_append, List.nil_append,
    quotedPrintableDecode, if_neg (by simp), if_pos ⟨rfl, rfl⟩]

theorem decode_encodeCharacter :
    quotedPrintableDecode (encodeCharacter c (requiresEncoding c input) ++ rest) =
      c :: quotedPrintableDecode rest := by
  cases encodes : requiresEncoding c input with
  | false => exact decode_cons (requiresEncoding_false encodes).2.1
  | true =>
    have digits := nibble_isASCIIHexDigit c
    have upper := (nibble_characters c).1
    simp only [encodeCharacter, if_true, List.cons_append, List.nil_append]
    rw [quotedPrintableDecode, if_neg (by simp), if_neg fun both => upper.2.1 both.1,
      if_neg (by simp [digits]), hexByte_nibbles]

/-- A character that begins no line ending, or the last one. -/
theorem normalizeLineEndings_soft (soft : ¬ (rest ≠ [] ∧ lengthOfLineEnding (c :: rest) ≠ 0)) :
    normalizeLineEndings (c :: rest) = c :: normalizeLineEndings rest := by
  cases rest with
  | nil => rfl
  | cons d rest =>
    have none : lengthOfLineEnding (c :: d :: rest) = 0 := by simpa using soft
    simp only [lengthOfLineEnding] at none
    split_ifs at none with feed return_ both
    rw [normalizeLineEndings, if_neg fun both => return_ both.1,
      if_neg (by simp [feed, return_])]

theorem normalizeLineEndings_hard (hard : rest ≠ [] ∧ lengthOfLineEnding (c :: rest) ≠ 0) :
    normalizeLineEndings (c :: rest) = crlfLineEnding ++
      normalizeLineEndings (rest.drop (lengthOfLineEnding (c :: rest) - 1)) := by
  cases rest with
  | nil => exact absurd rfl hard.1
  | cons d rest =>
    rw [normalizeLineEndings]
    simp only [lengthOfLineEnding, List.head?_cons, Option.some.injEq] at hard ⊢
    by_cases feed : c = 0x0A
    · simp [feed, crlfLineEnding]
    · by_cases return_ : c = 0x0D
      · by_cases both : d = 0x0A <;> simp [return_, both, crlfLineEnding]
      · simp [feed, return_] at hard

theorem decode_encodeLoop : quotedPrintableDecode (encodeLoop currentLineLength input) =
    normalizeLineEndings input := by
  fun_induction encodeLoop currentLineLength input with
  | case1 => rfl
  | case2 _ c rest hard ih =>
    rw [normalizeLineEndings_hard hard, ← ih, crlfLineEnding, List.cons_append, List.cons_append,
      decode_cons (by decide), decode_cons (by decide)]
    rfl
  | case3 _ c rest soft encodes lengthOfEncodedCharacter full ih =>
    rw [normalizeLineEndings_soft soft, ← ih, List.append_assoc, decode_soft,
      decode_encodeCharacter]
  | case4 _ c rest soft encodes lengthOfEncodedCharacter fits ih =>
    rw [normalizeLineEndings_soft soft, ← ih, decode_encodeCharacter]

/-- **Every line is short and ends in no white space, every byte is printable, and decoding gives
back the text with its line endings as CRLF.** -/
theorem quotedPrintable_sound (input : List UInt8) :
    (∀ l ∈ splitLines (quotedPrintableEncode input), GoodLine l) ∧
      (∀ d ∈ quotedPrintableEncode input, Printable d) ∧
      quotedPrintableDecode (quotedPrintableEncode input) = normalizeLineEndings input :=
  ⟨@lines_good _ [] _ rfl current_nil, encodeLoop_printable, decode_encodeLoop⟩

end NetRider.Text.QuotedPrintable
