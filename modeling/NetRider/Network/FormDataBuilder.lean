import NetRider.Wtf.HexNumber

/-!
# Encoding a form

Keys and values are byte strings. `encodeStringAsFormData` keeps the length of a string in 32
bits and looks for safe characters with `strchr`, which finds the terminator too.
-/

namespace NetRider.Network.FormDataBuilder

open NetRider.Lib NetRider.Wtf.HexNumber

abbrev CString := List UInt8

inductive EncodingType
  | formURLEncoded
  | textPlain
  | multipartFormData

def isASCIIAlphanumeric (c : UInt8) : Bool :=
  (c ≥ 0x41 && c ≤ 0x5A) || (c ≥ 0x61 && c ≤ 0x7A) || (c ≥ 0x30 && c ≤ 0x39)

/-- "-._*" -/
def safeCharacters : CString := [0x2D, 0x2E, 0x5F, 0x2A]

/-- Whether `strchr` finds the character or the terminator. -/
def strchr (string : CString) (c : UInt8) : Bool := c ∈ string ++ [0]

/-- What the loop of `encodeStringAsFormData` appends for one character. -/
def encodeCharacter (c : UInt8) (next : Option UInt8) : List UInt8 :=
  if isASCIIAlphanumeric c || strchr safeCharacters c then [c]
  else if c = 0x20 then [0x2B]
  else if c = 0x0A ∨ c = 0x0D ∧ next ≠ some 0x0A then [0x25, 0x30, 0x44, 0x25, 0x30, 0x41]
  else if c ≠ 0x0D then 0x25 :: appendByteAsHex c
  else []

def encodeLoop : CString → List UInt8
  | [] => []
  | c :: rest => encodeCharacter c rest.head? ++ encodeLoop rest

def encodeStringAsFormData (string : CString) : List UInt8 :=
  encodeLoop (string.take (string.length % 2 ^ 32))

def addKeyValuePairAsFormData (buffer : List UInt8) (key value : CString) :
    EncodingType → List UInt8
  | .textPlain => (if buffer = [] then [] else buffer ++ [0x0D, 0x0A]) ++ key ++ [0x3D] ++ value
  | _ =>
    (if buffer = [] then [] else buffer ++ [0x26]) ++ encodeStringAsFormData key ++ [0x3D] ++
      encodeStringAsFormData value

/-- The buffer after the pairs, from an empty one. -/
def buildFormData (encodingType : EncodingType) (pairs : List (CString × CString)) : List UInt8 :=
  pairs.foldl (fun buffer pair => addKeyValuePairAsFormData buffer pair.1 pair.2 encodingType) []

/-! ## Decoding -/

/-- A plus is a space, a percent sign with two digits a byte. -/
def decodeString : List UInt8 → CString
  | [] => []
  | [c] => [if c = 0x2B then 0x20 else c]
  | [c, d] => (if c = 0x2B then 0x20 else c) :: decodeString [d]
  | c :: upper :: lower :: rest =>
    if c = 0x25 ∧ isASCIIHexDigit upper ∧ isASCIIHexDigit lower then
      hexByte upper lower :: decodeString rest
    else (if c = 0x2B then 0x20 else c) :: decodeString (upper :: lower :: rest)

/-- The key ends at the first equals sign. -/
def decodePair (sequence : List UInt8) : CString × CString :=
  (decodeString (sequence.takeWhile (· ≠ 0x3D)),
    decodeString ((sequence.dropWhile (· ≠ 0x3D)).drop 1))

/-- `application/x-www-form-urlencoded`: the pairs between ampersands. -/
def decodeFormData (data : List UInt8) : List (CString × CString) :=
  ((data.splitOn 0x26).filter (· ≠ [])).map decodePair

/-- Every CR, LF or CRLF as CRLF. -/
def normalizeLineEndings : CString → CString
  | [] => []
  | [c] => if c = 0x0D ∨ c = 0x0A then [0x0D, 0x0A] else [c]
  | c :: d :: rest =>
    if c = 0x0D ∧ d = 0x0A then 0x0D :: 0x0A :: normalizeLineEndings rest
    else if c = 0x0D ∨ c = 0x0A then 0x0D :: 0x0A :: normalizeLineEndings (d :: rest)
    else c :: normalizeLineEndings (d :: rest)

def normalizePair (pair : CString × CString) : CString × CString :=
  (normalizeLineEndings pair.1, normalizeLineEndings pair.2)

/-! ## One character -/

variable {c : UInt8} {next : Option UInt8} {rest string : CString}

/-- Characters of the encoding: letters, digits and "-._*+%&=". -/
def Allowed (c : UInt8) : Prop :=
  isASCIIAlphanumeric c ∨ c ∈ ([0x2D, 0x2E, 0x5F, 0x2A, 0x2B, 0x25, 0x26, 0x3D] : List UInt8)

instance : Decidable (Allowed c) := inferInstanceAs (Decidable (_ ∨ _))

/-- Between the separators. -/
def Inner (c : UInt8) : Prop := c ≠ 0x26 ∧ c ≠ 0x3D

instance : Decidable (Inner c) := inferInstanceAs (Decidable (_ ∧ _))

theorem plain_character (c : UInt8) :
    (isASCIIAlphanumeric c || strchr safeCharacters c) = true →
      (Allowed c ∨ c = 0) ∧ Inner c ∧ c ≠ 0x25 ∧ c ≠ 0x2B ∧ c ≠ 0x0A ∧ c ≠ 0x0D := by
  revert c
  exact forall_byte (by decide)

theorem hex_characters (c : UInt8) : ∀ d ∈ appendByteAsHex c, Allowed d ∧ Inner d := by
  rw [appendByteAsHex, List.forall_mem_cons, List.forall_mem_singleton]
  revert c
  exact forall_byte (by decide)

theorem encodeCharacter_characters : ∀ d ∈ encodeCharacter c next,
    (Allowed d ∨ d = 0 ∧ c = 0) ∧ Inner d := by
  have known : ∀ d ∈ ([0x2B, 0x25, 0x30, 0x44, 0x25, 0x30, 0x41] : List UInt8),
      Allowed d ∧ Inner d := by
    simp only [List.forall_mem_cons, List.not_mem_nil, false_implies, implies_true, and_true]
    decide
  intro d member
  unfold encodeCharacter at member
  split_ifs at member with plain
  · rw [List.mem_singleton.mp member]
    obtain ⟨allowed, inner, -⟩ := plain_character c plain
    exact ⟨allowed.imp_right fun zero => ⟨zero, zero⟩, inner⟩
  · obtain ⟨allowed, inner⟩ := known d (by simp [List.mem_singleton.mp member])
    exact ⟨.inl allowed, inner⟩
  · obtain ⟨allowed, inner⟩ := known d (List.mem_cons_of_mem _ member)
    exact ⟨.inl allowed, inner⟩
  · rcases List.mem_cons.mp member with rfl | digit
    · exact ⟨.inl (by decide), by decide⟩
    · exact (hex_characters c d digit).imp_left .inl
  · cases member

theorem decodeString_cons (plain : c ≠ 0x25) :
    decodeString (c :: rest) = (if c = 0x2B then 0x20 else c) :: decodeString rest := by
  match rest with
  | [] => rfl
  | [d] => rfl
  | upper :: lower :: rest => rw [decodeString, if_neg fun escape => plain escape.1]

theorem decodeString_hex :
    decodeString (0x25 :: appendByteAsHex c ++ rest) = c :: decodeString rest := by
  have digits := nibble_isASCIIHexDigit c
  rw [appendByteAsHex_eq]
  change decodeString (0x25 :: upperNibbleToASCIIHexDigit c :: lowerNibbleToASCIIHexDigit c :: rest)
    = _
  rw [decodeString, if_pos ⟨rfl, digits⟩, hexByte_nibbles]

/-- What a character stands for. -/
def normalizeCharacter (c : UInt8) (next : Option UInt8) : List UInt8 :=
  if c = 0x0A ∨ c = 0x0D ∧ next ≠ some 0x0A then [0x0D, 0x0A] else if c ≠ 0x0D then [c] else []

theorem decodeString_encodeCharacter :
    decodeString (encodeCharacter c next ++ rest) =
      normalizeCharacter c next ++ decodeString rest := by
  unfold encodeCharacter normalizeCharacter
  by_cases plain : (isASCIIAlphanumeric c || strchr safeCharacters c) = true
  · obtain ⟨-, -, percent, plus, feed, return_⟩ := plain_character c plain
    rw [if_pos plain, if_neg (by simp [feed, return_]), if_pos return_]
    change decodeString (c :: rest) = _
    rw [decodeString_cons percent, if_neg plus]
    rfl
  · rw [if_neg plain]
    by_cases space : c = 0x20
    · subst space
      rw [if_pos rfl, if_neg (by simp), if_pos (by decide)]
      exact decodeString_cons (by decide)
    · rw [if_neg space]
      split_ifs
      · rfl
      · exact decodeString_hex
      · rfl

/-! ## Strings -/

theorem encodeLoop_characters : ∀ d ∈ encodeLoop string, (Allowed d ∨ d = 0 ∧ 0 ∈ string) ∧
    Inner d := by
  induction string with
  | nil => simp [encodeLoop]
  | cons c rest ih =>
    intro d member
    rcases List.mem_append.mp member with first | later
    · refine (encodeCharacter_characters d first).imp_left (.imp_right ?_)
      rintro ⟨zero, rfl⟩
      exact ⟨zero, List.mem_cons_self⟩
    · exact (ih d later).imp_left (.imp_right (.imp_right (List.mem_cons_of_mem c)))

/-- A null character gets through. -/
theorem zero_mem_encodeLoop (zero : 0 ∈ string) : 0 ∈ encodeLoop string := by
  induction string with
  | nil => cases zero
  | cons c rest ih =>
    rw [encodeLoop, List.mem_append]
    rcases List.mem_cons.mp zero with rfl | later
    · exact .inl List.mem_cons_self
    · exact .inr (ih later)

theorem normalizeLineEndings_feed :
    normalizeLineEndings (0x0A :: rest) = 0x0D :: 0x0A :: normalizeLineEndings rest := by
  cases rest with
  | nil => rfl
  | cons d rest => rw [normalizeLineEndings, if_neg (by simp), if_pos (.inr rfl)]

/-- Of a CRLF the loop leaves out the CR. -/
theorem normalizeLineEndings_cons : normalizeLineEndings (c :: rest) =
    normalizeCharacter c rest.head? ++ normalizeLineEndings rest := by
  unfold normalizeCharacter
  cases rest with
  | nil =>
    rw [normalizeLineEndings]
    by_cases feed : c = 0x0A
    · simp [feed, normalizeLineEndings]
    · by_cases return_ : c = 0x0D <;> simp [feed, return_, normalizeLineEndings]
  | cons d rest =>
    by_cases both : c = 0x0D ∧ d = 0x0A
    · obtain ⟨rfl, rfl⟩ := both
      rw [normalizeLineEndings, if_pos ⟨rfl, rfl⟩, normalizeLineEndings_feed]
      rfl
    · rw [normalizeLineEndings, if_neg both]
      by_cases feed : c = 0x0A
      · simp [feed]
      · by_cases return_ : c = 0x0D
        · have other : d ≠ 0x0A := fun same => both ⟨return_, same⟩
          simp [return_, other]
        · simp [feed, return_]

theorem decodeString_encodeLoop : decodeString (encodeLoop string) =
    normalizeLineEndings string := by
  induction string with
  | nil => rfl
  | cons c rest ih => rw [encodeLoop, decodeString_encodeCharacter, ih, normalizeLineEndings_cons]

theorem length_le_normalize : string.length ≤ (normalizeLineEndings string).length := by
  fun_induction normalizeLineEndings string <;> simp_all
  omega

theorem length_normalize_append (before after : CString) :
    (normalizeLineEndings before).length + after.length ≤
      (normalizeLineEndings (before ++ after)).length + 1 := by
  induction before with
  | nil =>
    have longer := @length_le_normalize after
    simp only [normalizeLineEndings, List.length_nil, List.nil_append]
    omega
  | cons c before ih =>
    cases before with
    | cons d before =>
      rw [List.cons_append, @normalizeLineEndings_cons c (d :: before),
        @normalizeLineEndings_cons c (d :: before ++ after), List.length_append,
        List.length_append]
      have same : (d :: before ++ after).head? = (d :: before).head? := rfl
      rw [same]
      omega
    | nil =>
      rw [List.singleton_append, normalizeLineEndings_cons, @normalizeLineEndings_cons c after]
      by_cases both : c = 0x0D ∧ after.head? = some 0x0A
      · obtain ⟨rfl, feed⟩ := both
        cases after with
        | nil => cases feed
        | cons d after =>
          cases feed
          have longer := @length_le_normalize after
          rw [normalizeLineEndings_feed]
          simp [normalizeCharacter, normalizeLineEndings]
          omega
      · have same : normalizeCharacter c after.head? = normalizeCharacter c none := by
          unfold normalizeCharacter
          by_cases return_ : c = 0x0D
          · have other : after.head? ≠ some 0x0A := fun feed => both ⟨return_, feed⟩
            simp [return_, other]
          · simp [return_]
        have longer := @length_le_normalize after
        simp only [List.head?_nil, same, normalizeLineEndings, List.length_append, List.length_nil]
        omega

theorem decodeString_encodeStringAsFormData : decodeString (encodeStringAsFormData string) =
    normalizeLineEndings (string.take (string.length % 2 ^ 32)) :=
  decodeString_encodeLoop

/-- The length loses its high bits. -/
theorem normalize_take_iff :
    normalizeLineEndings (string.take (string.length % 2 ^ 32)) = normalizeLineEndings string ↔
      string.length < 2 ^ 32 := by
  constructor
  · intro same
    by_contra long
    have longer := length_normalize_append (string.take (string.length % 2 ^ 32))
      (string.drop (string.length % 2 ^ 32))
    rw [List.take_append_drop, same, List.length_drop] at longer
    omega
  · intro short
    rw [Nat.mod_eq_of_lt short, List.take_length]

/-! ## Pairs -/

def encodePair (pair : CString × CString) : List UInt8 :=
  encodeStringAsFormData pair.1 ++ 0x3D :: encodeStringAsFormData pair.2

theorem inner_encodeStringAsFormData {d : UInt8} (member : d ∈ encodeStringAsFormData string) :
    Inner d :=
  (encodeLoop_characters d member).2

theorem buildFormData_behind {buffer : List UInt8} (nonempty : buffer ≠ [])
    (pairs : List (CString × CString)) :
    pairs.foldl (fun buffer pair =>
        addKeyValuePairAsFormData buffer pair.1 pair.2 .formURLEncoded) buffer =
      [0x26].intercalate (buffer :: pairs.map encodePair) := by
  induction pairs generalizing buffer with
  | nil => simp
  | cons pair pairs ih =>
    have step : addKeyValuePairAsFormData buffer pair.1 pair.2 .formURLEncoded =
        buffer ++ 0x26 :: encodePair pair := by
      simp [addKeyValuePairAsFormData, encodePair, nonempty]
    rw [List.foldl_cons, step, ih (by simp), List.map_cons, List.intercalate_cons_cons]
    cases pairs <;> simp

theorem buildFormData_eq (pairs : List (CString × CString)) :
    buildFormData .formURLEncoded pairs = [0x26].intercalate (pairs.map encodePair) := by
  cases pairs with
  | nil => rfl
  | cons pair pairs =>
    have first : addKeyValuePairAsFormData [] pair.1 pair.2 .formURLEncoded = encodePair pair := by
      simp [addKeyValuePairAsFormData, encodePair]
    rw [buildFormData, List.foldl_cons, first, buildFormData_behind (by simp [encodePair])]
    rfl

theorem decodePair_encodePair (pair : CString × CString) : decodePair (encodePair pair) =
    (decodeString (encodeStringAsFormData pair.1), decodeString (encodeStringAsFormData pair.2)) := by
  have inner : ∀ d ∈ encodeStringAsFormData pair.1, decide (d ≠ 0x3D) = true := fun d member =>
    decide_eq_true (inner_encodeStringAsFormData member).2
  unfold decodePair encodePair
  rw [List.takeWhile_append_of_pos inner, List.dropWhile_append_of_pos inner]
  simp

theorem decodeFormData_buildFormData (pairs : List (CString × CString)) :
    decodeFormData (buildFormData .formURLEncoded pairs) =
      pairs.map fun pair => (decodeString (encodeStringAsFormData pair.1),
        decodeString (encodeStringAsFormData pair.2)) := by
  have nonempty : ∀ pair ∈ pairs.map encodePair, decide (pair ≠ []) = true := by
    intro piece member
    obtain ⟨pair, -, rfl⟩ := List.mem_map.mp member
    simp [encodePair]
  have apart : ∀ piece ∈ pairs.map encodePair, (0x26 : UInt8) ∉ piece := by
    intro piece member ampersand
    obtain ⟨pair, -, rfl⟩ := List.mem_map.mp member
    rcases List.mem_append.mp ampersand with key | value
    · exact (inner_encodeStringAsFormData key).1 rfl
    · rcases List.mem_cons.mp value with equals | value
      · exact absurd equals (by decide)
      · exact (inner_encodeStringAsFormData value).1 rfl
  rw [buildFormData_eq, decodeFormData]
  cases pairs with
  | nil => rfl
  | cons pair pairs =>
    rw [List.splitOn_intercalate _ apart (by simp), List.filter_eq_self.mpr nonempty, List.map_map]
    exact List.map_congr_left fun pair _ => decodePair_encodePair pair

theorem mem_buildFormData {d : UInt8} {pairs : List (CString × CString)} :
    d ∈ buildFormData .formURLEncoded pairs →
      d = 0x26 ∨ ∃ pair ∈ pairs, d ∈ encodePair pair := by
  rw [buildFormData_eq]
  induction pairs with
  | nil => simp
  | cons pair pairs ih =>
    intro member
    cases pairs with
    | nil => exact .inr ⟨pair, List.mem_cons_self, by simpa using member⟩
    | cons next pairs =>
      rw [List.map_cons, List.map_cons, List.intercalate_cons_cons, List.append_assoc,
        List.mem_append, List.mem_append, List.mem_singleton] at member
      rcases member with first | ampersand | later
      · exact .inr ⟨pair, List.mem_cons_self, first⟩
      · exact .inl ampersand
      · refine (ih later).imp_right ?_
        rintro ⟨pair', member', inside⟩
        exact ⟨pair', List.mem_cons_of_mem _ member', inside⟩

theorem encodePair_mem {d : UInt8} {pairs : List (CString × CString)} {pair : CString × CString}
    (member : pair ∈ pairs) (inside : d ∈ encodePair pair) :
    d ∈ buildFormData .formURLEncoded pairs := by
  rw [buildFormData_eq]
  induction pairs with
  | nil => cases member
  | cons first pairs ih =>
    cases pairs with
    | nil =>
      rw [List.mem_singleton.mp member] at inside
      simpa using inside
    | cons next pairs =>
      rw [List.map_cons, List.map_cons, List.intercalate_cons_cons, List.append_assoc,
        List.mem_append, List.mem_append]
      rcases List.mem_cons.mp member with rfl | later
      · exact .inl inside
      · exact .inr (.inr (ih later))

/-! ## The encoding -/

/-- Only characters of the encoding, and the pairs come back with their line endings as CRLF. -/
def RoundTrips (pairs : List (CString × CString)) : Prop :=
  (∀ d ∈ buildFormData .formURLEncoded pairs, Allowed d) ∧
    decodeFormData (buildFormData .formURLEncoded pairs) = pairs.map normalizePair

/-- Within 32 bits of length and without null characters. -/
def Encodable (string : CString) : Prop := string.length < 2 ^ 32 ∧ 0 ∉ string

theorem encodable_of_allowed (short : string.length < 2 ^ 32)
    (allowed : ∀ d ∈ encodeStringAsFormData string, Allowed d) : Encodable string := by
  refine ⟨short, fun zero => ?_⟩
  rw [encodeStringAsFormData, Nat.mod_eq_of_lt short, List.take_length] at allowed
  exact absurd (allowed 0 (zero_mem_encodeLoop zero)) (by decide)

theorem allowed_of_encodable (encodable : Encodable string) {d : UInt8}
    (member : d ∈ encodeStringAsFormData string) : Allowed d := by
  rw [encodeStringAsFormData, Nat.mod_eq_of_lt encodable.1, List.take_length] at member
  rcases (encodeLoop_characters d member).1 with allowed | ⟨-, zero⟩
  · exact allowed
  · exact absurd zero encodable.2

/-- **A form is encoded and comes back just when its strings are short and have no null
characters.** -/
theorem roundTrips_iff {pairs : List (CString × CString)} :
    RoundTrips pairs ↔ ∀ pair ∈ pairs, Encodable pair.1 ∧ Encodable pair.2 := by
  have decoded : decodeFormData (buildFormData .formURLEncoded pairs) = pairs.map normalizePair ↔
      ∀ pair ∈ pairs, pair.1.length < 2 ^ 32 ∧ pair.2.length < 2 ^ 32 := by
    rw [decodeFormData_buildFormData, List.map_inj_left]
    refine forall₂_congr fun pair _ => ?_
    rw [normalizePair, Prod.mk.injEq, decodeString_encodeStringAsFormData,
      decodeString_encodeStringAsFormData, normalize_take_iff, normalize_take_iff]
  rw [RoundTrips, decoded]
  constructor
  · rintro ⟨allowed, short⟩ pair member
    constructor
    · refine encodable_of_allowed (short pair member).1 fun d inside => ?_
      exact allowed d (encodePair_mem member (List.mem_append_left _ inside))
    · refine encodable_of_allowed (short pair member).2 fun d inside => ?_
      exact allowed d (encodePair_mem member
        (List.mem_append_right _ (List.mem_cons_of_mem _ inside)))
  · intro encodable
    refine ⟨fun d member => ?_, fun pair member => ⟨(encodable pair member).1.1,
      (encodable pair member).2.1⟩⟩
    rcases mem_buildFormData member with rfl | ⟨pair, member', inside⟩
    · decide
    · rcases List.mem_append.mp inside with key | value
      · exact allowed_of_encodable (encodable pair member').1 key
      · rcases List.mem_cons.mp value with rfl | value
        · decide
        · exact allowed_of_encodable (encodable pair member').2 value

/-- A null character is appended as it is. -/
theorem null_appended : ¬ RoundTrips [([0], [])] := by
  rintro ⟨allowed, -⟩
  exact absurd (allowed 0 (by decide)) (by decide)

end NetRider.Network.FormDataBuilder
