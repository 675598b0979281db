import Mathlib

/-!
# UTF-8

`TextCodecUTF8::decode` of a whole text, and what its ASCII characters are. A string is its
characters; the code's UTF-16 strings are the same as long as they have no lone surrogate, and
decoding never gives one.
-/

namespace NetRider.Url

def replacementCharacter : Char := Char.ofNat 0xFFFD

def isASCII (byte : UInt8) : Bool := byte < 0x80

def nonASCIISequenceLength (firstByte : UInt8) : Nat :=
  if firstByte < 0x80 then 0
  else if firstByte < 0xE0 then 2
  else if firstByte < 0xF0 then 3
  else if firstByte < 0xF5 then 4
  else 0

/-- The bytes that may follow the first one of a sequence. -/
def secondByteRange (firstByte : UInt8) : UInt8 × UInt8 :=
  if firstByte = 0xE0 then (0xA0, 0xBF)
  else if firstByte = 0xED then (0x80, 0x9F)
  else if firstByte = 0xF0 then (0x90, 0xBF)
  else if firstByte = 0xF4 then (0x80, 0x8F)
  else (0x80, 0xBF)

def isTrail (byte : UInt8) (range : UInt8 × UInt8) : Bool := range.1 ≤ byte && byte ≤ range.2

/-- `none` is `nonCharacter`. -/
def decodeNonASCIISequence : List UInt8 → Option Nat
  | [a, b] =>
    if a < 0xC2 then none
    else if !isTrail b (0x80, 0xBF) then none
    else some (a.toNat * 64 + b.toNat - 0x3080)
  | [a, b, c] =>
    if !isTrail b (secondByteRange a) then none
    else if !isTrail c (0x80, 0xBF) then none
    else some (a.toNat * 4096 + b.toNat * 64 + c.toNat - 0xE2080)
  | [a, b, c, d] =>
    if !isTrail b (secondByteRange a) then none
    else if !isTrail c (0x80, 0xBF) then none
    else if !isTrail d (0x80, 0xBF) then none
    else some (a.toNat * 262144 + b.toNat * 4096 + c.toNat * 64 + d.toNat - 0x3C82080)
  | _ => none

/-- For `fuel` bytes. An error consumes one byte. -/
def decodeLoop : Nat → List UInt8 → List Char
  | fuel + 1, byte :: rest =>
    if isASCII byte then Char.ofNat byte.toNat :: decodeLoop fuel rest
    else
      let count := nonASCIISequenceLength byte
      if count = 0 ∨ count > (byte :: rest).length then
        replacementCharacter :: decodeLoop fuel rest
      else
        match decodeNonASCIISequence ((byte :: rest).take count) with
        | none => replacementCharacter :: decodeLoop fuel rest
        | some character => Char.ofNat character :: decodeLoop fuel ((byte :: rest).drop count)
  | _, _ => []

def decode (bytes : List UInt8) : List Char := decodeLoop bytes.length bytes

/-- `getUTF8CString`. -/
def utf8 (text : List Char) : List UInt8 := text.flatMap String.utf8EncodeChar

/-! ## ASCII -/

/-- The texts have the same ASCII bytes, and others at the same places. -/
inductive SameASCII : List UInt8 → List UInt8 → Prop
  | nil : SameASCII [] []
  | ascii {byte text text'} : isASCII byte = true → SameASCII text text' →
    SameASCII (byte :: text) (byte :: text')
  | other {bytes bytes' text text'} : bytes ≠ [] → bytes' ≠ [] →
    (∀ byte ∈ bytes, isASCII byte = false) → (∀ byte ∈ bytes', isASCII byte = false) →
    SameASCII text text' → SameASCII (bytes ++ text) (bytes' ++ text')

variable {text text' more more' : List UInt8}

theorem SameASCII.append (first : SameASCII text text') (second : SameASCII more more') :
    SameASCII (text ++ more) (text' ++ more') := by
  induction first with
  | nil => exact second
  | ascii is _ ih => exact .ascii is ih
  | other some_ some' others others' _ ih =>
    rw [List.append_assoc, List.append_assoc]
    exact .other some_ some' others others' ih

theorem SameASCII.refl (text : List UInt8) : SameASCII text text := by
  induction text with
  | nil => exact .nil
  | cons byte text ih =>
    cases is : isASCII byte with
    | true => exact .ascii is ih
    | false =>
      have one : ∀ b ∈ [byte], isASCII b = false := by simpa using is
      exact .other (List.cons_ne_nil _ _) (List.cons_ne_nil _ _) one one ih

theorem SameASCII.eq_nil (same : SameASCII [] text) : text = [] := by
  generalize empty : ([] : List UInt8) = start at same
  cases same with
  | nil => rfl
  | ascii => cases empty
  | other some_ => exact absurd (List.append_eq_nil_iff.mp empty.symm).1 some_

theorem isASCII_ofNat {n : Nat} (behind : 0x80 ≤ n) (fits : n < 256) :
    isASCII (UInt8.ofNat n) = false := by
  simp only [isASCII, decide_eq_false_iff_not, UInt8.lt_iff_toNat_lt, UInt8.toNat_ofNat',
    Nat.mod_eq_of_lt fits]
  exact not_lt.mpr behind

/-- A character behind ASCII. -/
theorem utf8EncodeChar_other {c : Char} (behind : 0x80 ≤ c.val.toNat) :
    ∀ byte ∈ String.utf8EncodeChar c, isASCII byte = false := by
  unfold String.utf8EncodeChar
  dsimp only
  generalize c.val.toNat = n at behind
  rw [if_neg (by omega)]
  split_ifs <;> simp only [List.forall_mem_cons, List.not_mem_nil, false_implies, implies_true, and_true]
  · exact ⟨isASCII_ofNat (by omega) (by omega), isASCII_ofNat (by omega) (by omega)⟩
  · exact ⟨isASCII_ofNat (by omega) (by omega), isASCII_ofNat (by omega) (by omega),
      isASCII_ofNat (by omega) (by omega)⟩
  · exact ⟨isASCII_ofNat (by omega) (by omega), isASCII_ofNat (by omega) (by omega),
      isASCII_ofNat (by omega) (by omega), isASCII_ofNat (by omega) (by omega)⟩

theorem ofNat_val {n : Nat} (valid : n.isValidChar) : (Char.ofNat n).val.toNat = n := by
  rw [Char.ofNat, dif_pos valid]
  rfl

theorem utf8EncodeChar_small {c : Char} (small : c.toNat < 0x80) :
    String.utf8EncodeChar c = [UInt8.ofNat c.toNat] :=
  if_pos (Nat.le_of_lt_succ small)

theorem utf8EncodeChar_ascii {byte : UInt8} (is : isASCII byte = true) :
    String.utf8EncodeChar (Char.ofNat byte.toNat) = [byte] := by
  have small : byte.toNat < 0x80 := by simpa [isASCII, UInt8.lt_iff_toNat_lt] using is
  have same : (Char.ofNat byte.toNat).toNat = byte.toNat := ofNat_val (.inl (by omega))
  rw [utf8EncodeChar_small (same.trans_lt small), same, UInt8.ofNat_toNat]

theorem isTrail_iff {byte low high : UInt8} :
    isTrail byte (low, high) = true ↔ low.toNat ≤ byte.toNat ∧ byte.toNat ≤ high.toNat := by
  simp [isTrail, UInt8.le_iff_toNat_le]

theorem isASCII_false_iff {byte : UInt8} : isASCII byte = false ↔ 0x80 ≤ byte.toNat := by
  rw [isASCII, decide_eq_false_iff_not, UInt8.not_lt, UInt8.le_iff_toNat_le]
  rfl

theorem two_bytes_spec {a b : UInt8} {character : Nat} (before : a.toNat < 0xE0)
    (decodes : decodeNonASCIISequence [a, b] = some character) :
    (∀ byte ∈ [a, b], isASCII byte = false) ∧ 0x80 ≤ (Char.ofNat character).val.toNat := by
  have parts : 0xC2 ≤ a ∧ isTrail b (0x80, 0xBF) = true ∧
      a.toNat * 64 + b.toNat - 0x3080 = character := by
    simpa [decodeNonASCIISequence] using decodes
  obtain ⟨head, trail, value⟩ := parts
  rw [UInt8.le_iff_toNat_le] at head
  rw [isTrail_iff] at trail
  have first : 0xC2 ≤ a.toNat := head
  have second : 0x80 ≤ b.toNat ∧ b.toNat ≤ 0xBF := trail
  have valid : character.isValidChar := .inl (by omega)
  rw [ofNat_val valid]
  simp only [List.forall_mem_cons, isASCII_false_iff, List.not_mem_nil, false_implies, implies_true,
    and_true]
  omega

/-- The second byte of a sequence that is neither overlong nor a surrogate nor too large. -/
theorem secondByteRange_spec {a b : UInt8} (trail : isTrail b (secondByteRange a) = true) :
    (0x80 ≤ b.toNat ∧ b.toNat ≤ 0xBF) ∧ (a.toNat = 0xE0 → 0xA0 ≤ b.toNat) ∧
      (a.toNat = 0xED → b.toNat ≤ 0x9F) ∧ (a.toNat = 0xF0 → 0x90 ≤ b.toNat) ∧
      (a.toNat = 0xF4 → b.toNat ≤ 0x8F) := by
  have differs : ∀ {n : UInt8}, a ≠ n → a.toNat ≠ n.toNat := fun other same =>
    other (UInt8.toNat_inj.mp same)
  unfold secondByteRange at trail
  split_ifs at trail with e0 ed f0 f4
  · subst e0
    have bounds : 0xA0 ≤ b.toNat ∧ b.toNat ≤ 0xBF := isTrail_iff.mp trail
    simp only [UInt8.reduceToNat]
    omega
  · subst ed
    have bounds : 0x80 ≤ b.toNat ∧ b.toNat ≤ 0x9F := isTrail_iff.mp trail
    simp only [UInt8.reduceToNat]
    omega
  · subst f0
    have bounds : 0x90 ≤ b.toNat ∧ b.toNat ≤ 0xBF := isTrail_iff.mp trail
    simp only [UInt8.reduceToNat]
    omega
  · subst f4
    have bounds : 0x80 ≤ b.toNat ∧ b.toNat ≤ 0x8F := isTrail_iff.mp trail
    simp only [UInt8.reduceToNat]
    omega
  · have bounds : 0x80 ≤ b.toNat ∧ b.toNat ≤ 0xBF := isTrail_iff.mp trail
    have others := And.intro (And.intro (differs e0) (differs ed)) (And.intro (differs f0) (differs f4))
    simp only [UInt8.reduceToNat] at others
    omega

theorem three_bytes_spec {a b c : UInt8} {character : Nat}
    (from_ : 0xE0 ≤ a.toNat) (before : a.toNat < 0xF0)
    (decodes : decodeNonASCIISequence [a, b, c] = some character) :
    (∀ byte ∈ [a, b, c], isASCII byte = false) ∧ 0x80 ≤ (Char.ofNat character).val.toNat := by
  have parts : isTrail b (secondByteRange a) = true ∧ isTrail c (0x80, 0xBF) = true ∧
      a.toNat * 4096 + b.toNat * 64 + c.toNat - 0xE2080 = character := by
    simpa [decodeNonASCIISequence] using decodes
  obtain ⟨head, trail, value⟩ := parts
  have second := secondByteRange_spec head
  rw [isTrail_iff] at trail
  have third : 0x80 ≤ c.toNat ∧ c.toNat ≤ 0xBF := trail
  have valid : character.isValidChar := by
    unfold Nat.isValidChar
    omega
  rw [ofNat_val valid]
  simp only [List.forall_mem_cons, isASCII_false_iff, List.not_mem_nil, false_implies, implies_true,
    and_true]
  omega

theorem four_bytes_spec {a b c d : UInt8} {character : Nat}
    (from_ : 0xF0 ≤ a.toNat) (before : a.toNat < 0xF5)
    (decodes : decodeNonASCIISequence [a, b, c, d] = some character) :
    (∀ byte ∈ [a, b, c, d], isASCII byte = false) ∧ 0x80 ≤ (Char.ofNat character).val.toNat := by
  have parts : isTrail b (secondByteRange a) = true ∧ isTrail c (0x80, 0xBF) = true ∧
      isTrail d (0x80, 0xBF) = true ∧
      a.toNat * 262144 + b.toNat * 4096 + c.toNat * 64 + d.toNat - 0x3C82080 = character := by
    simpa [decodeNonASCIISequence] using decodes
  obtain ⟨head, trail, trail', value⟩ := parts
  have second := secondByteRange_spec head
  rw [isTrail_iff] at trail trail'
  have third : 0x80 ≤ c.toNat ∧ c.toNat ≤ 0xBF := trail
  have fourth : 0x80 ≤ d.toNat ∧ d.toNat ≤ 0xBF := trail'
  have valid : character.isValidChar := by
    unfold Nat.isValidChar
    omega
  rw [ofNat_val valid]
  simp only [List.forall_mem_cons, isASCII_false_iff, List.not_mem_nil, false_implies, implies_true,
    and_true]
  omega

/-- What a sequence decodes to, and what it is made of. -/
theorem decodeNonASCIISequence_spec {first : UInt8} {bytes : List UInt8} {character : Nat}
    (other : isASCII first = false)
    (length : (first :: bytes).length = nonASCIISequenceLength first)
    (decodes : decodeNonASCIISequence (first :: bytes) = some character) :
    (∀ byte ∈ first :: bytes, isASCII byte = false) ∧
      0x80 ≤ (Char.ofNat character).val.toNat := by
  have behind : ¬ first < 0x80 := by simpa [isASCII] using other
  rw [nonASCIISequenceLength, if_neg behind] at length
  have from_ : 0x80 ≤ first.toNat := isASCII_false_iff.mp other
  simp only [UInt8.lt_iff_toNat_lt, UInt8.reduceToNat] at length
  split_ifs at length with two three four
  · obtain ⟨b, rfl⟩ := List.length_eq_one_iff.mp (Nat.succ.inj length)
    exact two_bytes_spec two decodes
  · obtain ⟨b, c, rfl⟩ := List.length_eq_two.mp (Nat.succ.inj length)
    exact three_bytes_spec (not_lt.mp two) three decodes
  · obtain ⟨b, c, d, rfl⟩ := List.length_eq_three.mp (Nat.succ.inj length)
    exact four_bytes_spec (not_lt.mp three) four decodes

/-- Decoding keeps the ASCII characters, whatever else the bytes are. -/
theorem decodeLoop_sameASCII {fuel : Nat} {bytes : List UInt8} (enough : bytes.length ≤ fuel) :
    SameASCII (utf8 (decodeLoop fuel bytes)) bytes := by
  induction fuel generalizing bytes with
  | zero =>
    rw [List.length_eq_zero_iff.mp (Nat.le_zero.mp enough)]
    exact .nil
  | succ fuel ih =>
    cases bytes with
    | nil => exact .nil
    | cons byte rest =>
      have shorter : rest.length ≤ fuel := Nat.le_of_succ_le_succ enough
      have error (other : isASCII byte = false) :
          SameASCII (utf8 (replacementCharacter :: decodeLoop fuel rest)) (byte :: rest) := by
        rw [utf8, List.flatMap_cons]
        have replaced : ∀ b ∈ String.utf8EncodeChar replacementCharacter, isASCII b = false :=
          utf8EncodeChar_other (by decide)
        have one : ∀ b ∈ [byte], isASCII b = false := by simpa using other
        exact .other String.utf8EncodeChar_ne_nil (List.cons_ne_nil _ _) replaced one (ih shorter)
      rw [decodeLoop]
      cases is : isASCII byte with
      | true =>
        rw [if_pos rfl, utf8, List.flatMap_cons, utf8EncodeChar_ascii is]
        exact .ascii is (ih shorter)
      | false =>
        rw [if_neg Bool.false_ne_true]
        dsimp only
        split_ifs with partial_
        · exact error is
        · cases decodes : decodeNonASCIISequence ((byte :: rest).take (nonASCIISequenceLength byte)) with
          | none => exact error is
          | some character =>
            obtain ⟨k, length⟩ := Nat.exists_eq_succ_of_ne_zero fun zero => partial_ (.inl zero)
            have whole : k ≤ rest.length := by
              by_contra missing
              exact partial_ (.inr (by rw [length, List.length_cons]; omega))
            rw [length, List.take_succ_cons] at decodes
            have size : (byte :: rest.take k).length = nonASCIISequenceLength byte := by
              rw [length, List.length_cons, List.length_take, min_eq_left whole]
            obtain ⟨others, behind⟩ := decodeNonASCIISequence_spec is size decodes
            have split : byte :: rest = (byte :: rest.take k) ++ rest.drop k := by
              rw [List.cons_append, List.take_append_drop]
            dsimp only
            rw [length, List.drop_succ_cons, utf8, List.flatMap_cons, split]
            refine .other String.utf8EncodeChar_ne_nil (List.cons_ne_nil _ _)
              (utf8EncodeChar_other behind) others (ih ?_)
            rw [List.length_drop]
            omega

theorem decode_sameASCII (bytes : List UInt8) : SameASCII (utf8 (decode bytes)) bytes :=
  decodeLoop_sameASCII le_rfl

end NetRider.Url
