import NetRider.Text.EscapeSequences
import NetRider.Wtf.UTF8Sequences

/-!
# URI coding

The global functions of JavaScript that encode and decode URIs, and `escape` and `unescape`. A
string is the list of its units, in both widths. `none` is the thrown `URIError`.
-/

namespace NetRider.Runtime.URICoding

open Lib Wtf
open Wtf.HexNumber (appendByteAsHex)
open Wtf.Unicode (widen convertUTF16ToUTF8 writeUTF8 UTF8SequenceLength decodeUTF8Sequence u16Lead
  u16Trail isLead isTrail)
open Text.EscapeSequences (percent isASCIIHexDigit toASCIIHexValue)

/-! ## Encoding -/

/-- With room for two bytes a character. -/
def convertLatin1ToUTF8 (source : List UChar) : List UInt8 :=
  source.flatMap fun ch => writeUTF8 ch.toNat

/-- `String::utf8(StrictConversion)`; a null `CString` is `none`. -/
def utf8Strict (is8Bit : Bool) (string : List UChar) : Option (List UInt8) :=
  if string = [] then some []
  else if string.length > (2 ^ 32 - 1) / 3 then none
  else if is8Bit then some (convertLatin1ToUTF8 string)
  else
    let converted := convertUTF16ToUTF8 true (string.length * 3) string
    if converted.result = .sourceIllegal ∨ converted.result = .sourceExhausted then none
    else some converted.target

/-- `strchr`, for a character that is not zero. -/
def strchr (set : String) (c : UChar) : Bool := (ascii set).contains c

/-- `%%%02X` -/
def percentByte (u : UInt8) : List UChar := percent :: widen (appendByteAsHex u)

/-- `%%u%04X` -/
def percentUnit (u : UChar) : List UChar :=
  percent :: 0x75 :: widen (appendByteAsHex (u >>> 8).toUInt8 ++ appendByteAsHex u.toUInt8)

def encode (doNotEscape : String) (is8Bit : Bool) (string : List UChar) : Option (List UChar) :=
  (utf8Strict is8Bit string).map fun cstr => cstr.flatMap fun c =>
    if c ≠ 0 ∧ strchr doNotEscape c.toUInt16 then [c.toUInt16] else percentByte c

def doNotEscapeWhenEncodingURI : String :=
  "ABCDEFGHIJKLMNOPQRSTUVWXYZabcdefghijklmnopqrstuvwxyz0123456789!#$&'()*+,-./:;=?@_~"

def doNotEscapeWhenEncodingURIComponent : String :=
  "ABCDEFGHIJKLMNOPQRSTUVWXYZabcdefghijklmnopqrstuvwxyz0123456789!'()*-._~"

def encodeURI : Bool → List UChar → Option (List UChar) := encode doNotEscapeWhenEncodingURI

def encodeURIComponent : Bool → List UChar → Option (List UChar) :=
  encode doNotEscapeWhenEncodingURIComponent

/-! ## Decoding -/

def convertHex (c1 c2 : UChar) : UInt8 :=
  ((toASCIIHexValue c1 <<< 4) ||| toASCIIHexValue c2).toUInt8

def convertUnicode (c1 c2 c3 c4 : UChar) : UChar :=
  ((convertHex c1 c2).toUInt16 <<< 8) ||| (convertHex c3 c4).toUInt16

/-- The bytes of that many escapes. -/
def escapedBytes : Nat → List UChar → Option (List UInt8)
  | 0, _ => some []
  | count + 1, q0 :: q1 :: q2 :: rest =>
    if q0 = percent && isASCIIHexDigit q1 && isASCIIHexDigit q2 then
      (escapedBytes count rest).map (convertHex q1 q2 :: ·)
    else none
  | _, _ => none

/-- The character that is escaped at `p` and its `charLen`; a `charLen` of zero is `none`. -/
def escapedCharacter (p : List UChar) : Option (Nat × Nat) :=
  match p with
  | _ :: p1 :: p2 :: rest =>
    if isASCIIHexDigit p1 && isASCIIHexDigit p2 then
      let b0 := convertHex p1 p2
      let sequenceLen := UTF8SequenceLength b0
      if sequenceLen ≠ 0 ∧ sequenceLen * 3 ≤ p.length then
        match escapedBytes (sequenceLen - 1) rest with
        | none => none
        | some sequence =>
          let character := decodeUTF8Sequence (b0 :: sequence ++ [0])
          if character < 0 ∨ character ≥ 0x110000 then none
          else some (character.toNat, sequenceLen * 3)
      else none
    else none
  | _ => none

/-- The unit of the `%u` syntax. -/
def escapedUnit : List UChar → Option UChar
  | _ :: p1 :: p2 :: p3 :: p4 :: p5 :: _ =>
    if p1 = 0x75 && isASCIIHexDigit p2 && isASCIIHexDigit p3 && isASCIIHexDigit p4 &&
        isASCIIHexDigit p5 then
      some (convertUnicode p2 p3 p4 p5)
    else none
  | _ => none

/-- What one turn at `c` appends and how far it goes; the lead surrogate is appended first. -/
def decodeTurn (doNotUnescape : String) (strict : Bool) (c : UChar) (rest : List UChar) :
    Option (List UChar × Nat) :=
  let unescaped (before : List UChar) (u : UChar) (charLen : Nat) : List UChar × Nat :=
    if u = 0 ∨ u ≥ 128 ∨ strchr doNotUnescape u = false then (before ++ [u], charLen)
    else (before ++ [c], 1)
  if c = percent then
    match escapedCharacter (c :: rest) with
    | some (character, charLen) =>
      if character ≥ 0x10000 then
        some (unescaped [u16Lead character] (u16Trail character) charLen)
      else some (unescaped [] (UInt16.ofNat character) charLen)
    | none =>
      if strict then none
      else
        match escapedUnit (c :: rest) with
        | some u => some (unescaped [] u 6)
        | none => some ([c], 1)
  else some ([c], 1)

/-- The loop; every turn takes a unit, so `fuel` is the length. -/
def decodeLoop (doNotUnescape : String) (strict : Bool) : Nat → List UChar → Option (List UChar)
  | fuel + 1, c :: rest =>
    match decodeTurn doNotUnescape strict c rest with
    | none => none
    | some (appended, taken) =>
      (decodeLoop doNotUnescape strict fuel ((c :: rest).drop taken)).map (appended ++ ·)
  | _, _ => some []

def decode (doNotUnescape : String) (strict : Bool) (characters : List UChar) :
    Option (List UChar) :=
  decodeLoop doNotUnescape strict characters.length characters

def decodeURI : List UChar → Option (List UChar) := decode "#$&+,/:;=?@" true

def decodeURIComponent : List UChar → Option (List UChar) := decode "" true

/-! ## `escape` and `unescape` -/

def doNotEscape : String := "ABCDEFGHIJKLMNOPQRSTUVWXYZabcdefghijklmnopqrstuvwxyz0123456789*+-./@_"

def escapeUnit (is8Bit : Bool) (u : UChar) : List UChar :=
  if is8Bit = false ∧ u > 255 then percentUnit u
  else if u ≠ 0 ∧ strchr doNotEscape u then [u]
  else percentByte u.toUInt8

def globalFuncEscape (is8Bit : Bool) (str : List UChar) : List UChar :=
  str.flatMap (escapeUnit is8Bit)

/-- What one turn appends, and how far it goes. -/
def unescapeTurn (c : List UChar) (c0 : UChar) : UChar × Nat :=
  if c0 = percent ∧ 6 ≤ c.length ∧ c.getD 1 0 = 0x75 then
    match escapedUnit c with
    | some u => (u, 6)
    | none => (c0, 1)
  else if c0 = percent ∧ 3 ≤ c.length ∧ isASCIIHexDigit (c.getD 1 0) ∧
      isASCIIHexDigit (c.getD 2 0) then
    ((convertHex (c.getD 1 0) (c.getD 2 0)).toUInt16, 3)
  else (c0, 1)

def unescapeLoop : Nat → List UChar → List UChar
  | fuel + 1, c :: rest =>
    let (appended, taken) := unescapeTurn (c :: rest) c
    appended :: unescapeLoop fuel ((c :: rest).drop taken)
  | _, _ => []

/-- The same for both widths. -/
def globalFuncUnescape (str : List UChar) : List UChar := unescapeLoop str.length str
/-! ## What has been escaped -/

/-- Escapes of the bytes, with digits of either case. -/
inductive Escapes : List UInt8 → List UChar → Prop
  | nil : Escapes [] []
  | cons {high low bytes e} : isASCIIHexDigit high = true → isASCIIHexDigit low = true →
    Escapes bytes e → Escapes (convertHex high low :: bytes) (percent :: high :: low :: e)

/-- The well-formed UTF-8 form of a scalar value, escaped. -/
def EscapedForm (ch : Char) (e : List UChar) : Prop := Escapes (String.utf8EncodeChar ch) e

def BeginsForm (p : List UChar) : Prop := ∃ ch e tail, p = e ++ tail ∧ EscapedForm ch e

/-- What is left when the scan of `t`, from the left to the right, has come to a place. -/
inductive Scans (t : List UChar) : List UChar → Prop
  | start : Scans t t
  | plain {c rest} : Scans t (c :: rest) → c ≠ percent → Scans t rest
  | escaped {ch e rest} : Scans t (e ++ rest) → EscapedForm ch e → Scans t rest

/-- A surrogate without its other half. -/
def UnpairedSurrogate (s : List UChar) : Prop :=
  ∃ before u behind, s = before ++ u :: behind ∧
    (isLead u.toNat = true ∧ (∀ v ∈ behind.head?, isTrail v.toNat = false) ∨
      isTrail u.toNat = true ∧ ∀ v ∈ before.getLast?, isLead v.toNat = false)

/-- A string can be stored in this width. -/
def Stored (is8Bit : Bool) (s : List UChar) : Prop := is8Bit = true → ∀ u ∈ s, u.toNat < 0x100

variable {doNotUnescape set : String} {strict is8Bit : Bool} {c u : UChar} {ch : Char}
  {p e rest s t : List UChar} {bytes : List UInt8} {fuel fuel' : Nat}

theorem Escapes.length (escapes : Escapes bytes e) : e.length = bytes.length * 3 := by
  induction escapes with
  | nil => rfl
  | cons _ _ _ ih =>
    rw [List.length_cons, List.length_cons, List.length_cons, List.length_cons, ih]
    omega

theorem Escapes.escapedBytes (escapes : Escapes bytes e) (rest : List UChar) :
    escapedBytes bytes.length (e ++ rest) = some bytes := by
  induction escapes with
  | nil => rfl
  | @cons high low bytes e digit digit' _ ih =>
    change URICoding.escapedBytes (bytes.length + 1) (percent :: high :: low :: (e ++ rest)) = _
    rw [URICoding.escapedBytes, digit, digit', ih]
    rfl

theorem escapes_of_escapedBytes {count : Nat} (read : escapedBytes count p = some bytes) :
    bytes.length = count ∧ ∃ e rest, p = e ++ rest ∧ Escapes bytes e := by
  induction count generalizing p bytes with
  | zero =>
    cases read
    exact ⟨rfl, [], p, rfl, .nil⟩
  | succ count ih =>
    rcases p with _ | ⟨q0, _ | ⟨q1, _ | ⟨q2, rest⟩⟩⟩
    · cases read
    · cases read
    · cases read
    · rw [escapedBytes] at read
      split_ifs at read with escape
      rw [Bool.and_eq_true, Bool.and_eq_true, decide_eq_true_eq] at escape
      obtain ⟨⟨rfl, digit⟩, digit'⟩ := escape
      obtain ⟨others, later, rfl⟩ := Option.map_eq_some_iff.mp read
      obtain ⟨length, e, tail, rfl, escapes⟩ := ih later
      exact ⟨congrArg (· + 1) length, percent :: q1 :: q2 :: e, tail, rfl,
        .cons digit digit' escapes⟩

theorem EscapedForm.eq_cons (form : EscapedForm ch e) :
    ∃ b0 more high low e', String.utf8EncodeChar ch = b0 :: more ∧
      UTF8SequenceLength b0 = more.length + 1 ∧ e = percent :: high :: low :: e' ∧
      isASCIIHexDigit high = true ∧ isASCIIHexDigit low = true ∧ b0 = convertHex high low ∧
      Escapes more e' := by
  obtain ⟨-, b0, more, same, length⟩ := Unicode.decodeUTF8Sequence_char ch
  rw [EscapedForm, same] at form
  cases form with
  | cons digit digit' escapes =>
    exact ⟨_, _, _, _, _, same, length, rfl, digit, digit', rfl, escapes⟩

/-- The forms are read. -/
theorem EscapedForm.escapedCharacter (form : EscapedForm ch e) (rest : List UChar) :
    escapedCharacter (e ++ rest) = some (ch.val.toNat, e.length) := by
  have length := Escapes.length form
  obtain ⟨b0, more, high, low, e', same, announced, rfl, digit, digit', rfl, escapes⟩ :=
    form.eq_cons
  have decoded := (Unicode.decodeUTF8Sequence_char ch).1
  have valid := scalar_cases ch
  rw [same] at decoded length
  change URICoding.escapedCharacter (percent :: high :: low :: (e' ++ rest)) = _
  have sizes := escapes.length
  have fits : more.length + 1 ≠ 0 ∧
      (more.length + 1) * 3 ≤ (percent :: high :: low :: (e' ++ rest)).length := by
    simp only [List.length_cons, List.length_append]
    omega
  rw [URICoding.escapedCharacter, digit, digit', Bool.and_self, if_pos rfl]
  dsimp only
  rw [announced, if_pos fits, Nat.add_sub_cancel, escapes.escapedBytes]
  dsimp only
  rw [decoded, if_neg (by omega), Int.toNat_natCast, length, List.length_cons]

/-- Nothing else is read. -/
theorem escapedCharacter_some {v n : Nat} (read : escapedCharacter (percent :: p) = some (v, n)) :
    ∃ ch e tail, percent :: p = e ++ tail ∧ EscapedForm ch e ∧ v = ch.val.toNat ∧
      n = e.length := by
  rcases p with _ | ⟨high, _ | ⟨low, rest⟩⟩
  · cases read
  · cases read
  · rw [escapedCharacter] at read
    dsimp only at read
    split_ifs at read with digits fits
    rw [Bool.and_eq_true] at digits
    cases sequence : escapedBytes (UTF8SequenceLength (convertHex high low) - 1) rest with
    | none =>
      rw [sequence] at read
      cases read
    | some more =>
      rw [sequence] at read
      dsimp only at read
      obtain ⟨length, e, tail, rfl, escapes⟩ := escapes_of_escapedBytes sequence
      have announced : UTF8SequenceLength (convertHex high low) = more.length + 1 := by omega
      split_ifs at read with range
      rcases Unicode.decodeUTF8Sequence_cases announced with bad | ⟨ch, same, decoded⟩
      · exact absurd (.inl (by rw [bad]; decide)) range
      · have form : EscapedForm ch (percent :: high :: low :: e) := by
          rw [EscapedForm, ← same]
          exact .cons digits.1 digits.2 escapes
        have size := Escapes.length form
        rw [← same] at size
        change _ = (more.length + 1) * 3 at size
        rw [decoded, announced, ← size, Int.toNat_natCast] at read
        obtain ⟨rfl, rfl⟩ := Prod.mk.inj (Option.some.inj read)
        exact ⟨ch, _, tail, rfl, form, rfl, rfl⟩

/-! ## Turns -/

theorem escapedCharacter_pos {v n : Nat} (read : escapedCharacter (c :: p) = some (v, n)) :
    0 < n := by
  rcases p with _ | ⟨high, _ | ⟨low, rest⟩⟩
  · cases read
  · cases read
  · rw [escapedCharacter] at read
    dsimp only at read
    split_ifs at read with digits fits
    split at read
    · cases read
    · split_ifs at read
      obtain ⟨-, rfl⟩ := Prod.mk.inj (Option.some.inj read)
      omega

theorem decodeTurn_pos {appended : List UChar} {taken : Nat}
    (turn : decodeTurn doNotUnescape strict c rest = some (appended, taken)) : 0 < taken := by
  rw [decodeTurn] at turn
  dsimp only at turn
  split at turn
  · split at turn
    · rename_i v n read
      have some_ := escapedCharacter_pos read
      split_ifs at turn <;> obtain ⟨-, rfl⟩ := Prod.mk.inj (Option.some.inj turn) <;> omega
    · split_ifs at turn
      split at turn
      · split_ifs at turn <;> obtain ⟨-, rfl⟩ := Prod.mk.inj (Option.some.inj turn) <;> omega
      · obtain ⟨-, rfl⟩ := Prod.mk.inj (Option.some.inj turn)
        exact Nat.one_pos
  · obtain ⟨-, rfl⟩ := Prod.mk.inj (Option.some.inj turn)
    exact Nat.one_pos

theorem decodeLoop_fuel (enough : p.length ≤ fuel) (enough' : p.length ≤ fuel') :
    decodeLoop doNotUnescape strict fuel p = decodeLoop doNotUnescape strict fuel' p := by
  induction fuel generalizing p fuel' with
  | zero =>
    obtain rfl := List.length_eq_zero_iff.mp (Nat.le_zero.mp enough)
    cases fuel' <;> rfl
  | succ fuel ih =>
    cases p with
    | nil => cases fuel' <;> rfl
    | cons c rest =>
      cases fuel' with
      | zero => exact absurd enough' (Nat.not_succ_le_zero _)
      | succ fuel' =>
        rw [List.length_cons] at enough enough'
        rw [decodeLoop, decodeLoop]
        cases turn : decodeTurn doNotUnescape strict c rest with
        | none => rfl
        | some pair =>
          have some_ := decodeTurn_pos turn
          have shorter : ((c :: rest).drop pair.2).length ≤ rest.length := by
            rw [List.length_drop, List.length_cons]
            omega
          dsimp only
          rw [@ih _ fuel' (by omega) (by omega)]

theorem decode_cons (c : UChar) (rest : List UChar) :
    decode doNotUnescape strict (c :: rest) =
      match decodeTurn doNotUnescape strict c rest with
      | none => none
      | some (appended, taken) =>
        (decode doNotUnescape strict ((c :: rest).drop taken)).map (appended ++ ·) := by
  rw [decode, List.length_cons, decodeLoop]
  cases turn : decodeTurn doNotUnescape strict c rest with
  | none => rfl
  | some pair =>
    have some_ := decodeTurn_pos turn
    have shorter : ((c :: rest).drop pair.2).length ≤ rest.length := by
      rw [List.length_drop, List.length_cons]
      omega
    dsimp only
    rw [decode, decodeLoop_fuel shorter le_rfl]

/-! ## What is decoded -/

theorem decode_plain (plain : c ≠ percent) (rest : List UChar) :
    decode doNotUnescape strict (c :: rest) =
      (decode doNotUnescape strict rest).map (c :: ·) := by
  have turn : decodeTurn doNotUnescape strict c rest = some ([c], 1) := if_neg plain
  rw [decode_cons, turn]
  rfl

/-- A form is decoded, unless its character is to stay escaped. -/
theorem decode_escaped (form : EscapedForm ch e)
    (free : ch.val.toNat < 0x80 → strchr doNotUnescape (UInt16.ofNat ch.val.toNat) = false)
    (rest : List UChar) :
    decode doNotUnescape strict (e ++ rest) =
      (decode doNotUnescape strict rest).map (utf16Units ch ++ ·) := by
  have read := form.escapedCharacter rest
  obtain ⟨-, -, high, low, e', -, -, rfl, -⟩ := form.eq_cons
  have back : ((percent :: high :: low :: e') ++ rest).drop
      (percent :: high :: low :: e').length = rest := List.drop_left
  change decode doNotUnescape strict (percent :: (high :: low :: e' ++ rest)) = _
  have turn : decodeTurn doNotUnescape strict percent (high :: low :: e' ++ rest) =
      some (utf16Units ch, (percent :: high :: low :: e').length) := by
    change URICoding.escapedCharacter (percent :: (high :: low :: e' ++ rest)) = _ at read
    rw [decodeTurn, if_pos rfl, read]
    dsimp only
    by_cases large : ch.val.toNat ≥ 0x10000
    · have trail : u16Trail ch.val.toNat = 0 ∨ u16Trail ch.val.toNat ≥ 128 ∨
          strchr doNotUnescape (u16Trail ch.val.toNat) = false := by
        refine .inr (.inl (UInt16.le_iff_toNat_le.mpr ?_))
        rw [u16Trail, UInt16.toNat_ofNat', Nat.mod_eq_of_lt]
        · exact le_trans (by decide) Nat.right_le_or
        · exact Nat.or_lt_two_pow (lt_of_le_of_lt Nat.and_le_right (by decide)) (by decide)
      rw [if_pos large, if_pos trail, ← Unicode.u16Units_eq large]
      rfl
    · have value : (UInt16.ofNat ch.val.toNat).toNat = ch.val.toNat := by
        rw [UInt16.toNat_ofNat', Nat.mod_eq_of_lt (by omega)]
      have either : UInt16.ofNat ch.val.toNat = 0 ∨ UInt16.ofNat ch.val.toNat ≥ 128 ∨
          strchr doNotUnescape (UInt16.ofNat ch.val.toNat) = false := by
        by_cases small : ch.val.toNat < 0x80
        · exact .inr (.inr (free small))
        · refine .inr (.inl (UInt16.le_iff_toNat_le.mpr ?_))
          rw [value]
          exact Nat.le_of_not_lt small
      rw [if_neg large, if_pos either, utf16Units, if_pos (Nat.lt_of_not_le large)]
      rfl
  rw [decode_cons, turn]
  dsimp only
  rw [← List.cons_append, back]

theorem decode_illegal (illegal : ¬ BeginsForm (percent :: p)) :
    decode doNotUnescape true (percent :: p) = none := by
  have turn : decodeTurn doNotUnescape true percent p = none := by
    rw [decodeTurn, if_pos rfl]
    cases read : escapedCharacter (percent :: p) with
    | none => rfl
    | some pair =>
      obtain ⟨ch, e, tail, same, form, -⟩ := escapedCharacter_some read
      exact absurd ⟨ch, e, tail, same, form⟩ illegal
  rw [decode_cons, turn]

theorem strchr_empty (u : UChar) : strchr "" u = false := rfl

/-- Where the scan stops at an illegal escape, everything is refused. -/
theorem Scans.none (scans : Scans t p) (fails : decodeURIComponent p = none) :
    decodeURIComponent t = none := by
  induction scans with
  | start => exact fails
  | plain _ other ih =>
    apply ih
    rw [decodeURIComponent, decode_plain other, ← decodeURIComponent, fails]
    rfl
  | escaped _ form ih =>
    apply ih
    rw [decodeURIComponent, decode_escaped form fun _ => strchr_empty _, ← decodeURIComponent,
      fails]
    rfl

theorem scans_of_none {count : Nat} (short : p.length ≤ count) (scans : Scans t p)
    (fails : decodeURIComponent p = none) :
    ∃ rest, Scans t (percent :: rest) ∧ ¬ BeginsForm (percent :: rest) := by
  induction count generalizing p with
  | zero =>
    obtain rfl := List.length_eq_zero_iff.mp (Nat.le_zero.mp short)
    cases fails
  | succ count ih =>
    cases p with
    | nil => cases fails
    | cons c rest =>
      by_cases plain : c = percent
      · subst plain
        by_cases begins : BeginsForm (percent :: rest)
        · obtain ⟨ch, e, tail, same, form⟩ := begins
          rw [same] at scans fails short
          refine ih ?_ (.escaped scans form) ?_
          · obtain ⟨-, -, high, low, e', -, -, rfl, -⟩ := form.eq_cons
            simp only [List.length_append, List.length_cons] at short
            omega
          · rw [decodeURIComponent, decode_escaped form fun _ => strchr_empty _] at fails
            exact Option.map_eq_none_iff.mp fails
        · exact ⟨rest, scans, begins⟩
      · refine ih (Nat.le_of_succ_le_succ short) (.plain scans plain) ?_
        rw [decodeURIComponent, decode_plain plain] at fails
        exact Option.map_eq_none_iff.mp fails

/-- Exactly the illegal escapes that the scan meets are refused. -/
theorem decodeURIComponent_none : decodeURIComponent t = none ↔
    ∃ rest, Scans t (percent :: rest) ∧ ¬ BeginsForm (percent :: rest) := by
  constructor
  · exact scans_of_none le_rfl .start
  · rintro ⟨rest, scans, illegal⟩
    exact scans.none (decode_illegal illegal)

/-! ## What is encoded -/

theorem single_units (small : ch.val.toNat < 0x10000) :
    utf16Units ch = [UInt16.ofNat ch.val.toNat] := if_pos small

theorem toUInt16_ofNat {n : Nat} (small : n < 0x100) :
    (UInt8.ofNat n).toUInt16 = UInt16.ofNat n := by
  apply UInt16.toNat_inj.mp
  rw [UInt8.toNat_toUInt16, toNat_ofNat small, UInt16.toNat_ofNat', Nat.mod_eq_of_lt (by omega)]

theorem convertLatin1ToUTF8_utf16 (text : List Char)
    (small : ∀ u ∈ utf16 text, u.toNat < 0x100) :
    convertLatin1ToUTF8 (utf16 text) = utf8 text := by
  induction text with
  | nil => rfl
  | cons ch text ih =>
    have split : utf16 (ch :: text) = utf16Units ch ++ utf16 text := List.flatMap_cons
    rw [split] at small ⊢
    have later := ih fun u among => small u (List.mem_append_right _ among)
    have bmp : ch.val.toNat < 0x10000 := by
      by_contra large
      have units : utf16Units ch = [_, _] := if_neg large
      have lead := small _ (List.mem_append_left _ (by rw [units]; exact List.mem_cons_self))
      have valid := scalar_cases ch
      rw [UInt16.toNat_ofNat', Nat.mod_eq_of_lt (by omega)] at lead
      omega
    have value : (UInt16.ofNat ch.val.toNat).toNat = ch.val.toNat := by
      rw [UInt16.toNat_ofNat', Nat.mod_eq_of_lt bmp]
    rw [single_units bmp, convertLatin1ToUTF8, List.singleton_append, List.flatMap_cons,
      ← convertLatin1ToUTF8, later, value, Unicode.writeUTF8_char]
    rfl

/-- The strict conversion of a text. -/
theorem utf8Strict_utf16 (text : List Char) (short : (utf16 text).length ≤ (2 ^ 32 - 1) / 3)
    (stored : Stored is8Bit (utf16 text)) : utf8Strict is8Bit (utf16 text) = some (utf8 text) := by
  rw [utf8Strict]
  by_cases empty : utf16 text = []
  · rw [if_pos empty, Text.EscapeSequences.utf16_eq_nil empty]
    rfl
  · rw [if_neg empty, if_neg (Nat.not_lt.mpr short)]
    cases is8Bit with
    | true => rw [if_pos rfl, convertLatin1ToUTF8_utf16 text (stored rfl)]
    | false =>
      have done : convertUTF16ToUTF8 true ((utf16 text).length * 3) (utf16 text) = _ :=
        convert_done (Unicode.utf16Turn_bounded true) (Unicode.turns_utf16 true text)
          (Text.EscapeSequences.utf8_length_le text)
      rw [if_neg Bool.false_ne_true, done]
      rfl

theorem chars_of_parts {parts : List (List UInt16 × List UInt8)}
    (all : ∀ part ∈ parts, Unicode.TakesUnits true part.1 part.2) :
    ∃ text, utf16 text = parts.flatMap Prod.fst := by
  induction parts with
  | nil => exact ⟨[], rfl⟩
  | cons part parts ih =>
    obtain ⟨takes, others⟩ := List.forall_mem_cons.mp all
    obtain ⟨text, same⟩ := ih others
    rcases takes with ⟨ch, units, -⟩ | ⟨lenient, -⟩
    · refine ⟨ch :: text, ?_⟩
      rw [List.flatMap_cons, units, ← same]
      rfl
    · cases lenient

/-- Only texts are converted. -/
theorem utf8Strict_other (other : ¬ ∃ text, utf16 text = s) : utf8Strict false s = none := by
  rw [utf8Strict]
  by_cases empty : s = []
  · exact absurd ⟨[], empty.symm⟩ other
  · rw [if_neg empty, if_neg Bool.false_ne_true]
    by_cases long : s.length > (2 ^ 32 - 1) / 3
    · exact if_pos long
    · rw [if_neg long]
      refine if_pos ?_
      by_contra fails
      obtain ⟨turns, -, ends⟩ := @convert_spec _ _ _ .conversionOK _ _ _
        (Unicode.utf16Turn_bounded true) (s.length * 3) s
      have sizes := turns.length_le Unicode.utf16Turn_short
      obtain ⟨parts, split, -, all, -⟩ := Unicode.utf16_parts turns
      obtain ⟨text, same⟩ := chars_of_parts all
      rw [convertUTF16ToUTF8] at fails
      by_cases whole : (convert .conversionOK (Unicode.utf16Turn true) (s.length * 3) s).source = []
      · rw [whole, List.append_nil, ← same] at split
        exact other ⟨text, split.symm⟩
      · rw [Stops, if_neg whole] at ends
        generalize (convert .conversionOK (Unicode.utf16Turn true) (s.length * 3) s) = made at *
        cases turn : Unicode.utf16Turn true 4 made.source with
        | error result =>
          rw [turn] at ends
          dsimp only at ends
          cases source : made.source with
          | nil => exact whole source
          | cons unit more =>
            rw [source, Unicode.utf16Turn] at turn
            cases read : Unicode.readUTF16 true unit more with
            | error stopped =>
              rw [read] at turn
              rcases Unicode.readUTF16_error read with rfl | rfl
              · exact fails (.inr (ends.trans (Except.error.inj turn).symm))
              · exact fails (.inl (ends.trans (Except.error.inj turn).symm))
            | ok pair =>
              rw [read] at turn
              dsimp only at turn
              rw [if_neg (Nat.not_lt.mpr (Unicode.writeUTF8_length _).2)] at turn
              cases turn
        | ok pair =>
          rw [turn] at ends
          have short := Unicode.utf16Turn_short _ _ _ turn
          have room := ends.1
          omega

/-! ## Unpaired surrogates -/

theorem UnpairedSurrogate.append {front : List UChar}
    (last : ∀ v ∈ front.getLast?, isLead v.toNat = false) (unpaired : UnpairedSurrogate s) :
    UnpairedSurrogate (front ++ s) := by
  obtain ⟨before, u, behind, rfl, either⟩ := unpaired
  refine ⟨front ++ before, u, behind, (List.append_assoc ..).symm, either.imp_right ?_⟩
  rintro ⟨trail, none⟩
  refine ⟨trail, fun v among => ?_⟩
  rcases List.eq_nil_or_concat before with rfl | ⟨more, w, rfl⟩
  · rw [List.append_nil] at among
    exact last v among
  · rw [List.concat_eq_append, ← List.append_assoc, List.getLast?_concat] at among
    exact none v (by rwa [List.concat_eq_append, List.getLast?_concat])

theorem not_both {n : Nat} (trail : isTrail n = true) : isLead n = false := by
  rw [Bool.eq_false_iff, ne_eq, Unicode.isLead_iff]
  rw [Unicode.isTrail_iff] at trail
  omega

/-- A string of whole characters. -/
theorem utf16_of_paired {count : Nat} (short : s.length ≤ count) (paired : ¬ UnpairedSurrogate s) :
    ∃ text, utf16 text = s := by
  induction count generalizing s with
  | zero =>
    obtain rfl := List.length_eq_zero_iff.mp (Nat.le_zero.mp short)
    exact ⟨[], rfl⟩
  | succ count ih =>
    rcases s with _ | ⟨u, rest⟩
    · exact ⟨[], rfl⟩
    · have joins {units rest} {ch : Char} (same : utf16Units ch = units)
          (last : ∀ v ∈ units.getLast?, isLead v.toNat = false) (fewer : rest.length ≤ count)
          (whole : ¬ UnpairedSurrogate (units ++ rest)) : ∃ text, utf16 text = units ++ rest := by
        obtain ⟨text, later⟩ := ih fewer fun unpaired => whole (unpaired.append last)
        refine ⟨ch :: text, ?_⟩
        rw [← later, ← same]
        rfl
      rw [List.length_cons] at short
      by_cases lead : isLead u.toNat = true
      · rcases rest with _ | ⟨v, rest⟩
        · exact absurd ⟨[], u, [], rfl, .inl ⟨lead, nofun⟩⟩ paired
        · by_cases trail : isTrail v.toNat = true
          · obtain ⟨ch, same, -⟩ := Unicode.pair_eq lead trail
            refine joins same (fun w last => ?_) ?_ paired
            · obtain rfl := Option.some.inj last
              exact not_both trail
            · rw [List.length_cons] at short
              omega
          · refine absurd ⟨[], u, v :: rest, rfl, .inl ⟨lead, fun w first => ?_⟩⟩ paired
            obtain rfl := Option.some.inj first
            exact Bool.eq_false_iff.mpr trail
      · by_cases trail : isTrail u.toNat = true
        · exact absurd ⟨[], u, rest, rfl, .inr ⟨trail, nofun⟩⟩ paired
        · obtain ⟨ch, same, -⟩ := Unicode.single_eq lead trail
          refine joins same (fun w last => ?_) (by omega) paired
          obtain rfl := Option.some.inj last
          exact Bool.eq_false_iff.mpr lead

theorem unpaired_behind {front rest : List UChar} (unpaired : UnpairedSurrogate (front ++ rest))
    (first : ∀ u, front = [u] → isLead u.toNat = false ∧ isTrail u.toNat = false)
    (pair : ∀ u v more, front = u :: v :: more →
      more = [] ∧ isLead u.toNat = true ∧ isTrail v.toNat = true) : UnpairedSurrogate rest := by
  obtain ⟨before, u, behind, same, either⟩ := unpaired
  rcases front with _ | ⟨x, _ | ⟨y, more⟩⟩
  · exact ⟨before, u, behind, same, either⟩
  · obtain ⟨noLead, noTrail⟩ := first x rfl
    rcases before with _ | ⟨z, before⟩
    · obtain ⟨rfl, -⟩ := List.cons.inj same
      rw [noLead, noTrail] at either
      rcases either with ⟨bad, -⟩ | ⟨bad, -⟩ <;> cases bad
    · obtain ⟨-, same⟩ := List.cons.inj same
      refine ⟨before, u, behind, same, either.imp_right ?_⟩
      rintro ⟨trail, alone⟩
      refine ⟨trail, fun v last => ?_⟩
      cases before with
      | nil => cases last
      | cons w before => exact alone v (by rwa [List.getLast?_cons_cons])
  · obtain ⟨rfl, lead, trail⟩ := pair x y more rfl
    rcases before with _ | ⟨z, _ | ⟨z', before⟩⟩
    · obtain ⟨rfl, rfl⟩ := List.cons.inj same
      rcases either with ⟨-, alone⟩ | ⟨bad, -⟩
      · exact absurd (alone y rfl) (by rw [trail]; exact Bool.noConfusion)
      · rw [not_both bad] at lead
        cases lead
    · obtain ⟨rfl, behindX⟩ := List.cons.inj same
      obtain ⟨rfl, -⟩ := List.cons.inj behindX
      rcases either with ⟨bad, -⟩ | ⟨-, alone⟩
      · rw [not_both trail] at bad
        cases bad
      · exact absurd (alone x rfl) (by rw [lead]; exact Bool.noConfusion)
    · obtain ⟨-, same⟩ := List.cons.inj same
      obtain ⟨-, same⟩ := List.cons.inj same
      refine ⟨before, u, behind, same, either.imp_right ?_⟩
      rintro ⟨trail, alone⟩
      refine ⟨trail, fun v last => ?_⟩
      cases before with
      | nil => cases last
      | cons w before =>
        exact alone v (by rwa [List.getLast?_cons_cons, List.getLast?_cons_cons])

theorem utf16_paired (text : List Char) : ¬ UnpairedSurrogate (utf16 text) := by
  induction text with
  | nil =>
    rintro ⟨before, u, behind, same, -⟩
    exact absurd same (by simp [utf16])
  | cons ch text ih =>
    intro unpaired
    have valid := scalar_cases ch
    apply ih
    refine @unpaired_behind (utf16Units ch) _ unpaired ?_ ?_
    · intro u same
      rw [utf16Units] at same
      split_ifs at same with bmp
      · obtain rfl := List.singleton_inj.mp same
        rw [UInt16.toNat_ofNat', Nat.mod_eq_of_lt (by omega), Bool.eq_false_iff,
          Bool.eq_false_iff, ne_eq, ne_eq, Unicode.isLead_iff, Unicode.isTrail_iff]
        omega
      · simp at same
    · intro u v more same
      rw [utf16Units] at same
      split_ifs at same with bmp
      · simp at same
      · obtain ⟨rfl, others⟩ := List.cons.inj same
        obtain ⟨rfl, rfl⟩ := List.cons.inj others
        refine ⟨rfl, ?_⟩
        rw [UInt16.toNat_ofNat', UInt16.toNat_ofNat', Nat.mod_eq_of_lt (by omega),
          Nat.mod_eq_of_lt (by omega), Unicode.isLead_iff, Unicode.isTrail_iff]
        omega

/-- What is no text has an unpaired surrogate. -/
theorem utf16_iff : (∃ text, utf16 text = s) ↔ ¬ UnpairedSurrogate s := by
  constructor
  · rintro ⟨text, rfl⟩
    exact utf16_paired text
  · exact utf16_of_paired le_rfl

/-! ## URIs -/

theorem percentByte_digits (b : UInt8) : ∃ high low, percentByte b = [percent, high, low] ∧
    isASCIIHexDigit high = true ∧ isASCIIHexDigit low = true ∧ convertHex high low = b := by
  obtain ⟨high, low, same, digit, digit', value⟩ := Text.EscapeSequences.appendByteAsHex_digits b
  exact ⟨high.toUInt16, low.toUInt16, by rw [percentByte, same]; rfl, digit, digit', value⟩

theorem escapes_percentBytes (bytes : List UInt8) :
    Escapes bytes (bytes.flatMap percentByte) := by
  induction bytes with
  | nil => exact .nil
  | cons b bytes ih =>
    obtain ⟨high, low, same, digit, digit', value⟩ := percentByte_digits b
    rw [List.flatMap_cons, same]
    have escapes := Escapes.cons digit digit' ih
    rwa [value] at escapes

/-- A set of ASCII characters without the percent sign and zero. -/
def Plain (set : String) : Prop :=
  ∀ b : UInt8, strchr set b.toUInt16 = true → b.toNat < 0x80 ∧ b ≠ 0x25 ∧ b ≠ 0

theorem strchr_ofList {chars : List Char} {u : UChar} :
    strchr (String.ofList chars) u = true ↔ ∃ c ∈ chars, UInt16.ofNat c.toNat = u := by
  rw [strchr, ascii, String.toList_ofList, List.contains_iff_mem, List.mem_map]

/-- It is enough to look at the characters of the set. -/
theorem plain_of_all {chars : List Char}
    (all : chars.all (fun c => c.toNat < 0x80 && c.toNat != 0x25 && c.toNat != 0) = true) :
    Plain (String.ofList chars) := by
  intro b found
  obtain ⟨c, member, same⟩ := strchr_ofList.mp found
  have unit := List.all_eq_true.mp all c member
  rw [Bool.and_eq_true, Bool.and_eq_true, decide_eq_true_eq, bne_iff_ne, bne_iff_ne] at unit
  have code := congrArg UInt16.toNat same
  rw [UInt16.toNat_ofNat_of_lt' (Nat.lt_trans unit.1.1 (by decide)), UInt8.toNat_toUInt16] at code
  rw [code] at unit
  exact ⟨unit.1.1, mt (congrArg UInt8.toNat) unit.1.2, mt (congrArg UInt8.toNat) unit.2⟩

theorem plain_URI : Plain doNotEscapeWhenEncodingURI := plain_of_all (by decide)

theorem plain_URIComponent : Plain doNotEscapeWhenEncodingURIComponent :=
  plain_of_all (by decide)

theorem strchr_mono {chars chars' : List Char} (all : chars.all (chars'.contains ·) = true)
    {u : UChar} (found : strchr (String.ofList chars) u = true) :
    strchr (String.ofList chars') u = true := by
  obtain ⟨c, member, same⟩ := strchr_ofList.mp found
  have kept := List.contains_iff_mem.mp (List.all_eq_true.mp all c member)
  exact strchr_ofList.mpr ⟨c, kept, same⟩

/-- What decoding leaves escaped is not escaped by encoding. -/
theorem reserved_kept : ∀ b : UInt8, strchr "#$&+,/:;=?@" b.toUInt16 = true →
    strchr doNotEscapeWhenEncodingURI b.toUInt16 = true :=
  fun _ found => strchr_mono (by decide) found

/-- What is appended for a byte. -/
def encodeByte (set : String) (b : UInt8) : List UChar :=
  if b ≠ 0 ∧ strchr set b.toUInt16 then [b.toUInt16] else percentByte b

theorem encodeByte_other (plain : Plain set) {b : UInt8} (behind : 0x80 ≤ b.toNat) :
    encodeByte set b = percentByte b := by
  refine if_neg fun both => ?_
  have small := (plain b both.2).1
  omega

/-- A character stays or is escaped. -/
theorem decode_encodedChar (plain : Plain set)
    (kept : ∀ b : UInt8, strchr doNotUnescape b.toUInt16 = true → strchr set b.toUInt16 = true)
    (ch : Char) (rest : List UChar) :
    decode doNotUnescape strict ((String.utf8EncodeChar ch).flatMap (encodeByte set) ++ rest) =
      (decode doNotUnescape strict rest).map (utf16Units ch ++ ·) := by
  by_cases behind : 0x80 ≤ ch.val.toNat
  · have all : (String.utf8EncodeChar ch).flatMap (encodeByte set) =
        (String.utf8EncodeChar ch).flatMap percentByte := by
      refine List.flatMap_congr fun b among => encodeByte_other plain ?_
      exact Url.isASCII_false_iff.mp (Url.utf8EncodeChar_other behind b among)
    rw [all]
    exact decode_escaped (escapes_percentBytes _) (fun small => by omega) rest
  · have small : ch.val.toNat < 0x80 := Nat.lt_of_not_le behind
    have single : String.utf8EncodeChar ch = [UInt8.ofNat ch.val.toNat] := if_pos (by omega)
    have same : (UInt8.ofNat ch.val.toNat).toUInt16 = UInt16.ofNat ch.val.toNat :=
      toUInt16_ofNat (by omega)
    by_cases stays : UInt8.ofNat ch.val.toNat ≠ 0 ∧
        strchr set (UInt8.ofNat ch.val.toNat).toUInt16 = true
    · have other : UInt16.ofNat ch.val.toNat ≠ percent := by
        intro percents
        have value := congrArg UInt16.toNat percents
        rw [UInt16.toNat_ofNat', Nat.mod_eq_of_lt (by omega)] at value
        refine (plain _ stays.2).2.1 ?_
        rw [value]
        rfl
      rw [single, List.flatMap_singleton, encodeByte, if_pos stays, same,
        single_units (by omega), List.singleton_append, decode_plain other]
      rfl
    · have escaped : encodeByte set (UInt8.ofNat ch.val.toNat) =
          percentByte (UInt8.ofNat ch.val.toNat) := if_neg stays
      have form : EscapedForm ch (percentByte (UInt8.ofNat ch.val.toNat)) := by
        have escapes := escapes_percentBytes [UInt8.ofNat ch.val.toNat]
        rwa [List.flatMap_singleton, ← single] at escapes
      rw [single, List.flatMap_singleton, escaped]
      refine decode_escaped form (fun _ => ?_) rest
      rw [← same]
      by_contra unescaped
      have member := kept _ (Bool.eq_true_of_not_eq_false unescaped)
      exact stays ⟨(plain _ member).2.2, member⟩

theorem decode_encoded (plain : Plain set)
    (kept : ∀ b : UInt8, strchr doNotUnescape b.toUInt16 = true → strchr set b.toUInt16 = true)
    (text : List Char) :
    decode doNotUnescape strict ((utf8 text).flatMap (encodeByte set)) = some (utf16 text) := by
  induction text with
  | nil => rfl
  | cons ch text ih =>
    have split : utf8 (ch :: text) = String.utf8EncodeChar ch ++ utf8 text := List.flatMap_cons
    rw [split, List.flatMap_append, decode_encodedChar plain kept, ih]
    rfl

/-- Encoding fails at an unpaired surrogate. -/
theorem encode_short (short : s.length ≤ (2 ^ 32 - 1) / 3) (stored : Stored is8Bit s) :
    encode set is8Bit s = none ↔ UnpairedSurrogate s := by
  rw [encode, Option.map_eq_none_iff]
  by_cases whole : ∃ text, utf16 text = s
  · have paired := utf16_iff.mp whole
    obtain ⟨text, rfl⟩ := whole
    rw [utf8Strict_utf16 text short stored]
    exact iff_of_false (fun none => by cases none) paired
  · have unpaired : UnpairedSurrogate s := by
      by_contra paired
      exact whole (utf16_iff.mpr paired)
    refine iff_of_true ?_ unpaired
    cases is8Bit with
    | false => exact utf8Strict_other whole
    | true =>
      exfalso
      obtain ⟨before, u, behind, rfl, either⟩ := unpaired
      have small := stored rfl u (List.mem_append_right _ List.mem_cons_self)
      rw [Unicode.isLead_iff, Unicode.isTrail_iff] at either
      omega

theorem encode_long (long : (2 ^ 32 - 1) / 3 < s.length) : encode set is8Bit s = none := by
  have some_ : s ≠ [] := by
    rintro rfl
    exact Nat.not_lt_zero _ long
  rw [encode, utf8Strict, if_neg some_, if_pos long]
  rfl

theorem encode_none_iff (stored : Stored is8Bit s) :
    encode set is8Bit s = none ↔ UnpairedSurrogate s ∨ (2 ^ 32 - 1) / 3 < s.length := by
  by_cases long : (2 ^ 32 - 1) / 3 < s.length
  · exact iff_of_true (encode_long long) (.inr long)
  · rw [encode_short (Nat.le_of_not_lt long) stored]
    exact (or_iff_left long).symm

theorem encode_some {encoded : List UChar} (plain : Plain set)
    (kept : ∀ b : UInt8, strchr doNotUnescape b.toUInt16 = true → strchr set b.toUInt16 = true)
    (stored : Stored is8Bit s) (encodes : encode set is8Bit s = some encoded) :
    decode doNotUnescape true encoded = some s := by
  have short : s.length ≤ (2 ^ 32 - 1) / 3 := by
    by_contra long
    rw [encode_long (Nat.lt_of_not_le long)] at encodes
    cases encodes
  have whole : ∃ text, utf16 text = s := by
    rw [utf16_iff, ← @encode_short set _ _ short stored, encodes]
    exact Option.some_ne_none encoded
  obtain ⟨text, rfl⟩ := whole
  rw [encode, utf8Strict_utf16 text short stored] at encodes
  rw [← Option.some.inj encodes]
  exact decode_encoded plain kept text

/-! ## `unescape` and `escape` -/

theorem plain_escape : Plain doNotEscape := plain_of_all (by decide)

theorem not_u {digit : UChar} (isDigit : isASCIIHexDigit digit = true) : digit ≠ 0x75 := by
  rintro rfl
  exact absurd isDigit (by decide)

theorem toUInt16_toUInt8 (small : u.toNat < 0x100) : u.toUInt8.toUInt16 = u := by
  apply UInt16.toNat_inj.mp
  rw [UInt8.toNat_toUInt16, UInt16.toNat_toUInt8, Nat.mod_eq_of_lt (by omega)]

/-- The bytes of a unit make the unit. -/
theorem bytes_join (u : UChar) :
    ((u >>> 8).toUInt8.toUInt16 <<< 8) ||| u.toUInt8.toUInt16 = u := by
  have few : u.toNat < 2 ^ 16 := u.toNat_lt
  apply UInt16.toNat_inj.mp
  rw [UInt16.toNat_or, UInt16.toNat_shiftLeft, UInt8.toNat_toUInt16, UInt8.toNat_toUInt16,
    UInt16.toNat_toUInt8, UInt16.toNat_toUInt8, UInt16.toNat_shiftRight]
  change (u.toNat >>> 8 % 2 ^ 8) <<< 8 % 2 ^ 16 ||| u.toNat % 2 ^ 8 = u.toNat
  rw [Nat.shiftRight_eq_div_pow, Nat.shiftLeft_eq,
    Nat.mod_eq_of_lt (by omega : u.toNat / 2 ^ 8 < 2 ^ 8), Nat.mod_eq_of_lt (by omega),
    ← Nat.shiftLeft_eq, ← Nat.shiftLeft_add_eq_or_of_lt (Nat.mod_lt _ (by decide)),
    Nat.shiftLeft_eq]
  omega

/-- A unit that has been escaped is read again, whatever follows. -/
theorem unescapeTurn_escapeUnit (stored : is8Bit = true → u.toNat < 0x100) (rest : List UChar) :
    ∃ c0 more, escapeUnit is8Bit u = c0 :: more ∧
      unescapeTurn (c0 :: more ++ rest) c0 = (u, more.length + 1) := by
  rw [escapeUnit]
  by_cases wide : is8Bit = false ∧ u > 255
  · rw [if_pos wide]
    obtain ⟨h1, h2, same, digit1, digit2, value⟩ :=
      Text.EscapeSequences.appendByteAsHex_digits (u >>> 8).toUInt8
    obtain ⟨h3, h4, same', digit3, digit4, value'⟩ :=
      Text.EscapeSequences.appendByteAsHex_digits u.toUInt8
    refine ⟨percent, _, rfl, ?_⟩
    rw [same, same']
    change unescapeTurn (percent :: 0x75 :: h1.toUInt16 :: h2.toUInt16 :: h3.toUInt16 ::
      h4.toUInt16 :: rest) percent = (u, 6)
    have read : escapedUnit (percent :: 0x75 :: h1.toUInt16 :: h2.toUInt16 :: h3.toUInt16 ::
        h4.toUInt16 :: rest) = some u := by
      rw [escapedUnit, digit1, digit2, digit3, digit4, convertUnicode, convertHex, convertHex,
        value, value', bytes_join]
      rfl
    have begins : percent = percent ∧ 6 ≤ (percent :: 0x75 :: h1.toUInt16 :: h2.toUInt16 ::
        h3.toUInt16 :: h4.toUInt16 :: rest).length ∧ (percent :: 0x75 :: h1.toUInt16 ::
        h2.toUInt16 :: h3.toUInt16 :: h4.toUInt16 :: rest).getD 1 0 = 0x75 := by
      refine ⟨rfl, ?_, rfl⟩
      simp only [List.length_cons]
      omega
    rw [unescapeTurn, if_pos begins, read]
  · have small : u.toNat < 0x100 := by
      cases is8Bit with
      | true => exact stored rfl
      | false =>
        by_contra large
        refine wide ⟨rfl, UInt16.lt_iff_toNat_lt.mpr ?_⟩
        exact Nat.lt_of_lt_of_le (by decide) (Nat.le_of_not_lt large)
    rw [if_neg wide]
    by_cases stays : u ≠ 0 ∧ strchr doNotEscape u = true
    · have other : u ≠ percent := by
        rintro rfl
        exact absurd stays.2 (by decide)
      refine ⟨u, [], if_pos stays, ?_⟩
      rw [unescapeTurn, if_neg fun begins => other begins.1, if_neg fun begins => other begins.1]
      rfl
    · obtain ⟨high, low, same, digit, digit', value⟩ := percentByte_digits u.toUInt8
      rw [if_neg stays, same]
      refine ⟨percent, [high, low], rfl, ?_⟩
      change unescapeTurn (percent :: high :: low :: rest) percent = (u, 3)
      have first : (percent :: high :: low :: rest).getD 1 0 = high := rfl
      have second : (percent :: high :: low :: rest).getD 2 0 = low := rfl
      rw [unescapeTurn, first, second, if_neg fun begins => not_u digit begins.2.2,
        if_pos ⟨rfl, by simp, digit, digit'⟩, value, toUInt16_toUInt8 small]

theorem unescapeLoop_escape (enough : (globalFuncEscape is8Bit s).length ≤ fuel)
    (stored : Stored is8Bit s) : unescapeLoop fuel (globalFuncEscape is8Bit s) = s := by
  induction s generalizing fuel with
  | nil => cases fuel <;> rfl
  | cons u s ih =>
    obtain ⟨c0, more, same, turn⟩ := @unescapeTurn_escapeUnit is8Bit u
      (fun narrow => stored narrow u List.mem_cons_self) (globalFuncEscape is8Bit s)
    have split : globalFuncEscape is8Bit (u :: s) = c0 :: (more ++ globalFuncEscape is8Bit s) := by
      rw [globalFuncEscape, List.flatMap_cons, same]
      rfl
    rw [split, List.length_cons, List.length_append] at enough
    cases fuel with
    | zero => omega
    | succ fuel =>
      have later := @ih fuel (by omega) fun narrow v among =>
        stored narrow v (List.mem_cons_of_mem u among)
      rw [split, unescapeLoop, ← List.cons_append, turn]
      dsimp only
      have back : (c0 :: more ++ globalFuncEscape is8Bit s).drop (more.length + 1) =
          globalFuncEscape is8Bit s := List.drop_left
      rw [back, later]

/-! ## The functions together -/

end NetRider.Runtime.URICoding
