import NetRider.Text.Chunks
import NetRider.Wtf.HexNumber
import NetRider.Wtf.Strings
import NetRider.Wtf.UTF8Strings

/-!
# Percent escapes

The two encoders, and the decoder of `DecodeEscapeSequences.h` for URLs in UTF-8. An encoder gives
nothing where the code stops with `CRASH`.
-/

namespace NetRider.Text.EscapeSequences

open Lib Wtf Wtf.HexNumber
open Wtf.Unicode (widen convertUTF16ToUTF8)

def percent : UChar := 0x25

/-! ## Encoding -/

def putUTF8Triple (ch : UChar) : List UInt8 :=
  [(((ch >>> 12) &&& 0x0F) ||| 0xE0).toUInt8, (((ch >>> 6) &&& 0x3F) ||| 0x80).toUInt8,
    ((ch &&& 0x3F) ||| 0x80).toUInt8]

/-- `utf8Impl`, for a lenient conversion. -/
def utf8Impl (characters : List UChar) : List UInt8 :=
  let converted := convertUTF16ToUTF8 false (characters.length * 3) characters
  if converted.result = .sourceExhausted then
    converted.target ++ putUTF8Triple (converted.source.headD 0)
  else converted.target

/-- `String::utf8`; a null `CString` is `none`. -/
def utf8CString (string : List UChar) : Option (List UInt8) :=
  if string = [] then some []
  else if string.length > (2 ^ 32 - 1) / 3 then none
  else some (utf8Impl string)

/-- `BadChar` in `characterClassTable`. -/
def isBadChar (c : UInt8) : Bool :=
  0x01 ≤ c && c ≤ 0x20 || [0x22, 0x23, 0x25, 0x3C, 0x3E, 0x3F].contains c || 0x7F ≤ c

def appendEscapedChar (c : UInt8) : List UInt8 := 0x25 :: appendByteAsHex c

def encodeWithURLEscapeSequences (notEncodedString : List UChar) : Option (List UChar) :=
  let asUTF8 := (utf8CString notEncodedString).getD []
  -- The capacity of a `Vector` is `unsigned`.
  if asUTF8.length * 3 + 1 > 2 ^ 32 - 1 then none
  else some (widen (asUTF8.flatMap fun c => if isBadChar c then appendEscapedChar c else [c]))

/-- The table of the characters that are dangerous in file names. -/
def needsEscaping (c : UChar) : Bool :=
  c ≤ 0x20 || [0x22, 0x25, 0x2A, 0x2F, 0x3A, 0x3C, 0x3E, 0x3F, 0x5C, 0x7C, 0x7F].contains c

def shouldEscapeUChar (c : UChar) : Bool := if c > 127 then false else needsEscaping c

def encodeForFileName (inputString : List UChar) : Option (List UChar) :=
  let result := inputString.flatMap fun character =>
    if shouldEscapeUChar character then percent :: widen (appendByteAsHex character.toUInt8)
    else [character]
  -- The length of a `StringBuilder` is `unsigned`.
  if result.length < 2 ^ 32 then some result else none

/-! ## Decoding -/

def isASCIIHexDigit (c : UChar) : Bool :=
  isASCIIDigit c || (c ||| 0x20 ≥ 0x61 && c ||| 0x20 ≤ 0x66)

def toASCIIHexValue (c : UChar) : UChar := if c < 0x41 then c - 0x30 else (c - 0x41 + 10) &&& 0xF

/-- `findEndOfRun`, as the length of the run. -/
def runLength (numberOfTrailingCharacters : Nat) : List UChar → Nat
  | [] => 0
  | c :: rest =>
    if c = percent then
      match rest with
      | high :: low :: rest =>
        if isASCIIHexDigit high && isASCIIHexDigit low then 3 + runLength 0 rest else 0
      | _ => 0
    else if 0x40 ≤ c ∧ c ≤ 0x7F ∧ numberOfTrailingCharacters < 2 then
      1 + runLength (numberOfTrailingCharacters + 1) rest
    else 0

/-- The bytes of a run. -/
def unescape : List UChar → List UInt8
  | [] => []
  | c :: rest =>
    if c = percent then
      match rest with
      | high :: low :: rest =>
        ((toASCIIHexValue high <<< 4) ||| toASCIIHexValue low).toUInt8 :: unescape rest
      | _ => []
    else c.toUInt8 :: unescape rest

/-- The buffer of the run lies at the address. -/
def decodeRun (wide : Bool) (address : Nat) (run : List UChar) : Except Fault (List UChar) :=
  (decode wide address true false [] (unescape run) false).map Decoded.text

/-- `decodeEscapeSequences` from a position on, for `fuel` characters. A run that decodes to
nothing stays as it is. -/
def decodeFrom (wide : Bool) (address : Nat → Nat) :
    Nat → List UChar → Except Fault (List UChar)
  | fuel + 1, c :: rest =>
    if c = percent then
      let run := runLength 0 (c :: rest)
      if run = 0 then (decodeFrom wide address fuel rest).map (c :: ·)
      else do
        let decoded ← decodeRun wide (address rest.length) ((c :: rest).take run)
        let later ← decodeFrom wide address fuel ((c :: rest).drop run)
        if decoded = [] then return (c :: rest).take run ++ later else return decoded ++ later
    else (decodeFrom wide address fuel rest).map (c :: ·)
  | _, _ => .ok []

/-- The buffer of a run lies where `address` says for what follows the start of the run. -/
def decodeURLEscapeSequences (wide : Bool) (address : Nat → Nat) (string : List UChar) :
    Except Fault (List UChar) :=
  decodeFrom wide address string.length string

example : decodeURLEscapeSequences true id (ascii "a%41B%C3%a9Z%4") =
    .ok [0x61, 0x41, 0x42, 0xE9, 0x5A, 0x25, 0x34] := by decide +kernel

/-! ## Escaped texts -/

/-- A unit that stands for itself, or an escape. -/
inductive Atom
  | raw (u : UChar)
  | escaped (b : UInt8)

namespace Atom

def written : Atom → List UChar
  | raw u => [u]
  | escaped b => percent :: widen (appendByteAsHex b)

/-- What a run makes of it. -/
def byte : Atom → UInt8
  | raw u => u.toUInt8
  | escaped b => b

/-- It can be in a run. -/
def InRun : Atom → Prop
  | raw u => 0x40 ≤ u ∧ u ≤ 0x7F
  | escaped _ => True

end Atom

def written (atoms : List Atom) : List UChar := atoms.flatMap Atom.written

/-- The atoms of the run, and those behind it. -/
def splitRun (numberOfTrailingCharacters : Nat) : List Atom → List Atom × List Atom
  | [] => ([], [])
  | .escaped b :: atoms => ((splitRun 0 atoms).map (.escaped b :: ·) id)
  | .raw u :: atoms =>
    if 0x40 ≤ u ∧ u ≤ 0x7F ∧ numberOfTrailingCharacters < 2 then
      (splitRun (numberOfTrailingCharacters + 1) atoms).map (.raw u :: ·) id
    else ([], .raw u :: atoms)

/-- The atoms stand for the text: characters are escaped as all their bytes. -/
inductive Means : List Atom → List UChar → Prop
  | nil : Means [] []
  | raw {u atoms units} : u ≠ percent → Means atoms units → Means (.raw u :: atoms) (u :: units)
  | escaped {ch atoms units} : Means atoms units →
    Means ((String.utf8EncodeChar ch).map .escaped ++ atoms) (utf16Units ch ++ units)

variable {atoms pre post : List Atom} {units : List UChar} {b : UInt8} {u : UChar} {k : Nat}

/-! ## Hexadecimal digits -/

theorem appendByteAsHex_digits (b : UInt8) : ∃ high low, appendByteAsHex b = [high, low] ∧
    isASCIIHexDigit high.toUInt16 = true ∧ isASCIIHexDigit low.toUInt16 = true ∧
    ((toASCIIHexValue high.toUInt16 <<< 4) ||| toASCIIHexValue low.toUInt16).toUInt8 = b := by
  refine ⟨_, _, rfl, ?_⟩
  revert b
  exact forall_byte (by decide)

theorem runLength_escaped (b : UInt8) (rest : List UChar) :
    runLength k (percent :: widen (appendByteAsHex b) ++ rest) = 3 + runLength 0 rest := by
  obtain ⟨high, low, same, digit, digit', -⟩ := appendByteAsHex_digits b
  rw [same]
  change runLength k (percent :: high.toUInt16 :: low.toUInt16 :: rest) = _
  rw [runLength, if_pos rfl, digit, digit']
  rfl

theorem unescape_escaped (b : UInt8) (rest : List UChar) :
    unescape (percent :: widen (appendByteAsHex b) ++ rest) = b :: unescape rest := by
  obtain ⟨high, low, same, -, -, value⟩ := appendByteAsHex_digits b
  rw [same]
  change unescape (percent :: high.toUInt16 :: low.toUInt16 :: rest) = _
  rw [unescape, if_pos rfl, value]

/-! ## Runs -/

theorem Means.plain (means : Means atoms units) : .raw percent ∉ atoms := by
  induction means with
  | nil => exact List.not_mem_nil
  | raw other _ ih =>
    rw [List.mem_cons, not_or]
    exact ⟨fun same => other (Atom.raw.inj same).symm, ih⟩
  | escaped _ ih =>
    rw [List.mem_append, not_or]
    exact ⟨by simp, ih⟩

theorem splitRun_append (k : Nat) (atoms : List Atom) :
    (splitRun k atoms).1 ++ (splitRun k atoms).2 = atoms := by
  fun_induction splitRun k atoms with
  | case1 => rfl
  | case2 _ b atoms ih => exact congrArg (Atom.escaped b :: ·) ih
  | case3 _ u atoms _ ih => exact congrArg (Atom.raw u :: ·) ih
  | case4 => rfl

theorem splitRun_inRun (k : Nat) (atoms : List Atom) : ∀ a ∈ (splitRun k atoms).1, a.InRun := by
  fun_induction splitRun k atoms with
  | case1 => simp
  | case2 _ b atoms ih => exact List.forall_mem_cons.mpr ⟨trivial, ih⟩
  | case3 _ u atoms inside ih =>
    exact List.forall_mem_cons.mpr ⟨⟨inside.1, inside.2.1⟩, ih⟩
  | case4 => simp

theorem splitRun_ends (k : Nat) (atoms : List Atom) (b : UInt8) (rest : List Atom) :
    (splitRun k atoms).2 ≠ .escaped b :: rest := by
  fun_induction splitRun k atoms with
  | case1 => exact (List.cons_ne_nil _ _).symm
  | case2 _ _ _ ih => exact ih
  | case3 _ _ _ _ ih => exact ih
  | case4 => simp

theorem written_cons (a : Atom) (atoms : List Atom) :
    written (a :: atoms) = a.written ++ written atoms := List.flatMap_cons ..

theorem written_append (pre post : List Atom) :
    written (pre ++ post) = written pre ++ written post := List.flatMap_append ..

theorem runLength_written (plain : .raw percent ∉ atoms) :
    runLength k (written atoms) = (written (splitRun k atoms).1).length := by
  fun_induction splitRun k atoms with
  | case1 => rfl
  | case2 _ b atoms ih =>
    have later := ih fun member => plain (List.mem_cons_of_mem _ member)
    rw [written_cons, Atom.written, runLength_escaped, later, Prod.map_fst, written_cons,
      List.length_append]
    rfl
  | case3 _ u atoms inside ih =>
    have later := ih fun member => plain (List.mem_cons_of_mem _ member)
    have other : u ≠ percent := fun same => plain (same ▸ List.mem_cons_self)
    rw [written_cons, Prod.map_fst, written_cons, List.length_append, ← later]
    change runLength _ (u :: written atoms) = 1 + _
    rw [runLength.eq_def]
    dsimp only
    rw [if_neg other, if_pos inside]
  | case4 _ u atoms outside =>
    have other : u ≠ percent := fun same => plain (same ▸ List.mem_cons_self)
    change runLength _ (u :: written atoms) = 0
    rw [runLength.eq_def]
    dsimp only
    rw [if_neg other, if_neg outside]

theorem unescape_written (plain : .raw percent ∉ pre) :
    unescape (written pre) = pre.map Atom.byte := by
  induction pre with
  | nil => rfl
  | cons a pre ih =>
    rw [List.mem_cons, not_or] at plain
    rw [written_cons, List.map_cons, ← ih plain.2]
    cases a with
    | raw u =>
      have other : u ≠ percent := fun same => plain.1 (congrArg Atom.raw same.symm)
      change unescape (u :: written pre) = _
      rw [unescape.eq_def]
      exact if_neg other
    | escaped b => exact unescape_escaped b (written pre)

theorem ascii_character (small : u ≤ 0x7F) :
    ∃ ch, String.utf8EncodeChar ch = [u.toUInt8] ∧ utf16Units ch = [u] := by
  replace small := UInt16.le_iff_toNat_le.mp small
  change u.toNat ≤ 127 at small
  have value : (Char.ofNat u.toNat).val.toNat = u.toNat := val_ofNat (.inl (by omega))
  refine ⟨Char.ofNat u.toNat, ?_, ?_⟩
  · unfold String.utf8EncodeChar
    dsimp only
    rw [value, if_pos (by omega)]
    rfl
  · unfold utf16Units
    rw [value, if_pos (by omega), UInt16.ofNat_toNat]

/-- A run that ends in front of no escape is made of characters. -/
theorem Means.run (means : Means (pre ++ post) units) (inRun : ∀ a ∈ pre, a.InRun)
    (ends : ∀ b rest, post ≠ .escaped b :: rest) :
    ∃ text units', pre.map Atom.byte = utf8 text ∧ units = utf16 text ++ units' ∧
      Means post units' := by
  generalize whole : pre ++ post = atoms at means
  induction means generalizing pre with
  | nil =>
    obtain ⟨rfl, rfl⟩ := List.append_eq_nil_iff.mp whole
    exact ⟨[], [], rfl, rfl, .nil⟩
  | @raw u atoms units other means ih =>
    cases pre with
    | nil =>
      rw [List.nil_append] at whole
      exact ⟨[], _, rfl, rfl, whole ▸ .raw other means⟩
    | cons a pre =>
      obtain ⟨rfl, rest⟩ := List.cons.inj whole
      obtain ⟨inside, later⟩ := List.forall_mem_cons.mp inRun
      obtain ⟨ch, encoded, character⟩ := ascii_character inside.2
      obtain ⟨text, units', bytes, rfl, means'⟩ := ih later rest
      refine ⟨ch :: text, units', ?_, ?_, means'⟩
      · rw [List.map_cons, bytes, utf8, utf8, List.flatMap_cons, encoded]
        rfl
      · rw [utf16, utf16, List.flatMap_cons, character]
        rfl
  | @escaped ch atoms units means ih =>
    -- The run holds all bytes of the character, as no escape follows it.
    obtain ⟨later, rfl, rfl⟩ : ∃ later, pre = (String.utf8EncodeChar ch).map .escaped ++ later ∧
        atoms = later ++ post := by
      rcases List.append_eq_append_iff.mp whole with ⟨more, same, behind⟩ | ⟨later, front, rest⟩
      · cases more with
        | nil => exact ⟨[], by rw [List.append_nil] at same ⊢; exact same.symm, behind.symm⟩
        | cons a more =>
          have member : a ∈ (String.utf8EncodeChar ch).map Atom.escaped := by
            rw [same]
            exact List.mem_append_right _ List.mem_cons_self
          obtain ⟨b, -, rfl⟩ := List.mem_map.mp member
          exact absurd behind (ends b _)
      · exact ⟨later, front, rest⟩
    obtain ⟨text, units', bytes, rfl, means'⟩ :=
      ih (fun a member => inRun a (List.mem_append_right _ member)) rfl
    refine ⟨ch :: text, units', ?_, ?_, means'⟩
    · rw [List.map_append, bytes, List.map_map, utf8, utf8, List.flatMap_cons]
      exact congrArg (· ++ _) (List.map_id _)
    · rw [utf16, utf16, List.flatMap_cons, List.append_assoc]

/-! ## The codec -/

theorem mixed_of_trails {more bytes : List UInt8} (trails : ∀ b ∈ more, Trails b)
    (mixed : Mixed (more ++ bytes)) : Mixed bytes := by
  induction more with
  | nil => exact mixed
  | cons byte more ih =>
    obtain ⟨first, later⟩ := List.forall_mem_cons.mp trails
    exact ih later (mixed.of_cons fun lead => by unfold LeadsFour at lead; unfold Trails at first; omega)

/-- A byte behind the first one of a sequence of four begins no sequence of two. -/
theorem mixed_of_character {ch : Char} {bytes : List UInt8}
    (mixed : Mixed (String.utf8EncodeChar ch ++ bytes)) : Mixed bytes := by
  cases encoded : String.utf8EncodeChar ch with
  | nil => exact absurd encoded String.utf8EncodeChar_ne_nil
  | cons byte more =>
    have trails := utf8EncodeChar_trails ch encoded
    have numbers := encodes_utf8EncodeChar ch
    rw [encoded, List.cons_append] at mixed
    refine mixed_of_trails trails ?_
    obtain ⟨front, l, a, b, c, rest, same, four, two, later⟩ := mixed
    rcases front with _ | ⟨_, front⟩
    · obtain ⟨rfl, behind⟩ := List.cons.inj same
      cases more with
      | nil =>
        rw [encoded, List.map_cons, List.map_nil] at numbers
        unfold LeadsFour at four
        generalize byte.toNat = first at numbers four
        generalize ch.val.toNat = value at numbers
        cases numbers
        omega
      | cons d more =>
        obtain ⟨rfl, -⟩ := List.cons.inj behind
        have trail := trails d List.mem_cons_self
        unfold LeadsTwo at two
        unfold Trails at trail
        omega
    · exact ⟨front, l, a, b, c, rest, (List.cons.inj same).2, four, two, later⟩

theorem not_mixed_utf8 (text : List Char) : ¬ Mixed (utf8 text) := by
  induction text with
  | nil => exact fun mixed => by have length := mixed.length; simp [utf8] at length
  | cons ch text ih =>
    rw [utf8, List.flatMap_cons]
    exact fun mixed => ih (mixed_of_character mixed)

theorem decodes_utf8 (text : List Char) : Decodes (utf8 text) text false := by
  induction text with
  | nil => exact .nil
  | cons ch text ih =>
    rw [utf8, List.flatMap_cons]
    exact .character ih

theorem decodeRun_utf8 {run : List UChar} (text : List Char) (bytes : unescape run = utf8 text)
    (short : (utf8 text).length + maxLength < 2 ^ 32) (wide : Bool) (address : Nat) :
    decodeRun wide address run = .ok (utf16 text) := by
  obtain ⟨text', bad, fed, decoded⟩ := @feed_decodes wide false [] [] (address, utf8 text)
    pending_nil (not_mixed_utf8 text) short
  obtain ⟨rfl, -⟩ := decoded.unique (decodes_utf8 text)
  rw [decodeRun, bytes]
  simp only [feed] at fed
  cases done : decode wide address true false [] (utf8 text') false with
  | error fault =>
    rw [done] at fed
    cases fed
  | ok decoded =>
    rw [done] at fed
    exact congrArg Except.ok (congrArg Prod.fst (Except.ok.inj fed))

/-! ## Lengths -/

/-- Every escape lets two characters trail. -/
theorem splitRun_length (few : k ≤ 2) (atoms : List Atom) :
    5 * (splitRun k atoms).1.length + 2 * k ≤ 3 * (written (splitRun k atoms).1).length + 4 := by
  fun_induction splitRun k atoms with
  | case1 k => simp only [List.length_nil]; omega
  | case2 k b atoms ih =>
    have later := ih (Nat.zero_le 2)
    have three : (Atom.escaped b).written.length = 3 := rfl
    rw [Prod.map_fst, written_cons, List.length_append, List.length_cons, three]
    omega
  | case3 k u atoms inside ih =>
    have later := ih inside.2.2
    have one : (Atom.raw u).written.length = 1 := rfl
    rw [Prod.map_fst, written_cons, List.length_append, List.length_cons, one]
    omega
  | case4 k u => simp only [List.length_nil]; omega

/-! ## Round trips -/

theorem utf16_eq_nil {text : List Char} (empty : utf16 text = []) : text = [] := by
  cases text with
  | nil => rfl
  | cons ch text =>
    have some_ := utf16Units_length_pos ch
    rw [utf16, List.flatMap_cons, List.append_eq_nil_iff] at empty
    rw [empty.1] at some_
    cases some_

theorem escapes_ne_nil (ch : Char) : (String.utf8EncodeChar ch).map Atom.escaped ≠ [] := by
  rw [ne_eq, List.map_eq_nil_iff]
  exact String.utf8EncodeChar_ne_nil

theorem Means.eq_nil (means : Means [] units) : units = [] := by
  generalize empty : ([] : List Atom) = atoms at means
  cases means with
  | nil => rfl
  | raw => cases empty
  | escaped => exact absurd (List.append_eq_nil_iff.mp empty.symm).1 (escapes_ne_nil _)

theorem Means.of_raw (means : Means (.raw u :: atoms) units) :
    u ≠ percent ∧ ∃ units', units = u :: units' ∧ Means atoms units' := by
  generalize whole : Atom.raw u :: atoms = all at means
  cases means with
  | nil => cases whole
  | raw other means =>
    cases whole
    exact ⟨other, _, rfl, means⟩
  | @escaped ch =>
    cases escapes : (String.utf8EncodeChar ch).map Atom.escaped with
    | nil => exact absurd escapes (escapes_ne_nil ch)
    | cons a more =>
      have member : a ∈ (String.utf8EncodeChar ch).map Atom.escaped := by
        rw [escapes]
        exact List.mem_cons_self
      obtain ⟨b, -, rfl⟩ := List.mem_map.mp member
      rw [escapes] at whole
      cases whole

theorem decodeFrom_run {fuel : Nat} {more rest : List UChar} {text : List Char} (wide : Bool)
    (address : Nat → Nat) (run : runLength 0 (percent :: more ++ rest) = (percent :: more).length)
    (bytes : unescape (percent :: more) = utf8 text) (nonempty : text ≠ [])
    (short : (utf8 text).length + maxLength < 2 ^ 32)
    (later : decodeFrom wide address fuel rest = .ok units) :
    decodeFrom wide address (fuel + 1) (percent :: more ++ rest) = .ok (utf16 text ++ units) := by
  rw [List.cons_append] at run ⊢
  rw [decodeFrom, if_pos rfl, run]
  dsimp only
  rw [if_neg (by simp), ← List.cons_append, List.take_left, List.drop_left,
    decodeRun_utf8 text bytes short, later]
  exact if_neg fun empty => nonempty (utf16_eq_nil empty)

/-- **The decoder gives what the escapes stand for.** -/
theorem decodeFrom_written (wide : Bool) (address : Nat → Nat) {fuel : Nat}
    (means : Means atoms units) (enough : (written atoms).length ≤ fuel)
    (short : (written atoms).length < 2 ^ 32) :
    decodeFrom wide address fuel (written atoms) = .ok units := by
  induction fuel generalizing atoms units with
  | zero =>
    cases atoms with
    | nil =>
      rw [means.eq_nil]
      rfl
    | cons a atoms => cases a <;> simp [written_cons, Atom.written] at enough
  | succ fuel ih =>
    cases atoms with
    | nil =>
      rw [means.eq_nil]
      rfl
    | cons a atoms =>
      cases a with
      | raw u =>
        obtain ⟨other, units', rfl, means'⟩ := means.of_raw
        rw [written_cons, List.length_append] at enough short
        have one : (Atom.raw u).written.length = 1 := rfl
        change decodeFrom wide address (fuel + 1) (u :: written atoms) = _
        rw [decodeFrom, if_neg other, ih means' (by omega) (by omega)]
        rfl
      | escaped b =>
        have length := runLength_written (k := 0) means.plain
        have sizes := splitRun_length (Nat.zero_le 2) (.escaped b :: atoms)
        have inRun := splitRun_inRun 0 (.escaped b :: atoms)
        have ends := splitRun_ends 0 (.escaped b :: atoms)
        have split := splitRun_append 0 (.escaped b :: atoms)
        obtain ⟨pre, first⟩ : ∃ pre, (splitRun 0 (.escaped b :: atoms)).1 = .escaped b :: pre :=
          ⟨_, rfl⟩
        generalize (splitRun 0 (.escaped b :: atoms)).2 = post at ends split
        rw [first] at length sizes inRun split
        rw [← split] at means enough short length ⊢
        have plain : Atom.raw percent ∉ .escaped b :: pre :=
          fun member => means.plain (List.mem_append_left _ member)
        obtain ⟨text, units', bytes, rfl, means'⟩ := means.run inRun ends
        have counts := congrArg List.length bytes
        rw [List.length_map] at counts
        rw [← unescape_written plain] at bytes
        have nonempty : text ≠ [] := by
          rintro rfl
          cases counts
        rw [written_append, List.length_append] at enough short
        rw [written_append] at length ⊢
        have some_ : 0 < (written (.escaped b :: pre)).length := Nat.zero_lt_succ _
        refine decodeFrom_run wide address length bytes nonempty ?_
          (ih means' (by omega) (by omega))
        unfold maxLength
        omega

/-! ## The encoders -/

theorem badChar_behind {c : UInt8} (behind : 0x80 ≤ c.toNat) : isBadChar c = true := by
  have large : (0x7F : UInt8) ≤ c := UInt8.le_iff_toNat_le.mpr (le_trans (by decide) behind)
  rw [isBadChar, decide_eq_true large, Bool.or_true]

/-- All bytes of a character are escaped, or it is an ASCII character that is not. -/
theorem escapes_character (ch : Char) :
    (∀ c ∈ String.utf8EncodeChar ch, isBadChar c = true) ∨
    ∃ c, String.utf8EncodeChar ch = [c] ∧ utf16Units ch = [c.toUInt16] ∧ isBadChar c = false := by
  by_cases behind : 0x80 ≤ ch.val.toNat
  · exact .inl fun c member =>
      badChar_behind (Url.isASCII_false_iff.mp (Url.utf8EncodeChar_other behind c member))
  · have single : String.utf8EncodeChar ch = [UInt8.ofNat ch.val.toNat] := if_pos (by omega)
    have same : (UInt8.ofNat ch.val.toNat).toUInt16 = UInt16.ofNat ch.val.toNat := by
      apply UInt16.toNat_inj.mp
      rw [UInt8.toNat_toUInt16, toNat_ofNat (by omega), UInt16.toNat_ofNat', Nat.mod_eq_of_lt]
      omega
    cases bad : isBadChar (UInt8.ofNat ch.val.toNat) with
    | true => exact .inl (by rw [single]; simpa using bad)
    | false =>
      refine .inr ⟨_, single, ?_, bad⟩
      rw [same, utf16Units]
      exact if_pos (by omega)

theorem escaped_bytes {bytes : List UInt8} (bad : ∀ c ∈ bytes, isBadChar c = true) :
    widen (bytes.flatMap fun c => if isBadChar c then appendEscapedChar c else [c]) =
      written (bytes.map .escaped) := by
  induction bytes with
  | nil => rfl
  | cons c bytes ih =>
    obtain ⟨first, later⟩ := List.forall_mem_cons.mp bad
    rw [List.map_cons, written_cons, ← ih later, List.flatMap_cons, if_pos first]
    exact List.map_append

theorem encode_means (text : List Char) : ∃ atoms, Means atoms (utf16 text) ∧
    widen ((utf8 text).flatMap fun c => if isBadChar c then appendEscapedChar c else [c]) =
      written atoms := by
  induction text with
  | nil => exact ⟨[], .nil, rfl⟩
  | cons ch text ih =>
    obtain ⟨atoms, means, encoded⟩ := ih
    have split : widen ((utf8 (ch :: text)).flatMap fun c =>
        if isBadChar c then appendEscapedChar c else [c]) =
        widen ((String.utf8EncodeChar ch).flatMap fun c =>
          if isBadChar c then appendEscapedChar c else [c]) ++ written atoms := by
      rw [utf8, List.flatMap_cons, List.flatMap_append, ← encoded]
      exact List.map_append
    rw [split, utf16, List.flatMap_cons]
    rcases escapes_character ch with bad | ⟨c, single, unit, plain⟩
    · exact ⟨_, .escaped means, by rw [escaped_bytes bad, written_append]⟩
    · refine ⟨.raw c.toUInt16 :: atoms, ?_, ?_⟩
      · rw [unit]
        refine .raw (fun same => ?_) means
        obtain rfl : c = 0x25 := by
          apply UInt8.toNat_inj.mp
          rw [← UInt8.toNat_toUInt16, same]
          rfl
        cases plain
      · rw [single, List.flatMap_singleton, if_neg (by simp [plain])]
        rfl

theorem encodeForFileName_means (units : List UChar) : ∃ atoms, Means atoms units ∧
    (units.flatMap fun character =>
      if shouldEscapeUChar character then percent :: widen (appendByteAsHex character.toUInt8)
      else [character]) = written atoms := by
  induction units with
  | nil => exact ⟨[], .nil, rfl⟩
  | cons u units ih =>
    obtain ⟨atoms, means, encoded⟩ := ih
    rw [List.flatMap_cons, encoded]
    by_cases escape : shouldEscapeUChar u = true
    · have small : u ≤ 0x7F := by
        by_contra large
        rw [shouldEscapeUChar, if_pos (UInt16.not_le.mp large)] at escape
        cases escape
      obtain ⟨ch, bytes, unit⟩ := ascii_character small
      have means' := @Means.escaped ch _ _ means
      rw [bytes, unit] at means'
      exact ⟨_, means', by rw [if_pos escape]; rfl⟩
    · refine ⟨.raw u :: atoms, .raw (fun same => ?_) means, by rw [if_neg escape]; rfl⟩
      subst same
      exact escape rfl

/-! ## Escaping -/

theorem utf8_length_le (text : List Char) : (utf8 text).length ≤ (utf16 text).length * 3 := by
  induction text with
  | nil => exact le_rfl
  | cons ch text ih =>
    have sizes := (lengths ch).2.2.1
    rw [utf8, utf16, List.flatMap_cons, List.flatMap_cons, List.length_append, List.length_append,
      ← utf8, ← utf16]
    omega

theorem utf8Impl_utf16 (text : List Char) : utf8Impl (utf16 text) = utf8 text := by
  have done : convertUTF16ToUTF8 false ((utf16 text).length * 3) (utf16 text) = _ :=
    convert_done (Wtf.Unicode.utf16Turn_bounded false) (Wtf.Unicode.turns_utf16 false text)
      (utf8_length_le text)
  rw [utf8Impl, done]
  rfl

theorem utf8CString_utf16 (text : List Char) (short : (utf16 text).length ≤ (2 ^ 32 - 1) / 3) :
    utf8CString (utf16 text) = some (utf8 text) := by
  rw [utf8CString]
  split_ifs with empty long
  · rw [utf16_eq_nil empty]
    rfl
  · omega
  · rw [utf8Impl_utf16]

/-- A string without `CString` is encoded as the empty one. -/
theorem encode_long {string : List UChar} (long : string.length > (2 ^ 32 - 1) / 3) :
    encodeWithURLEscapeSequences string = some [] := by
  have nonempty : string ≠ [] := by
    rintro rfl
    simp at long
  rw [encodeWithURLEscapeSequences, utf8CString, if_neg nonempty, if_pos long]
  rfl

variable {wide : Bool} {address : Nat → Nat}

theorem escaped_length (bytes : List UInt8) :
    (bytes.flatMap fun c => if isBadChar c then appendEscapedChar c else [c]).length ≤
      bytes.length * 3 := by
  induction bytes with
  | nil => exact le_rfl
  | cons c bytes ih =>
    rw [List.flatMap_cons, List.length_append, List.length_cons]
    split_ifs
    · have three : (appendEscapedChar c).length = 3 := rfl
      omega
    · rw [List.length_singleton]
      omega

theorem fileName_length (string : List UChar) :
    (string.flatMap fun character =>
      if shouldEscapeUChar character then percent :: widen (appendByteAsHex character.toUInt8)
      else [character]).length ≤ string.length * 3 := by
  induction string with
  | nil => exact le_rfl
  | cons u string ih =>
    rw [List.flatMap_cons, List.length_append, List.length_cons]
    split_ifs
    · have three : (percent :: widen (appendByteAsHex u.toUInt8)).length = 3 := rfl
      omega
    · rw [List.length_singleton]
      omega

theorem encode_decode (text : List Char) (short : (utf16 text).length ≤ (2 ^ 32 - 1) / 3) :
    match encodeWithURLEscapeSequences (utf16 text) with
    | some encoded => decodeURLEscapeSequences wide address encoded = .ok (utf16 text)
    | none => 2 ^ 32 ≤ (utf8 text).length * 3 + 1 := by
  obtain ⟨atoms, means, encoded⟩ := encode_means text
  have sizes := escaped_length (utf8 text)
  rw [encodeWithURLEscapeSequences, utf8CString_utf16 text short, Option.getD_some]
  by_cases full : (utf8 text).length * 3 + 1 > 2 ^ 32 - 1
  · rw [if_pos full]
    dsimp only
    omega
  · rw [if_neg full, encoded]
    rw [← List.length_map (f := UInt8.toUInt16), ← widen, encoded] at sizes
    exact decodeFrom_written wide address means le_rfl (by omega)

theorem encodeForFileName_decode (string : List UChar) :
    match encodeForFileName string with
    | some encoded => decodeURLEscapeSequences wide address encoded = .ok string
    | none => 2 ^ 32 ≤ string.length * 3 := by
  obtain ⟨atoms, means, encoded⟩ := encodeForFileName_means string
  have sizes := fileName_length string
  rw [encoded] at sizes
  rw [encodeForFileName, encoded]
  by_cases short : (written atoms).length < 2 ^ 32
  · rw [if_pos short]
    exact decodeFrom_written wide address means le_rfl short
  · rw [if_neg short]
    dsimp only
    omega

theorem utf16_replicate (n : Nat) : utf16 (List.replicate n 'a') = List.replicate n 0x61 := by
  induction n with
  | zero => rfl
  | succ n ih =>
    rw [List.replicate_succ, List.replicate_succ, ← ih]
    rfl

end NetRider.Text.EscapeSequences
