import Mathlib
import NetRider.Url.TextCodecUTF8

/-!
# Escape sequences

`decodeURLEscapeSequences` decodes runs of escapes as UTF-8. `units` is a text with its escapes as
a reader sees them; both have the same ASCII bytes.
-/

namespace NetRider.Url

def isASCIIHexDigit (c : Char) : Bool :=
  ('0' ≤ c && c ≤ '9') || ('A' ≤ c && c ≤ 'F') || ('a' ≤ c && c ≤ 'f')

def toASCIIHexValue (c : Char) : UInt8 :=
  UInt8.ofNat (if c < 'A' then c.toNat - 0x30 else (c.toNat - 0x41 + 10) &&& 0xF)

/-- The byte of two digits. -/
def escaped (high low : Char) : UInt8 := (toASCIIHexValue high <<< 4) ||| toASCIIHexValue low

/-- `findEndOfRun`, as the length of the run. -/
def runLength (numberOfTrailingCharacters : Nat) : List Char → Nat
  | '%' :: high :: low :: rest =>
    if isASCIIHexDigit high && isASCIIHexDigit low then 3 + runLength 0 rest else 0
  | c :: rest =>
    if c ≠ '%' ∧ 0x40 ≤ c.toNat ∧ c.toNat ≤ 0x7F ∧ numberOfTrailingCharacters < 2 then
      1 + runLength (numberOfTrailingCharacters + 1) rest
    else 0
  | [] => 0

/-- The bytes of a run. -/
def unescape : List Char → List UInt8
  | '%' :: high :: low :: rest => escaped high low :: unescape rest
  | c :: rest => UInt8.ofNat c.toNat :: unescape rest
  | [] => []

def decodeRun (run : List Char) : List Char := decode (unescape run)

/-- `decodeEscapeSequences` from a position on, for `fuel` characters. A run that decodes to
nothing stays as it is. -/
def decodeFrom : Nat → List Char → List Char
  | fuel + 1, c :: rest =>
    if c = '%' then
      let run := runLength 0 (c :: rest)
      if run = 0 then c :: decodeFrom fuel rest
      else
        let decoded := decodeRun ((c :: rest).take run)
        if decoded.isEmpty then (c :: rest).take run ++ decodeFrom fuel ((c :: rest).drop run)
        else decoded ++ decodeFrom fuel ((c :: rest).drop run)
    else c :: decodeFrom fuel rest
  | _, _ => []

def decodeURLEscapeSequences (string : List Char) : List Char := decodeFrom string.length string

/-! ## Units -/

/-- A character or an escaped byte. -/
inductive TextUnit
  | character (c : Char)
  | byte (b : UInt8)
  deriving DecidableEq

def units : List Char → List TextUnit
  | '%' :: high :: low :: rest =>
    if isASCIIHexDigit high && isASCIIHexDigit low then .byte (escaped high low) :: units rest
    else .character '%' :: units (high :: low :: rest)
  | c :: rest => .character c :: units rest
  | [] => []

namespace TextUnit

def bytes : TextUnit → List UInt8
  | character c => String.utf8EncodeChar c
  | byte b => [b]

end TextUnit

def unitBytes (text : List TextUnit) : List UInt8 := text.flatMap TextUnit.bytes

/-! ## What a text decodes to -/

theorem unescape_cons {c : Char} (not_percent : c ≠ '%') (rest : List Char) :
    unescape (c :: rest) = UInt8.ofNat c.toNat :: unescape rest := by
  rw [unescape]
  intro high low tail eq
  exact absurd eq not_percent

theorem units_cons {c : Char} (not_percent : c ≠ '%') (rest : List Char) :
    units (c :: rest) = .character c :: units rest := by
  rw [units]
  intro high low tail eq
  exact absurd eq not_percent

/-- A percent sign without digits behind it. -/
theorem units_percent {rest : List Char} (none_ : runLength 0 ('%' :: rest) = 0) :
    units ('%' :: rest) = .character '%' :: units rest := by
  cases rest with
  | nil => rfl
  | cons high rest =>
    cases rest with
    | nil => rfl
    | cons low rest =>
      rw [runLength] at none_
      rw [units]
      split_ifs at none_ ⊢ with digits
      · omega
      · rfl

theorem unitBytes_cons (u : TextUnit) (text : List TextUnit) :
    unitBytes (u :: text) = u.bytes ++ unitBytes text :=
  List.flatMap_cons ..

/-- A run is read as the same bytes. -/
theorem unitBytes_run (trailing : Nat) (text : List Char) :
    unitBytes (units text) = unescape (text.take (runLength trailing text)) ++
      unitBytes (units (text.drop (runLength trailing text))) := by
  fun_induction runLength trailing text with
  | case1 trailing high low rest digits ih =>
    rw [units, if_pos digits, unitBytes_cons, ih, Nat.add_comm 3]
    rfl
  | case2 => rfl
  | case3 trailing c rest other inRun ih =>
    have ascii : String.utf8EncodeChar c = [UInt8.ofNat c.toNat] :=
      utf8EncodeChar_small (Nat.lt_succ_of_le inRun.2.2.1)
    rw [units_cons inRun.1, unitBytes_cons, ih, Nat.add_comm 1, List.take_succ_cons,
      unescape_cons inRun.1, List.drop_succ_cons]
    change String.utf8EncodeChar c ++ _ = _
    rw [ascii]
    rfl
  | case4 => rfl
  | case5 => rfl

theorem unescape_ne_nil {run : List Char} (some_ : run ≠ []) : unescape run ≠ [] := by
  cases run with
  | nil => exact absurd rfl some_
  | cons c rest =>
    by_cases percent : c = '%'
    · subst percent
      cases rest with
      | nil => exact List.cons_ne_nil _ _
      | cons high rest =>
        cases rest with
        | nil => exact List.cons_ne_nil _ _
        | cons low rest => exact List.cons_ne_nil _ _
    · rw [unescape_cons percent]
      exact List.cons_ne_nil _ _

/-- Decoding keeps the ASCII bytes that the units have. -/
theorem decodeFrom_sameASCII {fuel : Nat} {text : List Char} (enough : text.length ≤ fuel) :
    SameASCII (utf8 (decodeFrom fuel text)) (unitBytes (units text)) := by
  induction fuel generalizing text with
  | zero =>
    rw [List.length_eq_zero_iff.mp (Nat.le_zero.mp enough)]
    exact .nil
  | succ fuel ih =>
    cases text with
    | nil => exact .nil
    | cons c rest =>
      have shorter : rest.length ≤ fuel := Nat.le_of_succ_le_succ enough
      have copied (unit_ : units (c :: rest) = .character c :: units rest) :
          SameASCII (utf8 (c :: decodeFrom fuel rest)) (unitBytes (units (c :: rest))) := by
        rw [unit_, unitBytes_cons, utf8, List.flatMap_cons]
        exact (SameASCII.refl _).append (ih shorter)
      rw [decodeFrom]
      by_cases percent : c = '%'
      · subst percent
        rw [if_pos rfl]
        dsimp only
        by_cases none_ : runLength 0 ('%' :: rest) = 0
        · rw [if_pos none_]
          exact copied (units_percent none_)
        · rw [if_neg none_]
          have run_some : ('%' :: rest).take (runLength 0 ('%' :: rest)) ≠ [] := by
            simpa using none_
          have decoded := decode_sameASCII (unescape (('%' :: rest).take (runLength 0 ('%' :: rest))))
          have some_ : (decodeRun (('%' :: rest).take (runLength 0 ('%' :: rest)))).isEmpty = false := by
            rw [List.isEmpty_eq_false_iff]
            intro empty
            rw [← decodeRun, empty] at decoded
            exact unescape_ne_nil run_some decoded.eq_nil
          rw [if_neg (by rw [some_]; exact Bool.false_ne_true), unitBytes_run 0 ('%' :: rest), utf8,
            List.flatMap_append]
          refine decoded.append (ih ?_)
          rw [List.length_drop, List.length_cons]
          omega
      · rw [if_neg percent]
        exact copied (units_cons percent rest)

theorem decodeURLEscapeSequences_sameASCII (text : List Char) :
    SameASCII (utf8 (decodeURLEscapeSequences text)) (unitBytes (units text)) :=
  decodeFrom_sameASCII le_rfl

/-! ## Units with ASCII bytes -/

theorem mem_utf8EncodeChar {b : UInt8} (is : isASCII b = true) {c : Char} :
    b ∈ String.utf8EncodeChar c ↔ c = Char.ofNat b.toNat := by
  constructor
  · intro member
    by_cases small : c.toNat < 0x80
    · rw [utf8EncodeChar_small small, List.mem_singleton] at member
      rw [member, UInt8.toNat_ofNat', Nat.mod_eq_of_lt (by omega), Char.ofNat_toNat]
    · have other := utf8EncodeChar_other (not_lt.mp small) b member
      rw [is] at other
      cases other
  · rintro rfl
    rw [utf8EncodeChar_ascii is]
    exact List.mem_cons_self

namespace TextUnit

variable {u : TextUnit} {b : UInt8}

theorem mem_bytes_iff (is : isASCII b = true) :
    b ∈ u.bytes ↔ u = .character (Char.ofNat b.toNat) ∨ u = .byte b := by
  cases u with
  | character c => simp [bytes, mem_utf8EncodeChar is]
  | byte other => simp [bytes, eq_comm]

theorem bytes_of_mem (is : isASCII b = true) (member : b ∈ u.bytes) : u.bytes = [b] := by
  obtain rfl | rfl := (mem_bytes_iff is).mp member
  · exact utf8EncodeChar_ascii is
  · rfl

theorem bytes_ne_nil (u : TextUnit) : u.bytes ≠ [] := by
  cases u with
  | character c => exact String.utf8EncodeChar_ne_nil
  | byte b => exact List.cons_ne_nil _ _

end TextUnit

theorem mem_of_units {c : Char} {text : List Char} (member : .character c ∈ units text) :
    c ∈ text := by
  fun_induction units text with
  | case1 high low rest digits ih =>
    have later := ih ((List.mem_cons.mp member).resolve_left TextUnit.noConfusion)
    exact List.mem_cons_of_mem _ (List.mem_cons_of_mem _ (List.mem_cons_of_mem _ later))
  | case2 high low rest digits ih =>
    obtain same | later := List.mem_cons.mp member
    · rw [TextUnit.character.inj same]
      exact List.mem_cons_self
    · exact List.mem_cons_of_mem _ (ih later)
  | case3 first rest other ih =>
    obtain same | later := List.mem_cons.mp member
    · rw [TextUnit.character.inj same]
      exact List.mem_cons_self
    · exact List.mem_cons_of_mem _ (ih later)
  | case4 => cases member

end NetRider.Url
