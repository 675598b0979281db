import NetRider.Wtf.UTF8Conversion

/-!
# Character references

`consumeCharacterReference` reads a character reference behind its `&`. Text that is not read is a
list of units, and characters that are pushed back or prepended come before it. Named references
are left to a parameter.
-/

namespace NetRider.Html

open NetRider.Lib

abbrev UChar := UInt16

/-- `UChar32`, a signed integer that wraps around. -/
abbrev UChar32 := BitVec 32

/-! ## HTMLEntityParser -/

def windowsLatin1ExtensionArray : List UChar := [
  0x20AC, 0x0081, 0x201A, 0x0192, 0x201E, 0x2026, 0x2020, 0x2021,
  0x02C6, 0x2030, 0x0160, 0x2039, 0x0152, 0x008D, 0x017D, 0x008F,
  0x0090, 0x2018, 0x2019, 0x201C, 0x201D, 0x2022, 0x2013, 0x2014,
  0x02DC, 0x2122, 0x0161, 0x203A, 0x0153, 0x009D, 0x017E, 0x0178]

def adjustEntity (value : UChar32) : UChar :=
  if value &&& ~~~0x1F ≠ 0x0080 then UInt16.ofNat value.toNat
  else windowsLatin1ExtensionArray.getD (value - 0x80).toNat 0

def isBMP (value : UChar32) : Bool := value.toNat ≤ 0xFFFF

def legalEntityFor (value : UChar32) : UChar32 :=
  if value = 0 ∨ value.toInt > 0x10FFFF ∨ (value.toInt ≥ 0xD800 ∧ value.toInt ≤ 0xDFFF) then 0xFFFD
  else if isBMP value then (adjustEntity value).toBitVec.setWidth 32
  else value

/-- What `StringBuilder::append(UChar32)` appends. -/
def appendUChar32 (c : UChar32) : List UChar :=
  if isBMP c then [UInt16.ofNat c.toNat]
  else [UInt16.ofNat ((c.sshiftRight 10).toNat + 0xD7C0), UInt16.ofNat ((c &&& 0x3FF) ||| 0xDC00).toNat]

/-! ## consumeCharacterReference -/

structure Result where
  consumed : Bool
  source : List UChar
  decodedCharacter : List UChar
  notEnoughCharacters : Bool
deriving DecidableEq

structure ParserFunctions where
  legalEntityFor : UChar32 → UChar32
  acceptMalformed : Bool
  consumeNamedEntity : List UChar → UChar → Option Result

inductive EntityState
  | initial
  | number
  | maybeHexLowerCaseX
  | maybeHexUpperCaseX
  | hex
  | decimal
  | named
deriving DecidableEq

/-- How the switch ends: `continue` with a state, `break` with a state and a number, or `return`. -/
inductive Turn
  | again (state : EntityState)
  | next (state : EntityState) (result : UChar32)
  | done (result : Option Result)

def isHexDigit (cc : UChar) : Bool :=
  (cc ≥ 0x30 && cc ≤ 0x39) || (cc ≥ 0x61 && cc ≤ 0x66) || (cc ≥ 0x41 && cc ≤ 0x46)

def isDecimalDigit (cc : UChar) : Bool := cc ≥ 0x30 && cc ≤ 0x39

def isLetter (cc : UChar) : Bool := (cc ≥ 0x61 && cc ≤ 0x7A) || (cc ≥ 0x41 && cc ≤ 0x5A)

/-- `cc` as an `int`. -/
def unit (cc : UChar) : UChar32 := cc.toBitVec.setWidth 32

/-- `return false` with characters given back. -/
def refuse (given source : List UChar) : Turn := .done (some ⟨false, given ++ source, [], false⟩)

section
variable (F : ParserFunctions) (additionalAllowedCharacter : UChar)

/-- The end of a number. -/
def finish (result : UChar32) (consumedCharacters : List UChar) (cc : UChar)
    (source : List UChar) : Turn :=
  if cc = 0x3B then
    .done (some ⟨true, source.tail, appendUChar32 (F.legalEntityFor result), false⟩)
  else if F.acceptMalformed then
    .done (some ⟨true, source, appendUChar32 (F.legalEntityFor result), false⟩)
  else refuse consumedCharacters source

/-- The switch. `cc` is the first character of `source`. -/
def turn (state : EntityState) (result : UChar32) (consumedCharacters : List UChar) (cc : UChar)
    (source : List UChar) : Turn :=
  match state with
  | .initial =>
    if cc = 0x09 ∨ cc = 0x0A ∨ cc = 0x0C ∨ cc = 0x20 ∨ cc = 0x3C ∨ cc = 0x26 then refuse [] source
    else if additionalAllowedCharacter ≠ 0 ∧ cc = additionalAllowedCharacter then refuse [] source
    else if cc = 0x23 then .next .number result
    else if isLetter cc then .again .named
    else refuse [] source
  | .number =>
    if cc = 0x78 then .next .maybeHexLowerCaseX result
    else if cc = 0x58 then .next .maybeHexUpperCaseX result
    else if isDecimalDigit cc then .again .decimal
    else refuse [0x23] source
  | .maybeHexLowerCaseX => if isHexDigit cc then .again .hex else refuse [0x23, 0x78] source
  | .maybeHexUpperCaseX => if isHexDigit cc then .again .hex else refuse [0x23, 0x58] source
  | .hex =>
    if isDecimalDigit cc then .next .hex (result * 16 + unit cc - 0x30)
    else if cc ≥ 0x61 ∧ cc ≤ 0x66 then .next .hex (result * 16 + 10 + unit cc - 0x61)
    else if cc ≥ 0x41 ∧ cc ≤ 0x46 then .next .hex (result * 16 + 10 + unit cc - 0x41)
    else finish F result consumedCharacters cc source
  | .decimal =>
    if isDecimalDigit cc then .next .decimal (result * 10 + unit cc - 0x30)
    else finish F result consumedCharacters cc source
  | .named => .done (F.consumeNamedEntity source cc)

/-- The loop. Every character takes at most one more turn than it is consumed in. -/
def loop : Nat → EntityState → UChar32 → List UChar → List UChar → Option Result
  | 0, _, _, _, _ => none
  | _ + 1, _, _, consumedCharacters, [] => some ⟨false, consumedCharacters, [], true⟩
  | fuel + 1, state, result, consumedCharacters, cc :: source =>
    match turn F additionalAllowedCharacter state result consumedCharacters cc (cc :: source) with
    | .again state => loop fuel state result consumedCharacters (cc :: source)
    | .next state result => loop fuel state result (consumedCharacters ++ [cc]) source
    | .done result => result

def consumeCharacterReference (source : List UChar) : Option Result :=
  loop F additionalAllowedCharacter (2 * source.length + 1) .initial 0 [] source

end

def consumeHTMLEntity (consumeNamedEntity : List UChar → UChar → Option Result)
    (additionalAllowedCharacter : UChar) (source : List UChar) : Option Result :=
  consumeCharacterReference ⟨legalEntityFor, true, consumeNamedEntity⟩ additionalAllowedCharacter
    source

/-! ## Numeric references -/

inductive Radix
  | decimal
  | hexLower
  | hexUpper
deriving DecidableEq

namespace Radix

/-- What stands before the digits. -/
def opening : Radix → List UChar
  | decimal => [0x23]
  | hexLower => [0x23, 0x78]
  | hexUpper => [0x23, 0x58]

def base : Radix → Nat
  | decimal => 10
  | hexLower | hexUpper => 16

def isDigit : Radix → UChar → Bool
  | decimal => isDecimalDigit
  | hexLower | hexUpper => isHexDigit

def state : Radix → EntityState
  | decimal => .decimal
  | hexLower | hexUpper => .hex

end Radix

def digitValue (cc : UChar) : Nat :=
  if cc ≤ 0x39 then cc.toNat - 0x30
  else if cc ≤ 0x46 then cc.toNat - 0x41 + 10
  else cc.toNat - 0x61 + 10

/-- The number that digits denote. -/
def number (base : Nat) (digits : List UChar) : Nat :=
  digits.foldl (fun n cc => n * base + digitValue cc) 0

def Surrogate (n : Nat) : Prop := 0xD800 ≤ n ∧ n ≤ 0xDFFF

instance (n : Nat) : Decidable (Surrogate n) := inferInstanceAs (Decidable (_ ∧ _))

/-- The units of the character that a reference to the number stands for. -/
def decoded (n : Nat) : List UChar :=
  if n = 0 ∨ 0x10FFFF < n ∨ Surrogate n then [0xFFFD]
  else if 0x80 ≤ n ∧ n ≤ 0x9F then [windowsLatin1ExtensionArray.getD (n - 0x80) 0]
  else utf16Units (Char.ofNat n)

/-- The reference is consumed, with a semicolon, and decoded. -/
def RightlyConsumed (consumeNamedEntity : List UChar → UChar → Option Result)
    (additionalAllowedCharacter : UChar) (radix : Radix) (digits : List UChar) (c : UChar)
    (rest : List UChar) : Prop :=
  consumeHTMLEntity consumeNamedEntity additionalAllowedCharacter
      (radix.opening ++ digits ++ c :: rest) =
    some ⟨true, if c = 0x3B then rest else c :: rest, decoded (number radix.base digits), false⟩

/-- The 32 bits that are left of a number denote no other character. -/
def KeepsCharacter (n : Nat) : Prop :=
  n < 2 ^ 31 ∨ n % 2 ^ 32 = 0 ∨ n % 2 ^ 32 = 0xFFFD ∨ Surrogate (n % 2 ^ 32) ∨
    0x10FFFF < n % 2 ^ 32 ∧ n % 2 ^ 32 < 2 ^ 31

/-! ## Digits -/

variable {F : ParserFunctions} {additional cc : UChar} {consumed digits rest : List UChar}
  {radix : Radix} {n : Nat}

theorem unit_eq (cc : UChar) : unit cc = BitVec.ofNat 32 cc.toNat := by
  apply BitVec.eq_of_toNat_eq
  rw [unit, BitVec.toNat_setWidth, BitVec.toNat_ofNat]
  rfl

theorem ofNat_sub {a c : Nat} (least : c ≤ a) :
    BitVec.ofNat 32 a - BitVec.ofNat 32 c = BitVec.ofNat 32 (a - c) := by
  have sum : BitVec.ofNat 32 a = BitVec.ofNat 32 (a - c) + BitVec.ofNat 32 c := by
    rw [← BitVec.ofNat_add, Nat.sub_add_cancel least]
  rw [sum, BitVec.add_sub_cancel]

theorem isDecimalDigit_iff : isDecimalDigit cc = true ↔ 0x30 ≤ cc.toNat ∧ cc.toNat ≤ 0x39 := by
  simp only [isDecimalDigit, Bool.and_eq_true, decide_eq_true_eq, ge_iff_le, UInt16.le_iff_toNat_le]
  exact Iff.rfl

theorem isHexDigit_iff : isHexDigit cc = true ↔ (0x30 ≤ cc.toNat ∧ cc.toNat ≤ 0x39) ∨
    (0x61 ≤ cc.toNat ∧ cc.toNat ≤ 0x66) ∨ (0x41 ≤ cc.toNat ∧ cc.toNat ≤ 0x46) := by
  simp only [isHexDigit, Bool.and_eq_true, Bool.or_eq_true, decide_eq_true_eq, ge_iff_le,
    UInt16.le_iff_toNat_le, or_assoc]
  exact Iff.rfl

theorem digitValue_eq (cc : UChar) : digitValue cc =
    if cc.toNat ≤ 0x39 then cc.toNat - 0x30
    else if cc.toNat ≤ 0x46 then cc.toNat - 0x41 + 10
    else cc.toNat - 0x61 + 10 := rfl

/-- A digit makes the number `base` times as large, modulo `2 ^ 32`. -/
theorem turn_digit (digit : radix.isDigit cc = true) (n : Nat) (source : List UChar) :
    turn F additional radix.state (BitVec.ofNat 32 n) consumed cc source =
      .next radix.state (BitVec.ofNat 32 (n * radix.base + digitValue cc)) := by
  have decimal : isDecimalDigit cc = true → ∀ base : Nat,
      BitVec.ofNat 32 n * BitVec.ofNat 32 base + unit cc - 0x30 =
        BitVec.ofNat 32 (n * base + digitValue cc) := by
    intro digit base
    rw [isDecimalDigit_iff] at digit
    rw [unit_eq, ← BitVec.ofNat_mul, ← BitVec.ofNat_add, digitValue_eq, if_pos digit.2]
    rw [← Nat.add_sub_assoc digit.1]
    exact ofNat_sub (Nat.le_add_left_of_le digit.1)
  have hex : isHexDigit cc = true → turn F additional .hex (BitVec.ofNat 32 n) consumed cc source =
      .next .hex (BitVec.ofNat 32 (n * 16 + digitValue cc)) := by
    intro digit
    rw [turn]
    by_cases low : isDecimalDigit cc = true
    · rw [if_pos low]
      exact congrArg _ (decimal low 16)
    · rw [if_neg low]
      have letter := isHexDigit_iff.mp digit
      rw [isDecimalDigit_iff] at low
      have value := digitValue_eq cc
      have sum : ∀ c : Nat, c ≤ cc.toNat → digitValue cc = cc.toNat - c + 10 →
          BitVec.ofNat 32 n * 16 + 10 + unit cc - BitVec.ofNat 32 c =
            BitVec.ofNat 32 (n * 16 + digitValue cc) := by
        intro c least same
        have constants : BitVec.ofNat 32 n * 16 + 10 + unit cc =
            BitVec.ofNat 32 (n * 16 + 10 + cc.toNat) := by
          rw [unit_eq, BitVec.ofNat_add, BitVec.ofNat_add, BitVec.ofNat_mul]
          rfl
        rw [constants, show n * 16 + 10 + cc.toNat = n * 16 + digitValue cc + c by omega,
          ofNat_sub (Nat.le_add_left ..), Nat.add_sub_cancel]
      by_cases lower : cc ≥ 0x61 ∧ cc ≤ 0x66
      · rw [if_pos lower]
        have bounds : 0x61 ≤ cc.toNat ∧ cc.toNat ≤ 0x66 := lower
        rw [if_neg (by omega), if_neg (by omega)] at value
        exact congrArg _ (sum 0x61 bounds.1 value)
      · have upper : 0x41 ≤ cc.toNat ∧ cc.toNat ≤ 0x46 := by
          rcases letter with digit | lower' | upper
          · exact absurd digit low
          · exact absurd lower' lower
          · exact upper
        rw [if_neg lower, if_pos (show cc ≥ 0x41 ∧ cc ≤ 0x46 from upper)]
        rw [if_neg (by omega), if_pos upper.2] at value
        exact congrArg _ (sum 0x41 upper.1 value)
  cases radix with
  | decimal =>
    have low : isDecimalDigit cc = true := digit
    rw [Radix.state, turn, if_pos low]
    exact congrArg _ (decimal low 10)
  | hexLower => exact hex digit
  | hexUpper => exact hex digit

/-- The digits are consumed one by one. -/
theorem loop_digits (all : ∀ cc ∈ digits, radix.isDigit cc = true) (fuel n : Nat) :
    loop F additional (fuel + digits.length) radix.state (BitVec.ofNat 32 n) consumed
        (digits ++ rest) =
      loop F additional fuel radix.state
        (BitVec.ofNat 32 (digits.foldl (fun n cc => n * radix.base + digitValue cc) n))
        (consumed ++ digits) rest := by
  induction digits generalizing n consumed with
  | nil => rw [List.nil_append, List.append_nil, List.length_nil, Nat.add_zero, List.foldl_nil]
  | cons cc digits ih =>
    rw [List.cons_append, List.length_cons, ← Nat.add_assoc, loop,
      turn_digit (all cc List.mem_cons_self), List.foldl_cons]
    simp only
    rw [ih fun d among => all d (List.mem_cons_of_mem cc among), List.append_assoc,
      List.singleton_append]

/-- Behind the digits the number is decoded. -/
theorem turn_end (other : radix.isDigit cc = false) (result : UChar32) (source : List UChar) :
    turn F additional radix.state result consumed cc source = finish F result consumed cc source := by
  have hex : isHexDigit cc = false →
      turn F additional .hex result consumed cc source = finish F result consumed cc source := by
    intro other
    have none : ¬ isHexDigit cc = true := Bool.eq_false_iff.mp other
    rw [isHexDigit_iff] at none
    have lower : ¬ (cc ≥ 0x61 ∧ cc ≤ 0x66) := fun low => none (.inr (.inl low))
    have upper : ¬ (cc ≥ 0x41 ∧ cc ≤ 0x46) := fun low => none (.inr (.inr low))
    rw [turn, if_neg fun low => none (.inl (isDecimalDigit_iff.mp low)), if_neg lower,
      if_neg upper]
  cases radix with
  | decimal =>
    have none : ¬ isDecimalDigit cc = true := Bool.eq_false_iff.mp other
    rw [Radix.state, turn, if_neg none]
  | hexLower => exact hex other
  | hexUpper => exact hex other

/-! ## References -/

theorem loop_end (accepts : F.acceptMalformed = true) (other : radix.isDigit cc = false)
    (fuel : Nat) (result : UChar32) :
    loop F additional (fuel + 1) radix.state result consumed (cc :: rest) =
      some ⟨true, if cc = 0x3B then rest else cc :: rest,
        appendUChar32 (F.legalEntityFor result), false⟩ := by
  rw [loop, turn_end other, finish]
  by_cases semicolon : cc = 0x3B
  · rw [if_pos semicolon, if_pos semicolon]
    rfl
  · rw [if_neg semicolon, if_pos accepts, if_neg semicolon]

theorem loop_next {fuel : Nat} {state state' : EntityState} {r r' : UChar32}
    (step : turn F additional state r consumed cc (cc :: rest) = .next state' r') :
    loop F additional (fuel + 1) state r consumed (cc :: rest) =
      loop F additional fuel state' r' (consumed ++ [cc]) rest := by
  rw [loop, step]

theorem loop_again {fuel : Nat} {state state' : EntityState} {r : UChar32}
    (step : turn F additional state r consumed cc (cc :: rest) = .again state') :
    loop F additional (fuel + 1) state r consumed (cc :: rest) =
      loop F additional fuel state' r consumed (cc :: rest) := by
  rw [loop, step]

theorem digit_ne {d : UChar} (digit : isDecimalDigit d = true) : d ≠ 0x78 ∧ d ≠ 0x58 := by
  rw [isDecimalDigit_iff] at digit
  constructor
  · rintro rfl
    exact absurd digit.2 (by decide)
  · rintro rfl
    exact absurd digit.2 (by decide)

/-- **A numeric reference is consumed, and its number is decoded from 32 bits.** -/
theorem consume_numeric (accepts : F.acceptMalformed = true) (ordinary : additional ≠ 0x23)
    (some_digit : digits ≠ []) (all : ∀ cc ∈ digits, radix.isDigit cc = true)
    (other : radix.isDigit cc = false) :
    consumeCharacterReference F additional (radix.opening ++ digits ++ cc :: rest) =
      some ⟨true, if cc = 0x3B then rest else cc :: rest,
        appendUChar32 (F.legalEntityFor (BitVec.ofNat 32 (number radix.base digits))), false⟩ := by
  have sharp : ∀ r source, turn F additional .initial r [] 0x23 source = .next .number r := by
    intro r source
    rw [turn, if_neg (by decide), if_neg fun same => ordinary same.2.symm]
    rfl
  obtain ⟨d, ds, rfl⟩ := List.exists_cons_of_ne_nil some_digit
  have digit := all d List.mem_cons_self
  have fuels : ∃ fuel, 2 * (radix.opening ++ (d :: ds) ++ cc :: rest).length + 1 =
      fuel + 1 + (d :: ds).length + 1 + radix.opening.length := by
    refine ⟨2 * (radix.opening ++ (d :: ds) ++ cc :: rest).length -
      (d :: ds).length - radix.opening.length - 1, ?_⟩
    simp only [List.length_append, List.length_cons]
    omega
  obtain ⟨fuel, eq⟩ := fuels
  have ends := fun consumed => (@loop_digits F additional consumed (d :: ds) (cc :: rest) radix all
    (fuel + 1) 0).trans (loop_end accepts other fuel _)
  rw [consumeCharacterReference, eq]
  cases radix with
  | decimal =>
    have low : isDecimalDigit d = true := digit
    have first : turn F additional .number 0 ([] ++ [0x23]) d (d :: (ds ++ cc :: rest)) =
        .again .decimal := by
      rw [turn, if_neg (digit_ne low).1, if_neg (digit_ne low).2, if_pos low]
    exact (loop_next (sharp ..)).trans ((loop_again first).trans (ends _))
  | hexLower =>
    have hex : isHexDigit d = true := digit
    have second : turn F additional .number 0 ([] ++ [0x23]) 0x78 (0x78 :: d :: (ds ++ cc :: rest)) =
        .next .maybeHexLowerCaseX 0 := rfl
    have first : turn F additional .maybeHexLowerCaseX 0 ([] ++ [0x23] ++ [0x78]) d
        (d :: (ds ++ cc :: rest)) = .again .hex := by
      rw [turn, if_pos hex]
    exact (loop_next (sharp ..)).trans
      ((loop_next second).trans ((loop_again first).trans (ends _)))
  | hexUpper =>
    have hex : isHexDigit d = true := digit
    have second : turn F additional .number 0 ([] ++ [0x23]) 0x58 (0x58 :: d :: (ds ++ cc :: rest)) =
        .next .maybeHexUpperCaseX 0 := rfl
    have first : turn F additional .maybeHexUpperCaseX 0 ([] ++ [0x23] ++ [0x58]) d
        (d :: (ds ++ cc :: rest)) = .again .hex := by
      rw [turn, if_pos hex]
    exact (loop_next (sharp ..)).trans
      ((loop_next second).trans ((loop_again first).trans (ends _)))

/-! ## Numbers of 32 bits -/

/-- Five low bits are cleared. -/
theorem and_high {m : Nat} (small : m < 2 ^ 32) : m &&& (2 ^ 32 - 2 ^ 5) = m / 32 * 32 := by
  apply Nat.eq_of_testBit_eq
  intro i
  have mask : 2 ^ 32 - 2 ^ 5 = (2 ^ 27 - 1) <<< 5 := rfl
  have high : m / 32 * 32 = (m >>> 5) <<< 5 := by
    rw [Nat.shiftRight_eq_div_pow, Nat.shiftLeft_eq]
  rw [mask, high, Nat.testBit_and, Nat.testBit_shiftLeft, Nat.testBit_shiftLeft,
    Nat.testBit_two_pow_sub_one, Nat.testBit_shiftRight]
  by_cases low : 5 ≤ i
  · rw [decide_eq_true low, Bool.true_and, Bool.true_and, Nat.add_sub_cancel' low]
    by_cases inside : i - 5 < 27
    · rw [decide_eq_true inside, Bool.and_true]
    · rw [decide_eq_false inside, Bool.and_false, Nat.testBit_lt_two_pow]
      exact Nat.lt_of_lt_of_le small (Nat.pow_le_pow_right (by decide) (by omega))
  · rw [decide_eq_false low, Bool.false_and, Bool.false_and, Bool.and_false]

theorem windows_iff {m : Nat} (small : m < 2 ^ 32) :
    BitVec.ofNat 32 m &&& ~~~0x1F ≠ 0x0080 ↔ ¬ (0x80 ≤ m ∧ m ≤ 0x9F) := by
  rw [ne_eq, not_iff_not, ← BitVec.toNat_inj, BitVec.toNat_and, BitVec.toNat_ofNat,
    Nat.mod_eq_of_lt small, show (~~~(0x1F : BitVec 32)).toNat = 2 ^ 32 - 2 ^ 5 from rfl,
    and_high small, show BitVec.toNat (0x0080 : BitVec 32) = 0x80 from rfl]
  omega

theorem toInt_small {m : Nat} (small : m < 2 ^ 31) : (BitVec.ofNat 32 m).toInt = m := by
  rw [BitVec.toInt_eq_toNat_of_lt, BitVec.toNat_ofNat, Nat.mod_eq_of_lt (by omega)]
  rw [BitVec.toNat_ofNat, Nat.mod_eq_of_lt (by omega)]
  omega

theorem ofNat_eq_zero {m : Nat} (small : m < 2 ^ 32) : BitVec.ofNat 32 m = 0 ↔ m = 0 := by
  rw [← BitVec.toNat_inj, BitVec.toNat_ofNat, Nat.mod_eq_of_lt small]
  exact Iff.rfl

/-- A number below `2 ^ 31` is decoded rightly. -/
theorem append_small {m : Nat} (small : m < 2 ^ 31) :
    appendUChar32 (legalEntityFor (BitVec.ofNat 32 m)) = decoded m := by
  have value : (BitVec.ofNat 32 m).toNat = m := by
    rw [BitVec.toNat_ofNat, Nat.mod_eq_of_lt (by omega)]
  have zero := @ofNat_eq_zero m (by omega)
  rw [legalEntityFor, toInt_small small, decoded]
  by_cases illegal : m = 0 ∨ 0x10FFFF < m ∨ Surrogate m
  · have same : BitVec.ofNat 32 m = 0 ∨ (m : Int) > 0x10FFFF ∨
        ((m : Int) ≥ 0xD800 ∧ (m : Int) ≤ 0xDFFF) := by
      rw [zero]
      rw [Surrogate] at illegal
      omega
    rw [if_pos same, if_pos illegal]
    rfl
  · have same : ¬ (BitVec.ofNat 32 m = 0 ∨ (m : Int) > 0x10FFFF ∨
        ((m : Int) ≥ 0xD800 ∧ (m : Int) ≤ 0xDFFF)) := by
      rw [zero]
      rw [Surrogate] at illegal
      omega
    rw [if_neg same, if_neg illegal]
    rw [Surrogate] at illegal
    have char : (Char.ofNat m).val.toNat = m := val_ofNat (by omega)
    by_cases bmp : m ≤ 0xFFFF
    · have isBmp : isBMP (BitVec.ofNat 32 m) = true := by
        rw [isBMP, value]
        exact decide_eq_true bmp
      have wide : ∀ u : UChar, appendUChar32 (u.toBitVec.setWidth 32) = [u] := by
        intro u
        have same : (u.toBitVec.setWidth 32).toNat = u.toNat := by
          rw [BitVec.toNat_setWidth]
          exact Nat.mod_eq_of_lt (Nat.lt_trans u.toNat_lt (by decide))
        have few := u.toNat_lt
        rw [appendUChar32, isBMP, same, if_pos (decide_eq_true (by omega)), UInt16.ofNat_toNat]
      rw [if_pos isBmp, wide, adjustEntity]
      by_cases windows : 0x80 ≤ m ∧ m ≤ 0x9F
      · have difference : (BitVec.ofNat 32 m - 0x80).toNat = m - 0x80 := by
          have same : BitVec.ofNat 32 m - 0x80 = BitVec.ofNat 32 (m - 0x80) :=
            ofNat_sub windows.1
          rw [same, BitVec.toNat_ofNat, Nat.mod_eq_of_lt (by omega)]
        rw [if_neg fun other => (windows_iff (by omega)).mp other windows, if_pos windows,
          difference]
      · rw [if_pos ((windows_iff (by omega)).mpr windows), if_neg windows, value, utf16Units, char]
        exact (if_pos (by omega)).symm
    · have isBmp : isBMP (BitVec.ofNat 32 m) = false := by
        rw [isBMP, value]
        exact decide_eq_false bmp
      rw [isBmp, if_neg Bool.false_ne_true, if_neg (by omega), appendUChar32, isBmp,
        if_neg Bool.false_ne_true]
      have pair := @NetRider.Wtf.Unicode.u16Units_eq (Char.ofNat m) (by rw [char]; omega)
      rw [char] at pair
      rw [← pair, NetRider.Wtf.Unicode.u16Lead, NetRider.Wtf.Unicode.u16Trail,
        BitVec.toNat_sshiftRight_of_msb_false, BitVec.toNat_or, BitVec.toNat_and, value]
      · rfl
      · rw [BitVec.msb_eq_false_iff_two_mul_lt, value]
        omega

/-- A number from `2 ^ 31` on becomes two units. -/
theorem append_large {m : Nat} (least : 2 ^ 31 ≤ m) (small : m < 2 ^ 32) :
    (appendUChar32 (legalEntityFor (BitVec.ofNat 32 m))).length = 2 := by
  have value : (BitVec.ofNat 32 m).toNat = m := by
    rw [BitVec.toNat_ofNat, Nat.mod_eq_of_lt small]
  have negative : (BitVec.ofNat 32 m).toInt < 0 := by
    rw [BitVec.toInt_eq_toNat_cond, value]
    split <;> omega
  have isBmp : isBMP (BitVec.ofNat 32 m) = false := by
    rw [isBMP, value]
    exact decide_eq_false (by omega)
  have legal : ¬ (BitVec.ofNat 32 m = 0 ∨ (BitVec.ofNat 32 m).toInt > 0x10FFFF ∨
      ((BitVec.ofNat 32 m).toInt ≥ 0xD800 ∧ (BitVec.ofNat 32 m).toInt ≤ 0xDFFF)) := by
    rw [ofNat_eq_zero small]
    omega
  rw [legalEntityFor, if_neg legal, isBmp, if_neg Bool.false_ne_true,
    appendUChar32, isBmp, if_neg Bool.false_ne_true]
  rfl

theorem windows_ne : ∀ i < 32, windowsLatin1ExtensionArray.getD i 0 ≠ 0xFFFD := by
  decide

/-- What is decoded to U+FFFD. -/
theorem decoded_replacement {m : Nat} :
    decoded m = [0xFFFD] ↔ m = 0 ∨ 0x10FFFF < m ∨ Surrogate m ∨ m = 0xFFFD := by
  rw [decoded]
  by_cases illegal : m = 0 ∨ 0x10FFFF < m ∨ Surrogate m
  · rw [if_pos illegal]
    exact iff_of_true rfl (by tauto)
  · rw [if_neg illegal]
    have others : (m = 0 ∨ 0x10FFFF < m ∨ Surrogate m ∨ m = 0xFFFD) ↔ m = 0xFFFD := by tauto
    rw [others]
    rw [Surrogate] at illegal
    have char : (Char.ofNat m).val.toNat = m := val_ofNat (by omega)
    by_cases windows : 0x80 ≤ m ∧ m ≤ 0x9F
    · rw [if_pos windows]
      refine iff_of_false (fun same => ?_) (by omega)
      exact windows_ne (m - 0x80) (by omega) (List.singleton_inj.mp same)
    · rw [if_neg windows, utf16Units, char]
      by_cases bmp : m < 0x10000
      · simp only [if_pos bmp]
        rw [List.singleton_inj, ← UInt16.toNat_inj, UInt16.toNat_ofNat_of_lt' bmp]
        exact Iff.rfl
      · simp only [if_neg bmp]
        refine iff_of_false (fun same => ?_) (by omega)
        have lengths := congrArg List.length same
        simp only [List.length_cons, List.length_nil] at lengths
        omega

theorem append_iff (n : Nat) :
    appendUChar32 (legalEntityFor (BitVec.ofNat 32 n)) = decoded n ↔ KeepsCharacter n := by
  have wraps : BitVec.ofNat 32 n = BitVec.ofNat 32 (n % 2 ^ 32) := by
    apply BitVec.eq_of_toNat_eq
    rw [BitVec.toNat_ofNat, BitVec.toNat_ofNat, Nat.mod_mod]
  by_cases small : n < 2 ^ 31
  · exact iff_of_true (append_small small) (.inl small)
  · have large : decoded n = [0xFFFD] := decoded_replacement.mpr (.inr (.inl (by omega)))
    rw [wraps, large, KeepsCharacter, or_iff_right small]
    by_cases half : n % 2 ^ 32 < 2 ^ 31
    · rw [append_small half, decoded_replacement]
      tauto
    · refine iff_of_false (fun same => ?_) ?_
      · have two := append_large (Nat.le_of_not_lt half) (Nat.mod_lt n (by decide))
        rw [same] at two
        cases two
      · rw [Surrogate]
        omega

/-- **A numeric reference is read rightly unless its number wraps around to a character.** -/
theorem numericReference_iff {consumeNamedEntity : List UChar → UChar → Option Result}
    {c : UChar} (ordinary : additional ≠ 0x23) (some_digit : digits ≠ [])
    (all : ∀ cc ∈ digits, radix.isDigit cc = true) (other : radix.isDigit c = false) :
    RightlyConsumed consumeNamedEntity additional radix digits c rest ↔
      KeepsCharacter (number radix.base digits) := by
  rw [RightlyConsumed, consumeHTMLEntity, consume_numeric rfl ordinary some_digit all other,
    ← append_iff]
  simp only [Option.some.injEq, Result.mk.injEq, true_and, and_true]

theorem numericReference_iff_A :
    RightlyConsumed (fun _ _ => none) 0 .decimal [0x36, 0x35] 0x3B [] ↔
      KeepsCharacter (number 10 [0x36, 0x35]) :=
  numericReference_iff (by decide) (by decide)
    (List.forall_mem_cons.mpr ⟨by decide, List.forall_mem_singleton.mpr (by decide)⟩) (by decide)

/-- `#4294967361;` is read as A and not as U+FFFD. -/
theorem large_number_wraps :
    consumeHTMLEntity (fun _ _ => none) 0
      (Radix.decimal.opening ++ [0x34, 0x32, 0x39, 0x34, 0x39, 0x36, 0x37, 0x33, 0x36, 0x31] ++
        [0x3B]) = some ⟨true, [], [0x41], false⟩ ∧
    decoded (number 10 [0x34, 0x32, 0x39, 0x34, 0x39, 0x36, 0x37, 0x33, 0x36, 0x31]) =
      [0xFFFD] :=
  ⟨by decide, by decide⟩

end NetRider.Html
