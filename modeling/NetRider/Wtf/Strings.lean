import Mathlib.Algebra.Order.Group.Int
import Mathlib.Algebra.Order.Group.Nat
import Mathlib.Data.Bool.AllAny
import Mathlib.Data.List.DropRight

/-!
# Strings

The functions of WTF on strings that the parsers below use. A string is its UTF-16 code units;
the code's 8-bit strings are the same with units below 256.
-/

namespace NetRider.Wtf

abbrev UChar := UInt16

/-- What the code asks ICU about characters outside of ASCII. -/
structure Icu where
  /-- `u_charDirection(c) == U_WHITE_SPACE_NEUTRAL` -/
  isWhiteSpaceNeutral : UChar → Bool
  /-- `u_foldCase(c, U_FOLD_CASE_DEFAULT)` -/
  foldCase : UChar → UChar

/-- Enough for ASCII, about which ICU is never asked. -/
def Icu.forASCII : Icu := ⟨fun _ => false, id⟩

/-- A string literal of the code. -/
def ascii (literal : String) : List UChar := literal.toList.map fun c => UInt16.ofNat c.toNat

def isASCIISpace (c : UChar) : Bool := c ≤ 0x20 && (c == 0x20 || (c ≤ 0xD && c ≥ 0x9))

def isASCIIDigit (c : UChar) : Bool := c ≥ 0x30 && c ≤ 0x39

def isASCIIUpper (c : UChar) : Bool := c ≥ 0x41 && c ≤ 0x5A

def isASCIIAlpha (c : UChar) : Bool := isASCIIUpper c || (c ≥ 0x61 && c ≤ 0x7A)

def isASCIIAlphanumeric (c : UChar) : Bool := isASCIIDigit c || isASCIIAlpha c

def toASCIILower (c : UChar) : UChar := if isASCIIUpper c then c + 0x20 else c

variable (icu : Icu)

def isSpaceOrNewline (c : UChar) : Bool :=
  if c ≤ 0x7F then isASCIISpace c else icu.isWhiteSpaceNeutral c

def foldCase (c : UChar) : UChar := if c ≤ 0x7F then toASCIILower c else icu.foldCase c

/-- Against a literal, whose characters are ASCII. -/
def equalIgnoringCase (s literal : List UChar) : Bool :=
  s.map (foldCase icu) == literal.map toASCIILower

/-- `startsWith(literal, false)`. -/
def startsWithIgnoringCase (s literal : List UChar) : Bool :=
  literal.length ≤ s.length && equalIgnoringCase icu (s.take literal.length) literal

def stripWhiteSpace (s : List UChar) : List UChar :=
  (s.dropWhile (isSpaceOrNewline icu)).rdropWhile (isSpaceOrNewline icu)

theorem digit_range {c : UChar} (digit : isASCIIDigit c = true) :
    0 ≤ (c.toNat : Int) - 0x30 ∧ (c.toNat : Int) - 0x30 ≤ 9 := by
  simp only [isASCIIDigit, Bool.and_eq_true, decide_eq_true_eq, ge_iff_le, UInt16.le_iff_toNat_le]
    at digit
  have low : (0x30 : UInt16).toNat = 0x30 := rfl
  have high : (0x39 : UInt16).toNat = 0x39 := rfl
  omega

end NetRider.Wtf
