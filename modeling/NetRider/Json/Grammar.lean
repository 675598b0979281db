import NetRider.Json.LiteralParser

/-!
# JSON texts

The grammar of ES5 in strict mode; the other modes differ in the strings and in the names of
properties.
-/

namespace NetRider.Json

open NetRider.Wtf

/-! ## Strings -/

/-- A unit of a string as it is written. -/
inductive StringUnit
  | plain (c : UChar)
  | escape (c : UChar)
  | unicode (c1 c2 c3 c4 : UChar)
  deriving DecidableEq, Repr

/-- The letters behind a backslash and what they stand for. -/
def simpleEscapes : List (UChar × UChar) :=
  [(doubleQuote, doubleQuote), (backslash, backslash), (0x2F, 0x2F), (0x62, 0x8), (0x66, 0xC),
    (0x6E, 0xA), (0x72, 0xD), (0x74, 0x9)]

def hexValue (c : UChar) : Nat :=
  if isASCIIDigit c then c.toNat - 0x30
  else if isASCIIUpper c then c.toNat - 0x41 + 10
  else c.toNat - 0x61 + 10

namespace StringUnit

def text : StringUnit → List UChar
  | plain c => [c]
  | escape c => [backslash, c]
  | unicode c1 c2 c3 c4 => [backslash, 0x75, c1, c2, c3, c4]

def value : StringUnit → UChar
  | plain c => c
  | escape c => (simpleEscapes.lookup c).getD c
  | unicode c1 c2 c3 c4 =>
    UInt16.ofNat (16 ^ 3 * hexValue c1 + 16 ^ 2 * hexValue c2 + 16 * hexValue c3 + hexValue c4)

def WellFormed (mode : ParserMode) (quote : UChar) : StringUnit → Prop
  | plain c => c ≠ quote ∧ c ≠ backslash ∧
      match mode with
      | .strictJSON => 0x20 ≤ c
      | _ => c = 0x9 ∨ (0x20 ≤ c ∧ c ≤ 0xFF)
  | escape c => mode ≠ .nonStrictJSON ∧
      ((simpleEscapes.lookup c).isSome ∨ (c = singleQuote ∧ mode ≠ .strictJSON))
  | unicode c1 c2 c3 c4 => mode ≠ .nonStrictJSON ∧
      ∀ c ∈ [c1, c2, c3, c4], isASCIIHexDigit c = true

end StringUnit

structure Quoted where
  quote : UChar
  units : List StringUnit
  deriving DecidableEq, Repr

namespace Quoted

def text (string : Quoted) : List UChar :=
  string.quote :: (string.units.flatMap StringUnit.text ++ [string.quote])

def value (string : Quoted) : List UChar := string.units.map StringUnit.value

structure WellFormed (mode : ParserMode) (string : Quoted) : Prop where
  quote : string.quote = doubleQuote ∨ (string.quote = singleQuote ∧ mode ≠ .strictJSON)
  units : ∀ u ∈ string.units, u.WellFormed mode string.quote

end Quoted

/-! ## Numbers -/

/-- The letter e, a sign if there is one, and digits. -/
structure Exponent where
  letter : UChar
  sign : Option UChar
  digits : List UChar
  deriving DecidableEq, Repr

structure Numeral where
  negative : Bool
  integer : List UChar
  fraction : Option (List UChar)
  exponent : Option Exponent
  deriving DecidableEq, Repr

def IsDigits (digits : List UChar) : Prop := digits ≠ [] ∧ ∀ c ∈ digits, isASCIIDigit c = true

def natOfDigits (digits : List UChar) : Nat :=
  digits.foldl (fun value c => 10 * value + (c.toNat - 0x30)) 0

namespace Exponent

def text (exponent : Exponent) : List UChar :=
  exponent.letter :: (exponent.sign.toList ++ exponent.digits)

def value (exponent : Exponent) : Int :=
  if exponent.sign = some 0x2D then -natOfDigits exponent.digits else natOfDigits exponent.digits

structure WellFormed (exponent : Exponent) : Prop where
  letter : exponent.letter = 0x65 ∨ exponent.letter = 0x45
  sign : ∀ c, exponent.sign = some c → c = 0x2D ∨ c = 0x2B
  digits : IsDigits exponent.digits

end Exponent

namespace Numeral

def integerText (n : Numeral) : List UChar := (if n.negative then [0x2D] else []) ++ n.integer

def fractionText (n : Numeral) : List UChar := n.fraction.elim [] (0x2E :: ·)

def exponentText (n : Numeral) : List UChar := n.exponent.elim [] Exponent.text

def text (n : Numeral) : List UChar := n.integerText ++ (n.fractionText ++ n.exponentText)

/-- The number without its sign. -/
def magnitude (n : Numeral) : ℚ :=
  (natOfDigits (n.integer ++ n.fraction.getD []) : ℚ) *
    10 ^ (n.exponent.elim 0 Exponent.value - (n.fraction.getD []).length)

structure WellFormed (n : Numeral) : Prop where
  integer : n.integer = [0x30] ∨ (IsDigits n.integer ∧ n.integer.head? ≠ some 0x30)
  fraction : ∀ digits, n.fraction = some digits → IsDigits digits
  exponent : ∀ e, n.exponent = some e → e.WellFormed

/-- The numeral "-0". -/
def minusZero : Numeral := ⟨true, [0x30], none, none⟩

end Numeral

/-! ## Values -/

/-- An identifier that the lexer does not take for the beginning of another token. -/
structure IsIdentifier (name : List UChar) : Prop where
  starts : ∃ c rest, name = c :: rest ∧ isIdentifierStart c = true
  parts : ∀ c ∈ name, isIdentifierPart c = true
  notTrue : ¬ ascii "true" <+: name
  notFalse : ¬ ascii "false" <+: name
  notNull : ¬ ascii "null" <+: name

inductive PropertyKey
  | quoted (string : Quoted)
  | bare (name : List UChar)
  deriving DecidableEq, Repr

namespace PropertyKey

def text : PropertyKey → List UChar
  | quoted string => string.text
  | bare name => name

def name : PropertyKey → List UChar
  | quoted string => string.value
  | bare name => name

def WellFormed (mode : ParserMode) : PropertyKey → Prop
  | quoted string => string.WellFormed mode
  | bare name => mode ≠ .strictJSON ∧ IsIdentifier name

end PropertyKey

inductive Literal
  | null
  | boolean (value : Bool)
  | number (numeral : Numeral)
  | string (string : Quoted)
  | array (elements : List Literal)
  | object (members : List (PropertyKey × Literal))

/-- White space and a token stand before the rest. -/
def Reads (token text rest : List UChar) : Prop :=
  ∃ white : List UChar, (∀ c ∈ white, isJSONWhiteSpace c = true) ∧ text = white ++ (token ++ rest)

mutual

/-- The text begins with the value, in the grammar of the mode, and the rest follows. -/
def Literal.Spells (mode : ParserMode) : Literal → List UChar → List UChar → Prop
  | .null, text, rest => Reads (ascii "null") text rest
  | .boolean true, text, rest => Reads (ascii "true") text rest
  | .boolean false, text, rest => Reads (ascii "false") text rest
  | .number n, text, rest => n.WellFormed ∧ Reads n.text text rest
  | .string s, text, rest => s.WellFormed mode ∧ Reads s.text text rest
  | .array [], text, rest => ∃ inner, Reads [0x5B] text inner ∧ Reads [0x5D] inner rest
  | .array (e :: es), text, rest => ∃ first after, Reads [0x5B] text first ∧
      e.Spells mode first after ∧ MoreElements mode es after rest
  | .object [], text, rest => ∃ inner, Reads [0x7B] text inner ∧ Reads [0x7D] inner rest
  | .object ((key, e) :: ms), text, rest => ∃ first colon value after, Reads [0x7B] text first ∧
      (key.WellFormed mode ∧ Reads key.text first colon) ∧ Reads [0x3A] colon value ∧
      e.Spells mode value after ∧ MoreMembers mode ms after rest

/-- Each element stands behind a comma, and the bracket follows. -/
def MoreElements (mode : ParserMode) : List Literal → List UChar → List UChar → Prop
  | [], text, rest => Reads [0x5D] text rest
  | e :: es, text, rest => ∃ next after, Reads [0x2C] text next ∧ e.Spells mode next after ∧
      MoreElements mode es after rest

def MoreMembers (mode : ParserMode) : List (PropertyKey × Literal) → List UChar → List UChar → Prop
  | [], text, rest => Reads [0x7D] text rest
  | (key, e) :: ms, text, rest => ∃ next colon value after, Reads [0x2C] text next ∧
      (key.WellFormed mode ∧ Reads key.text next colon) ∧ Reads [0x3A] colon value ∧
      e.Spells mode value after ∧ MoreMembers mode ms after rest

end

/-- A JSON text: a value with white space around it. -/
def IsText (j : Literal) (text : List UChar) : Prop :=
  ∃ rest, j.Spells .strictJSON text rest ∧ ∀ c ∈ rest, isJSONWhiteSpace c = true

/-! ## What a text denotes -/

section

variable {Number : Type} (doubles : Doubles Number)

mutual

/-- The value of a text where the numeral "-0" stands for the given number. -/
def Literal.evaluate (minusZero : Number) : Literal → JSValue Number
  | .null => .null
  | .boolean b => .boolean b
  | .number n =>
    .number (if n = .minusZero then minusZero else doubles.nearest n.negative n.magnitude)
  | .string s => .string s.value
  | .array es => .array (evaluateElements minusZero es)
  | .object ms => .object (evaluateMembers minusZero [] ms)

def evaluateElements (minusZero : Number) : List Literal → List (JSValue Number)
  | [] => []
  | e :: es => e.evaluate minusZero :: evaluateElements minusZero es

/-- A later member replaces an earlier one of the same name. -/
def evaluateMembers (minusZero : Number) (properties : Properties Number) :
    List (PropertyKey × Literal) → Properties Number
  | [] => properties
  | (key, e) :: ms =>
    evaluateMembers minusZero (putProperty properties key.name (e.evaluate minusZero)) ms

end

/-- The value that a text denotes. -/
def Literal.value (j : Literal) : JSValue Number := j.evaluate doubles (doubles.nearest true 0)

end

mutual

/-- A numeral "-0" is a part of the value. -/
def Literal.KeepsMinusZero : Literal → Prop
  | .number n => n = .minusZero
  | .array es => ElementsKeepMinusZero es
  | .object ms => MembersKeepMinusZero ms
  | _ => False

def ElementsKeepMinusZero : List Literal → Prop
  | [] => False
  | e :: es => e.KeepsMinusZero ∨ ElementsKeepMinusZero es

/-- In a member that no later one replaces. -/
def MembersKeepMinusZero : List (PropertyKey × Literal) → Prop
  | [] => False
  | (key, e) :: ms => (e.KeepsMinusZero ∧ ∀ m ∈ ms, m.1.name ≠ key.name) ∨ MembersKeepMinusZero ms

end

end NetRider.Json
