import Mathlib.Algebra.Order.Field.Rat
import NetRider.Wtf.Strings

/-!
# The literal parser

`LiteralParser` over the units of a text. On an 8-bit text, whose units are below 256, the two
instances of the template do the same. Error messages and the caches of `makeIdentifier` are left out.
-/

namespace NetRider.Json

open NetRider.Wtf

/-! ## Values -/

/-- What the parser asks of doubles. -/
structure Doubles (Number : Type) where
  /-- The double nearest to a magnitude, with a sign of its own. -/
  nearest : (negative : Bool) → (magnitude : ℚ) → Number
  parseDouble : List UChar → Number
  /-- The int that the number is equal to, if there is one. -/
  asInt : Number → Option Int

/-- The conversion of an int, which is exact and never gives a negative zero. -/
def Doubles.ofInt {Number : Type} (doubles : Doubles Number) (n : Int) : Number :=
  doubles.nearest (n < 0) n.natAbs

/-- The properties of an object are listed in the order of `getOwnPropertyNames`. -/
inductive JSValue (Number : Type)
  | undefined
  | callable
  | null
  | boolean (value : Bool)
  | number (value : Number)
  | string (value : List UChar)
  | array (elements : List (JSValue Number))
  | object (properties : List (List UChar × JSValue Number))

abbrev Properties (Number : Type) := List (List UChar × JSValue Number)

def notAnIndex : UInt32 := 0xFFFFFFFF

/-- The loop of `toUInt32FromCharacters`. -/
def toUInt32Loop : UInt32 → List UChar → UInt32
  | value, [] => value
  | value, c :: characters =>
    if value > 0xFFFFFFFF / 10 then notAnIndex
    else
      let value := value * 10
      let newValue := c.toUInt32 - 0x30
      if newValue > 9 then notAnIndex
      else if newValue + value < value then notAnIndex
      else toUInt32Loop (newValue + value) characters

/-- `PropertyName::asIndex` -/
def asIndex (name : List UChar) : UInt32 :=
  match name with
  | [] => notAnIndex
  | c :: characters =>
    let value := c.toUInt32 - 0x30
    if value > 9 then notAnIndex
    else if value = 0 ∧ characters ≠ [] then notAnIndex
    else toUInt32Loop value characters

section

variable {Number : Type}

def hasProperty (properties : Properties Number) (name : List UChar) : Bool :=
  properties.any (·.1 == name)

def replaceProperty (properties : Properties Number) (name : List UChar) (value : JSValue Number) :
    Properties Number :=
  properties.map fun property => if property.1 = name then (name, value) else property

/-- Indexed properties come first, in ascending order. -/
def putDirectIndex (properties : Properties Number) (name : List UChar) (value : JSValue Number) :
    Properties Number :=
  if hasProperty properties name then replaceProperty properties name value
  else
    let (smaller, others) := properties.span fun property => asIndex property.1 < asIndex name
    smaller ++ (name, value) :: others

/-- The other properties follow in the order in which they were added. -/
def putDirect (properties : Properties Number) (name : List UChar) (value : JSValue Number) :
    Properties Number :=
  if hasProperty properties name then replaceProperty properties name value
  else properties ++ [(name, value)]

def putProperty (properties : Properties Number) (name : List UChar) (value : JSValue Number) :
    Properties Number :=
  if asIndex name ≠ notAnIndex then putDirectIndex properties name value
  else putDirect properties name value

end

/-! ## Tokens -/

inductive ParserMode
  | strictJSON
  | nonStrictJSON
  | jsonp
  deriving DecidableEq, Repr

inductive TokenType
  | tokLBracket | tokRBracket | tokLBrace | tokRBrace
  | tokString | tokIdentifier | tokNumber | tokColon
  | tokLParen | tokRParen | tokComma | tokTrue | tokFalse
  | tokNull | tokEnd | tokDot | tokAssign | tokSemi | tokError
  deriving DecidableEq, Repr

/-- `LiteralParserToken` -/
inductive Token (Number : Type)
  | string (value : List UChar)
  | identifier (name : List UChar)
  | number (value : Number)
  /-- A token that is known by its type. -/
  | plain (type : TokenType)
  deriving DecidableEq, Repr

section

variable {Number : Type}

def Token.type : Token Number → TokenType
  | string _ => .tokString
  | identifier _ => .tokIdentifier
  | number _ => .tokNumber
  | plain type => type

/-- What `lex` returns: for a semicolon not the type that it stores. -/
def Token.returned (token : Token Number) : TokenType :=
  if token.type = .tokSemi then .tokAssign else token.type

end

def isJSONWhiteSpace (c : UChar) : Bool := c == 0x20 || c == 0x9 || c == 0xA || c == 0xD

abbrev doubleQuote : UChar := 0x22
abbrev singleQuote : UChar := 0x27
abbrev backslash : UChar := 0x5C

/-! ## Strings -/

def isSafeStringCharacter (mode : ParserMode) (terminator c : UChar) : Bool :=
  (c ≥ 0x20 && (mode == .strictJSON || c ≤ 0xFF) && c != backslash && c != terminator) ||
    (c == 0x9 && mode != .strictJSON)

def isASCIIHexDigit (c : UChar) : Bool :=
  isASCIIDigit c || (c ≥ 0x41 && c ≤ 0x46) || (c ≥ 0x61 && c ≤ 0x66)

def toASCIIHexValue (c : UChar) : UChar :=
  if c < 0x41 then c - 0x30 else (c - 0x41 + 10) &&& 0xF

def convertHex (c1 c2 : UChar) : UChar := (toASCIIHexValue c1 <<< 4) ||| toASCIIHexValue c2

def convertUnicode (c1 c2 c3 c4 : UChar) : UChar := (convertHex c1 c2 <<< 8) ||| convertHex c3 c4

/-- The unit that a one-letter escape stands for. -/
def escapedUnit (mode : ParserMode) (c : UChar) : Option UChar :=
  if c = doubleQuote then some doubleQuote
  else if c = backslash then some backslash
  else if c = 0x2F then some 0x2F
  else if c = 0x62 then some 0x8
  else if c = 0x66 then some 0xC
  else if c = 0x6E then some 0xA
  else if c = 0x72 then some 0xD
  else if c = 0x74 then some 0x9
  else if c = singleQuote ∧ mode ≠ .strictJSON then some singleQuote
  else none

/-- The switch behind a backslash: the unit and what follows. -/
def lexEscape (mode : ParserMode) (text : List UChar) : Option (UChar × List UChar) :=
  match text with
  | [] => none
  | c :: rest =>
    if c = 0x75 then
      match rest with
      | c1 :: c2 :: c3 :: c4 :: rest =>
        if isASCIIHexDigit c1 && isASCIIHexDigit c2 && isASCIIHexDigit c3 && isASCIIHexDigit c4 then
          some (convertUnicode c1 c2 c3 c4, rest)
        else none
      | _ => none
    else (escapedUnit mode c).map (·, rest)

/-- The loop of `lexString` from `runStart` on; `builder` is empty until the first escape. -/
def lexStringLoop (mode : ParserMode) (terminator : UChar) (builder runStart : List UChar) :
    Option (List UChar × List UChar) :=
  let run := runStart.takeWhile (isSafeStringCharacter mode terminator)
  let ptr := runStart.dropWhile (isSafeStringCharacter mode terminator)
  let builder := if builder ≠ [] then builder ++ run else builder
  let afterSwitch : Option (List UChar × List UChar) :=
    if mode ≠ .nonStrictJSON ∧ ptr.head? = some backslash then
      let builder := if builder = [] ∧ run ≠ [] then run else builder
      (lexEscape mode ptr.tail).map fun (c, ptr) => (builder ++ [c], ptr)
    else some (builder, ptr)
  match afterSwitch with
  | none => none
  | some (builder, ptr) =>
    if mode ≠ .nonStrictJSON ∧ ptr.length < runStart.length ∧ ptr ≠ [] ∧
        ptr.head? ≠ some terminator then
      lexStringLoop mode terminator builder ptr
    else if ptr.head? ≠ some terminator then none
    else some (if builder = [] then runStart.take (runStart.length - ptr.length) else builder, ptr.tail)
termination_by runStart.length

/-! ## Numbers -/

section

variable {Number : Type} (doubles : Doubles Number)

/-- The part of `lexNumber` behind the digits of a fraction. -/
def lexExponent (start ptr : List UChar) : Token Number × List UChar :=
  let finish (ptr : List UChar) : Token Number × List UChar :=
    (.number (doubles.parseDouble (start.take (start.length - ptr.length))), ptr)
  match ptr with
  | [] => finish []
  | c :: rest =>
    if c = 0x65 ∨ c = 0x45 then
      let digits := if rest.head? = some 0x2D ∨ rest.head? = some 0x2B then rest.tail else rest
      if (digits.head?.map isASCIIDigit).getD false then finish (digits.dropWhile isASCIIDigit)
      else (.plain .tokError, digits)
    else finish ptr

/-- The int that the fast path computes. -/
def intOfDigits (result : Int) (digits : List UChar) : Int :=
  digits.foldl (fun result c => result * 10 + c.toNat - 0x30) result

/-- The part of `lexNumber` behind the digits of the integer. -/
def lexFraction (start ptr : List UChar) : Token Number × List UChar :=
  match ptr with
  | [] => lexExponent doubles start []
  | c :: rest =>
    if c = 0x2E then
      if (rest.head?.map isASCIIDigit).getD false then
        lexExponent doubles start (rest.dropWhile isASCIIDigit)
      else (.plain .tokError, rest)
    else
      let literal := start.take (start.length - ptr.length)
      if c ≠ 0x65 ∧ c ≠ 0x45 ∧ literal.length < 10 then
        let result :=
          if literal.head? = some 0x2D then intOfDigits 0 literal.tail * -1
          else intOfDigits 0 literal
        (.number (doubles.ofInt result), ptr)
      else lexExponent doubles start ptr

def lexNumber (start : List UChar) : Token Number × List UChar :=
  let ptr := if start.head? = some 0x2D then start.tail else start
  match ptr with
  | [] => (.plain .tokError, [])
  | c :: rest =>
    if c = 0x30 then lexFraction doubles start rest
    else if c ≥ 0x31 ∧ c ≤ 0x39 then lexFraction doubles start (rest.dropWhile isASCIIDigit)
    else (.plain .tokError, ptr)

/-! ## The lexer -/

def isIdentifierStart (c : UChar) : Bool := isASCIIAlpha c || c == 0x5F || c == 0x24

def isIdentifierPart (c : UChar) : Bool :=
  isASCIIAlphanumeric c || c == 0x5F || c == 0x24 || c == 0x200C || c == 0x200D

def lexString (mode : ParserMode) (terminator : UChar) (text : List UChar) :
    Token Number × List UChar :=
  match lexStringLoop mode terminator [] text with
  | some (value, rest) => (.string value, rest)
  | none => (.plain .tokError, text)

/-- The cases of the switch that are one character long. -/
def punctuator (c : UChar) : Option TokenType :=
  if c = 0x5B then some .tokLBracket
  else if c = 0x5D then some .tokRBracket
  else if c = 0x28 then some .tokLParen
  else if c = 0x29 then some .tokRParen
  else if c = 0x7B then some .tokLBrace
  else if c = 0x7D then some .tokRBrace
  else if c = 0x2C then some .tokComma
  else if c = 0x3A then some .tokColon
  else none

/-- `lex` from a first character that is no white space. Where the lexer stands after an error is of no
use, nothing is read then. -/
def lexFrom (mode : ParserMode) (c : UChar) (rest : List UChar) : Token Number × List UChar :=
  let ptr := c :: rest
  match punctuator c with
  | some type => (.plain type, rest)
  | none =>
    if c = doubleQuote then lexString mode doubleQuote rest
    else if (ascii "true").isPrefixOf ptr then (.plain .tokTrue, ptr.drop 4)
    else if (ascii "false").isPrefixOf ptr then (.plain .tokFalse, ptr.drop 5)
    else if (ascii "null").isPrefixOf ptr then (.plain .tokNull, ptr.drop 4)
    else if c = 0x2D ∨ isASCIIDigit c then lexNumber doubles ptr
    else if c = 0x2E then (.plain .tokDot, rest)
    else if c = 0x3D then (.plain .tokAssign, rest)
    else if c = 0x3B then (.plain .tokSemi, rest)
    else if isIdentifierStart c then
      (.identifier (ptr.takeWhile isIdentifierPart), ptr.dropWhile isIdentifierPart)
    else if c = singleQuote ∧ mode ≠ .strictJSON then lexString mode singleQuote rest
    else (.plain .tokError, ptr)

/-- The next token and what follows it. -/
def lex (mode : ParserMode) (text : List UChar) : Token Number × List UChar :=
  match text.dropWhile isJSONWhiteSpace with
  | [] => (.plain .tokEnd, [])
  | c :: rest => lexFrom doubles mode c rest

end

structure Lexer (Number : Type) where
  mode : ParserMode
  currentToken : Token Number
  ptr : List UChar

section

variable {Number : Type} (doubles : Doubles Number)

/-- The lexer once it has read the first token of a text. -/
def Lexer.at (mode : ParserMode) (text : List UChar) : Lexer Number :=
  ⟨mode, (lex doubles mode text).1, (lex doubles mode text).2⟩

def Lexer.next (lexer : Lexer Number) : Lexer Number := Lexer.at doubles lexer.mode lexer.ptr

/-! ## The parser -/

inductive ParserState
  | startParseObject | startParseArray | startParseExpression
  | startParseStatement | startParseStatementEndStatement
  | doParseObjectStartExpression | doParseObjectEndExpression
  | doParseArrayStartExpression | doParseArrayEndExpression
  deriving DecidableEq, Repr

/-- The variables of `parse`. The last element of a stack comes first. -/
structure Parsing (Number : Type) where
  lexer : Lexer Number
  objectStack : List (JSValue Number)
  lastValue : Option (JSValue Number)
  stateStack : List ParserState
  identifierStack : List (List UChar)

/-- How a case of the switch ends. -/
inductive Ending (Number : Type)
  | goto (state : ParserState) (parsing : Parsing Number)
  | leave (parsing : Parsing Number)
  | give (value : Option (JSValue Number)) (lexer : Lexer Number)

/-- `putDirectIndex` at the length of the array. -/
def appendElement : JSValue Number → Option (JSValue Number) → JSValue Number
  | .array elements, some value => .array (elements ++ [value])
  | object, _ => object

def putMember (name : List UChar) : JSValue Number → Option (JSValue Number) → JSValue Number
  | .object properties, some value => .object (putProperty properties name value)
  | object, _ => object

namespace Parsing

/-- The end of an array or object. -/
def finish (parsing : Parsing Number) : Ending Number :=
  .leave { parsing with
    lexer := parsing.lexer.next doubles
    lastValue := parsing.objectStack.head?
    objectStack := parsing.objectStack.tail }

/-- The colon and the value behind the name of a property, which is the current token. -/
def afterName (parsing : Parsing Number) (name : List UChar) : Ending Number :=
  let lexer := parsing.lexer.next doubles
  if lexer.currentToken.returned ≠ .tokColon then .give none lexer
  else .goto .startParseExpression { parsing with
    lexer := lexer.next doubles
    identifierStack := name :: parsing.identifierStack
    stateStack := .doParseObjectEndExpression :: parsing.stateStack }

/-- The name of a property; an identifier is one too unless the mode is strict. -/
def propertyName (lexer : Lexer Number) : Option (List UChar) :=
  match lexer.currentToken with
  | .string value => some value
  | .identifier name => if lexer.mode ≠ .strictJSON then some name else none
  | _ => none

/-- A value that is one token. -/
def literal (parsing : Parsing Number) (value : JSValue Number) : Ending Number :=
  .leave { parsing with lexer := parsing.lexer.next doubles, lastValue := some value }

/-- One case of the switch in `parse`. -/
def step (parsing : Parsing Number) : ParserState → Ending Number
  | .startParseArray =>
    .goto .doParseArrayStartExpression
      { parsing with objectStack := .array [] :: parsing.objectStack }
  | .doParseArrayStartExpression =>
    let lexer := parsing.lexer.next doubles
    if lexer.currentToken.returned = .tokRBracket then
      if parsing.lexer.currentToken.type = .tokComma then .give none lexer
      else { parsing with lexer }.finish doubles
    else
      .goto .startParseExpression
        { parsing with lexer, stateStack := .doParseArrayEndExpression :: parsing.stateStack }
  | .doParseArrayEndExpression =>
    let parsing :=
      { parsing with objectStack := parsing.objectStack.modifyHead (appendElement · parsing.lastValue) }
    if parsing.lexer.currentToken.type = .tokComma then .goto .doParseArrayStartExpression parsing
    else if parsing.lexer.currentToken.type ≠ .tokRBracket then .give none parsing.lexer
    else parsing.finish doubles
  | .startParseObject =>
    let lexer := parsing.lexer.next doubles
    let parsing := { parsing with lexer, objectStack := .object [] :: parsing.objectStack }
    match propertyName lexer with
    | some name => parsing.afterName doubles name
    | none =>
      if lexer.currentToken.returned ≠ .tokRBrace then .give none lexer else parsing.finish doubles
  | .doParseObjectStartExpression =>
    let lexer := parsing.lexer.next doubles
    match propertyName lexer with
    | some name => { parsing with lexer }.afterName doubles name
    | none => .give none lexer
  | .doParseObjectEndExpression =>
    let parsing :=
      { parsing with
        objectStack := parsing.objectStack.modifyHead
          (putMember (parsing.identifierStack.headD []) · parsing.lastValue)
        identifierStack := parsing.identifierStack.tail }
    if parsing.lexer.currentToken.type = .tokComma then .goto .doParseObjectStartExpression parsing
    else if parsing.lexer.currentToken.type ≠ .tokRBrace then .give none parsing.lexer
    else parsing.finish doubles
  | .startParseExpression =>
    match parsing.lexer.currentToken with
    | .plain .tokLBracket => .goto .startParseArray parsing
    | .plain .tokLBrace => .goto .startParseObject parsing
    | .string value => parsing.literal doubles (.string value)
    | .number value => parsing.literal doubles (.number value)
    | .plain .tokNull => parsing.literal doubles .null
    | .plain .tokTrue => parsing.literal doubles (.boolean true)
    | .plain .tokFalse => parsing.literal doubles (.boolean false)
    | _ => .give none parsing.lexer
  | .startParseStatement =>
    match parsing.lexer.currentToken.type with
    | .tokLBracket => .goto .startParseExpression parsing
    | .tokNumber => .goto .startParseExpression parsing
    | .tokString => .goto .startParseExpression parsing
    | .tokLParen =>
      .goto .startParseExpression { parsing with
        lexer := parsing.lexer.next doubles
        stateStack := .startParseStatementEndStatement :: parsing.stateStack }
    | _ => .give none parsing.lexer
  | .startParseStatementEndStatement =>
    if parsing.lexer.currentToken.type ≠ .tokRParen then .give none parsing.lexer
    else
      let lexer := parsing.lexer.next doubles
      if lexer.currentToken.returned = .tokEnd then .give parsing.lastValue lexer
      else .give none lexer

/-- The loop of `parse`; `rounds` bounds the number of cases that are gone through. -/
def loop : Nat → ParserState → Parsing Number → Option (JSValue Number) × Lexer Number
  | 0, _, parsing => (none, parsing.lexer)
  | rounds + 1, state, parsing =>
    match parsing.step doubles state with
    | .goto state parsing => loop rounds state parsing
    | .give value lexer => (value, lexer)
    | .leave parsing =>
      match parsing.stateStack with
      | [] => (parsing.lastValue, parsing.lexer)
      | state :: stateStack => loop rounds state { parsing with stateStack }

end Parsing

/-- `parse`, with enough rounds for the length of the text. -/
def parse (length : Nat) (initialState : ParserState) (lexer : Lexer Number) :
    Option (JSValue Number) × Lexer Number :=
  Parsing.loop doubles (3 * length + 1) initialState ⟨lexer, [], none, [], []⟩

def tryLiteralParse (mode : ParserMode) (text : List UChar) : Option (JSValue Number) :=
  let (result, lexer) :=
    parse doubles text.length
      (if mode = .strictJSON then .startParseExpression else .startParseStatement)
      (Lexer.at doubles mode text)
  let lexer := if lexer.currentToken.type = .tokSemi then lexer.next doubles else lexer
  if lexer.currentToken.type ≠ .tokEnd then none else result

end

end NetRider.Json
