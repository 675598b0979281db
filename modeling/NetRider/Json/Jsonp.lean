import NetRider.Json.LiteralParser

/-!
# Scripts that are JSONP

`tryJSONPParse`, which claims a script that consists of assignments and calls with literals, so that
it need not be run.
-/

namespace NetRider.Json

open NetRider.Wtf

/-- An entry of a path with the field that its type uses. -/
inductive JSONPPathEntry
  | declare (name : List UChar)
  | dot (name : List UChar)
  | lookup (index : Int)
  | call (name : List UChar)
  deriving DecidableEq, Repr

structure JSONPData (Number : Type) where
  path : List JSONPPathEntry
  value : JSValue Number

/-- The words of Keywords.table. -/
def keywords : List (List UChar) :=
  ["null", "true", "false", "break", "case", "catch", "const", "default", "finally", "for",
    "instanceof", "new", "var", "continue", "function", "return", "void", "delete", "if", "this", "do",
    "while", "else", "in", "switch", "throw", "try", "typeof", "with", "debugger", "class", "enum",
    "export", "extends", "import", "super", "implements", "interface", "let", "package", "private",
    "protected", "public", "static", "yield"].map ascii

def isKeyword (name : List UChar) : Bool := keywords.contains name

def JSONPPathEntry.isCall : JSONPPathEntry → Bool
  | call _ => true
  | _ => false

section

variable {Number : Type} (doubles : Doubles Number)

/-- The loop over a path, from the token behind its first entry up to the "=" or "(". -/
def pathLoop (needsFullSourceInfo : Bool) :
    Nat → Lexer Number → List JSONPPathEntry → Option (List JSONPPathEntry × Lexer Number)
  | 0, _, _ => none
  | rounds + 1, lexer, path =>
    match lexer.currentToken.returned with
    | .tokAssign => some (path, lexer)
    | .tokLBracket =>
      let lexer := lexer.next doubles
      match lexer.currentToken with
      | .number doubleIndex =>
        match doubles.asInt doubleIndex with
        | some index =>
          if index < 0 then none
          else
            let lexer := lexer.next doubles
            if lexer.currentToken.returned ≠ .tokRBracket then none
            else pathLoop needsFullSourceInfo rounds (lexer.next doubles) (path ++ [.lookup index])
        | none => none
      | _ => none
    | .tokDot =>
      let lexer := lexer.next doubles
      match lexer.currentToken with
      | .identifier name =>
        pathLoop needsFullSourceInfo rounds (lexer.next doubles) (path ++ [.dot name])
      | _ => none
    | .tokLParen =>
      match path.getLast? with
      | some (.dot name) =>
        if needsFullSourceInfo then none else some (path.dropLast ++ [.call name], lexer)
      | _ => none
    | _ => none

/-- `startJSON`: the literal, and the ")" of a call. -/
def jsonpValue (length : Nat) (path : List JSONPPathEntry) (lexer : Lexer Number) :
    Option (JSONPData Number × Lexer Number) :=
  match parse doubles length .startParseExpression (lexer.next doubles) with
  | (none, _) => none
  | (some value, lexer) =>
    if (path.getLast?.map JSONPPathEntry.isCall).getD false then
      if lexer.currentToken.type ≠ .tokRParen then none else some (⟨path, value⟩, lexer.next doubles)
    else some (⟨path, value⟩, lexer)

/-- A statement from its first entry on, which is the current token. -/
def jsonpPath (needsFullSourceInfo : Bool) (length : Nat) (name : List UChar) (declares : Bool)
    (lexer : Lexer Number) : Option (JSONPData Number × Lexer Number) :=
  if isKeyword name then none
  else
    let lexer := lexer.next doubles
    if declares ∧ lexer.currentToken.returned ≠ .tokAssign then none
    else do
      let (path, lexer) ← pathLoop doubles needsFullSourceInfo (length + 1) lexer
        [if declares then .declare name else .dot name]
      jsonpValue doubles length path lexer

/-- One turn of the loop, up to the ";". -/
def jsonpStatement (needsFullSourceInfo : Bool) (length : Nat) (lexer : Lexer Number) :
    Option (JSONPData Number × Lexer Number) :=
  match lexer.currentToken with
  | .identifier name =>
    if name = ascii "var" then
      let lexer := lexer.next doubles
      match lexer.currentToken with
      | .identifier declared => jsonpPath doubles needsFullSourceInfo length declared true lexer
      | _ => none
    else jsonpPath doubles needsFullSourceInfo length name false lexer
  | _ => none

def jsonpLoop (needsFullSourceInfo : Bool) (length : Nat) :
    Nat → Lexer Number → List (JSONPData Number) → Option (List (JSONPData Number) × Lexer Number)
  | 0, _, _ => none
  | rounds + 1, lexer, results => do
    let (data, lexer) ← jsonpStatement doubles needsFullSourceInfo length lexer
    if lexer.currentToken.type ≠ .tokSemi then some (results ++ [data], lexer)
    else
      let lexer := lexer.next doubles
      if lexer.currentToken.type = .tokIdentifier then
        jsonpLoop needsFullSourceInfo length rounds lexer (results ++ [data])
      else some (results ++ [data], lexer)

/-- The results, when the script is claimed. -/
def tryJSONPParse (needsFullSourceInfo : Bool) (text : List UChar) :
    Option (List (JSONPData Number)) :=
  let lexer := Lexer.at doubles .jsonp text
  if lexer.currentToken.returned ≠ .tokIdentifier then none
  else
    match jsonpLoop doubles needsFullSourceInfo text.length (text.length + 1) lexer [] with
    | some (results, lexer) => if lexer.currentToken.type = .tokEnd then some results else none
    | none => none

end

end NetRider.Json
