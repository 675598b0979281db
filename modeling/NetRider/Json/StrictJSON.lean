import NetRider.Json.Parsing
import NetRider.Json.Values

/-!
# Strict JSON

`tryLiteralParse` is shared by the dialects. In strict mode it still skips a semicolon behind the value.
-/

namespace NetRider.Json

open NetRider.Wtf

section

variable {Number : Type} {doubles : Doubles Number} {mode : ParserMode} {text : List UChar}

/-- The rest is white space, with a semicolon in it or without. -/
def Ended (rest : List UChar) : Prop :=
  (∀ c ∈ rest, isJSONWhiteSpace c = true) ∨
    ∃ after, Reads [0x3B] rest after ∧ ∀ c ∈ after, isJSONWhiteSpace c = true

theorem Ended.delimited {rest : List UChar} (ended : Ended rest) : Delimited rest := by
  rcases ended with white | ⟨after, semicolon, -⟩
  · exact .white white
  · exact (semicolon.delimited (by decide)).1

theorem white_of_end (parses : doubles.Parses) {rest : List UChar}
    (ends : (Lexer.at doubles mode rest).currentToken.type = .tokEnd) :
    ∀ c ∈ rest, isJSONWhiteSpace c = true := by
  have token := (Token.type_eq_iff (by simp [TokenType.Plain])).mp ends
  have written := lex_written parses mode rest
  change (Lexer.at doubles mode rest).currentToken.Written doubles mode rest _ at written
  rw [token] at written
  exact written.1

/-- What is accepted in strict mode, and which value is returned. -/
theorem tryLiteralParse_iff (parses : doubles.Parses) {v : JSValue Number} :
    tryLiteralParse doubles .strictJSON text = some v ↔
      ∃ (j : Literal) (rest : List UChar), j.Spells .strictJSON text rest ∧ Ended rest ∧
        v = j.read doubles rest := by
  unfold tryLiteralParse
  rw [if_pos rfl]
  constructor
  · intro found
    cases parsed : parse doubles text.length .startParseExpression
        (Lexer.at doubles .strictJSON text) with
    | mk result lexer =>
      rw [parsed] at found
      dsimp only at found
      by_cases ends : (if lexer.currentToken.type = .tokSemi then lexer.next doubles
          else lexer).currentToken.type = .tokEnd
      · rw [if_neg (not_not_intro ends)] at found
        subst found
        obtain ⟨j, rest, spells, rfl, rfl⟩ := parse_sound parses parsed
        refine ⟨j, rest, spells, ?_, rfl⟩
        split_ifs at ends with isSemi
        · have token := (Token.type_eq_iff (by simp [TokenType.Plain])).mp isSemi
          exact .inr ⟨_, reads_of_plain parses token (by decide), white_of_end parses ends⟩
        · exact .inl (white_of_end parses ends)
      · rw [if_pos ends] at found
        cases found
  · rintro ⟨j, rest, spells, ended, rfl⟩
    rw [parse_complete parses spells ended.delimited (Nat.le_refl _)]
    simp only
    rcases ended with white | ⟨after, semicolon, white⟩
    · rw [at_end white]
      rfl
    · rw [at_plain .tokSemi (by decide) semicolon]
      simp only [Lexer.next, at_end white]
      rfl

/-- The parser does with the text what the grammar of JSON says. -/
def ParsedAsJSON (doubles : Doubles Number) (text : List UChar) : Prop :=
  ∀ v, tryLiteralParse doubles .strictJSON text = some v ↔
    ∃ j : Literal, IsText j text ∧ v = j.value doubles

/-- A value and a semicolon. -/
def EndsInSemicolon (text : List UChar) : Prop :=
  ∃ (j : Literal) (rest after : List UChar), j.Spells .strictJSON text rest ∧ Reads [0x3B] rest after ∧
    ∀ c ∈ after, isJSONWhiteSpace c = true

/-- A text with a semicolon is no JSON text. -/
theorem not_isText_of_semicolon (parses : doubles.Parses) (semicolon : EndsInSemicolon text)
    {j : Literal} : ¬ IsText j text := by
  rintro ⟨rest, spells, white⟩
  obtain ⟨j', rest', after, spells', isSemi, -⟩ := semicolon
  have first := parse_complete parses spells (.white white) (Nat.le_refl _)
  have second := parse_complete parses spells' (isSemi.delimited (by decide)).1 (Nat.le_refl _)
  have lexers := (Prod.mk.inj (first.symm.trans second)).2
  rw [at_end white, at_plain .tokSemi (by decide) isSemi] at lexers
  cases lexers

theorem minusZero_wellFormed : Numeral.minusZero.WellFormed := ⟨.inl rfl, nofun, nofun⟩

theorem minusZero_magnitude : Numeral.minusZero.magnitude = 0 := by
  have digits : natOfDigits Numeral.minusZero.integer = 0 := rfl
  rw [Numeral.magnitude_integer rfl rfl, digits, Nat.cast_zero]

theorem value_number {n : Numeral} :
    (Literal.number n).value doubles = .number (doubles.nearest n.negative n.magnitude) := by
  rw [Literal.value, Literal.evaluate]
  split_ifs with isMinusZero
  · rw [isMinusZero, minusZero_magnitude]
    rfl
  · rfl

/-- The value that is read is the one denoted, unless the sign of a zero is lost. -/
theorem read_eq_value_iff (signed : doubles.nearest true 0 ≠ doubles.nearest false 0) {j : Literal}
    {rest : List UChar} :
    j.read doubles rest = j.value doubles ↔ (j.KeepsMinusZero → j = .number .minusZero ∧ rest = []) := by
  have other : ∀ j : Literal, j.evaluate doubles (doubles.nearest false 0) = j.value doubles ↔
      ¬ j.KeepsMinusZero := fun j => evaluate_eq_iff signed.symm j
  cases j with
  | number n =>
    rw [value_number, Literal.read, JSValue.number.injEq, Numeral.lexed, Literal.KeepsMinusZero,
      Literal.number.injEq]
    by_cases isMinusZero : n = .minusZero
    · rw [isMinusZero, minusZero_magnitude]
      by_cases empty : rest = []
      · simp [empty, Numeral.minusZero]
      · simp [empty, Numeral.minusZero, signed.symm]
    · simp [isMinusZero]
  | null => exact (other _).trans (by simp)
  | boolean b => exact (other _).trans (by simp)
  | string s => exact (other _).trans (by simp)
  | array es => exact (other _).trans (by simp)
  | object ms => exact (other _).trans (by simp)

end

/-! ## Three texts -/

theorem minusZero_isText : IsText (.number .minusZero) (ascii "-0") := by
  refine ⟨[], ?_, nofun⟩
  rw [Literal.Spells]
  exact ⟨minusZero_wellFormed, [], nofun, by decide⟩

end NetRider.Json
