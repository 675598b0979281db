import NetRider.Json.StringTokens
import NetRider.Json.NumberTokens

/-!
# What the lexer reads
-/

namespace NetRider.Json

open NetRider.Wtf

section

variable {Number : Type} {doubles : Doubles Number}

/-- How a token is written that is known by its type. -/
def TokenType.spelling : TokenType → List UChar
  | tokLBracket => [0x5B]
  | tokRBracket => [0x5D]
  | tokLBrace => [0x7B]
  | tokRBrace => [0x7D]
  | tokColon => [0x3A]
  | tokLParen => [0x28]
  | tokRParen => [0x29]
  | tokComma => [0x2C]
  | tokTrue => ascii "true"
  | tokFalse => ascii "false"
  | tokNull => ascii "null"
  | tokDot => [0x2E]
  | tokAssign => [0x3D]
  | tokSemi => [0x3B]
  | _ => []

/-- The text begins with the token, and the rest follows. -/
def Token.Written (doubles : Doubles Number) (mode : ParserMode) :
    Token Number → List UChar → List UChar → Prop
  | string value, text, rest => ∃ s : Quoted, s.WellFormed mode ∧ value = s.value ∧ Reads s.text text rest
  | identifier name, text, rest => IsIdentifier name ∧ Reads name text rest
  | number value, text, rest => ∃ n : Numeral, n.WellFormed ∧ value = n.lexed doubles rest ∧
      Reads n.text text rest
  | plain .tokEnd, text, rest => (∀ c ∈ text, isJSONWhiteSpace c = true) ∧ rest = []
  | plain .tokError, _, _ => True
  | plain type, text, rest => type.spelling ≠ [] ∧ Reads type.spelling text rest

theorem lexString_written {mode : ParserMode} {quote : UChar}
    (valid : quote = doubleQuote ∨ (quote = singleQuote ∧ mode ≠ .strictJSON))
    {text tail : List UChar}
    (starts : ∃ white : List UChar, (∀ c ∈ white, isJSONWhiteSpace c = true) ∧ text = white ++ quote :: tail) :
    (lexString mode quote tail : Token Number × List UChar).1.Written doubles mode text
      (lexString mode quote tail : Token Number × List UChar).2 := by
  have isQuote : IsQuote quote := by
    rcases valid with rfl | ⟨rfl, -⟩
    · exact ⟨by decide, by decide⟩
    · exact ⟨by decide, by decide⟩
  unfold lexString
  cases found : lexStringLoop mode quote [] tail with
  | none => trivial
  | some result =>
    obtain ⟨value, rest⟩ := result
    obtain ⟨units, wellFormed, rfl, rfl⟩ := lexStringLoop_sound isQuote found
    obtain ⟨white, isWhite, rfl⟩ := starts
    exact ⟨⟨quote, units⟩, ⟨valid, wellFormed⟩, rfl, white, isWhite, by simp [Quoted.text]⟩

theorem punctuator_spelling {c : UChar} {type : TokenType} (found : punctuator c = some type) :
    type.spelling = [c] ∧ type ≠ .tokEnd ∧ type ≠ .tokError := by
  unfold punctuator at found
  split_ifs at found with h1 h2 h3 h4 h5 h6 h7 h8 <;> cases found <;> subst_vars <;>
    exact ⟨rfl, by decide, by decide⟩

theorem Token.written_plain {mode : ParserMode} {type : TokenType} {text rest : List UChar}
    (spelled : type.spelling ≠ []) :
    (Token.plain type : Token Number).Written doubles mode text rest ↔
      Reads type.spelling text rest := by
  cases type <;> first | exact absurd rfl spelled | exact and_iff_right spelled

theorem lexExponent_token (start ptr : List UChar) :
    (lexExponent doubles start ptr).1 = .plain .tokError ∨
      ∃ value, (lexExponent doubles start ptr).1 = .number value := by
  unfold lexExponent
  cases ptr with
  | nil => exact .inr ⟨_, rfl⟩
  | cons c rest =>
    dsimp only
    split_ifs
    · exact .inr ⟨_, rfl⟩
    · exact .inl rfl
    · exact .inr ⟨_, rfl⟩
    · exact .inl rfl
    · exact .inr ⟨_, rfl⟩

theorem lexFraction_token (start ptr : List UChar) :
    (lexFraction doubles start ptr).1 = .plain .tokError ∨
      ∃ value, (lexFraction doubles start ptr).1 = .number value := by
  unfold lexFraction
  cases ptr with
  | nil => exact lexExponent_token start []
  | cons c rest =>
    dsimp only
    split_ifs
    · exact lexExponent_token start _
    · exact .inl rfl
    · exact .inr ⟨_, rfl⟩
    · exact .inr ⟨_, rfl⟩
    · exact lexExponent_token start _

theorem lexNumber_token (doubles : Doubles Number) (start : List UChar) :
    (lexNumber doubles start).1 = .plain .tokError ∨
      ∃ value, (lexNumber doubles start).1 = .number value := by
  unfold lexNumber
  generalize (if start.head? = some 0x2D then start.tail else start) = ptr
  cases ptr with
  | nil => exact .inl rfl
  | cons c rest =>
    dsimp only
    split_ifs
    · exact lexFraction_token start _
    · exact lexFraction_token start _
    · exact .inl rfl

/-- The lexer reads only what is written. -/
theorem lex_written (parses : doubles.Parses) (mode : ParserMode) (text : List UChar) :
    (lex doubles mode text).1.Written doubles mode text (lex doubles mode text).2 := by
  have split := List.takeWhile_append_dropWhile (p := isJSONWhiteSpace) (l := text)
  have isWhite : ∀ c ∈ text.takeWhile isJSONWhiteSpace, isJSONWhiteSpace c = true :=
    fun c member => List.mem_takeWhile_imp member
  generalize text.takeWhile isJSONWhiteSpace = white at split isWhite
  unfold lex
  cases found : text.dropWhile isJSONWhiteSpace with
  | nil =>
    rw [found, List.append_nil] at split
    exact ⟨by rwa [split] at isWhite, rfl⟩
  | cons c tail =>
    rw [found] at split
    have literal : ∀ (type : TokenType) (count : Nat), type.spelling ≠ [] →
        type.spelling <+: c :: tail → type.spelling.length = count →
        (Token.plain type : Token Number).Written doubles mode text ((c :: tail).drop count) := by
      rintro type _ spelled ⟨after, same⟩ rfl
      rw [Token.written_plain spelled]
      refine ⟨white, isWhite, ?_⟩
      rw [← split, ← same, List.drop_left]
    simp only [lexFrom]
    split
    · rename_i type isType
      obtain ⟨spelling, -, -⟩ := punctuator_spelling isType
      exact literal type 1 (by simp [spelling]) (by simp [spelling]) (by simp [spelling])
    · split_ifs with h1 h2 h3 h4 h5 h6 h7 h8 h9 h10
      · subst h1
        exact lexString_written (.inl rfl) ⟨white, isWhite, split.symm⟩
      · exact literal .tokTrue 4 (by decide) (List.isPrefixOf_iff_prefix.mp h2) rfl
      · exact literal .tokFalse 5 (by decide) (List.isPrefixOf_iff_prefix.mp h3) rfl
      · exact literal .tokNull 4 (by decide) (List.isPrefixOf_iff_prefix.mp h4) rfl
      · rcases lexNumber_token doubles (c :: tail) with error | ⟨value, isNumber⟩
        · rw [error]
          trivial
        · obtain ⟨n, valid, written, isValue⟩ := lexNumber_sound parses (Prod.ext isNumber rfl)
          rw [isNumber]
          exact ⟨n, valid, isValue, white, isWhite, by rw [← split, ← written]⟩
      · exact literal .tokDot 1 (by decide) (by simp [h6, TokenType.spelling]) rfl
      · exact literal .tokAssign 1 (by decide) (by simp [h7, TokenType.spelling]) rfl
      · exact literal .tokSemi 1 (by decide) (by simp [h8, TokenType.spelling]) rfl
      · have part : isIdentifierPart c = true := by
          simp only [isIdentifierStart, Bool.or_eq_true] at h9
          simp only [isIdentifierPart, isASCIIAlphanumeric, Bool.or_eq_true]
          tauto
        have prefix_ : (c :: tail).takeWhile isIdentifierPart <+: c :: tail :=
          List.takeWhile_prefix _
        refine ⟨⟨⟨c, _, List.takeWhile_cons_of_pos part, h9⟩, fun d member =>
          List.mem_takeWhile_imp member, ?_, ?_, ?_⟩, white, isWhite, ?_⟩
        · exact fun begins => h2 (List.isPrefixOf_iff_prefix.mpr (begins.trans prefix_))
        · exact fun begins => h3 (List.isPrefixOf_iff_prefix.mpr (begins.trans prefix_))
        · exact fun begins => h4 (List.isPrefixOf_iff_prefix.mpr (begins.trans prefix_))
        · rw [List.takeWhile_append_dropWhile, split]
      · obtain ⟨rfl, notStrict⟩ := h10
        exact lexString_written (.inr ⟨rfl, notStrict⟩) ⟨white, isWhite, split.symm⟩
      · trivial

/-- White space before a token is skipped. -/
theorem lex_reads {mode : ParserMode} {c : UChar} {tail token text rest : List UChar}
    (solid : isJSONWhiteSpace c = false) (starts : token ++ rest = c :: tail)
    (reads : Reads token text rest) : lex doubles mode text = lexFrom doubles mode c tail := by
  obtain ⟨white, isWhite, rfl⟩ := reads
  rw [lex, List.dropWhile_append_of_pos isWhite, starts,
    List.dropWhile_cons_of_neg (by simp [solid])]

theorem lex_plain {mode : ParserMode} {type : TokenType} (spelled : type.spelling ≠ [])
    {text rest : List UChar} (reads : Reads type.spelling text rest) :
    lex doubles mode text = (.plain type, rest) := by
  cases type <;> first
    | exact absurd rfl spelled
    | (rw [lex_reads (by decide) rfl reads]; rfl)

theorem lex_end {mode : ParserMode} {text : List UChar} (white : ∀ c ∈ text, isJSONWhiteSpace c = true) :
    lex doubles mode text = (.plain .tokEnd, []) := by
  rw [lex, List.dropWhile_eq_nil_iff.mpr white]

theorem lex_string {mode : ParserMode} {s : Quoted} (valid : s.WellFormed mode) {text rest : List UChar}
    (reads : Reads s.text text rest) : lex doubles mode text = (.string s.value, rest) := by
  have loop := lexStringLoop_units (quote_isQuote valid) valid.units [] rest
  have found : (lexString mode s.quote (s.units.flatMap StringUnit.text ++ s.quote :: rest) :
      Token Number × List UChar) = (.string s.value, rest) := by
    rw [lexString, loop]
    rfl
  have starts : s.text ++ rest =
      s.quote :: (s.units.flatMap StringUnit.text ++ s.quote :: rest) := by
    simp [Quoted.text]
  have solid : isJSONWhiteSpace s.quote = false := by
    rcases valid.quote with same | ⟨same, -⟩
    · rw [same]
      decide
    · rw [same]
      decide
  rw [lex_reads solid starts reads]
  rcases valid.quote with same | ⟨same, notStrict⟩
  · rw [same] at found ⊢
    rw [← found]
    rfl
  · rw [same] at found ⊢
    have last : ∀ tail, lexFrom doubles mode singleQuote tail =
        if singleQuote = singleQuote ∧ mode ≠ .strictJSON then lexString mode singleQuote tail
        else (.plain .tokError, singleQuote :: tail) := fun tail => rfl
    rw [last, if_pos ⟨rfl, notStrict⟩, found]

theorem Numeral.WellFormed.starts {n : Numeral} (valid : n.WellFormed) :
    ∃ c tail, n.text = c :: tail ∧ (c = 0x2D ∨ isASCIIDigit c = true) := by
  obtain ⟨c, digits, integer, digit⟩ := valid.first_digit
  cases sign : n.negative with
  | false =>
    exact ⟨c, digits ++ (n.fractionText ++ n.exponentText),
      by simp [Numeral.text, Numeral.integerText, sign, integer], .inr digit⟩
  | true =>
    exact ⟨0x2D, n.integer ++ (n.fractionText ++ n.exponentText),
      by simp [Numeral.text, Numeral.integerText, sign], .inl rfl⟩

theorem lexFrom_number {mode : ParserMode} {c : UChar} (first : c = 0x2D ∨ isASCIIDigit c = true)
    (tail : List UChar) : lexFrom doubles mode c tail = lexNumber doubles (c :: tail) := by
  have numeric : 0x2D ≤ c.toNat ∧ c.toNat ≤ 0x39 ∧ c.toNat ≠ 0x2C ∧ c.toNat ≠ 0x2E := by
    rcases first with rfl | digit
    · exact ⟨by decide, by decide, by decide, by decide⟩
    · have range := digit_toNat digit
      omega
  have differs : ∀ d : UChar, (d.toNat < 0x2D ∨ 0x39 < d.toNat) → c ≠ d := by
    rintro d outside rfl
    omega
  have noPunctuator : punctuator c = none := by
    unfold punctuator
    rw [if_neg (differs _ (by decide)), if_neg (differs _ (by decide)), if_neg (differs _ (by decide)),
      if_neg (differs _ (by decide)), if_neg (differs _ (by decide)), if_neg (differs _ (by decide)),
      if_neg (differs _ (by decide)), if_neg (differs _ (by decide))]
  have notTrue : (ascii "true").isPrefixOf (c :: tail) = false := by
    have other := differs 0x74 (by decide)
    simp [ascii, List.isPrefixOf_cons_cons, other.symm]
  have notFalse : (ascii "false").isPrefixOf (c :: tail) = false := by
    have other := differs 0x66 (by decide)
    simp [ascii, List.isPrefixOf_cons_cons, other.symm]
  have notNull : (ascii "null").isPrefixOf (c :: tail) = false := by
    have other := differs 0x6E (by decide)
    simp [ascii, List.isPrefixOf_cons_cons, other.symm]
  have notQuote := differs doubleQuote (by decide)
  simp only [lexFrom, noPunctuator, notQuote, notTrue, notFalse, notNull, first, if_false, if_true,
    Bool.false_eq_true]

theorem lex_number (parses : doubles.Parses) {mode : ParserMode} {n : Numeral} (valid : n.WellFormed)
    {text rest : List UChar} (reads : Reads n.text text rest) (apart : Apart rest) :
    lex doubles mode text = (.number (n.lexed doubles rest), rest) := by
  obtain ⟨c, tail, starts, first⟩ := valid.starts
  have solid : isJSONWhiteSpace c = false := by
    have large : 0x2D ≤ c.toNat := by
      rcases first with rfl | digit
      · decide
      · have range := digit_toNat digit
        omega
    have differs : ∀ d : UChar, d.toNat < 0x2D → c ≠ d := by
      rintro d small rfl
      omega
    simp [isJSONWhiteSpace, differs 0x20 (by decide), differs 0x9 (by decide),
      differs 0xA (by decide), differs 0xD (by decide)]
  have split : n.text ++ rest = c :: (tail ++ rest) := by rw [starts, List.cons_append]
  rw [lex_reads solid split reads, lexFrom_number first, ← split]
  exact lexNumber_complete parses valid apart

/-- A keyword is not read across the end of an identifier. -/
theorem prefix_of_identifier {literal name rest : List UChar}
    (parts : ∀ c ∈ literal, isIdentifierPart c = true)
    (ends : ∀ c, rest.head? = some c → isIdentifierPart c = false)
    (begins : literal <+: name ++ rest) : literal <+: name := by
  rcases List.prefix_or_prefix_of_prefix begins (List.prefix_append name rest) with shorter | longer
  · exact shorter
  · obtain ⟨more, rfl⟩ := longer
    cases more with
    | nil => simp
    | cons c more =>
      obtain ⟨tail, same⟩ := begins
      rw [List.append_assoc, List.append_cancel_left_eq] at same
      have inside := parts c (by simp)
      rw [ends c (by rw [← same]; rfl)] at inside
      cases inside

theorem digit_not_identifierStart {c : UChar} (digit : isASCIIDigit c = true) :
    isIdentifierStart c = false := by
  have range := digit_toNat digit
  have differs : ∀ d : UChar, 0x39 < d.toNat ∨ d.toNat < 0x30 → c ≠ d := by
    rintro d outside rfl
    omega
  have below : ∀ d : UChar, 0x39 < d.toNat → ¬ c ≥ d := by
    intro d outside least
    rw [ge_iff_le, UInt16.le_iff_toNat_le] at least
    omega
  simp [isIdentifierStart, isASCIIAlpha, isASCIIUpper, below 0x41 (by decide), below 0x61 (by decide),
    differs 0x5F (by decide), differs 0x24 (by decide)]

theorem lex_identifier {mode : ParserMode} {name : List UChar} (valid : IsIdentifier name)
    {text rest : List UChar} (reads : Reads name text rest)
    (ends : ∀ c, rest.head? = some c → isIdentifierPart c = false) :
    lex doubles mode text = (.identifier name, rest) := by
  obtain ⟨c, tail, starts, first⟩ := valid.starts
  have differs : ∀ d : UChar, isIdentifierStart d = false → c ≠ d := by
    rintro d other rfl
    rw [first] at other
    cases other
  have solid : isJSONWhiteSpace c = false := by
    simp [isJSONWhiteSpace, differs 0x20 (by decide), differs 0x9 (by decide),
      differs 0xA (by decide), differs 0xD (by decide)]
  have split : name ++ rest = c :: (tail ++ rest) := by rw [starts, List.cons_append]
  have noPunctuator : punctuator c = none := by
    unfold punctuator
    rw [if_neg (differs _ (by decide)), if_neg (differs _ (by decide)), if_neg (differs _ (by decide)),
      if_neg (differs _ (by decide)), if_neg (differs _ (by decide)), if_neg (differs _ (by decide)),
      if_neg (differs _ (by decide)), if_neg (differs _ (by decide))]
  have notKeyword : ∀ literal : List UChar, (∀ c ∈ literal, isIdentifierPart c = true) →
      ¬ literal <+: name → literal.isPrefixOf (c :: (tail ++ rest)) = false := by
    intro literal parts other
    rw [← split, Bool.eq_false_iff]
    intro begins
    exact other (prefix_of_identifier parts ends (List.isPrefixOf_iff_prefix.mp begins))
  have notTrue := notKeyword (ascii "true") (List.all_iff_forall_prop.mp (by decide)) valid.notTrue
  have notFalse := notKeyword (ascii "false") (List.all_iff_forall_prop.mp (by decide)) valid.notFalse
  have notNull := notKeyword (ascii "null") (List.all_iff_forall_prop.mp (by decide)) valid.notNull
  have notNumber : ¬ (c = 0x2D ∨ isASCIIDigit c = true) := by
    rintro (minus | digit)
    · exact differs 0x2D (by decide) minus
    · rw [digit_not_identifierStart digit] at first
      cases first
  have name_ : (c :: (tail ++ rest)).takeWhile isIdentifierPart = name ∧
      (c :: (tail ++ rest)).dropWhile isIdentifierPart = rest := by
    rw [← split, List.takeWhile_append_of_pos valid.parts, List.dropWhile_append_of_pos valid.parts]
    cases rest with
    | nil => simp
    | cons d rest => simp [ends d rfl]
  rw [lex_reads solid split reads]
  simp only [lexFrom, noPunctuator, differs doubleQuote (by decide), notTrue, notFalse, notNull,
    notNumber, differs 0x2E (by decide), differs 0x3D (by decide), differs 0x3B (by decide), first,
    name_.1, name_.2, if_false, if_true, Bool.false_eq_true]

end

end NetRider.Json
