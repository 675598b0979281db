import NetRider.Json.Lexing

/-!
# What the parser accepts
-/

namespace NetRider.Json

open NetRider.Wtf

section

variable {Number : Type} {doubles : Doubles Number} {mode : ParserMode}

/-! ## Rounds -/

/-- The end of a round that leaves the switch. -/
def Parsing.resume (doubles : Doubles Number) (rounds : Nat) (parsing : Parsing Number) :
    Option (JSValue Number) × Lexer Number :=
  match parsing.stateStack with
  | [] => (parsing.lastValue, parsing.lexer)
  | state :: stateStack => loop doubles rounds state { parsing with stateStack }

theorem loop_goto {rounds : Nat} {state state' : ParserState} {parsing parsing' : Parsing Number}
    (goes : parsing.step doubles state = .goto state' parsing') :
    parsing.loop doubles (rounds + 1) state = parsing'.loop doubles rounds state' := by
  rw [Parsing.loop, goes]

theorem loop_leave {rounds : Nat} {state : ParserState} {parsing parsing' : Parsing Number}
    (leaves : parsing.step doubles state = .leave parsing') :
    parsing.loop doubles (rounds + 1) state = parsing'.resume doubles rounds := by
  rw [Parsing.loop, leaves]
  rfl

theorem loop_give {rounds : Nat} {state : ParserState} {parsing : Parsing Number}
    (value : Option (JSValue Number)) (lexer : Lexer Number)
    (gives : parsing.step doubles state = .give value lexer) :
    parsing.loop doubles (rounds + 1) state = (value, lexer) := by
  rw [Parsing.loop, gives]

/-! ## Where a token ends -/

/-- What may follow a value or a name. -/
def Delimited (rest : List UChar) : Prop :=
  ∀ c, rest.head? = some c → isJSONWhiteSpace c = true ∨ c ∈ [0x2C, 0x5D, 0x7D, 0x3A, 0x29, 0x3B]

theorem Delimited.first {rest : List UChar} (delimited : Delimited rest) {c : UChar}
    (first : rest.head? = some c) :
    c ∈ [0x20, 0x9, 0xA, 0xD, 0x2C, 0x5D, 0x7D, 0x3A, 0x29, 0x3B] := by
  rcases delimited c first with white | listed
  · simp only [isJSONWhiteSpace, Bool.or_eq_true, beq_iff_eq] at white
    rcases white with ((rfl | rfl) | rfl) | rfl <;> decide
  · exact List.mem_append_right [0x20, 0x9, 0xA, 0xD] listed

theorem Delimited.apart {rest : List UChar} (delimited : Delimited rest) : Apart rest := by
  intro c first
  have table : ∀ c ∈ [0x20, 0x9, 0xA, 0xD, 0x2C, 0x5D, 0x7D, 0x3A, 0x29, 0x3B],
      isASCIIDigit c = false ∧ c ≠ 0x2E ∧ c ≠ 0x65 ∧ c ≠ 0x45 :=
    List.all_iff_forall_prop.mp (by decide)
  exact table c (delimited.first first)

theorem Delimited.ends {rest : List UChar} (delimited : Delimited rest) :
    ∀ c, rest.head? = some c → isIdentifierPart c = false := by
  intro c first
  have table : ∀ c ∈ [0x20, 0x9, 0xA, 0xD, 0x2C, 0x5D, 0x7D, 0x3A, 0x29, 0x3B],
      isIdentifierPart c = false := List.all_iff_forall_prop.mp (by decide)
  exact table c (delimited.first first)

theorem Delimited.white {rest : List UChar} (white : ∀ c ∈ rest, isJSONWhiteSpace c = true) :
    Delimited rest := fun c first => .inl (white c (List.mem_of_mem_head? first))

theorem Reads.delimited {c : UChar} {text rest : List UChar} (reads : Reads [c] text rest)
    (listed : c ∈ [0x2C, 0x5D, 0x7D, 0x3A, 0x29, 0x3B]) : Delimited text ∧ text ≠ [] := by
  obtain ⟨white, isWhite, rfl⟩ := reads
  refine ⟨fun d first => ?_, by simp⟩
  cases white with
  | nil =>
    have same : c = d := Option.some_inj.mp first
    exact .inr (same ▸ listed)
  | cons w white =>
    have same : w = d := Option.some_inj.mp first
    exact .inl (same ▸ isWhite w List.mem_cons_self)

theorem Reads.length {token text rest : List UChar} (reads : Reads token text rest) :
    token.length + rest.length ≤ text.length := by
  obtain ⟨white, -, rfl⟩ := reads
  simp only [List.length_append]
  omega

theorem Reads.shorter {c : UChar} {text rest : List UChar} (reads : Reads [c] text rest) :
    rest.length < text.length := by
  have := reads.length
  simp only [List.length_singleton] at this
  omega

theorem MoreElements.delimited {es : List Literal} {text rest : List UChar}
    (more : MoreElements mode es text rest) : Delimited text ∧ text ≠ [] := by
  cases es with
  | nil =>
    rw [MoreElements] at more
    exact more.delimited (by decide)
  | cons e es =>
    rw [MoreElements] at more
    obtain ⟨next, after, comma, -⟩ := more
    exact comma.delimited (by decide)

theorem MoreMembers.delimited {ms : List (PropertyKey × Literal)} {text rest : List UChar}
    (more : MoreMembers mode ms text rest) : Delimited text ∧ text ≠ [] := by
  cases ms with
  | nil =>
    rw [MoreMembers] at more
    exact more.delimited (by decide)
  | cons m ms =>
    obtain ⟨key, e⟩ := m
    rw [MoreMembers] at more
    obtain ⟨next, colon, value, after, comma, -⟩ := more
    exact comma.delimited (by decide)

/-! ## Tokens of the lexer -/

theorem at_plain (type : TokenType) (spelled : type.spelling ≠ []) {text rest : List UChar}
    (reads : Reads type.spelling text rest) : Lexer.at doubles mode text = ⟨mode, .plain type, rest⟩ := by
  rw [Lexer.at, lex_plain spelled reads]

theorem at_end {text : List UChar} (white : ∀ c ∈ text, isJSONWhiteSpace c = true) :
    Lexer.at doubles mode text = ⟨mode, .plain .tokEnd, []⟩ := by
  rw [Lexer.at, lex_end white]

theorem at_string {s : Quoted} (valid : s.WellFormed mode) {text rest : List UChar}
    (reads : Reads s.text text rest) : Lexer.at doubles mode text = ⟨mode, .string s.value, rest⟩ := by
  rw [Lexer.at, lex_string valid reads]

theorem at_number (parses : doubles.Parses) {n : Numeral} (valid : n.WellFormed)
    {text rest : List UChar} (reads : Reads n.text text rest) (delimited : Delimited rest) :
    Lexer.at doubles mode text = ⟨mode, .number (n.lexed doubles rest), rest⟩ := by
  rw [Lexer.at, lex_number parses valid reads delimited.apart]

theorem at_name (doubles : Doubles Number) {key : PropertyKey} (valid : key.WellFormed mode)
    {text rest : List UChar}
    (reads : Reads key.text text rest) (delimited : Delimited rest) :
    Parsing.propertyName (Lexer.at doubles mode text) = some key.name ∧
      (Lexer.at doubles mode text).ptr = rest := by
  cases key with
  | quoted s =>
    rw [at_string valid reads]
    exact ⟨rfl, rfl⟩
  | bare name =>
    rw [Lexer.at, lex_identifier valid.2 reads delimited.ends]
    exact ⟨if_pos valid.1, rfl⟩

/-- What the parser makes of a value before the rest. -/
def Literal.read (doubles : Doubles Number) (rest : List UChar) : Literal → JSValue Number
  | number n => .number (n.lexed doubles rest)
  | j => j.evaluate doubles (doubles.nearest false 0)

theorem Literal.read_of_more {j : Literal} {rest : List UChar} (more : rest ≠ []) :
    j.read doubles rest = j.evaluate doubles (doubles.nearest false 0) := by
  cases j with
  | number n => simp [Literal.read, Literal.evaluate, Numeral.lexed, more]
  | _ => rfl

/-- No value begins with a closing bracket. -/
theorem Literal.Spells.token (parses : doubles.Parses) {j : Literal} {text rest : List UChar}
    (spells : j.Spells mode text rest) (delimited : Delimited rest) :
    (Lexer.at doubles mode text).currentToken.returned ≠ .tokRBracket := by
  have plain : ∀ (type : TokenType) {after : List UChar}, type ≠ .tokRBracket →
      type.spelling ≠ [] → Reads type.spelling text after →
      (Lexer.at doubles mode text).currentToken.returned ≠ .tokRBracket := by
    intro type after other spelled reads
    rw [at_plain type spelled reads]
    unfold Token.returned
    split_ifs
    · simp
    · exact other
  cases j with
  | null =>
    rw [Literal.Spells] at spells
    exact plain .tokNull (by decide) (by decide) spells
  | boolean b =>
    cases b with
    | true =>
      rw [Literal.Spells] at spells
      exact plain .tokTrue (by decide) (by decide) spells
    | false =>
      rw [Literal.Spells] at spells
      exact plain .tokFalse (by decide) (by decide) spells
  | number n =>
    rw [Literal.Spells] at spells
    rw [at_number parses spells.1 spells.2 delimited]
    simp [Token.returned, Token.type]
  | string s =>
    rw [Literal.Spells] at spells
    rw [at_string spells.1 spells.2]
    simp [Token.returned, Token.type]
  | array es =>
    cases es with
    | nil =>
      rw [Literal.Spells] at spells
      obtain ⟨inner, opens, -⟩ := spells
      exact plain .tokLBracket (by decide) (by decide) opens
    | cons e es =>
      rw [Literal.Spells] at spells
      obtain ⟨first, after, opens, -⟩ := spells
      exact plain .tokLBracket (by decide) (by decide) opens
  | object ms =>
    cases ms with
    | nil =>
      rw [Literal.Spells] at spells
      obtain ⟨inner, opens, -⟩ := spells
      exact plain .tokLBrace (by decide) (by decide) opens
    | cons m ms =>
      obtain ⟨key, e⟩ := m
      rw [Literal.Spells] at spells
      obtain ⟨first, colon, value, after, opens, -⟩ := spells
      exact plain .tokLBrace (by decide) (by decide) opens

/-! ## Written values are read -/

/-- The parser while it stands at a text. -/
abbrev Parsing.at (doubles : Doubles Number) (mode : ParserMode) (text : List UChar)
    (objects : List (JSValue Number)) (value : Option (JSValue Number)) (states : List ParserState)
    (names : List (List UChar)) : Parsing Number :=
  ⟨Lexer.at doubles mode text, objects, value, states, names⟩

section

variable {objects : List (JSValue Number)} {value : Option (JSValue Number)}
variable {states : List ParserState} {names : List (List UChar)} {text rest : List UChar}

theorem loop_token {rounds : Nat} {token : Token Number} {result : JSValue Number}
    (isToken : Lexer.at doubles mode text = ⟨mode, token, rest⟩)
    (literal : ∀ parsing : Parsing Number, parsing.lexer.currentToken = token →
      parsing.step doubles .startParseExpression = parsing.literal doubles result) :
    (Parsing.at doubles mode text objects value states names).loop doubles (rounds + 1)
        .startParseExpression =
      (Parsing.at doubles mode rest objects (some result) states names).resume doubles rounds := by
  rw [Parsing.at, isToken]
  apply loop_leave
  rw [literal _ rfl]
  rfl

theorem loop_array (rounds : Nat) (opens : Reads [0x5B] text rest) :
    (Parsing.at doubles mode text objects value states names).loop doubles (rounds + 2)
        .startParseExpression =
      (⟨⟨mode, .plain .tokLBracket, rest⟩, .array [] :: objects, value, states, names⟩ :
        Parsing Number).loop doubles rounds .doParseArrayStartExpression := by
  have isToken : Lexer.at doubles mode _ = _ := at_plain .tokLBracket (by decide) opens
  rw [Parsing.at, isToken, loop_goto rfl, loop_goto rfl]

/-- Behind a bracket or a comma: an element. -/
theorem loop_element {rounds : Nat} {token : Token Number}
    (first : (Lexer.at doubles mode text).currentToken.returned ≠ .tokRBracket) :
    (⟨⟨mode, token, text⟩, objects, value, states, names⟩ : Parsing Number).loop doubles (rounds + 1)
        .doParseArrayStartExpression =
      (Parsing.at doubles mode text objects value (.doParseArrayEndExpression :: states) names).loop
        doubles rounds .startParseExpression := by
  apply loop_goto
  exact if_neg first

theorem loop_emptyArray {rounds : Nat} {elements : List (JSValue Number)} (closes : Reads [0x5D] text rest) :
    (⟨⟨mode, .plain .tokLBracket, text⟩, .array elements :: objects, value, states, names⟩ :
        Parsing Number).loop doubles (rounds + 1) .doParseArrayStartExpression =
      (Parsing.at doubles mode rest objects (some (.array elements)) states names).resume doubles
        rounds := by
  have isToken : Lexer.at doubles mode _ = _ := at_plain .tokRBracket (by decide) closes
  apply loop_leave
  simp only [Parsing.step, Lexer.next, isToken]
  rfl

theorem loop_nextElement (rounds : Nat) {elements : List (JSValue Number)} {element : JSValue Number}
    (comma : Reads [0x2C] text rest) :
    (Parsing.at doubles mode text (.array elements :: objects) (some element) states names).loop doubles
        (rounds + 1) .doParseArrayEndExpression =
      (⟨⟨mode, .plain .tokComma, rest⟩, .array (elements ++ [element]) :: objects, some element, states,
        names⟩ : Parsing Number).loop doubles rounds .doParseArrayStartExpression := by
  have isToken : Lexer.at doubles mode _ = _ := at_plain .tokComma (by decide) comma
  apply loop_goto
  simp only [Parsing.step, isToken]
  rfl

theorem loop_closeArray {rounds : Nat} {elements : List (JSValue Number)} {element : JSValue Number}
    (closes : Reads [0x5D] text rest) :
    (Parsing.at doubles mode text (.array elements :: objects) (some element) states names).loop doubles
        (rounds + 1) .doParseArrayEndExpression =
      (Parsing.at doubles mode rest objects (some (.array (elements ++ [element]))) states names).resume
        doubles rounds := by
  have isToken : Lexer.at doubles mode _ = _ := at_plain .tokRBracket (by decide) closes
  apply loop_leave
  simp only [Parsing.step, isToken]
  rfl

theorem loop_trailingComma {rounds : Nat}
    (closed : (Lexer.at doubles mode text).currentToken.returned = .tokRBracket) :
    (⟨⟨mode, .plain .tokComma, text⟩, objects, value, states, names⟩ : Parsing Number).loop doubles
        (rounds + 1) .doParseArrayStartExpression = (none, Lexer.at doubles mode text) := by
  apply loop_give
  exact (if_pos closed).trans (if_pos rfl)

theorem loop_brokenArray {rounds : Nat}
    (notComma : (Lexer.at doubles mode text).currentToken.type ≠ .tokComma)
    (notClose : (Lexer.at doubles mode text).currentToken.type ≠ .tokRBracket) :
    (Parsing.at doubles mode text objects value states names).loop doubles (rounds + 1)
        .doParseArrayEndExpression = (none, Lexer.at doubles mode text) := by
  apply loop_give
  exact (if_neg notComma).trans (if_pos notClose)

theorem loop_object (rounds : Nat) (opens : Reads [0x7B] text rest) :
    (Parsing.at doubles mode text objects value states names).loop doubles (rounds + 1)
        .startParseExpression =
      (⟨⟨mode, .plain .tokLBrace, rest⟩, objects, value, states, names⟩ :
        Parsing Number).loop doubles rounds .startParseObject := by
  have isToken : Lexer.at doubles mode _ = _ := at_plain .tokLBrace (by decide) opens
  rw [Parsing.at, isToken, loop_goto rfl]

/-- A name, a colon and the beginning of a value. -/
theorem afterName_value {key : PropertyKey} (valid : key.WellFormed mode) {colon next : List UChar}
    (isKey : Reads key.text text colon) (isColon : Reads [0x3A] colon next) :
    Parsing.propertyName (Lexer.at doubles mode text) = some key.name ∧
      (Parsing.at doubles mode text objects value states names).afterName doubles key.name =
        .goto .startParseExpression (Parsing.at doubles mode next objects value
          (.doParseObjectEndExpression :: states) (key.name :: names)) := by
  obtain ⟨isName, ptr⟩ := at_name doubles valid isKey (isColon.delimited (by decide)).1
  have isToken : Lexer.at doubles mode _ = _ := at_plain .tokColon (by decide) isColon
  have next_ : (Lexer.at doubles mode text).next doubles = ⟨mode, .plain .tokColon, next⟩ := by
    rw [← isToken, ← ptr]
    rfl
  refine ⟨isName, ?_⟩
  simp only [Parsing.afterName, next_]
  rfl

theorem loop_member {rounds : Nat} {key : PropertyKey} (valid : key.WellFormed mode)
    {colon next : List UChar} (isKey : Reads key.text text colon) (isColon : Reads [0x3A] colon next)
    {token : Token Number} :
    (⟨⟨mode, token, text⟩, objects, value, states, names⟩ : Parsing Number).loop doubles (rounds + 1)
        .startParseObject =
      (Parsing.at doubles mode next (.object [] :: objects) value
        (.doParseObjectEndExpression :: states) (key.name :: names)).loop doubles rounds
        .startParseExpression := by
  obtain ⟨isName, goes⟩ := @afterName_value _ doubles mode (.object [] :: objects) value states names
    text key valid _ _ isKey isColon
  apply loop_goto
  simp only [Parsing.step, Lexer.next, isName]
  exact goes

theorem loop_emptyObject {rounds : Nat} {token : Token Number} (closes : Reads [0x7D] text rest) :
    (⟨⟨mode, token, text⟩, objects, value, states, names⟩ : Parsing Number).loop doubles (rounds + 1)
        .startParseObject =
      (Parsing.at doubles mode rest objects (some (.object [])) states names).resume doubles rounds := by
  have isToken : Lexer.at doubles mode _ = _ := at_plain .tokRBrace (by decide) closes
  apply loop_leave
  simp only [Parsing.step, Lexer.next, isToken]
  rfl

theorem loop_memberComma (rounds : Nat) {properties : Properties Number} {element : JSValue Number}
    {name : List UChar} (comma : Reads [0x2C] text rest) :
    (Parsing.at doubles mode text (.object properties :: objects) (some element) states
        (name :: names)).loop doubles (rounds + 1) .doParseObjectEndExpression =
      (⟨⟨mode, .plain .tokComma, rest⟩, .object (putProperty properties name element) :: objects,
        some element, states, names⟩ : Parsing Number).loop doubles rounds
        .doParseObjectStartExpression := by
  have isToken : Lexer.at doubles mode _ = _ := at_plain .tokComma (by decide) comma
  apply loop_goto
  simp only [Parsing.step, isToken]
  rfl

/-- Behind a comma: another member. -/
theorem loop_nextMember {rounds : Nat} {key : PropertyKey} (valid : key.WellFormed mode)
    {colon next : List UChar} (isKey : Reads key.text text colon) (isColon : Reads [0x3A] colon next)
    {token : Token Number} :
    (⟨⟨mode, token, text⟩, objects, value, states, names⟩ : Parsing Number).loop doubles (rounds + 1)
        .doParseObjectStartExpression =
      (Parsing.at doubles mode next objects value (.doParseObjectEndExpression :: states)
        (key.name :: names)).loop doubles rounds .startParseExpression := by
  obtain ⟨isName, goes⟩ := @afterName_value _ doubles mode objects value states names text key valid _ _
    isKey isColon
  apply loop_goto
  simp only [Parsing.step, Lexer.next, isName]
  exact goes

theorem loop_brokenObject {rounds : Nat}
    (notComma : (Lexer.at doubles mode text).currentToken.type ≠ .tokComma)
    (notClose : (Lexer.at doubles mode text).currentToken.type ≠ .tokRBrace) :
    (Parsing.at doubles mode text objects value states names).loop doubles (rounds + 1)
        .doParseObjectEndExpression = (none, Lexer.at doubles mode text) := by
  apply loop_give
  exact (if_neg notComma).trans (if_pos notClose)

theorem loop_closeObject {rounds : Nat} {properties : Properties Number} {element : JSValue Number}
    {name : List UChar} (closes : Reads [0x7D] text rest) :
    (Parsing.at doubles mode text (.object properties :: objects) (some element) states
        (name :: names)).loop doubles (rounds + 1) .doParseObjectEndExpression =
      (Parsing.at doubles mode rest objects (some (.object (putProperty properties name element))) states
        names).resume doubles rounds := by
  have isToken : Lexer.at doubles mode _ = _ := at_plain .tokRBrace (by decide) closes
  apply loop_leave
  simp only [Parsing.step, isToken]
  rfl

end

mutual

/-- A written value is read, in at most three rounds for each unit of it. -/
theorem loop_literal (parses : doubles.Parses) : ∀ (j : Literal) {text rest : List UChar},
    j.Spells mode text rest → Delimited rest →
    ∃ n, n + 3 * rest.length ≤ 3 * text.length ∧ ∀ rounds objects value states names,
      (Parsing.at doubles mode text objects value states names).loop doubles (rounds + n)
          .startParseExpression =
        (Parsing.at doubles mode rest objects (some (j.read doubles rest)) states names).resume doubles
          rounds
  | .null, text, rest, spells, _ => by
    rw [Literal.Spells] at spells
    have shorter := spells.length
    have size : (ascii "null").length = 4 := rfl
    refine ⟨1, by omega, fun rounds objects value states names => ?_⟩
    exact loop_token (at_plain .tokNull (by decide) spells)
      (fun parsing token => by simp only [Parsing.step, token]; rfl)
  | .boolean true, text, rest, spells, _ => by
    rw [Literal.Spells] at spells
    have shorter := spells.length
    have size : (ascii "true").length = 4 := rfl
    refine ⟨1, by omega, fun rounds objects value states names => ?_⟩
    exact loop_token (at_plain .tokTrue (by decide) spells)
      (fun parsing token => by simp only [Parsing.step, token]; rfl)
  | .boolean false, text, rest, spells, _ => by
    rw [Literal.Spells] at spells
    have shorter := spells.length
    have size : (ascii "false").length = 5 := rfl
    refine ⟨1, by omega, fun rounds objects value states names => ?_⟩
    exact loop_token (at_plain .tokFalse (by decide) spells)
      (fun parsing token => by simp only [Parsing.step, token]; rfl)
  | .number n, text, rest, spells, delimited => by
    rw [Literal.Spells] at spells
    obtain ⟨valid, reads⟩ := spells
    have shorter := reads.length
    obtain ⟨c, tail, starts, -⟩ := valid.starts
    rw [starts, List.length_cons] at shorter
    refine ⟨1, by omega, fun rounds objects value states names => ?_⟩
    exact loop_token (at_number parses valid reads delimited)
      (fun parsing token => by simp only [Parsing.step, token]; rfl)
  | .string s, text, rest, spells, _ => by
    rw [Literal.Spells] at spells
    obtain ⟨valid, reads⟩ := spells
    have shorter := reads.length
    rw [Quoted.text, List.length_cons] at shorter
    refine ⟨1, by omega, fun rounds objects value states names => ?_⟩
    exact loop_token (at_string valid reads)
      (fun parsing token => by simp only [Parsing.step, token]; rfl)
  | .array [], text, rest, spells, _ => by
    rw [Literal.Spells] at spells
    obtain ⟨inner, opens, closes⟩ := spells
    have := opens.shorter
    have := closes.shorter
    refine ⟨3, by omega, fun rounds objects value states names => ?_⟩
    rw [loop_array (rounds + 1) opens, loop_emptyArray closes]
    rfl
  | .array (e :: es), text, rest, spells, _ => by
    rw [Literal.Spells] at spells
    obtain ⟨first, after, opens, isElement, more⟩ := spells
    obtain ⟨delimited, nonempty⟩ := more.delimited
    obtain ⟨n, bound, element⟩ := loop_literal parses e isElement delimited
    obtain ⟨m, bound', others⟩ := loop_elements parses es more
    have := opens.shorter
    refine ⟨m + n + 3, by omega, fun rounds objects value states names => ?_⟩
    rw [← Nat.add_assoc, loop_array (rounds + (m + n) + 1) opens,
      loop_element (isElement.token parses delimited), ← Nat.add_assoc, element]
    rw [Literal.read_of_more nonempty]
    exact others rounds objects states names [] _
  | .object [], text, rest, spells, _ => by
    rw [Literal.Spells] at spells
    obtain ⟨inner, opens, closes⟩ := spells
    have := opens.shorter
    have := closes.shorter
    refine ⟨2, by omega, fun rounds objects value states names => ?_⟩
    rw [loop_object (rounds + 1) opens, loop_emptyObject closes]
    rfl
  | .object ((key, e) :: ms), text, rest, spells, _ => by
    rw [Literal.Spells] at spells
    obtain ⟨first, colon, next, after, opens, ⟨valid, isKey⟩, isColon, isValue, more⟩ := spells
    obtain ⟨delimited, nonempty⟩ := more.delimited
    obtain ⟨n, bound, element⟩ := loop_literal parses e isValue delimited
    obtain ⟨m, bound', others⟩ := loop_members parses ms more
    have := opens.shorter
    have := isKey.length
    have := isColon.shorter
    refine ⟨m + n + 2, by omega, fun rounds objects value states names => ?_⟩
    rw [← Nat.add_assoc, loop_object (rounds + (m + n) + 1) opens,
      loop_member valid isKey isColon, ← Nat.add_assoc, element, Literal.read_of_more nonempty]
    exact others rounds objects states names [] _ _

theorem loop_elements (parses : doubles.Parses) : ∀ (es : List Literal) {text rest : List UChar},
    MoreElements mode es text rest →
    ∃ n, n + 3 * rest.length ≤ 3 * text.length ∧ ∀ rounds objects states names elements element,
      (Parsing.at doubles mode text (.array elements :: objects) (some element) states names).loop
          doubles (rounds + n) .doParseArrayEndExpression =
        (Parsing.at doubles mode rest objects (some (.array (elements ++
          element :: evaluateElements doubles (doubles.nearest false 0) es))) states names).resume
          doubles rounds
  | [], text, rest, more => by
    rw [MoreElements] at more
    have := more.shorter
    refine ⟨1, by omega, fun rounds objects states names elements element => ?_⟩
    rw [loop_closeArray more]
    rfl
  | e :: es, text, rest, more => by
    rw [MoreElements] at more
    obtain ⟨next, after, comma, isElement, more⟩ := more
    obtain ⟨delimited, nonempty⟩ := more.delimited
    obtain ⟨n, bound, read⟩ := loop_literal parses e isElement delimited
    obtain ⟨m, bound', others⟩ := loop_elements parses es more
    have := comma.shorter
    refine ⟨m + n + 2, by omega, fun rounds objects states names elements element => ?_⟩
    rw [← Nat.add_assoc, loop_nextElement (rounds + (m + n) + 1) comma,
      loop_element (isElement.token parses delimited), ← Nat.add_assoc, read,
      Literal.read_of_more nonempty]
    have final := others rounds objects states names (elements ++ [element])
      (e.evaluate doubles (doubles.nearest false 0))
    rw [List.append_assoc] at final
    exact final

theorem loop_members (parses : doubles.Parses) :
    ∀ (ms : List (PropertyKey × Literal)) {text rest : List UChar}, MoreMembers mode ms text rest →
    ∃ n, n + 3 * rest.length ≤ 3 * text.length ∧
      ∀ rounds objects states names properties name element,
      (Parsing.at doubles mode text (.object properties :: objects) (some element) states
          (name :: names)).loop doubles (rounds + n) .doParseObjectEndExpression =
        (Parsing.at doubles mode rest objects (some (.object (evaluateMembers doubles
          (doubles.nearest false 0) (putProperty properties name element) ms))) states names).resume
          doubles rounds
  | [], text, rest, more => by
    rw [MoreMembers] at more
    have := more.shorter
    refine ⟨1, by omega, fun rounds objects states names properties name element => ?_⟩
    rw [loop_closeObject more]
    rfl
  | (key, e) :: ms, text, rest, more => by
    rw [MoreMembers] at more
    obtain ⟨next, colon, first, after, comma, ⟨valid, isKey⟩, isColon, isValue, more⟩ := more
    obtain ⟨delimited, nonempty⟩ := more.delimited
    obtain ⟨n, bound, read⟩ := loop_literal parses e isValue delimited
    obtain ⟨m, bound', others⟩ := loop_members parses ms more
    have := comma.shorter
    have := isKey.length
    have := isColon.shorter
    refine ⟨m + n + 2, by omega, fun rounds objects states names properties name element => ?_⟩
    rw [← Nat.add_assoc, loop_memberComma (rounds + (m + n) + 1) comma,
      loop_nextMember valid isKey isColon, ← Nat.add_assoc, read, Literal.read_of_more nonempty]
    exact others rounds objects states names _ _ _

end

/-! ## Values that are read are written -/

theorem loop_rounds {rounds : Nat} {state : ParserState} {parsing : Parsing Number} {w : JSValue Number}
    {lexer : Lexer Number} (found : parsing.loop doubles rounds state = (some w, lexer)) :
    ∃ n, rounds = n + 1 := by
  cases rounds with
  | zero => cases found
  | succ n => exact ⟨n, rfl⟩

/-- The types of the tokens that carry nothing. -/
def TokenType.Plain (type : TokenType) : Prop :=
  type ≠ .tokString ∧ type ≠ .tokIdentifier ∧ type ≠ .tokNumber

theorem Token.type_eq_iff {token : Token Number} {type : TokenType} (isPlain : type.Plain) :
    token.type = type ↔ token = .plain type := by
  cases token with
  | string v => simp [Token.type, isPlain.1.symm]
  | identifier name => simp [Token.type, isPlain.2.1.symm]
  | number v => simp [Token.type, isPlain.2.2.symm]
  | plain type' => simp [Token.type]

theorem Token.returned_eq_iff {token : Token Number} {type : TokenType} (isPlain : type.Plain)
    (notAssign : type ≠ .tokAssign) (notSemi : type ≠ .tokSemi) :
    token.returned = type ↔ token = .plain type := by
  rw [← Token.type_eq_iff isPlain, Token.returned]
  split_ifs with semi
  · rw [semi]
    exact iff_of_false notAssign.symm notSemi.symm
  · rfl

theorem reads_of_plain (parses : doubles.Parses) {type : TokenType} {text : List UChar}
    (token : (Lexer.at doubles mode text).currentToken = .plain type) (spelled : type.spelling ≠ []) :
    Reads type.spelling text (Lexer.at doubles mode text).ptr := by
  have written := lex_written parses mode text
  change (Lexer.at doubles mode text).currentToken.Written doubles mode text
    (Lexer.at doubles mode text).ptr at written
  rw [token] at written
  exact (Token.written_plain spelled).mp written

/-- A value that ends within the rounds was written there. -/
def LiteralsSound (doubles : Doubles Number) (mode : ParserMode) (rounds : Nat) : Prop :=
  ∀ text objects value states names w lexer,
    (Parsing.at doubles mode text objects value states names).loop doubles rounds
      .startParseExpression = (some w, lexer) →
    ∃ (j : Literal) (rest : List UChar) (rounds' : Nat), rounds' < rounds ∧ j.Spells mode text rest ∧
      (Parsing.at doubles mode rest objects (some (j.read doubles rest)) states names).resume doubles
        rounds' = (some w, lexer)

def ElementsSound (doubles : Doubles Number) (mode : ParserMode) (rounds : Nat) : Prop :=
  ∀ text objects elements element states names w lexer,
    (Parsing.at doubles mode text (.array elements :: objects) (some element) states names).loop doubles
      rounds .doParseArrayEndExpression = (some w, lexer) →
    ∃ (es : List Literal) (rest : List UChar) (rounds' : Nat), rounds' < rounds ∧
      MoreElements mode es text rest ∧
      (Parsing.at doubles mode rest objects (some (.array (elements ++
        element :: evaluateElements doubles (doubles.nearest false 0) es))) states names).resume doubles
        rounds' = (some w, lexer)

def MembersSound (doubles : Doubles Number) (mode : ParserMode) (rounds : Nat) : Prop :=
  ∀ text objects properties name element states names w lexer,
    (Parsing.at doubles mode text (.object properties :: objects) (some element) states
      (name :: names)).loop doubles rounds .doParseObjectEndExpression = (some w, lexer) →
    ∃ (ms : List (PropertyKey × Literal)) (rest : List UChar) (rounds' : Nat), rounds' < rounds ∧
      MoreMembers mode ms text rest ∧
      (Parsing.at doubles mode rest objects (some (.object (evaluateMembers doubles
        (doubles.nearest false 0) (putProperty properties name element) ms))) states names).resume
        doubles rounds' = (some w, lexer)

/-- The element and what follows it. -/
theorem element_sound {n : Nat} {text : List UChar} {objects : List (JSValue Number)}
    {elements : List (JSValue Number)} {value : Option (JSValue Number)} {states : List ParserState}
    {names : List (List UChar)} {w : JSValue Number} {lexer : Lexer Number}
    (literals : LiteralsSound doubles mode n) (others : ∀ m < n, ElementsSound doubles mode m)
    (found : (Parsing.at doubles mode text (.array elements :: objects) value
      (.doParseArrayEndExpression :: states) names).loop doubles n .startParseExpression =
        (some w, lexer)) :
    ∃ (e : Literal) (es : List Literal) (after rest : List UChar) (rounds' : Nat), rounds' < n ∧
      e.Spells mode text after ∧ MoreElements mode es after rest ∧
      (Parsing.at doubles mode rest objects (some (.array (elements ++
        evaluateElements doubles (doubles.nearest false 0) (e :: es)))) states names).resume doubles
        rounds' = (some w, lexer) := by
  obtain ⟨e, after, n', fewer, spells, resumed⟩ := literals _ _ _ _ _ _ _ found
  obtain ⟨es, rest, rounds', fewer', more, final⟩ := others n' fewer _ _ _ _ _ _ _ _ resumed
  rw [Literal.read_of_more more.delimited.2] at final
  exact ⟨e, es, after, rest, rounds', by omega, spells, more, final⟩

theorem elements_sound (parses : doubles.Parses) {rounds : Nat}
    (ih : ∀ n < rounds, LiteralsSound doubles mode n)
    (others : ∀ n < rounds, ElementsSound doubles mode n) : ElementsSound doubles mode rounds := by
  intro text objects elements element states names w lexer found
  obtain ⟨n, rfl⟩ := loop_rounds found
  by_cases isComma : (Lexer.at doubles mode text).currentToken = .plain .tokComma
  · have comma := reads_of_plain parses isComma (by decide)
    rw [loop_nextElement _ comma] at found
    obtain ⟨n, rfl⟩ := loop_rounds found
    by_cases closed : (Lexer.at doubles mode (Lexer.at doubles mode text).ptr).currentToken.returned =
        .tokRBracket
    · rw [loop_trailingComma closed] at found
      cases found
    · rw [loop_element closed] at found
      obtain ⟨e, es, after, rest, rounds', fewer, spells, more, final⟩ :=
        element_sound (ih n (by omega)) (fun m less => others m (by omega)) found
      rw [List.append_assoc] at final
      refine ⟨e :: es, rest, rounds', by omega, ?_, final⟩
      rw [MoreElements]
      exact ⟨_, after, comma, spells, more⟩
  · by_cases isClose : (Lexer.at doubles mode text).currentToken = .plain .tokRBracket
    · have closes := reads_of_plain parses isClose (by decide)
      rw [loop_closeArray closes] at found
      refine ⟨[], _, n, by omega, ?_, found⟩
      rw [MoreElements]
      exact closes
    · have notComma : (Lexer.at doubles mode text).currentToken.type ≠ .tokComma :=
        fun same => isComma ((Token.type_eq_iff (by simp [TokenType.Plain])).mp same)
      have notClose : (Lexer.at doubles mode text).currentToken.type ≠ .tokRBracket :=
        fun same => isClose ((Token.type_eq_iff (by simp [TokenType.Plain])).mp same)
      rw [loop_brokenArray notComma notClose] at found
      cases found

/-- A name and its colon were written. -/
theorem afterName_sound (parses : doubles.Parses) {text : List UChar} {objects : List (JSValue Number)}
    {value : Option (JSValue Number)} {states : List ParserState} {names : List (List UChar)}
    {name : List UChar} (isName : Parsing.propertyName (Lexer.at doubles mode text) = some name) :
    (∃ lexer, (Parsing.at doubles mode text objects value states names).afterName doubles name =
      .give none lexer) ∨
    ∃ (key : PropertyKey) (colon next : List UChar), key.name = name ∧ key.WellFormed mode ∧
      Reads key.text text colon ∧ Reads [0x3A] colon next := by
  have written := lex_written parses mode text
  change (Lexer.at doubles mode text).currentToken.Written doubles mode text
    (Lexer.at doubles mode text).ptr at written
  have isKey : ∃ key : PropertyKey, key.name = name ∧ key.WellFormed mode ∧
      Reads key.text text (Lexer.at doubles mode text).ptr := by
    unfold Parsing.propertyName at isName
    split at isName
    · rename_i v token
      cases isName
      rw [token] at written
      obtain ⟨s, valid, rfl, reads⟩ := written
      exact ⟨.quoted s, rfl, valid, reads⟩
    · rename_i v token
      split_ifs at isName with notStrict
      cases isName
      rw [token] at written
      exact ⟨.bare name, rfl, ⟨notStrict, written.1⟩, written.2⟩
    · cases isName
  obtain ⟨key, same, valid, reads⟩ := isKey
  by_cases isColon : (Lexer.at doubles mode (Lexer.at doubles mode text).ptr).currentToken.returned =
      .tokColon
  · have token := (Token.returned_eq_iff (by simp [TokenType.Plain]) (by decide) (by decide)).mp isColon
    exact .inr ⟨key, _, _, same, valid, reads, reads_of_plain parses token (by decide)⟩
  · exact .inl ⟨Lexer.at doubles mode (Lexer.at doubles mode text).ptr, if_pos isColon⟩

/-- The value of a member and what follows it. -/
theorem member_sound {n : Nat} {text name : List UChar} {objects : List (JSValue Number)}
    {properties : Properties Number} {value : Option (JSValue Number)} {states : List ParserState}
    {names : List (List UChar)} {w : JSValue Number} {lexer : Lexer Number}
    (literals : LiteralsSound doubles mode n) (others : ∀ m < n, MembersSound doubles mode m)
    (found : (Parsing.at doubles mode text (.object properties :: objects) value
      (.doParseObjectEndExpression :: states) (name :: names)).loop doubles n .startParseExpression =
        (some w, lexer)) :
    ∃ (e : Literal) (ms : List (PropertyKey × Literal)) (after rest : List UChar) (rounds' : Nat),
      rounds' < n ∧ e.Spells mode text after ∧ MoreMembers mode ms after rest ∧
      (Parsing.at doubles mode rest objects (some (.object (evaluateMembers doubles
        (doubles.nearest false 0) (putProperty properties name
          (e.evaluate doubles (doubles.nearest false 0))) ms))) states names).resume doubles rounds' =
        (some w, lexer) := by
  obtain ⟨e, after, n', fewer, spells, resumed⟩ := literals _ _ _ _ _ _ _ found
  obtain ⟨ms, rest, rounds', fewer', more, final⟩ := others n' fewer _ _ _ _ _ _ _ _ _ resumed
  rw [Literal.read_of_more more.delimited.2] at final
  exact ⟨e, ms, after, rest, rounds', by omega, spells, more, final⟩

/-- What stands behind a comma in an object. -/
theorem nextMember_sound (parses : doubles.Parses) {n : Nat} {token : Token Number} {text : List UChar}
    {objects : List (JSValue Number)} {value : Option (JSValue Number)} {states : List ParserState}
    {names : List (List UChar)} {w : JSValue Number} {lexer : Lexer Number}
    (found : (⟨⟨mode, token, text⟩, objects, value, states, names⟩ : Parsing Number).loop doubles (n + 1)
      .doParseObjectStartExpression = (some w, lexer)) :
    ∃ (key : PropertyKey) (colon next : List UChar), key.WellFormed mode ∧ Reads key.text text colon ∧
      Reads [0x3A] colon next := by
  cases isName : Parsing.propertyName (Lexer.at doubles mode text) with
  | none =>
    rw [loop_give none (Lexer.at doubles mode text)] at found
    · cases found
    · simp only [Parsing.step, Lexer.next, isName]
  | some name =>
    rcases @afterName_sound _ doubles mode parses text objects value states names name isName with
      ⟨broken, gives⟩ | ⟨key, colon, next, -, valid, isKey, isColon⟩
    · rw [loop_give none broken] at found
      · cases found
      · simp only [Parsing.step, Lexer.next, isName]
        exact gives
    · exact ⟨key, colon, next, valid, isKey, isColon⟩

/-- What stands behind an opening brace. -/
theorem firstMember_sound (parses : doubles.Parses) {n : Nat} {token : Token Number} {text : List UChar}
    {objects : List (JSValue Number)} {value : Option (JSValue Number)} {states : List ParserState}
    {names : List (List UChar)} {w : JSValue Number} {lexer : Lexer Number}
    (found : (⟨⟨mode, token, text⟩, objects, value, states, names⟩ : Parsing Number).loop doubles (n + 1)
      .startParseObject = (some w, lexer)) :
    Reads [0x7D] text (Lexer.at doubles mode text).ptr ∨
    ∃ (key : PropertyKey) (colon next : List UChar), key.WellFormed mode ∧ Reads key.text text colon ∧
      Reads [0x3A] colon next := by
  cases isName : Parsing.propertyName (Lexer.at doubles mode text) with
  | none =>
    by_cases isClose : (Lexer.at doubles mode text).currentToken.returned = .tokRBrace
    · have closed := (Token.returned_eq_iff (by simp [TokenType.Plain]) (by decide) (by decide)).mp isClose
      exact .inl (reads_of_plain parses closed (by decide))
    · rw [loop_give none (Lexer.at doubles mode text)] at found
      · cases found
      · simp only [Parsing.step, Lexer.next, isName]
        exact if_pos isClose
  | some name =>
    rcases @afterName_sound _ doubles mode parses text (.object [] :: objects) value states names name
      isName with ⟨broken, gives⟩ | ⟨key, colon, next, -, valid, isKey, isColon⟩
    · rw [loop_give none broken] at found
      · cases found
      · simp only [Parsing.step, Lexer.next, isName]
        exact gives
    · exact .inr ⟨key, colon, next, valid, isKey, isColon⟩

theorem members_sound (parses : doubles.Parses) {rounds : Nat}
    (ih : ∀ n < rounds, LiteralsSound doubles mode n)
    (others : ∀ n < rounds, MembersSound doubles mode n) : MembersSound doubles mode rounds := by
  intro text objects properties name element states names w lexer found
  obtain ⟨n, rfl⟩ := loop_rounds found
  by_cases isComma : (Lexer.at doubles mode text).currentToken = .plain .tokComma
  · have comma := reads_of_plain parses isComma (by decide)
    rw [loop_memberComma _ comma] at found
    obtain ⟨n, rfl⟩ := loop_rounds found
    obtain ⟨key, colon, next, valid, isKey, isColon⟩ := nextMember_sound parses found
    rw [loop_nextMember valid isKey isColon] at found
    obtain ⟨e, ms, after, rest, rounds', fewer, spells, more, final⟩ :=
      member_sound (ih n (by omega)) (fun m less => others m (by omega)) found
    refine ⟨(key, e) :: ms, rest, rounds', by omega, ?_, final⟩
    rw [MoreMembers]
    exact ⟨_, colon, next, after, comma, ⟨valid, isKey⟩, isColon, spells, more⟩
  · by_cases isClose : (Lexer.at doubles mode text).currentToken = .plain .tokRBrace
    · have closes := reads_of_plain parses isClose (by decide)
      rw [loop_closeObject closes] at found
      refine ⟨[], _, n, by omega, ?_, found⟩
      rw [MoreMembers]
      exact closes
    · have notComma : (Lexer.at doubles mode text).currentToken.type ≠ .tokComma :=
        fun same => isComma ((Token.type_eq_iff (by simp [TokenType.Plain])).mp same)
      have notClose : (Lexer.at doubles mode text).currentToken.type ≠ .tokRBrace :=
        fun same => isClose ((Token.type_eq_iff (by simp [TokenType.Plain])).mp same)
      rw [loop_brokenObject notComma notClose] at found
      cases found

theorem array_sound (parses : doubles.Parses) {rounds : Nat}
    (literals : ∀ n < rounds, LiteralsSound doubles mode n)
    (elements : ∀ n < rounds, ElementsSound doubles mode n) {text inner : List UChar}
    (opens : Reads [0x5B] text inner) {objects : List (JSValue Number)}
    {value : Option (JSValue Number)} {states : List ParserState} {names : List (List UChar)}
    {w : JSValue Number} {lexer : Lexer Number}
    (found : (⟨⟨mode, .plain .tokLBracket, inner⟩, .array [] :: objects, value, states, names⟩ :
      Parsing Number).loop doubles rounds .doParseArrayStartExpression = (some w, lexer)) :
    ∃ (j : Literal) (rest : List UChar) (rounds' : Nat), rounds' < rounds ∧ j.Spells mode text rest ∧
      (Parsing.at doubles mode rest objects (some (j.read doubles rest)) states names).resume doubles
        rounds' = (some w, lexer) := by
  obtain ⟨n, rfl⟩ := loop_rounds found
  by_cases isClose : (Lexer.at doubles mode inner).currentToken.returned = .tokRBracket
  · have closed := (Token.returned_eq_iff (by simp [TokenType.Plain]) (by decide) (by decide)).mp isClose
    have closes := reads_of_plain parses closed (by decide)
    rw [loop_emptyArray closes] at found
    refine ⟨.array [], _, n, by omega, ?_, found⟩
    rw [Literal.Spells]
    exact ⟨inner, opens, closes⟩
  · rw [loop_element isClose] at found
    obtain ⟨e, es, after, rest, rounds', fewer, spells, more, final⟩ :=
      element_sound (literals n (by omega)) (fun m less => elements m (by omega)) found
    refine ⟨.array (e :: es), rest, rounds', by omega, ?_, final⟩
    rw [Literal.Spells]
    exact ⟨inner, after, opens, spells, more⟩

theorem object_sound (parses : doubles.Parses) {rounds : Nat}
    (literals : ∀ n < rounds, LiteralsSound doubles mode n)
    (members : ∀ n < rounds, MembersSound doubles mode n) {text inner : List UChar}
    (opens : Reads [0x7B] text inner) {objects : List (JSValue Number)}
    {value : Option (JSValue Number)} {states : List ParserState} {names : List (List UChar)}
    {w : JSValue Number} {lexer : Lexer Number}
    (found : (⟨⟨mode, .plain .tokLBrace, inner⟩, objects, value, states, names⟩ :
      Parsing Number).loop doubles rounds .startParseObject = (some w, lexer)) :
    ∃ (j : Literal) (rest : List UChar) (rounds' : Nat), rounds' < rounds ∧ j.Spells mode text rest ∧
      (Parsing.at doubles mode rest objects (some (j.read doubles rest)) states names).resume doubles
        rounds' = (some w, lexer) := by
  obtain ⟨n, rfl⟩ := loop_rounds found
  rcases firstMember_sound parses found with closes | ⟨key, colon, next, valid, isKey, isColon⟩
  · rw [loop_emptyObject closes] at found
    refine ⟨.object [], _, n, by omega, ?_, found⟩
    rw [Literal.Spells]
    exact ⟨inner, opens, closes⟩
  · rw [loop_member valid isKey isColon] at found
    obtain ⟨e, ms, after, rest, rounds', fewer, spells, more, final⟩ :=
      member_sound (literals n (by omega)) (fun m less => members m (by omega)) found
    refine ⟨.object ((key, e) :: ms), rest, rounds', by omega, ?_, final⟩
    rw [Literal.Spells]
    exact ⟨inner, colon, next, after, opens, ⟨valid, isKey⟩, isColon, spells, more⟩

theorem literals_sound (parses : doubles.Parses) {rounds : Nat}
    (literals : ∀ n < rounds, LiteralsSound doubles mode n)
    (elements : ∀ n < rounds, ElementsSound doubles mode n)
    (members : ∀ n < rounds, MembersSound doubles mode n) : LiteralsSound doubles mode rounds := by
  intro text objects value states names w lexer found
  obtain ⟨n, rfl⟩ := loop_rounds found
  have written := lex_written parses mode text
  change (Lexer.at doubles mode text).currentToken.Written doubles mode text
    (Lexer.at doubles mode text).ptr at written
  have isLexer : Lexer.at doubles mode text =
      ⟨mode, (Lexer.at doubles mode text).currentToken, (Lexer.at doubles mode text).ptr⟩ := rfl
  generalize (Lexer.at doubles mode text).ptr = rest at written isLexer
  generalize (Lexer.at doubles mode text).currentToken = token at written isLexer
  have one : ∀ j : Literal, j.Spells mode text rest →
      (∀ parsing : Parsing Number, parsing.lexer.currentToken = token →
        parsing.step doubles .startParseExpression = parsing.literal doubles (j.read doubles rest)) →
      ∃ (j : Literal) (rest : List UChar) (rounds' : Nat), rounds' < n + 1 ∧ j.Spells mode text rest ∧
        (Parsing.at doubles mode rest objects (some (j.read doubles rest)) states names).resume doubles
          rounds' = (some w, lexer) := by
    intro j spells literal
    rw [loop_token isLexer literal] at found
    exact ⟨j, rest, n, by omega, spells, found⟩
  have broken : (∀ parsing : Parsing Number, parsing.lexer.currentToken = token →
      parsing.step doubles .startParseExpression = .give none parsing.lexer) → False := by
    intro gives
    rw [Parsing.at, isLexer, loop_give _ _ (gives _ rfl)] at found
    cases found
  cases token with
  | string v =>
    obtain ⟨s, valid, rfl, reads⟩ := written
    apply one (.string s)
    · rw [Literal.Spells]
      exact ⟨valid, reads⟩
    · intro parsing token
      simp only [Parsing.step, token]
      rfl
  | number v =>
    obtain ⟨m, valid, rfl, reads⟩ := written
    apply one (.number m)
    · rw [Literal.Spells]
      exact ⟨valid, reads⟩
    · intro parsing token
      simp only [Parsing.step, token]
      rfl
  | identifier name =>
    exact (broken fun parsing token => by simp only [Parsing.step, token]).elim
  | plain type =>
    by_cases isNull : type = .tokNull
    · subst isNull
      apply one .null
      · rw [Literal.Spells]
        exact written.2
      · intro parsing token
        simp only [Parsing.step, token]
        rfl
    by_cases isTrue : type = .tokTrue
    · subst isTrue
      apply one (.boolean true)
      · rw [Literal.Spells]
        exact written.2
      · intro parsing token
        simp only [Parsing.step, token]
        rfl
    by_cases isFalse : type = .tokFalse
    · subst isFalse
      apply one (.boolean false)
      · rw [Literal.Spells]
        exact written.2
      · intro parsing token
        simp only [Parsing.step, token]
        rfl
    by_cases isArray : type = .tokLBracket
    · subst isArray
      cases n with
      | zero =>
        rw [Parsing.at, isLexer, loop_goto rfl] at found
        cases found
      | succ n =>
        rw [loop_array _ written.2] at found
        obtain ⟨j, after, rounds', fewer, spells, final⟩ := array_sound parses
          (fun m less => literals m (by omega)) (fun m less => elements m (by omega)) written.2 found
        exact ⟨j, after, rounds', by omega, spells, final⟩
    by_cases isObject : type = .tokLBrace
    · subst isObject
      rw [loop_object _ written.2] at found
      obtain ⟨j, after, rounds', fewer, spells, final⟩ := object_sound parses
        (fun m less => literals m (by omega)) (fun m less => members m (by omega)) written.2 found
      exact ⟨j, after, rounds', by omega, spells, final⟩
    · exact (broken fun parsing token => by
        cases type <;> first | contradiction | simp only [Parsing.step, token]).elim

theorem all_sound (parses : doubles.Parses) (rounds : Nat) :
    LiteralsSound doubles mode rounds ∧ ElementsSound doubles mode rounds ∧
      MembersSound doubles mode rounds := by
  induction rounds using Nat.strong_induction_on with
  | _ rounds ih =>
    have literals := fun n less => (ih n less).1
    have elements := fun n less => (ih n less).2.1
    have members := fun n less => (ih n less).2.2
    exact ⟨literals_sound parses literals elements members, elements_sound parses literals elements,
      members_sound parses literals members⟩

/-! ## `parse` -/

/-- What `parse` returns for a written value. -/
theorem parse_complete (parses : doubles.Parses) {j : Literal} {text rest : List UChar}
    (spells : j.Spells mode text rest) (delimited : Delimited rest) {length : Nat}
    (long : text.length ≤ length) :
    parse doubles length .startParseExpression (Lexer.at doubles mode text) =
      (some (j.read doubles rest), Lexer.at doubles mode rest) := by
  obtain ⟨n, bound, runs⟩ := loop_literal parses j spells delimited
  have split : 3 * length + 1 = (3 * length + 1 - n) + n := by omega
  rw [parse, split, runs]
  rfl

theorem parse_sound (parses : doubles.Parses) {text : List UChar} {length : Nat} {w : JSValue Number}
    {lexer : Lexer Number}
    (found : parse doubles length .startParseExpression (Lexer.at doubles mode text) = (some w, lexer)) :
    ∃ (j : Literal) (rest : List UChar), j.Spells mode text rest ∧ w = j.read doubles rest ∧
      lexer = Lexer.at doubles mode rest := by
  obtain ⟨j, rest, rounds', -, spells, final⟩ := (all_sound parses _).1 _ _ _ _ _ _ _ found
  cases final
  exact ⟨j, rest, spells, rfl, rfl⟩

end

end NetRider.Json
