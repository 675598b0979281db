import Mathlib.Data.List.Infix
import Mathlib.Data.List.TakeWhile

/-!
# Key paths

`IDBParseKeyPath` on the UTF-16 units of a key path. ICU's classes of characters are a parameter,
`u_charType`.
-/

namespace NetRider.Idb.KeyPath

/-! ## Characters -/

/-- The classes that the masks name, `U_UPPERCASE_LETTER` first. -/
def U_MASK (x : Nat) : Nat := 1 <<< x

def unicodeLetter : Nat := U_MASK 1 ||| U_MASK 2 ||| U_MASK 3 ||| U_MASK 4 ||| U_MASK 5 ||| U_MASK 10

def unicodeCombiningMark : Nat := U_MASK 6 ||| U_MASK 8

def unicodeDigit : Nat := U_MASK 9

def unicodeConnectorPunctuation : Nat := U_MASK 22

/-- `U_OTHER_PUNCTUATION`. -/
def otherPunctuation : Nat := 23

def ZWNJ : UInt16 := 0x200C

def ZWJ : UInt16 := 0x200D

abbrev fullStop : UInt16 := 0x2E

section

variable (charType : UInt16 → Nat)

def isIdentifierStartCharacter (c : UInt16) : Bool :=
  U_MASK (charType c) &&& unicodeLetter != 0 || c == 0x24 || c == 0x5F

def isIdentifierCharacter (c : UInt16) : Bool :=
  U_MASK (charType c) &&& (unicodeLetter ||| unicodeCombiningMark ||| unicodeDigit |||
      unicodeConnectorPunctuation) != 0 ||
    c == 0x24 || c == 0x5F || c == ZWNJ || c == ZWJ

/-! ## The lexer -/

inductive TokenType
  | identifier | dot | done | error
  deriving DecidableEq

/-- `ptr` holds the units up to the end. -/
structure IDBKeyPathLexer where
  currentElement : List UInt16
  ptr : List UInt16
  currentTokenType : TokenType
  deriving DecidableEq

def lexIdentifier (lexer : IDBKeyPathLexer) : TokenType × IDBKeyPathLexer :=
  match lexer.ptr with
  | [] => (.error, lexer)
  | c :: p =>
    if isIdentifierStartCharacter charType c then
      (.identifier, { lexer with
        currentElement := c :: p.takeWhile (isIdentifierCharacter charType)
        ptr := p.dropWhile (isIdentifierCharacter charType) })
    else (.error, lexer)

def lex (lexer : IDBKeyPathLexer) : TokenType × IDBKeyPathLexer :=
  match lexer.ptr with
  | [] => (.done, lexer)
  | c :: p => if c = fullStop then (.dot, { lexer with ptr := p }) else lexIdentifier charType lexer

def nextTokenType (lexer : IDBKeyPathLexer) : IDBKeyPathLexer :=
  { (lex charType lexer).2 with currentTokenType := (lex charType lexer).1 }

/-! ## The parser -/

inductive IDBKeyPathParseError
  | errorNone | errorStart | errorIdentifier | errorDot
  deriving DecidableEq

inductive ParserState
  | identifier | dot | done

abbrev Parsed := List (List UInt16) × IDBKeyPathParseError

/-- Without fuel there is no result; a round more than there are units is enough. -/
def parseLoop : Nat → ParserState → IDBKeyPathLexer → List (List UInt16) → Option Parsed
  | 0, _, _, _ => none
  | fuel + 1, .identifier, lexer, elements =>
    let elements := elements ++ [lexer.currentElement]
    let lexer := nextTokenType charType lexer
    match lexer.currentTokenType with
    | .dot => parseLoop fuel .dot lexer elements
    | .done => parseLoop fuel .done lexer elements
    | _ => some (elements, .errorIdentifier)
  | fuel + 1, .dot, lexer, elements =>
    let lexer := nextTokenType charType lexer
    match lexer.currentTokenType with
    | .identifier => parseLoop fuel .identifier lexer elements
    | _ => some (elements, .errorDot)
  | _ + 1, .done, _, elements => some (elements, .errorNone)

def IDBParseKeyPath (keyPath : List UInt16) : Option Parsed :=
  let lexer := nextTokenType charType ⟨[], keyPath, .error⟩
  match lexer.currentTokenType with
  | .identifier => parseLoop charType (keyPath.length + 1) .identifier lexer []
  | .done => parseLoop charType (keyPath.length + 1) .done lexer []
  | _ => some ([], .errorStart)

/-! ## The grammar -/

def IsIdentifier (w : List UInt16) : Prop :=
  ∃ c p, w = c :: p ∧ isIdentifierStartCharacter charType c = true ∧
    ∀ d ∈ p, isIdentifierCharacter charType d = true

/-- The text is empty or consists of the identifiers, with full stops between them. -/
def IsKeyPath (keyPath : List UInt16) (identifiers : List (List UInt16)) : Prop :=
  keyPath = List.intercalate [fullStop] identifiers ∧ ∀ w ∈ identifiers, IsIdentifier charType w

end

/-! ## Maximal identifiers -/

section

variable {charType : UInt16 → Nat}

theorem isIdentifierCharacter_of_start {c : UInt16}
    (start : isIdentifierStartCharacter charType c = true) :
    isIdentifierCharacter charType c = true := by
  simp only [isIdentifierStartCharacter, isIdentifierCharacter, Bool.or_eq_true, bne_iff_ne,
    Nat.and_or_distrib_left, ne_eq, Nat.or_eq_zero_iff, beq_iff_eq] at start ⊢
  tauto

theorem fullStop_not_identifier (dot : charType fullStop = otherPunctuation) :
    isIdentifierCharacter charType fullStop = false ∧
      isIdentifierStartCharacter charType fullStop = false := by
  simp only [isIdentifierCharacter, isIdentifierStartCharacter, dot]
  decide

theorem IsIdentifier.all {w : List UInt16} (identifier : IsIdentifier charType w) :
    ∀ d ∈ w, isIdentifierCharacter charType d = true := by
  obtain ⟨c, p, rfl, start, rest⟩ := identifier
  simpa using ⟨isIdentifierCharacter_of_start start, rest⟩

/-- Every identifier with a full stop in front of it. -/
def dotted (identifiers : List (List UInt16)) : List UInt16 :=
  identifiers.flatMap fun w => fullStop :: w

theorem cons_intercalate (w : List UInt16) (identifiers : List (List UInt16)) :
    fullStop :: List.intercalate [fullStop] (w :: identifiers) = dotted (w :: identifiers) := by
  induction identifiers generalizing w with
  | nil => simp [dotted, List.intercalate]
  | cons v identifiers ih =>
    simpa [List.intercalate_cons_cons, dotted] using ih v

/-- Neither an identifier nor the one in front of it goes on here. -/
def Stuck (charType : UInt16 → Nat) (tail : List UInt16) : Prop :=
  (∀ c q, tail = c :: q → isIdentifierCharacter charType c = false) ∧
    ∀ c q, tail = fullStop :: c :: q → isIdentifierStartCharacter charType c = false

/-- What follows an identifier. -/
theorem dotted_append_head (dot : charType fullStop = otherPunctuation)
    {more : List (List UInt16)} {tail : List UInt16} (stuck : Stuck charType tail) {c : UInt16}
    {q : List UInt16} (head : dotted more ++ tail = c :: q) :
    isIdentifierCharacter charType c = false := by
  cases more with
  | nil => exact stuck.1 c q head
  | cons w more =>
    simp only [dotted, List.flatMap_cons, List.cons_append, List.cons.injEq] at head
    exact head.1 ▸ (fullStop_not_identifier dot).1

/-- No dotted identifiers reach further, and none but these reach as far. -/
theorem dotted_longest (dot : charType fullStop = otherPunctuation)
    {identifiers more : List (List UInt16)} {tail : List UInt16}
    (each : ∀ w ∈ identifiers, IsIdentifier charType w) (found : ∀ w ∈ more, IsIdentifier charType w)
    (stuck : Stuck charType tail) (begins : dotted identifiers <+: dotted more ++ tail) :
    dotted identifiers <+: dotted more ∧ (dotted identifiers = dotted more → identifiers = more) := by
  induction more generalizing identifiers with
  | nil =>
    cases identifiers with
    | nil => exact ⟨List.prefix_rfl, fun _ => rfl⟩
    | cons w identifiers =>
      obtain ⟨c, p, rfl, start, -⟩ := each w List.mem_cons_self
      obtain ⟨rest, same⟩ := begins
      have stop := stuck.2 c (p ++ dotted identifiers ++ rest) (by simpa [dotted] using same.symm)
      simp [start] at stop
  | cons m more ih =>
    cases identifiers with
    | nil => exact ⟨List.nil_prefix, by simp [dotted]⟩
    | cons w identifiers =>
      have together : w ++ dotted identifiers <+: m ++ (dotted more ++ tail) := by
        simpa [dotted] using begins
      have own := (each w List.mem_cons_self).all
      have rest := fun v member => each v (List.mem_cons_of_mem w member)
      by_cases other : w = m
      · subst other
        obtain ⟨shorter, same⟩ := ih rest (fun v member => found v (List.mem_cons_of_mem w member))
          (by simpa using together)
        refine ⟨by simpa [dotted] using shorter, fun equal => ?_⟩
        rw [same (by simpa [dotted] using equal)]
      rcases List.prefix_or_prefix_of_prefix ((List.prefix_append w _).trans together)
        (List.prefix_append m _) with ⟨u, rfl⟩ | ⟨u, rfl⟩
      · cases u with
        | nil => simp at other
        | cons c u =>
          -- the identifier of the code goes on where this one ends, so nothing follows it
          have goes : isIdentifierCharacter charType c = true :=
            (found _ List.mem_cons_self).all c (by simp)
          have last : identifiers = [] := by
            cases identifiers with
            | nil => rfl
            | cons v identifiers =>
              have follows : fullStop = c := by
                have heads : dotted (v :: identifiers) <+: c :: (u ++ (dotted more ++ tail)) := by
                  simpa using together
                simpa [dotted] using (List.cons_prefix_cons.mp heads).1
              simp [← follows, (fullStop_not_identifier dot).1] at goes
          subst last
          constructor
          · simp [dotted, List.cons_prefix_cons]
          · simp [dotted]
      · cases u with
        | nil => simp at other
        | cons c u =>
          have goes : isIdentifierCharacter charType c = true := own c (by simp)
          obtain ⟨r, equal⟩ := together
          have head : dotted more ++ tail = c :: (u ++ dotted identifiers ++ r) := by
            simpa using equal.symm
          simp [dotted_append_head dot stuck head] at goes

/-! ## What is parsed -/

/-- An identifier that has been lexed has no further character behind it. -/
theorem lex_identifier {c : UInt16} {p element : List UInt16} {type : TokenType}
    (dot : charType fullStop = otherPunctuation)
    (start : isIdentifierStartCharacter charType c = true) :
    ∃ w rest, nextTokenType charType ⟨element, c :: p, type⟩ = ⟨w, rest, .identifier⟩ ∧
      c :: p = w ++ rest ∧ IsIdentifier charType w ∧
      ∀ d q, rest = d :: q → isIdentifierCharacter charType d = false := by
  have other : c ≠ fullStop := by
    rintro rfl
    simp [(fullStop_not_identifier dot).2] at start
  refine ⟨c :: p.takeWhile (isIdentifierCharacter charType),
    p.dropWhile (isIdentifierCharacter charType), ?_, ?_, ?_, ?_⟩
  · simp [nextTokenType, lex, other, lexIdentifier, start]
  · simp
  · exact ⟨c, _, rfl, start, fun d member => List.mem_takeWhile_imp member⟩
  · intro d q head
    have stop := List.head?_dropWhile_not (isIdentifierCharacter charType) p
    rw [head] at stop
    simpa using stop

theorem parseLoop_identifier (dot : charType fullStop = otherPunctuation) {fuel : Nat}
    {w rest : List UInt16} {elements : List (List UInt16)} (enough : rest.length + 2 ≤ fuel)
    (ends : ∀ c q, rest = c :: q → isIdentifierCharacter charType c = false) :
    ∃ more tail error, rest = dotted more ++ tail ∧ (∀ v ∈ more, IsIdentifier charType v) ∧
      Stuck charType tail ∧
      parseLoop charType fuel .identifier ⟨w, rest, .identifier⟩ elements =
        some (elements ++ w :: more, error) ∧ (error = .errorNone ↔ tail = []) := by
  induction fuel using Nat.strong_induction_on generalizing w rest elements with
  | _ fuel ih =>
    obtain ⟨fuel, rfl⟩ : ∃ n, fuel = n + 2 := ⟨fuel - 2, by omega⟩
    cases rest with
    | nil => exact ⟨[], [], .errorNone, rfl, by simp, by simp [Stuck], rfl, by simp⟩
    | cons c q =>
      have stop := ends c q rfl
      by_cases separated : c = fullStop
      · subst separated
        have first : nextTokenType charType ⟨w, fullStop :: q, .identifier⟩ = ⟨w, q, .dot⟩ := rfl
        cases q with
        | nil => exact ⟨[], [fullStop], .errorDot, rfl, by simp, ⟨ends, by simp⟩, rfl, by simp⟩
        | cons d q =>
          by_cases start : isIdentifierStartCharacter charType d = true
          · obtain ⟨v, rest, lexed, same, identifier, ends'⟩ :=
              @lex_identifier _ d q w .dot dot start
            have shorter : rest.length ≤ q.length := by
              obtain ⟨b, p, rfl, -, -⟩ := identifier
              have lengths := congrArg List.length same
              simp only [List.length_cons, List.length_append] at lengths
              omega
            simp only [List.length_cons] at enough
            obtain ⟨more, tail, error, rest_eq, each, stuck, parsed, exact⟩ :=
              @ih fuel (by omega) v rest (elements ++ [w]) (by omega) ends'
            refine ⟨v :: more, tail, error, ?_, ?_, stuck, ?_, exact⟩
            · rw [same, rest_eq]
              simp [dotted]
            · simpa using ⟨identifier, each⟩
            · simpa [parseLoop, first, lexed] using parsed
          · refine ⟨[], fullStop :: d :: q, .errorDot, rfl, by simp, ⟨ends, ?_⟩, ?_, by simp⟩
            · intro b r same
              obtain ⟨rfl, rfl⟩ : d = b ∧ q = r := by simpa using same
              simpa using start
            · by_cases again : d = fullStop
              · simp [parseLoop, nextTokenType, lex, again]
              · simp [parseLoop, nextTokenType, lex, again, lexIdentifier, start]
      · have no_start : isIdentifierStartCharacter charType c = false := by
          by_contra start
          simp [isIdentifierCharacter_of_start (by simpa using start)] at stop
        refine ⟨[], c :: q, .errorIdentifier, rfl, by simp, ⟨ends, ?_⟩, ?_, by simp⟩
        · intro d r same
          exact absurd (List.cons.inj same).1 separated
        · simp [parseLoop, nextTokenType, lex, separated, lexIdentifier, no_start]

theorem parse_cons (dot : charType fullStop = otherPunctuation) (c : UInt16) (p : List UInt16) :
    ∃ elements tail error, IDBParseKeyPath charType (c :: p) = some (elements, error) ∧
      fullStop :: c :: p = dotted elements ++ tail ∧ (∀ w ∈ elements, IsIdentifier charType w) ∧
      Stuck charType tail ∧ (error = .errorNone ↔ tail = []) := by
  by_cases start : isIdentifierStartCharacter charType c = true
  · obtain ⟨w, rest, lexed, same, identifier, ends⟩ :=
      @lex_identifier _ c p [] .error dot start
    have shorter : rest.length ≤ p.length := by
      obtain ⟨b, q, rfl, -, -⟩ := identifier
      have lengths := congrArg List.length same
      simp only [List.length_cons, List.length_append] at lengths
      omega
    obtain ⟨more, tail, error, rest_eq, each, stuck, parsed, exact⟩ :=
      @parseLoop_identifier charType dot (p.length + 2) w rest [] (by omega) ends
    refine ⟨w :: more, tail, error, ?_, ?_, ?_, stuck, exact⟩
    · simpa [IDBParseKeyPath, lexed] using parsed
    · rw [same, rest_eq]
      simp [dotted]
    · simpa using ⟨identifier, each⟩
  · refine ⟨[], fullStop :: c :: p, .errorStart, ?_, rfl, by simp, ⟨?_, ?_⟩, by simp⟩
    · by_cases again : c = fullStop
      · simp [IDBParseKeyPath, nextTokenType, lex, again]
      · simp [IDBParseKeyPath, nextTokenType, lex, again, lexIdentifier, start]
    · intro d q same
      exact (List.cons.inj same).1 ▸ (fullStop_not_identifier dot).1
    · intro d q same
      obtain ⟨rfl, rfl⟩ : c = d ∧ p = q := by simpa using same
      simpa using start

theorem isKeyPath_nil_iff {identifiers : List (List UInt16)} :
    IsKeyPath charType [] identifiers ↔ identifiers = [] := by
  cases identifiers with
  | nil => simp [IsKeyPath, List.intercalate_nil]
  | cons w identifiers =>
    refine iff_of_false ?_ (by simp)
    rintro ⟨empty, each⟩
    obtain ⟨c, p, rfl, -⟩ := each w List.mem_cons_self
    have same := cons_intercalate (c :: p) identifiers
    simp [← empty, dotted] at same

theorem IsKeyPath.dotted_eq {keyPath : List UInt16} {identifiers : List (List UInt16)}
    (path : IsKeyPath charType keyPath identifiers) (some_path : keyPath ≠ []) :
    dotted identifiers = fullStop :: keyPath := by
  cases identifiers with
  | nil => exact absurd path.1 some_path
  | cons w identifiers => rw [path.1, cons_intercalate]

/-- **Key paths are parsed by their grammar**: without an error exactly if the text is a key path,
with its identifiers; and always with the identifiers of the longest key path it begins with. -/
theorem parseKeyPath_follows_grammar (dot : charType fullStop = otherPunctuation)
    (keyPath : List UInt16) :
    ∃ elements error, IDBParseKeyPath charType keyPath = some (elements, error) ∧
      (error = .errorNone ↔ ∃ identifiers, IsKeyPath charType keyPath identifiers) ∧
      (error = .errorNone →
        ∀ identifiers, IsKeyPath charType keyPath identifiers ↔ identifiers = elements) ∧
      ∃ accepted, accepted <+: keyPath ∧ IsKeyPath charType accepted elements ∧
        ∀ other identifiers, other <+: keyPath → IsKeyPath charType other identifiers →
          other <+: accepted := by
  cases keyPath with
  | nil =>
    refine ⟨[], .errorNone, rfl, ?_, fun _ _ => isKeyPath_nil_iff, [], List.prefix_rfl,
      isKeyPath_nil_iff.mpr rfl, fun other identifiers begins _ => begins⟩
    exact iff_of_true rfl ⟨[], isKeyPath_nil_iff.mpr rfl⟩
  | cons c p =>
    obtain ⟨elements, tail, error, parsed, same, each, stuck, exact⟩ := parse_cons dot c p
    have reach {other : List UInt16} {identifiers : List (List UInt16)} (text : other ≠ [])
        (begins : other <+: c :: p) (path : IsKeyPath charType other identifiers) :
        fullStop :: other <+: dotted elements ∧
          (fullStop :: other = dotted elements → identifiers = elements) := by
      rw [← path.dotted_eq text]
      refine dotted_longest dot path.2 each stuck ?_
      rw [path.dotted_eq text, ← same]
      exact List.cons_prefix_cons.mpr ⟨rfl, begins⟩
    have accepted_eq (text : elements ≠ []) :
        fullStop :: List.intercalate [fullStop] elements = dotted elements := by
      obtain ⟨w, rest, rfl⟩ := List.exists_cons_of_ne_nil text
      exact cons_intercalate w rest
    have nonempty {other : List UInt16} (begins : fullStop :: other <+: dotted elements) :
        elements ≠ [] := by
      rintro rfl
      simp [dotted] at begins
    have complete {identifiers : List (List UInt16)}
        (path : IsKeyPath charType (c :: p) identifiers) : identifiers = elements ∧ tail = [] := by
      obtain ⟨shorter, unique⟩ := reach (by simp) List.prefix_rfl path
      rw [same] at shorter unique
      have none_left : tail = [] := by
        have lengths := shorter.length_le
        rw [List.length_append] at lengths
        exact List.eq_nil_of_length_eq_zero (by omega)
      exact ⟨unique (by rw [none_left, List.append_nil]), none_left⟩
    have parsed_all (ends : tail = []) : IsKeyPath charType (c :: p) elements := by
      rw [ends, List.append_nil] at same
      have text := @nonempty (c :: p) (by rw [same])
      rw [← accepted_eq text, List.cons.injEq] at same
      exact ⟨same.2, each⟩
    refine ⟨elements, error, parsed, ?_, ?_, List.intercalate [fullStop] elements, ?_, ⟨rfl, each⟩, ?_⟩
    · rw [exact]
      exact ⟨fun ends => ⟨elements, parsed_all ends⟩, fun ⟨_, path⟩ => (complete path).2⟩
    · intro no_error identifiers
      refine ⟨fun path => (complete path).1, ?_⟩
      rintro rfl
      exact parsed_all (exact.mp no_error)
    · by_cases text : elements = []
      · simp [text, List.intercalate_nil]
      · have begins : fullStop :: List.intercalate [fullStop] elements <+: fullStop :: c :: p := by
          rw [accepted_eq text, same]
          exact List.prefix_append _ _
        exact (List.cons_prefix_cons.mp begins).2
    · intro other identifiers begins path
      by_cases text : other = []
      · rw [text]
        exact List.nil_prefix
      · have shorter := (reach text begins path).1
        rw [← accepted_eq (nonempty shorter)] at shorter
        exact (List.cons_prefix_cons.mp shorter).2

/-- "a.b" and a hyphen behind it, with small letters and punctuation for the classes. -/
theorem parseKeyPath_follows_grammar_hyphen :
    let charType : UInt16 → Nat := fun c => if 0x61 ≤ c ∧ c ≤ 0x7A then 2 else otherPunctuation
    IDBParseKeyPath charType [0x61, 0x2E, 0x62, 0x2D] = some ([[0x61], [0x62]], .errorIdentifier) ∧
      ¬ ∃ identifiers, IsKeyPath charType [0x61, 0x2E, 0x62, 0x2D] identifiers := by
  intro charType
  have outcome : IDBParseKeyPath charType [0x61, 0x2E, 0x62, 0x2D] =
      some ([[0x61], [0x62]], .errorIdentifier) := by decide
  obtain ⟨elements, error, parsed, accepts, -⟩ :=
    @parseKeyPath_follows_grammar charType (by decide) [0x61, 0x2E, 0x62, 0x2D]
  obtain ⟨-, rfl⟩ : elements = [[0x61], [0x62]] ∧ error = .errorIdentifier := by
    simpa [outcome, eq_comm] using parsed
  exact ⟨outcome, fun path => absurd (accepts.mpr path) (by decide)⟩

end

end NetRider.Idb.KeyPath
