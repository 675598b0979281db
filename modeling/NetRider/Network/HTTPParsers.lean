import NetRider.Wtf.Strings
import NetRider.Wtf.UTF8Strings

/-!
# Header fields

`parseHTTPHeader`. The bytes between `start` and its end are a list; a `Vector` that nothing was
appended to has a null pointer for data.
-/

namespace NetRider.Network.HTTPParsers

open NetRider.Wtf NetRider.Wtf.Unicode NetRider.Lib

def cr : UInt8 := 0x0D
def lf : UInt8 := 0x0A
def colon : UInt8 := 0x3A
def space : UInt8 := 0x20

def maxInputSampleSize : Nat := 128

def horizontalEllipsis : UInt16 := 0x2026

def trimInputSample (p : List UInt8) : List UInt16 :=
  widen (p.take maxInputSampleSize) ++
    if p.length > maxInputSampleSize then [horizontalEllipsis] else []

/-- The result and the arguments that are set. -/
structure Header where
  consumedLength : Nat
  failureReason : Option (List UInt16)
  name : Option (List UInt16)
  value : Option (List UInt16)
  deriving DecidableEq

def Header.failed (reason : String) (sample : List UInt8) : Header :=
  ⟨0, some (ascii reason ++ trimInputSample sample), none, none⟩

/-- How the loop over the name ends. -/
inductive NameEnd
  | emptyLine
  | failed (header : Header)
  | done (name rest : List UInt8)

def nameLoop (name : List UInt8) : List UInt8 → NameEnd
  | [] => .done name []
  | c :: rest =>
    if c = cr then
      if name = [] then
        if rest.head? = some lf then .emptyLine
        else .failed (.failed "CR doesn't follow LF at " (c :: rest))
      else .failed (.failed "Unexpected CR in name at " name)
    else if c = lf then .failed (.failed "Unexpected LF in name at " name)
    else if c = colon then .done name rest
    else nameLoop (name ++ [c]) rest

def valueLoop (strict : Bool) (value : List UInt8) :
    List UInt8 → Except Header (List UInt8 × List UInt8)
  | [] => .ok (value, [])
  | c :: rest =>
    if c = cr then .ok (value, rest)
    else if c = lf then
      if strict then .error (.failed "Unexpected LF in value at " value) else .ok (value, rest)
    else valueLoop strict (value ++ [c]) rest

/-- `Vector::data` -/
def data (vector : List UInt8) : Option (List UInt8) := if vector = [] then none else some vector

def parseHTTPHeader (stringTable : List (List UInt16)) (start : List UInt8) (strict : Bool) :
    Except StringFault Header :=
  match nameLoop [] start with
  | .emptyLine => .ok ⟨2, none, none, none⟩
  | .failed header => .ok header
  | .done name p =>
    match valueLoop strict [] (p.dropWhile (· = space)) with
    | .error header => .ok header
    | .ok (value, p) =>
      if p = [] ∨ strict ∧ p.head? ≠ some lf then
        .ok (.failed "CR doesn't follow LF after value at " p)
      else do
        let nameStr ← atomicStringFromUTF8 stringTable (data name)
        let valueStr ← stringFromUTF8 (data value)
        if nameStr = none then
          return ⟨0, some (ascii "Invalid UTF-8 sequence in header name"), nameStr, valueStr⟩
        else if valueStr = none then
          return ⟨0, some (ascii "Invalid UTF-8 sequence in header value"), nameStr, valueStr⟩
        else return ⟨start.length - p.length, none, nameStr, valueStr⟩

/-! ## Header lines -/

/-- A text of the form of a line: a name, white space, a value and the end of the line. -/
structure Line (text name : List UInt8) (k : Nat) (value rest : List UInt8) : Prop where
  split : text = name ++ colon :: (List.replicate k space ++ (value ++ cr :: lf :: rest))
  inName : ∀ c ∈ name, c ≠ colon ∧ c ≠ cr ∧ c ≠ lf
  inValue : ∀ c ∈ value, c ≠ cr ∧ c ≠ lf
  plain : value.head? ≠ some space

/-- What is expected of `parseHTTPHeader`, whatever atomic strings there are. -/
structure HeaderRight (text : List UInt8) : Prop where
  line : ∀ name k value rest nameText valueText, Line text name k value rest → name ≠ [] →
    name = utf8 nameText → value = utf8 valueText → ∀ stringTable,
      parseHTTPHeader stringTable text true = .ok ⟨name.length + 1 + k + value.length + 1, none,
        some (utf16 nameText), some (utf16 valueText)⟩
  emptyLine : ∀ rest, text = cr :: lf :: rest → ∀ stringTable,
    parseHTTPHeader stringTable text true = .ok ⟨2, none, none, none⟩
  other : (¬ ∃ name k value rest, Line text name k value rest ∧ name ≠ [] ∧ WellFormed name ∧
      WellFormed value) → (¬ ∃ rest, text = cr :: lf :: rest) → ∀ stringTable,
    ∃ header, parseHTTPHeader stringTable text true = .ok header ∧ header.consumedLength = 0

/-- The name and the value of a line are shorter than `2 ^ 32` bytes. -/
def Fits (text : List UInt8) : Prop :=
  ∀ name k value rest, Line text name k value rest →
    name.length < 2 ^ 32 ∧ value.length < 2 ^ 32

/-- Made of characters and of sequences with a low second byte. -/
def Readable (bytes : List UInt8) : Prop := WellFormed bytes ∨ LowSecondRead bytes

/-- No empty value behind a name, and in neither of them sequences with a low second byte that are
taken for characters. -/
def Regular (text : List UInt8) : Prop :=
  ∀ name k value rest, Line text name k value rest → name ≠ [] →
    (value = [] → ¬ WellFormed name) ∧
    (value ≠ [] → Readable name → Readable value → WellFormed name ∧ WellFormed value)

/-! ## The loops -/

variable {text name value rest p : List UInt8} {k : Nat} {stringTable : List (List UInt16)}

theorem nameLoop_line (front : List UInt8)
    (inName : ∀ c ∈ name, c ≠ colon ∧ c ≠ cr ∧ c ≠ lf) :
    nameLoop front (name ++ colon :: p) = .done (front ++ name) p := by
  induction name generalizing front with
  | nil =>
    rw [List.nil_append, nameLoop, if_neg (by decide), if_neg (by decide), if_pos rfl,
      List.append_nil]
  | cons c name ih =>
    obtain ⟨⟨other, return_, feed⟩, later⟩ := List.forall_mem_cons.mp inName
    rw [List.cons_append, nameLoop, if_neg return_, if_neg feed, if_neg other, ih _ later]
    simp

theorem nameLoop_done {front : List UInt8} (done : nameLoop front text = .done name p) :
    p = [] ∨ ∃ more, name = front ++ more ∧ text = more ++ colon :: p ∧
      ∀ c ∈ more, c ≠ colon ∧ c ≠ cr ∧ c ≠ lf := by
  induction text generalizing front with
  | nil =>
    cases done
    exact .inl rfl
  | cons c text ih =>
    rw [nameLoop] at done
    split_ifs at done with return_ _ _ feed other
    · cases done
      exact .inr ⟨[], by simp, by rw [other]; rfl, by simp⟩
    · rcases ih done with ended | ⟨more, rfl, rfl, inside⟩
      · exact .inl ended
      · exact .inr ⟨c :: more, by simp, rfl,
          List.forall_mem_cons.mpr ⟨⟨other, return_, feed⟩, inside⟩⟩

theorem valueLoop_line (front : List UInt8) (inValue : ∀ c ∈ value, c ≠ cr ∧ c ≠ lf) :
    valueLoop true front (value ++ cr :: p) = .ok (front ++ value, p) := by
  induction value generalizing front with
  | nil => rw [List.nil_append, valueLoop, if_pos rfl, List.append_nil]
  | cons c value ih =>
    obtain ⟨⟨return_, feed⟩, later⟩ := List.forall_mem_cons.mp inValue
    rw [List.cons_append, valueLoop, if_neg return_, if_neg feed, ih _ later]
    simp

theorem valueLoop_ok {front : List UInt8} (done : valueLoop true front text = .ok (value, p)) :
    p = [] ∨ ∃ more, value = front ++ more ∧ text = more ++ cr :: p ∧
      ∀ c ∈ more, c ≠ cr ∧ c ≠ lf := by
  induction text generalizing front with
  | nil =>
    cases done
    exact .inl rfl
  | cons c text ih =>
    rw [valueLoop] at done
    split_ifs at done with return_ feed
    · cases done
      exact .inr ⟨[], by simp, by rw [return_]; rfl, by simp⟩
    · exact absurd rfl ‹_›
    · rcases ih done with ended | ⟨more, rfl, rfl, inside⟩
      · exact .inl ended
      · exact .inr ⟨c :: more, by simp, rfl, List.forall_mem_cons.mpr ⟨⟨return_, feed⟩, inside⟩⟩

/-- The conversions of a name and a value, and the length up to the last byte. -/
def convert (stringTable : List (List UInt16)) (consumedLength : Nat) (name value : List UInt8) :
    Except StringFault Header := do
  let nameStr ← atomicStringFromUTF8 stringTable (data name)
  let valueStr ← stringFromUTF8 (data value)
  if nameStr = none then
    return ⟨0, some (ascii "Invalid UTF-8 sequence in header name"), nameStr, valueStr⟩
  else if valueStr = none then
    return ⟨0, some (ascii "Invalid UTF-8 sequence in header value"), nameStr, valueStr⟩
  else return ⟨consumedLength, none, nameStr, valueStr⟩

theorem dropWhile_spaces (line : Line text name k value rest) :
    (List.replicate k space ++ (value ++ cr :: lf :: rest)).dropWhile (· = space) =
      value ++ cr :: lf :: rest := by
  rw [List.dropWhile_append_of_pos (by simp)]
  have plain := line.plain
  cases value with
  | nil => rfl
  | cons c value =>
    have other : c ≠ space := fun same => plain (congrArg some same)
    exact List.dropWhile_cons_of_neg (by simpa using other)

theorem parse_line (line : Line text name k value rest) :
    parseHTTPHeader stringTable text true =
      convert stringTable (name.length + 1 + k + value.length + 1) name value := by
  have length : text.length - (lf :: rest).length = name.length + 1 + k + value.length + 1 := by
    rw [line.split]
    simp
    omega
  have named := nameLoop_line (p := List.replicate k space ++ (value ++ cr :: lf :: rest)) []
    line.inName
  rw [← line.split, List.nil_append] at named
  unfold parseHTTPHeader
  rw [named]
  dsimp only
  rw [dropWhile_spaces line, valueLoop_line [] line.inValue]
  dsimp only
  rw [if_neg (by simp), List.nil_append, length]
  rfl

theorem nameLoop_failed {front : List UInt8} {header : Header}
    (failed : nameLoop front text = .failed header) : header.consumedLength = 0 := by
  induction text generalizing front with
  | nil => cases failed
  | cons c text ih =>
    rw [nameLoop] at failed
    split_ifs at failed
    · cases failed
      rfl
    · cases failed
      rfl
    · cases failed
      rfl
    · exact ih failed

theorem nameLoop_ne_emptyLine {front : List UInt8} (nonempty : front ≠ []) :
    nameLoop front text ≠ .emptyLine := by
  induction text generalizing front with
  | nil => exact NameEnd.noConfusion
  | cons c text ih =>
    rw [nameLoop]
    split_ifs
    · exact NameEnd.noConfusion
    · exact NameEnd.noConfusion
    · exact NameEnd.noConfusion
    · exact ih (by simp)

theorem nameLoop_emptyLine (ended : nameLoop [] text = .emptyLine) :
    ∃ rest, text = cr :: lf :: rest := by
  cases text with
  | nil => cases ended
  | cons c text =>
    rw [nameLoop] at ended
    split_ifs at ended with return_ _ feed
    · cases text with
      | nil => cases feed
      | cons d text =>
        rw [return_, Option.some.inj feed]
        exact ⟨text, rfl⟩
    · exact absurd ended (nameLoop_ne_emptyLine (by simp))

theorem valueLoop_error {front : List UInt8} {header : Header}
    (failed : valueLoop true front text = .error header) : header.consumedLength = 0 := by
  induction text generalizing front with
  | nil => cases failed
  | cons c text ih =>
    rw [valueLoop] at failed
    split_ifs at failed
    · cases failed
      rfl
    · exact ih failed

/-- A text that is no empty line and has not the form of a line is refused. -/
theorem parse_cases (text : List UInt8) :
    (∃ rest, text = cr :: lf :: rest) ∨ (∃ name k value rest, Line text name k value rest) ∨
      ∀ stringTable, ∃ header, parseHTTPHeader stringTable text true = .ok header ∧
        header.consumedLength = 0 := by
  cases named : nameLoop [] text with
  | emptyLine => exact .inl (nameLoop_emptyLine named)
  | failed header =>
    refine .inr (.inr fun stringTable => ⟨header, ?_, nameLoop_failed named⟩)
    rw [parseHTTPHeader, named]
  | done name p =>
    have split := (@List.takeWhile_append_dropWhile _ (fun c => decide (c = space)) p).symm
    have spaces : p.takeWhile (fun c => decide (c = space)) =
        List.replicate (p.takeWhile fun c => decide (c = space)).length space :=
      List.eq_replicate_iff.mpr ⟨rfl, fun c member => of_decide_eq_true
        (List.mem_takeWhile_imp (p := fun c => decide (c = space)) member)⟩
    cases valued : valueLoop true [] (p.dropWhile (· = space)) with
    | error header =>
      refine .inr (.inr fun stringTable => ⟨header, ?_, valueLoop_error valued⟩)
      rw [parseHTTPHeader, named]
      dsimp only
      rw [valued]
    | ok parts =>
      obtain ⟨value, q⟩ := parts
      by_cases ended : q = [] ∨ true = true ∧ q.head? ≠ some lf
      · refine .inr (.inr fun stringTable =>
          ⟨.failed "CR doesn't follow LF after value at " q, ?_, rfl⟩)
        rw [parseHTTPHeader, named]
        dsimp only
        rw [valued]
        exact if_pos ended
      · rw [not_or, not_and, not_not] at ended
        obtain ⟨rest, rfl⟩ : ∃ rest, q = lf :: rest := by
          cases q with
          | nil => exact absurd rfl ended.1
          | cons c rest => exact ⟨rest, by rw [Option.some.inj (ended.2 rfl)]⟩
        obtain ⟨_, rfl, same, inValue⟩ := (valueLoop_ok valued).resolve_left ended.1
        rcases nameLoop_done named with rfl | ⟨_, rfl, rfl, inName⟩
        · simp at same
        · refine .inr (.inl ⟨_, (p.takeWhile fun c => decide (c = space)).length, value, rest,
            ?_, inName, inValue, ?_⟩)
          · rw [← spaces, ← same, ← split]
          · intro plain
            have refused := List.head?_dropWhile_not (fun c => decide (c = space)) p
            rw [same] at refused
            cases value with
            | nil => cases plain
            | cons c value =>
              cases plain
              simp at refused

theorem Line.unique {name' value' rest' : List UInt8} {k' : Nat}
    (line : Line text name k value rest) (line' : Line text name' k' value' rest') :
    name = name' ∧ value = value' := by
  have named := nameLoop_line (p := List.replicate k space ++ (value ++ cr :: lf :: rest)) []
    line.inName
  have named' := nameLoop_line (p := List.replicate k' space ++ (value' ++ cr :: lf :: rest')) []
    line'.inName
  rw [← line.split] at named
  rw [← line'.split, named] at named'
  obtain ⟨sameName, sameRest⟩ := NameEnd.done.inj named'
  have valued := valueLoop_line (p := lf :: rest) [] line.inValue
  have valued' := valueLoop_line (p := lf :: rest') [] line'.inValue
  rw [← dropWhile_spaces line, sameRest, dropWhile_spaces line', valued'] at valued
  exact ⟨sameName, (congrArg Prod.fst (Except.ok.inj valued)).symm⟩

theorem Line.not_emptyLine (line : Line text name k value rest) (named : name ≠ []) :
    ¬ ∃ rest, text = cr :: lf :: rest := by
  rintro ⟨rest', rfl⟩
  cases name with
  | nil => exact named rfl
  | cons c name => exact (line.inName c List.mem_cons_self).2.1 (List.cons.inj line.split).1.symm

/-! ## The conversions -/

theorem readable_reads : Readable value ↔ ∃ text, Reads value text := readable_iff.symm

theorem stringFromUTF8_data (short : value.length < 2 ^ 32) :
    ∃ valueStr, stringFromUTF8 (data value) = .ok valueStr ∧
      (valueStr = none ↔ value = [] ∨ ¬ Readable value) := by
  by_cases empty : value = []
  · exact ⟨none, by rw [data, if_pos empty]; rfl, by simp [empty]⟩
  · rw [data, if_neg empty, readable_reads]
    by_cases read : ∃ text, Reads value text
    · obtain ⟨valueText, reads⟩ := read
      exact ⟨_, stringFromUTF8_reads reads empty short, by simpa [empty] using ⟨_, reads⟩⟩
    · exact ⟨none, stringFromUTF8_other read short, by simp [read]⟩

theorem atomicStringFromUTF8_data (stringTable : List (List UInt16))
    (short : name.length < 2 ^ 32) :
    ∃ nameStr, atomicStringFromUTF8 stringTable (data name) = .ok nameStr ∧
      (nameStr = none ↔ name = [] ∨ ¬ Readable name) := by
  by_cases empty : name = []
  · exact ⟨none, by rw [data, if_pos empty]; rfl, by simp [empty]⟩
  · rw [data, if_neg empty, readable_reads]
    by_cases read : ∃ text, Reads name text
    · obtain ⟨nameText, reads⟩ := read
      exact ⟨_, atomicStringFromUTF8_reads reads empty short stringTable,
        by simpa [empty] using ⟨_, reads⟩⟩
    · exact ⟨none, atomicStringFromUTF8_other read stringTable, by simp [read]⟩

theorem convert_refused (stringTable : List (List UInt16)) (consumedLength : Nat)
    (shortName : name.length < 2 ^ 32) (shortValue : value.length < 2 ^ 32)
    (refused : name = [] ∨ ¬ Readable name ∨ value = [] ∨ ¬ Readable value) :
    ∃ header, convert stringTable consumedLength name value = .ok header ∧
      header.consumedLength = 0 := by
  obtain ⟨nameStr, named, noName⟩ := atomicStringFromUTF8_data stringTable shortName
  obtain ⟨valueStr, valued, noValue⟩ := stringFromUTF8_data shortValue
  simp only [convert, named, valued, bind, Except.bind]
  split_ifs with first second
  · exact ⟨_, rfl, rfl⟩
  · exact ⟨_, rfl, rfl⟩
  · rw [← or_assoc, ← noName, ← noValue] at refused
    exact absurd refused (not_or.mpr ⟨first, second⟩)

/-- A line is taken if both parts are there and can be read. -/
theorem convert_taken (stringTable : List (List UInt16)) (consumedLength : Nat)
    (shortName : name.length < 2 ^ 32) (shortValue : value.length < 2 ^ 32) (named : name ≠ [])
    (readName : Readable name) (valued : value ≠ []) (readValue : Readable value) :
    ∃ header, convert stringTable consumedLength name value = .ok header ∧
      header.consumedLength = consumedLength := by
  obtain ⟨nameStr, converted, noName⟩ := atomicStringFromUTF8_data stringTable shortName
  obtain ⟨valueStr, converted', noValue⟩ := stringFromUTF8_data shortValue
  simp only [convert, converted, converted', bind, Except.bind]
  rw [if_neg (noName.not.mpr (by simp [named, readName])),
    if_neg (noValue.not.mpr (by simp [valued, readValue]))]
  exact ⟨_, rfl, rfl⟩

theorem convert_utf8 (stringTable : List (List UInt16)) (consumedLength : Nat)
    (nameText valueText : List Char) (shortName : (utf8 nameText).length < 2 ^ 32)
    (shortValue : (utf8 valueText).length < 2 ^ 32) (named : utf8 nameText ≠ []) (valued : utf8 valueText ≠ []) :
    convert stringTable consumedLength (utf8 nameText) (utf8 valueText) =
      .ok ⟨consumedLength, none, some (utf16 nameText), some (utf16 valueText)⟩ := by
  have converted := atomicStringFromUTF8_reads (reads_utf8 nameText) named shortName stringTable
  have converted' := stringFromUTF8_reads (reads_utf8 valueText) valued shortValue
  rw [convert, data, data, if_neg named, if_neg valued, converted, converted']
  rfl

/-! ## Right headers -/

theorem regular_of_right (fits : Fits text) (right : HeaderRight text) : Regular text := by
  intro name k value rest line named
  obtain ⟨shortName, shortValue⟩ := fits name k value rest line
  constructor
  · rintro rfl ⟨nameText, rfl⟩
    have taken := right.line _ _ _ _ nameText [] line named rfl rfl []
    obtain ⟨header, refused, zero⟩ := convert_refused [] ((utf8 nameText).length + 1 + k + 0 + 1)
      shortName shortValue (.inr (.inr (.inl rfl)))
    rw [parse_line line] at taken
    cases taken.symm.trans refused
    simp at zero
  · intro valued readName readValue
    by_contra unformed
    have other : ¬ ∃ name k value rest, Line text name k value rest ∧ name ≠ [] ∧
        WellFormed name ∧ WellFormed value := by
      rintro ⟨name', k', value', rest', line', -, formedName, formedValue⟩
      obtain ⟨rfl, rfl⟩ := line.unique line'
      exact unformed ⟨formedName, formedValue⟩
    obtain ⟨header, parsed, zero⟩ := right.other other (line.not_emptyLine named) []
    obtain ⟨header', taken, consumed⟩ := convert_taken [] (name.length + 1 + k + value.length + 1)
      shortName shortValue named readName valued readValue
    rw [parse_line line, taken] at parsed
    cases parsed
    omega

theorem right_of_regular (fits : Fits text) (regular : Regular text) : HeaderRight text where
  line := by
    rintro _ k _ rest nameText valueText line named rfl rfl stringTable
    obtain ⟨shortName, shortValue⟩ := fits _ k _ rest line
    have valued : utf8 valueText ≠ [] :=
      fun empty => (regular _ k _ rest line named).1 empty ⟨nameText, rfl⟩
    rw [parse_line line, convert_utf8 stringTable _ nameText valueText shortName shortValue named
      valued]
  emptyLine := by
    rintro rest rfl stringTable
    rfl
  other := by
    intro other nonempty stringTable
    rcases parse_cases text with ended | ⟨name, k, value, rest, line⟩ | refused
    · exact absurd ended nonempty
    · obtain ⟨shortName, shortValue⟩ := fits name k value rest line
      rw [parse_line line]
      apply convert_refused stringTable _ shortName shortValue
      by_contra taken
      simp only [not_or, not_not] at taken
      obtain ⟨named, readName, valued, readValue⟩ := taken
      obtain ⟨formedName, formedValue⟩ :=
        (regular name k value rest line named).2 valued readName readValue
      exact other ⟨name, k, value, rest, line, named, formedName, formedValue⟩
    · exact refused stringTable

/-- **Header fields are parsed by their grammar**, but for empty values and for sequences with a
low second byte. -/
theorem headerRight_iff (text : List UInt8) (fits : Fits text) :
    HeaderRight text ↔ Regular text :=
  ⟨regular_of_right fits, right_of_regular fits⟩

theorem headerRight_iff_line : HeaderRight [0x41, 0x3A, 0x20, 0x62, 0x0D, 0x0A] ↔
    Regular [0x41, 0x3A, 0x20, 0x62, 0x0D, 0x0A] :=
  headerRight_iff _ fun _ _ _ _ line => by
    have length := congrArg List.length line.split
    simp only [List.length_append, List.length_cons, List.length_nil] at length
    omega

/-- An empty value is taken for an invalid one. -/
theorem emptyValue_refused :
    parseHTTPHeader [] [0x41, 0x3A, 0x0D, 0x0A] true =
      .ok ⟨0, some (ascii "Invalid UTF-8 sequence in header value"), some [0x41], none⟩ ∧
    ¬ HeaderRight [0x41, 0x3A, 0x0D, 0x0A] := by
  have parsed : parseHTTPHeader [] [0x41, 0x3A, 0x0D, 0x0A] true =
      .ok ⟨0, some (ascii "Invalid UTF-8 sequence in header value"), some [0x41], none⟩ := by
    decide
  refine ⟨parsed, fun right => ?_⟩
  have line : Line [0x41, 0x3A, 0x0D, 0x0A] [0x41] 0 [] [] :=
    ⟨rfl, by simp [colon, cr, lf], by simp, by simp⟩
  have taken := right.line [0x41] 0 [] [] ['A'] [] line (by simp) (by decide) rfl []
  rw [parsed] at taken
  cases taken

end NetRider.Network.HTTPParsers
