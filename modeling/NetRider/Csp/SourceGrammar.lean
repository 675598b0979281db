import Mathlib.Data.List.TakeDrop
import NetRider.Csp.SourceList
import NetRider.Wtf.IntegralReading

/-!
# The grammar of source expressions
-/

namespace NetRider.Csp

open NetRider.Wtf

/-! ## Expressions -/

/-- Scheme: ALPHA *( ALPHA / DIGIT / "+" / "-" / "." ) -/
def IsScheme (text : List UChar) : Prop :=
  ∃ c rest, text = c :: rest ∧ isASCIIAlpha c ∧ ∀ d ∈ rest, isSchemeContinuationCharacter d

def IsLabel (text : List UChar) : Prop := text ≠ [] ∧ ∀ c ∈ text, isHostCharacter c

/-- Labels: 1*host-char *( "." 1*host-char ) -/
inductive HostName : List UChar → Prop
  | last {label : List UChar} : IsLabel label → HostName label
  | more {label rest : List UChar} : IsLabel label → HostName rest → HostName (label ++ dot :: rest)

/-- Host: [ "*." ] labels / "*" -/
inductive HostPart
  | any
  | name (wildcard : Bool) (labels : List UChar)
  deriving DecidableEq, Repr

def HostPart.text : HostPart → List UChar
  | any => [asterisk]
  | name wildcard labels => (if wildcard then [asterisk, dot] else []) ++ labels

def HostPart.WellFormed : HostPart → Prop
  | any => True
  | name _ labels => HostName labels

/-- The value of some digits behind others. -/
def appendDigits (value : Int) (digits : List UChar) : Int :=
  digits.foldl (fun value c => 10 * value + (c.toNat - 0x30)) value

def decimal (digits : List UChar) : Int := appendDigits 0 digits

/-- Port: ":" ( 1*DIGIT / "*" ) -/
inductive PortPart
  | any
  | number (digits : List UChar)
  deriving DecidableEq, Repr

def PortPart.text : PortPart → List UChar
  | any => [colon, asterisk]
  | number digits => colon :: digits

def PortPart.WellFormed : PortPart → Prop
  | any => True
  | number digits => digits ≠ [] ∧ (∀ c ∈ digits, isASCIIDigit c) ∧ decimal digits ≤ 2147483647

/-- Source: [ scheme "://" ] host [ port ] [ path ] -/
structure HostSource where
  scheme : Option (List UChar)
  host : HostPart
  port : Option PortPart
  path : Option (List UChar)
  deriving DecidableEq, Repr

namespace HostSource

def schemeText (source : HostSource) : List UChar :=
  match source.scheme with
  | some scheme => scheme ++ [colon, slash, slash]
  | none => []

def portText (source : HostSource) : List UChar := (source.port.map PortPart.text).getD []

def text (source : HostSource) : List UChar :=
  source.schemeText ++ (source.host.text ++ (source.portText ++ source.path.getD []))

/-- All but the host. -/
structure Surrounded (source : HostSource) : Prop where
  scheme : ∀ scheme, source.scheme = some scheme → IsScheme scheme
  port : ∀ port, source.port = some port → port.WellFormed
  path : ∀ path, source.path = some path → path.head? = some slash

/-- A lone "*" is an expression of its own. -/
def Lone (source : HostSource) : Prop := source = ⟨none, .any, none, none⟩

structure WellFormed (source : HostSource) : Prop extends source.Surrounded where
  host : source.host.WellFormed
  notLone : ¬ source.Lone

end HostSource

inductive SourceExpression
  | keyword (keyword : Keyword)
  | scheme (name : List UChar)
  | emptyHost (scheme : List UChar)
  | host (source : HostSource)
  deriving DecidableEq, Repr

/-- The expressions that the comments of the parser list. It also takes "scheme://". -/
def SourceExpression.Documented : SourceExpression → Prop
  | emptyHost _ => False
  | _ => True

def Derives (icu : Icu) (text : List UChar) : SourceExpression → Prop
  | .keyword .star => text = [asterisk]
  | .keyword .self => equalIgnoringCase icu text (ascii "'self'")
  | .keyword .unsafeInline => equalIgnoringCase icu text (ascii "'unsafe-inline'")
  | .keyword .unsafeEval => equalIgnoringCase icu text (ascii "'unsafe-eval'")
  | .scheme name => IsScheme name ∧ text = name ++ [colon]
  | .emptyHost scheme => IsScheme scheme ∧ text = scheme ++ [colon, slash, slash]
  | .host source => source.WellFormed ∧ text = source.text

/-! ## What an expression stands for -/

/-- The host as it is stored, with `hostHasWildcard`. -/
def HostPart.stored : HostPart → List UChar × Bool
  | any => ([], true)
  | name wildcard labels => (labels, wildcard)

def PortPart.stored : PortPart → Int × Bool
  | any => (0, true)
  | number digits => (decimal digits, false)

variable (decodeURLEscapeSequences : List UChar → List UChar)

def HostSource.stored (source : HostSource) : CSPSource :=
  { scheme := source.scheme.getD []
    host := source.host.stored.1
    port := (source.port.map PortPart.stored).elim 0 (·.1)
    path := source.path.elim [] (parsePath decodeURLEscapeSequences)
    hostHasWildcard := source.host.stored.2
    portHasWildcard := (source.port.map PortPart.stored).elim false (·.2) }

def SourceExpression.parsed : SourceExpression → Parsed
  | keyword k => .keyword k
  | scheme name => .source (.schemeOnly name)
  | emptyHost name => .source (.schemeOnly name)
  | host source => .source (source.stored decodeURLEscapeSequences)

/-! ## Characters -/

theorem isNotColonOrSlash_iff {c : UChar} : isNotColonOrSlash c = true ↔ c ≠ colon ∧ c ≠ slash := by
  simp [isNotColonOrSlash]

/-- ASCII characters that no quote folds to. -/
theorem alphanumeric_ascii {c : UChar} (plain : isASCIIAlphanumeric c = true) : c ≤ 0x7F := by
  simp only [isASCIIAlphanumeric, isASCIIDigit, isASCIIAlpha, isASCIIUpper, Bool.or_eq_true,
    Bool.and_eq_true, decide_eq_true_eq, ge_iff_le, UInt16.le_iff_toNat_le] at *
  have high : (0x7F : UInt16).toNat = 0x7F := rfl
  have nine : (0x39 : UInt16).toNat = 0x39 := rfl
  have upper : (0x5A : UInt16).toNat = 0x5A := rfl
  have lower : (0x7A : UInt16).toNat = 0x7A := rfl
  omega

theorem foldCase_ne_quote (icu : Icu) {c : UChar} (ascii : c ≤ 0x7F) (plain : c ≠ 0x27) :
    foldCase icu c ≠ 0x27 := by
  rw [foldCase, if_pos ascii]
  unfold toASCIILower
  split
  · rename_i upper
    intro same
    simp only [isASCIIUpper, Bool.and_eq_true, decide_eq_true_eq, ge_iff_le,
      UInt16.le_iff_toNat_le] at upper
    have value := congrArg UInt16.toNat same
    rw [UInt16.toNat_add] at value
    have low : (0x41 : UInt16).toNat = 0x41 := rfl
    have high : (0x5A : UInt16).toNat = 0x5A := rfl
    have step : (0x20 : UInt16).toNat = 0x20 := rfl
    have quote : (0x27 : UInt16).toNat = 0x27 := rfl
    omega
  · exact plain

theorem hostCharacter_plain {c : UChar} (host : isHostCharacter c = true) :
    isNotColonOrSlash c = true ∧ c ≠ dot ∧ c ≠ asterisk ∧ c ≤ 0x7F ∧ c ≠ 0x27 := by
  have other : ∀ d : UChar, isHostCharacter d = false → c ≠ d := by
    rintro d bad rfl
    rw [bad] at host
    cases host
  refine ⟨isNotColonOrSlash_iff.mpr ⟨other _ (by decide), other _ (by decide)⟩,
    other _ (by decide), other _ (by decide), ?_, other _ (by decide)⟩
  rcases Bool.or_eq_true _ _ ▸ host with alphanumeric | hyphen
  · exact alphanumeric_ascii alphanumeric
  · rw [beq_iff_eq.mp hyphen]
    decide

theorem schemeCharacter_plain {c : UChar} (scheme : isSchemeContinuationCharacter c = true) :
    isNotColonOrSlash c = true := by
  have other : ∀ d : UChar, isSchemeContinuationCharacter d = false → c ≠ d := by
    rintro d bad rfl
    rw [bad] at scheme
    cases scheme
  exact isNotColonOrSlash_iff.mpr ⟨other _ (by decide), other _ (by decide)⟩

theorem alpha_alphanumeric {c : UChar} (alpha : isASCIIAlpha c = true) :
    isASCIIAlphanumeric c = true := by
  simp [isASCIIAlphanumeric, alpha]

theorem digit_not_slash {c : UChar} (digit : isASCIIDigit c = true) : c ≠ slash := by
  rintro rfl
  revert digit
  decide

/-! ## Parts of a text -/

theorem IsScheme.plain {text : List UChar} (scheme : IsScheme text) :
    ∀ c ∈ text, isNotColonOrSlash c = true := by
  obtain ⟨c, rest, rfl, alpha, more⟩ := scheme
  intro d member
  rcases List.mem_cons.mp member with rfl | member
  · apply schemeCharacter_plain
    simp [isSchemeContinuationCharacter, alpha_alphanumeric alpha]
  · exact schemeCharacter_plain (more d member)

theorem parseScheme_iff {text scheme : List UChar} :
    parseScheme text = some scheme ↔ IsScheme text ∧ scheme = text := by
  cases text with
  | nil => simp [parseScheme, IsScheme]
  | cons c rest =>
    simp only [parseScheme, List.dropWhile_eq_nil_iff]
    split_ifs with valid
    · rw [Option.some.injEq, eq_comm, iff_and_self]
      intro _
      exact ⟨c, rest, rfl, valid.1, valid.2⟩
    · constructor
      · simp
      · rintro ⟨⟨c', rest', same, alpha, more⟩, -⟩
        cases same
        exact absurd ⟨alpha, more⟩ valid

theorem HostName.plain {text : List UChar} (name : HostName text) :
    ∀ c ∈ text, isNotColonOrSlash c = true := by
  induction name with
  | last label => exact fun c member => (hostCharacter_plain (label.2 c member)).1
  | more label _ ih =>
    intro c member
    rcases List.mem_append.mp member with member | member
    · exact (hostCharacter_plain (label.2 c member)).1
    · rcases List.mem_cons.mp member with rfl | member
      · decide
      · exact ih c member

theorem HostName.starts {text : List UChar} (name : HostName text) :
    ∃ c rest, text = c :: rest ∧ isHostCharacter c = true := by
  have first : ∀ {label rest : List UChar}, IsLabel label →
      ∃ c rest', label ++ rest = c :: rest' ∧ isHostCharacter c = true := by
    rintro label rest ⟨nonempty, all⟩
    cases label with
    | nil => contradiction
    | cons c label => exact ⟨c, label ++ rest, rfl, all c List.mem_cons_self⟩
  cases name with
  | last label =>
    rw [← List.append_nil text]
    exact first label
  | more label _ => exact first label

/-- A host that ends in a dot is accepted too, and so is nothing behind "*.". -/
def Dotted (labels : List UChar) : Prop :=
  ∃ name, HostName name ∧ labels = name ++ [dot]

theorem IsLabel.dropWhile {label : List UChar} (valid : IsLabel label) (rest : List UChar) :
    (label ++ dot :: rest).dropWhile isHostCharacter = dot :: rest := by
  rw [List.dropWhile_append_of_pos valid.2]
  rfl

theorem takeWhile_isLabel {c : UChar} {rest : List UChar} (host : isHostCharacter c = true) :
    IsLabel (c :: rest.takeWhile isHostCharacter) := by
  refine ⟨by simp, ?_⟩
  intro d member
  rcases List.mem_cons.mp member with rfl | member
  · exact host
  · exact List.mem_takeWhile_imp member

/-- A name ends with its first label, or goes on behind a dot. -/
theorem hostName_iff {text : List UChar} : HostName text ↔
    IsLabel text ∨ ∃ label rest, text = label ++ dot :: rest ∧ IsLabel label ∧ HostName rest := by
  constructor
  · intro name
    cases name with
    | last label => exact .inl label
    | more label rest => exact .inr ⟨_, _, rfl, label, rest⟩
  · rintro (label | ⟨label, rest, rfl, valid, name⟩)
    · exact .last label
    · exact .more valid name

theorem dotted_iff {text : List UChar} : Dotted text ↔
    ∃ label rest, text = label ++ dot :: rest ∧ IsLabel label ∧ (rest = [] ∨ Dotted rest) := by
  constructor
  · rintro ⟨name, valid, rfl⟩
    rcases hostName_iff.mp valid with label | ⟨label, rest, rfl, label', name'⟩
    · exact ⟨name, [], rfl, label, .inl rfl⟩
    · exact ⟨label, rest ++ [dot], by simp, label', .inr ⟨rest, name', rfl⟩⟩
  · rintro ⟨label, rest, rfl, valid, rfl | ⟨name, name', rfl⟩⟩
    · exact ⟨label, .last valid, rfl⟩
    · exact ⟨label ++ dot :: name, .more valid name', by simp⟩

theorem hostLabels_iff {text : List UChar} :
    hostLabels text = true ↔ text = [] ∨ HostName text ∨ Dotted text := by
  fun_induction hostLabels text with
  | case1 => simp
  | case2 c rest host found =>
    have whole := List.takeWhile_append_dropWhile (p := isHostCharacter) (l := rest)
    rw [found, List.append_nil] at whole
    have label := @takeWhile_isLabel c rest host
    rw [whole] at label
    exact iff_of_true rfl (.inr (.inl (.last label)))
  | case3 c rest host d rest' found isDot ih =>
    have whole := List.takeWhile_append_dropWhile (p := isHostCharacter) (l := rest)
    rw [found, beq_iff_eq.mp isDot] at whole
    have label := @takeWhile_isLabel c rest host
    have text : c :: rest = (c :: rest.takeWhile isHostCharacter) ++ dot :: rest' := by
      rw [List.cons_append, whole]
    -- the first label and what is behind it are determined
    have split : ∀ {label' rest'' : List UChar}, IsLabel label' →
        c :: rest = label' ++ dot :: rest'' → rest'' = rest' := by
      intro label' rest'' valid same
      have dropped := valid.dropWhile rest''
      rw [← same, text, label.dropWhile] at dropped
      exact (List.cons.inj dropped).2.symm
    rw [ih]
    constructor
    · rintro (rfl | name | dotted)
      · exact .inr (.inr (dotted_iff.mpr ⟨_, _, text, label, .inl rfl⟩))
      · exact .inr (.inl (hostName_iff.mpr (.inr ⟨_, _, text, label, name⟩)))
      · exact .inr (.inr (dotted_iff.mpr ⟨_, _, text, label, .inr dotted⟩))
    · rintro (empty | name | dotted)
      · cases empty
      · rcases hostName_iff.mp name with single | ⟨label', rest'', same, valid, name'⟩
        · have dropped := List.dropWhile_eq_nil_iff.mpr single.2
          rw [text, label.dropWhile] at dropped
          cases dropped
        · rw [← split valid same]
          exact .inr (.inl name')
      · obtain ⟨label', rest'', same, valid, ends⟩ := dotted_iff.mp dotted
        rw [← split valid same]
        exact ends.imp_right .inr
  | case4 c rest host d rest' found notDot =>
    have dropped : (c :: rest).dropWhile isHostCharacter = d :: rest' := by
      rw [List.dropWhile_cons_of_pos host, found]
    have other : ∀ {label' rest'' : List UChar}, IsLabel label' →
        c :: rest ≠ label' ++ dot :: rest'' := by
      intro label' rest'' valid same
      rw [same, valid.dropWhile] at dropped
      exact notDot (beq_iff_eq.mpr (List.cons.inj dropped).1.symm)
    apply iff_of_false (by simp)
    rintro (empty | name | dotted)
    · cases empty
    · rcases hostName_iff.mp name with single | ⟨label', rest'', same, valid, -⟩
      · rw [List.dropWhile_eq_nil_iff.mpr single.2] at dropped
        cases dropped
      · exact other valid same
    · obtain ⟨label', rest'', same, valid, -⟩ := dotted_iff.mp dotted
      exact other valid same
  | case5 c rest notHost =>
    apply iff_of_false (by simp)
    rintro (empty | name | ⟨name, valid, same⟩)
    · cases empty
    · obtain ⟨c', rest', same, host⟩ := name.starts
      cases same
      exact notHost host
    · obtain ⟨c', rest', rfl, host⟩ := valid.starts
      cases same
      exact notHost host

/-- The hosts outside of the grammar that `parseHost` takes: a dot may end them. -/
def HostPart.EndsInDot : HostPart → Prop
  | any => False
  | name wildcard labels => (wildcard = true ∧ labels = []) ∨ Dotted labels

def HostPart.Accepted (host : HostPart) : Prop := host.WellFormed ∨ host.EndsInDot

theorem Dotted.starts {text : List UChar} (dotted : Dotted text) :
    ∃ c rest, text = c :: rest ∧ isHostCharacter c = true := by
  obtain ⟨name, valid, rfl⟩ := dotted
  obtain ⟨c, rest, rfl, host⟩ := valid.starts
  exact ⟨c, rest ++ [dot], rfl, host⟩

theorem parseHost_iff {text : List UChar} {stored : List UChar × Bool} :
    parseHost text = some stored ↔
      ∃ host : HostPart, host.Accepted ∧ text = host.text ∧ stored = host.stored := by
  have star : ∀ {labels : List UChar}, hostLabels labels = true →
      (HostPart.name true labels).Accepted := by
    intro labels valid
    rcases hostLabels_iff.mp valid with empty | name | dotted
    · exact .inr (.inl ⟨rfl, empty⟩)
    · exact .inl name
    · exact .inr (.inr dotted)
  have back : ∀ {w : Bool} {labels : List UChar}, (HostPart.name w labels).Accepted →
      hostLabels labels = true := by
    rintro w labels (name | ⟨-, empty⟩ | dotted)
    · exact hostLabels_iff.mpr (.inr (.inl name))
    · exact hostLabels_iff.mpr (.inl empty)
    · exact hostLabels_iff.mpr (.inr (.inr dotted))
  have first : ∀ {labels : List UChar}, (HostPart.name false labels).Accepted →
      ∃ c rest, labels = c :: rest ∧ isHostCharacter c = true := by
    rintro labels (name | ⟨no, -⟩ | dotted)
    · exact name.starts
    · cases no
    · exact dotted.starts
  constructor
  · intro parsed
    unfold parseHost at parsed
    split at parsed
    · cases parsed
    · rename_i c rest
      split_ifs at parsed with isStar valid
      · rw [beq_iff_eq.mp isStar]
        split at parsed
        · cases parsed
          exact ⟨.any, .inl trivial, rfl, rfl⟩
        · rename_i d name
          split_ifs at parsed with valid
          cases parsed
          obtain ⟨isDot, valid⟩ := Bool.and_eq_true _ _ ▸ valid
          rw [beq_iff_eq.mp isDot]
          exact ⟨.name true name, star valid, rfl, rfl⟩
      · cases parsed
        refine ⟨.name false (c :: rest), ?_, rfl, rfl⟩
        rcases hostLabels_iff.mp valid with empty | name | dotted
        · cases empty
        · exact .inl name
        · exact .inr (.inr dotted)
  · rintro ⟨host, accepted, rfl, rfl⟩
    cases host with
    | any => rfl
    | name wildcard labels =>
      cases wildcard with
      | true =>
        have valid := back accepted
        simp [HostPart.text, HostPart.stored, parseHost, valid]
      | false =>
        have valid := back accepted
        obtain ⟨c, rest, rfl, host⟩ := first accepted
        have plain := (hostCharacter_plain host).2.2.1
        simp [HostPart.text, HostPart.stored, parseHost, valid, plain]

/-- A host is not empty, has no colon or slash, and does not begin with a quote. -/
theorem HostPart.Accepted.plain {host : HostPart} (accepted : host.Accepted) :
    (∀ c ∈ host.text, isNotColonOrSlash c = true) ∧
      ∃ c rest, host.text = c :: rest ∧ c ≤ 0x7F ∧ c ≠ 0x27 := by
  cases host with
  | any =>
    refine ⟨?_, asterisk, [], rfl, by decide, by decide⟩
    intro c member
    rw [List.mem_singleton.mp member]
    decide
  | name wildcard labels =>
    have inner : ∀ c ∈ labels, isNotColonOrSlash c = true := by
      rcases accepted with name | ⟨-, rfl⟩ | ⟨name, valid, rfl⟩
      · exact HostName.plain name
      · simp
      · intro c member
        rcases List.mem_append.mp member with member | member
        · exact valid.plain c member
        · rw [List.mem_singleton.mp member]
          decide
    cases wildcard with
    | true =>
      refine ⟨?_, asterisk, dot :: labels, rfl, by decide, by decide⟩
      intro c member
      simp only [HostPart.text, if_true, List.cons_append, List.nil_append, List.mem_cons] at member
      rcases member with rfl | rfl | member
      · decide
      · decide
      · exact inner c member
    | false =>
      have starts : ∃ c rest, labels = c :: rest ∧ isHostCharacter c = true := by
        rcases accepted with name | ⟨no, -⟩ | dotted
        · exact HostName.starts name
        · cases no
        · exact dotted.starts
      obtain ⟨c, rest, rfl, host⟩ := starts
      exact ⟨inner, c, rest, rfl, (hostCharacter_plain host).2.2.2⟩

theorem HostPart.text_injective {host host' : HostPart} (accepted : host.Accepted)
    (accepted' : host'.Accepted) (same : host.text = host'.text) : host = host' := by
  have stored := parseHost_iff.mpr ⟨host, accepted, rfl, rfl⟩
  rw [parseHost_iff.mpr ⟨host', accepted', same, rfl⟩, Option.some.injEq] at stored
  cases host with
  | any =>
    cases host' with
    | any => rfl
    | name wildcard labels =>
      cases stored
      cases same
  | name wildcard labels =>
    cases host' with
    | any =>
      cases stored
      cases same
    | name wildcard' labels' =>
      cases stored
      rfl

/-! ## Ports -/

theorem digit_of_isASCIIDigit {c : UChar} (digit : isASCIIDigit c = true) :
    ∃ d < 10, Digit c d ∧ (d : Int) = (c.toNat : Int) - 0x30 := by
  have range := digit_range digit
  exact ⟨c.toNat - 0x30, by omega, .inl ⟨by omega, by omega⟩, by omega⟩

theorem numberAfter_eq {value : Int} {digits : List UChar}
    (all : ∀ c ∈ digits, isASCIIDigit c = true) :
    numberAfter 10 value digits = appendDigits value digits := by
  induction digits generalizing value with
  | nil => rfl
  | cons c digits ih =>
    obtain ⟨d, -, digit, same⟩ := digit_of_isASCIIDigit (all c List.mem_cons_self)
    rw [numberAfter_cons, ih fun e member => all e (List.mem_cons_of_mem _ member),
      digitValue_eq digit, same]
    rfl

theorem number_eq {digits : List UChar} (all : ∀ c ∈ digits, isASCIIDigit c = true) :
    number 10 digits = decimal digits :=
  numberAfter_eq all

theorem decimal_nonneg {digits : List UChar} (all : ∀ c ∈ digits, isASCIIDigit c = true) :
    0 ≤ decimal digits := by
  rw [← number_eq all]
  exact le_numberAfter (by decide) le_rfl

theorem charactersToIntStrict_digits (icu : Icu) {digits : List UChar} (nonempty : digits ≠ [])
    (all : ∀ c ∈ digits, isASCIIDigit c = true) :
    charactersToIntStrict icu digits =
      if decimal digits ≤ 2147483647 then some (decimal digits) else none := by
  have numeral : Numeral icu ⟨true, .w32⟩ 10 digits false digits := by
    refine ⟨[], [], [], by simp, by simp, .inr ⟨rfl, .inl rfl⟩, ⟨nonempty, fun c member => ?_⟩,
      by simp⟩
    obtain ⟨d, less, digit, -⟩ := digit_of_isASCIIDigit (all c member)
    exact ⟨d, less, digit⟩
  have exact := (IntegralReading.exact_iff_within (by decide) numeral).mpr
    (IntegralReading.within_nonneg (by decide))
  have same := number_eq all
  have nonneg := decimal_nonneg all
  have read : ∀ v, charactersToIntStrict icu digits = some v ↔
      v = decimal digits ∧ v ≤ 2147483647 := by
    intro v
    rw [charactersToIntStrict, exact v, Denotes]
    constructor
    · rintro ⟨⟨isNegative, digits', numeral', rfl⟩, fits⟩
      obtain ⟨rfl, rfl⟩ := numeral.unique (by decide) numeral'
      exact ⟨same, fits.2⟩
    · rintro ⟨rfl, below⟩
      exact ⟨⟨false, digits, numeral, same.symm⟩, le_trans (by decide) nonneg, below⟩
  split_ifs with fits
  · exact (read _).mpr ⟨rfl, fits⟩
  · rw [Option.eq_none_iff_forall_ne_some]
    intro v parsed
    obtain ⟨rfl, below⟩ := (read v).mp parsed
    exact fits below

theorem parsePort_iff (icu : Icu) {text : List UChar} {stored : Int × Bool}
    (starts : text.head? = some colon) :
    parsePort icu text = some stored ↔
      ∃ port : PortPart, port.WellFormed ∧ text = port.text ∧ stored = port.stored := by
  obtain ⟨rest, rfl⟩ : ∃ rest, text = colon :: rest := by
    cases text with
    | nil => cases starts
    | cons c rest =>
      cases starts
      exact ⟨rest, rfl⟩
  unfold parsePort
  simp only [List.drop_succ_cons, List.drop_zero, List.dropWhile_eq_nil_iff]
  have numbered : ∀ {digits : List UChar}, (PortPart.number digits).WellFormed →
      colon :: rest = (PortPart.number digits).text → digits = rest := by
    intro digits _ same
    exact (List.cons.inj same).2.symm
  split_ifs with empty star digits
  · apply iff_of_false (by simp)
    rintro ⟨port, valid, same, -⟩
    cases port with
    | any =>
      rw [empty] at same
      cases same
    | number ds => exact valid.1 ((numbered valid same).trans empty)
  · rw [Option.some.injEq, star]
    constructor
    · rintro rfl
      exact ⟨.any, trivial, rfl, rfl⟩
    · rintro ⟨port, valid, same, rfl⟩
      cases port with
      | any => rfl
      | number ds =>
        cases same
        exact absurd (valid.2.1 asterisk List.mem_cons_self) (by decide)
  · rw [charactersToIntStrict_digits icu empty digits]
    constructor
    · intro parsed
      split_ifs at parsed with fits
      · cases parsed
        exact ⟨.number rest, ⟨empty, digits, fits⟩, rfl, rfl⟩
      · cases parsed
    · rintro ⟨port, valid, same, rfl⟩
      cases port with
      | any => exact absurd (List.cons.inj same).2 star
      | number ds =>
        obtain rfl := numbered valid same
        rw [if_pos valid.2.2]
        rfl
  · apply iff_of_false (by simp)
    rintro ⟨port, valid, same, -⟩
    cases port with
    | any => exact star (List.cons.inj same).2
    | number ds =>
      obtain rfl := numbered valid same
      exact digits valid.2.1

/-! ## From the host on -/

/-- A text up to the first character of some kind, and the rest. -/
theorem span_eq_iff {p : UChar → Bool} {text first rest : List UChar} :
    text.span p = (first, rest) ↔ text = first ++ rest ∧ (∀ c ∈ first, p c = true) ∧
      ∀ c, rest.head? = some c → p c = false := by
  rw [List.span_eq_takeWhile_dropWhile, Prod.mk.injEq]
  constructor
  · rintro ⟨rfl, rfl⟩
    refine ⟨List.takeWhile_append_dropWhile.symm, fun c => List.mem_takeWhile_imp, ?_⟩
    intro c found
    have := List.head?_dropWhile_not p text
    rw [found] at this
    simpa using this
  · rintro ⟨rfl, all, ends⟩
    rw [List.takeWhile_append_of_pos all, List.dropWhile_append_of_pos all]
    cases rest with
    | nil => simp
    | cons c rest =>
      have stops := ends c rfl
      simp [stops]

theorem HostSource.portText_starts {source : HostSource} :
    source.portText = [] ∧ source.port = none ∨
      ∃ port rest, source.port = some port ∧ source.portText = port.text ∧
        port.text = colon :: rest := by
  cases given : source.port with
  | none => exact .inl ⟨by simp [portText, given], rfl⟩
  | some port =>
    right
    cases port with
    | any => exact ⟨.any, _, rfl, by simp [portText, given], rfl⟩
    | number digits => exact ⟨.number digits, _, rfl, by simp [portText, given], rfl⟩

theorem PortPart.WellFormed.no_slash {port : PortPart} (valid : port.WellFormed) :
    ∀ c ∈ port.text, (c != slash) = true := by
  intro c member
  cases port with
  | any =>
    simp only [PortPart.text, List.mem_cons, List.not_mem_nil, or_false] at member
    rcases member with rfl | rfl <;> decide
  | number digits =>
    rcases List.mem_cons.mp member with rfl | member
    · decide
    · exact bne_iff_ne.mpr (digit_not_slash (valid.2.1 c member))

/-- What is behind the host begins with a colon or slash. -/
theorem HostSource.Surrounded.ends {source : HostSource} (valid : source.Surrounded) :
    ∀ c, (source.portText ++ source.path.getD []).head? = some c → isNotColonOrSlash c = false := by
  intro c found
  rcases source.portText_starts with ⟨empty, -⟩ | ⟨port, rest, -, text, starts⟩
  · rw [empty, List.nil_append] at found
    cases given : source.path with
    | none => simp [given] at found
    | some path =>
      rw [given, Option.getD_some, valid.path path given] at found
      cases found
      decide
  · rw [text, starts] at found
    cases found
    decide

section

variable (icu : Icu) {decodeURLEscapeSequences : List UChar → List UChar}

theorem parseFromHost_port {scheme text hostText rest portText pathText : List UChar}
    (split : text.span isNotColonOrSlash = (hostText, rest)) (starts : rest.head? = some colon)
    (split' : rest.span (· != slash) = (portText, pathText)) :
    parseFromHost icu decodeURLEscapeSequences scheme text =
      (parseHost hostText).bind fun host => (parsePort icu portText).map fun port =>
        ⟨scheme, host.1, port.1,
          if pathText ≠ [] then parsePath decodeURLEscapeSequences pathText else [],
          host.2, port.2⟩ := by
  simp only [parseFromHost, split, starts, split', if_true, reduceCtorEq, and_false, if_false]
  cases parseHost hostText with
  | none => rfl
  | some host => cases parsePort icu portText <;> rfl

theorem parseFromHost_noPort {scheme text hostText rest : List UChar}
    (split : text.span isNotColonOrSlash = (hostText, rest)) (starts : rest.head? ≠ some colon) :
    parseFromHost icu decodeURLEscapeSequences scheme text =
      (parseHost hostText).map fun host =>
        ⟨scheme, host.1, 0, if rest ≠ [] then parsePath decodeURLEscapeSequences rest else [],
          host.2, false⟩ := by
  simp only [parseFromHost, split, starts, if_false, and_true]
  by_cases bare : rest ≠ [] ∧ hostText = []
  · rw [if_pos bare, bare.2]
    rfl
  · rw [if_neg bare]
    cases parseHost hostText <;> rfl

theorem parseFromHost_iff {scheme text : List UChar} {source : CSPSource} :
    parseFromHost icu decodeURLEscapeSequences scheme text = some source ↔
      ∃ hostSource : HostSource, hostSource.scheme = none ∧ hostSource.host.Accepted ∧
        hostSource.Surrounded ∧ text = hostSource.text ∧
        source = { hostSource.stored decodeURLEscapeSequences with scheme } := by
  constructor
  · intro parsed
    obtain ⟨⟨hostText, rest⟩, split⟩ : ∃ pair, text.span isNotColonOrSlash = pair := ⟨_, rfl⟩
    obtain ⟨rfl, -, ends⟩ := span_eq_iff.mp split
    -- the path is what is left, if anything is
    have path : ∀ {text : List UChar}, (∀ c, text.head? = some c → c = slash) →
        ∃ path : Option (List UChar), text = path.getD [] ∧
          (∀ path', path = some path' → path'.head? = some slash) ∧
          (if text ≠ [] then parsePath decodeURLEscapeSequences text else []) =
            path.elim [] (parsePath decodeURLEscapeSequences) := by
      intro text starts
      cases text with
      | nil => exact ⟨none, rfl, nofun, rfl⟩
      | cons c text =>
        refine ⟨some (c :: text), rfl, ?_, by simp⟩
        rintro _ ⟨⟩
        rw [starts c rfl]
        rfl
    by_cases starts : rest.head? = some colon
    · obtain ⟨⟨portText, pathText⟩, split'⟩ : ∃ pair, rest.span (· != slash) = pair := ⟨_, rfl⟩
      rw [parseFromHost_port icu split starts split'] at parsed
      obtain ⟨rfl, -, ends'⟩ := span_eq_iff.mp split'
      obtain ⟨host, parsedHost, parsed⟩ := Option.bind_eq_some_iff.mp parsed
      obtain ⟨port, parsedPort, rfl⟩ := Option.map_eq_some_iff.mp parsed
      have starts' : portText.head? = some colon := by
        cases portText with
        | nil =>
          have := ends' colon starts
          revert this
          decide
        | cons c portText => exact starts
      obtain ⟨host', accepted, rfl, rfl⟩ := parseHost_iff.mp parsedHost
      obtain ⟨port', valid, rfl, rfl⟩ := (parsePort_iff icu starts').mp parsedPort
      obtain ⟨path', rfl, slashed, same⟩ := @path pathText (by simpa using ends')
      refine ⟨⟨none, host', some port', path'⟩, rfl, accepted, ⟨nofun, ?_, slashed⟩, rfl, ?_⟩
      · rintro _ ⟨⟩
        exact valid
      · rw [same]
        rfl
    · rw [parseFromHost_noPort icu split starts] at parsed
      obtain ⟨host, parsedHost, rfl⟩ := Option.map_eq_some_iff.mp parsed
      obtain ⟨host', accepted, rfl, rfl⟩ := parseHost_iff.mp parsedHost
      have slashed : ∀ c, rest.head? = some c → c = slash := by
        intro c found
        have stops := ends c found
        by_contra other
        rw [isNotColonOrSlash_iff.mpr ⟨fun same => starts (same ▸ found), other⟩] at stops
        cases stops
      obtain ⟨path', rfl, slashed, same⟩ := path slashed
      refine ⟨⟨none, host', none, path'⟩, rfl, accepted, ⟨nofun, nofun, slashed⟩, rfl, ?_⟩
      rw [same]
      rfl
  · rintro ⟨⟨_, host, port, path⟩, rfl, accepted, surrounded, rfl, rfl⟩
    have parsedHost := parseHost_iff.mpr ⟨host, accepted, rfl, rfl⟩
    have pathOf : (if path.getD [] ≠ [] then parsePath decodeURLEscapeSequences (path.getD []) else [])
        = path.elim [] (parsePath decodeURLEscapeSequences) := by
      cases path with
      | none => rfl
      | some path =>
        have nonempty : path ≠ [] := by
          rintro rfl
          have := surrounded.path [] rfl
          cases this
        simp [nonempty]
    cases port with
    | none =>
      have starts : (path.getD []).head? ≠ some colon := by
        cases path with
        | none => simp
        | some path =>
          rw [Option.getD_some, surrounded.path path rfl]
          decide
      have split : (HostSource.mk none host none path).text.span isNotColonOrSlash =
          (host.text, path.getD []) :=
        span_eq_iff.mpr ⟨rfl, accepted.plain.1, surrounded.ends⟩
      rw [parseFromHost_noPort icu split starts, parsedHost, Option.map_some, pathOf]
      rfl
    | some port =>
      have valid := surrounded.port port rfl
      have starts : port.text.head? = some colon := by
        cases port <;> rfl
      have starts' : (port.text ++ path.getD []).head? = some colon := by
        rw [List.head?_append, starts]
        rfl
      have ends : ∀ c, (path.getD []).head? = some c → (c != slash) = false := by
        intro c found
        cases path with
        | none => cases found
        | some path =>
          rw [Option.getD_some, surrounded.path path rfl] at found
          cases found
          rfl
      have split : (HostSource.mk none host (some port) path).text.span isNotColonOrSlash =
          (host.text, port.text ++ path.getD []) :=
        span_eq_iff.mpr ⟨rfl, accepted.plain.1, surrounded.ends⟩
      have split' := span_eq_iff.mpr ⟨rfl, valid.no_slash, ends⟩
      rw [parseFromHost_port icu split starts' split', parsedHost,
        (parsePort_iff icu starts).mpr ⟨port, valid, rfl, rfl⟩, Option.bind_some, Option.map_some,
        pathOf]
      rfl

end

end NetRider.Csp
