import Mathlib
import NetRider.Csp.SourceParsing

/-!
# What a source list admits
-/

namespace NetRider.Csp

open NetRider.Wtf

section

variable (icu : Icu) (decodeURLEscapeSequences : List UChar → List UChar)
variable (origin : SecurityOrigin) (url : Url)

/-! ## The rules -/

/-- The port is the given one, or one is absent and the other the default of the scheme. -/
def PortAgrees (given : Option Int) : Prop :=
  match given, url.port with
  | none, none => True
  | none, some port => defaultPort icu url.protocol = some port
  | some given, none => ∃ port, defaultPort icu url.protocol = some port ∧ given = port.toNat
  | some given, some port => given = port.toNat

def PathAgrees (given : List UChar) : Prop :=
  given = [] ∨
    if given.getLast? = some slash then
      startsWithStringIgnoringCase icu (decodeURLEscapeSequences url.path) given = true
    else decodeURLEscapeSequences url.path = given

def HostPart.Agrees : HostPart → Prop
  | any => True
  | name wildcard labels => sameIgnoringCase icu url.host labels = true ∨
      (wildcard = true ∧ endsWithIgnoringCase icu url.host (dot :: labels) = true)

/-- The number of the port, if there is one. -/
def HostSource.givenPort (source : HostSource) : Option Int :=
  match source.port with
  | some (.number digits) => some (decimal digits)
  | _ => none

structure HostSource.Matches (source : HostSource) : Prop where
  scheme : sameIgnoringCase icu url.protocol (source.scheme.getD origin.protocol) = true
  host : source.host.Agrees icu url
  port : source.port = some .any ∨ PortAgrees icu url source.givenPort
  path : PathAgrees icu decodeURLEscapeSequences url
    (source.path.elim [] (parsePath decodeURLEscapeSequences))

def SecurityOrigin.givenPort : Option Int := if origin.port = 0 then none else some origin.port.toNat

/-- The protected resource itself. -/
structure MatchesSelf : Prop where
  scheme : sameIgnoringCase icu url.protocol origin.protocol = true
  host : sameIgnoringCase icu url.host origin.host = true
  port : PortAgrees icu url origin.givenPort

def SourceExpression.Matches : SourceExpression → Prop
  | keyword .star => True
  | keyword .self => MatchesSelf icu origin url
  | keyword .unsafeInline => False
  | keyword .unsafeEval => False
  | scheme name => sameIgnoringCase icu url.protocol name = true
  | emptyHost name => sameIgnoringCase icu url.protocol name = true
  | host source => source.Matches icu decodeURLEscapeSequences origin url

/-! ## What goes wrong -/

/-- Without a scheme, a host and a path alone, or a port or path behind "*": never stored. -/
def SourceExpression.Dropped : SourceExpression → Prop
  | host source => source.scheme = none ∧ (source.host = .any ∨ source.BarePath)
  | _ => False

/-- A port 0 counts as absent, and a port above 65535 is cut to 16 bits. -/
def LoosePort (given : Option Int) : Prop :=
  match given, url.port with
  | none, none => False
  | none, some port => port = 0
  | some given, none => given = 0 ∨
      (65536 ≤ given ∧ isDefaultPortForProtocol icu (UInt16.ofInt given) url.protocol = true)
  | some given, some port =>
    (port = 0 ∧ isDefaultPortForProtocol icu (UInt16.ofInt given) url.protocol = true) ∨
    (given = 0 ∧ isDefaultPortForProtocol icu port url.protocol = true)

/-- The expressions that are read too loosely: with an empty host only the scheme counts. -/
def SourceExpression.Loose : SourceExpression → Prop
  | keyword .self => sameIgnoringCase icu url.protocol origin.protocol = true ∧
      (origin.host = [] ∨
        (sameIgnoringCase icu url.host origin.host = true ∧ LoosePort icu url origin.givenPort))
  | host source =>
    sameIgnoringCase icu url.protocol (source.scheme.getD origin.protocol) = true ∧
    ((source.host = .any ∧ source.scheme ≠ none) ∨
      (source.host ≠ .any ∧ ¬ source.BarePath ∧ source.host.Agrees icu url ∧
        source.port ≠ some .any ∧ LoosePort icu url source.givenPort ∧
        PathAgrees icu decodeURLEscapeSequences url
          (source.path.elim [] (parsePath decodeURLEscapeSequences))))
  | _ => False

/-! ## Ports -/

theorem isDefaultPortForProtocol_iff {icu : Icu} {port : UInt16} {protocol : List UChar}
    (given : port ≠ 0) :
    isDefaultPortForProtocol icu port protocol = true ↔ defaultPort icu protocol = some port := by
  unfold isDefaultPortForProtocol
  split_ifs with empty
  · subst empty
    have unknown : defaultPort icu [] = none := by
      simp [defaultPort, sameIgnoringCase, ascii]
    simp [unknown]
  · rw [beq_iff_eq]
    cases defaultPort icu protocol with
    | none => simp [given.symm]
    | some default => simp

theorem toNat_ofInt {n : Int} (least : 0 ≤ n) (small : n < 65536) :
    ((UInt16.ofInt n).toNat : Int) = n := by
  simp [UInt16.ofInt]
  omega

theorem portMatches_iff {source : CSPSource} {given : Option Int} (least : ∀ n, given = some n → 0 ≤ n)
    (stored : source.port = given.getD 0) (number : source.portHasWildcard = false) :
    source.portMatches icu url = true ↔ PortAgrees icu url given ∨ LoosePort icu url given := by
  unfold CSPSource.portMatches PortAgrees LoosePort Url.portNumber
  rw [number, stored]
  cases given with
  | none =>
    cases url.port with
    | none => simp
    | some port =>
      by_cases zero : port = 0
      · simp [zero]
      · have nonzero : port.toNat ≠ 0 := fun same => zero (UInt16.toNat_inj.mp same)
        simp [zero, nonzero, isDefaultPortForProtocol_iff zero]
  | some n =>
    have least := least n rfl
    cases url.port with
    | none =>
      by_cases zero : n = 0
      · simp [zero]
      · have mismatch : ¬ (0 : Int) = n := fun same => zero same.symm
        simp only [Option.getD_none, Option.getD_some, Bool.false_eq_true, if_false,
          UInt16.toNat_zero, Int.natCast_zero, mismatch, if_true, zero, false_or]
        by_cases large : 65536 ≤ n
        · have beyond : ¬ ∃ port, defaultPort icu url.protocol = some port ∧ n = port.toNat := by
            rintro ⟨port, -, same⟩
            have := port.toNat_lt
            omega
          simp [large, beyond]
        · have value := toNat_ofInt least (by omega)
          have nonzero : UInt16.ofInt n ≠ 0 := by
            intro same
            rw [same] at value
            exact mismatch value
          rw [isDefaultPortForProtocol_iff nonzero]
          constructor
          · intro default
            exact .inl ⟨_, default, value.symm⟩
          · rintro (⟨port, default, same⟩ | ⟨beyond, -⟩)
            · rw [default]
              congr 1
              apply UInt16.toNat_inj.mp
              omega
            · exact absurd beyond large
    | some port =>
      by_cases same : (port.toNat : Int) = n
      · simp [same]
      · have other : ¬ n = port.toNat := fun h => same h.symm
        simp only [Option.getD_some, Bool.false_eq_true, if_false, same, other, false_or]
        by_cases zero : port = 0
        · have nonzero : n ≠ 0 := by
            rintro rfl
            exact same (by simp [zero])
          simp [zero, nonzero]
        · have positive : ¬ (port.toNat : Int) = 0 :=
            fun h => zero (UInt16.toNat_inj.mp (Int.natCast_eq_zero.mp h))
          simp only [positive, zero, if_false, false_and, false_or]
          by_cases absent : n = 0
          · simp [absent]
          · simp [absent]

/-! ## One source -/

theorem pathMatches_iff (source : CSPSource) :
    source.pathMatches icu decodeURLEscapeSequences url = true ↔
      PathAgrees icu decodeURLEscapeSequences url source.path := by
  unfold CSPSource.pathMatches PathAgrees
  by_cases empty : source.path = []
  · simp [empty]
  · simp only [empty, if_false, false_or]
    split_ifs
    · rfl
    · exact beq_iff_eq

theorem schemeMatches_stored {source : HostSource} (valid : source.WellFormed) :
    (source.stored decodeURLEscapeSequences).schemeMatches icu origin url =
      sameIgnoringCase icu url.protocol (source.scheme.getD origin.protocol) := by
  unfold CSPSource.schemeMatches
  cases given : source.scheme with
  | none => simp [HostSource.stored, given]
  | some scheme =>
    obtain ⟨c, rest, rfl, -⟩ := valid.scheme scheme given
    simp [HostSource.stored, given]

theorem stored_host {source : HostSource} (valid : source.WellFormed) :
    (source.stored decodeURLEscapeSequences).host = [] ↔ source.host = .any := by
  cases given : source.host with
  | any => simp [HostSource.stored, HostPart.stored, given]
  | name wildcard labels =>
    have name : HostName labels := by
      have host := valid.host
      rwa [given] at host
    obtain ⟨c, rest, rfl, -⟩ := name.starts
    simp [HostSource.stored, HostPart.stored, given]

theorem hostMatches_stored {source : HostSource} (named : source.host ≠ .any) :
    (source.stored decodeURLEscapeSequences).hostMatches icu url = true ↔
      source.host.Agrees icu url := by
  cases given : source.host with
  | any => exact absurd given named
  | name wildcard labels =>
    simp [HostSource.stored, HostPart.stored, given, CSPSource.hostMatches, HostPart.Agrees]

theorem portMatches_stored {source : HostSource} (valid : source.WellFormed) :
    (source.stored decodeURLEscapeSequences).portMatches icu url = true ↔
      source.port = some .any ∨ (source.port ≠ some .any ∧
        (PortAgrees icu url source.givenPort ∨ LoosePort icu url source.givenPort)) := by
  cases given : source.port with
  | none =>
    have none_ : source.givenPort = none := by simp [HostSource.givenPort, given]
    rw [@portMatches_iff icu url _ none nofun (by simp [HostSource.stored, given])
      (by simp [HostSource.stored, given]), none_]
    simp
  | some port =>
    cases port with
    | any =>
      simp [HostSource.stored, given, PortPart.stored, CSPSource.portMatches]
    | number digits =>
      have wellFormed := valid.port _ given
      have least : 0 ≤ decimal digits := decimal_nonneg wellFormed.2.1
      have some_ : source.givenPort = some (decimal digits) := by
        simp [HostSource.givenPort, given]
      rw [@portMatches_iff icu url _ (some (decimal digits)) (by simpa using least)
        (by simp [HostSource.stored, given, PortPart.stored])
        (by simp [HostSource.stored, given, PortPart.stored]), some_]
      simp

/-- What the stored source of an expression matches. -/
theorem matchesUrl_stored {source : HostSource} (valid : source.WellFormed) :
    (source.stored decodeURLEscapeSequences).matchesUrl icu decodeURLEscapeSequences origin url = true ↔
      sameIgnoringCase icu url.protocol (source.scheme.getD origin.protocol) = true ∧
      (source.host = .any ∨ (source.host ≠ .any ∧ source.host.Agrees icu url ∧
        (source.port = some .any ∨ (source.port ≠ some .any ∧
          (PortAgrees icu url source.givenPort ∨ LoosePort icu url source.givenPort))) ∧
        PathAgrees icu decodeURLEscapeSequences url
          (source.path.elim [] (parsePath decodeURLEscapeSequences)))) := by
  unfold CSPSource.matchesUrl CSPSource.isSchemeOnly
  rw [schemeMatches_stored icu decodeURLEscapeSequences origin url valid]
  simp only [Bool.and_eq_true, Bool.or_eq_true, beq_iff_eq, stored_host decodeURLEscapeSequences valid,
    portMatches_stored icu decodeURLEscapeSequences url valid, pathMatches_iff]
  apply and_congr_right
  intro scheme
  by_cases lone : source.host = .any
  · simp [lone]
  · rw [hostMatches_stored icu decodeURLEscapeSequences url lone]
    simp [lone, HostSource.stored, and_assoc]

def selfSource : CSPSource := ⟨origin.protocol, origin.host, origin.port.toNat, [], false, false⟩

theorem matchesUrl_self :
    (selfSource origin).matchesUrl icu decodeURLEscapeSequences origin url = true ↔
      sameIgnoringCase icu url.protocol origin.protocol = true ∧
      (origin.host = [] ∨ (sameIgnoringCase icu url.host origin.host = true ∧
        (PortAgrees icu url origin.givenPort ∨ LoosePort icu url origin.givenPort))) := by
  have scheme : (selfSource origin).schemeMatches icu origin url =
      sameIgnoringCase icu url.protocol origin.protocol := by
    unfold CSPSource.schemeMatches selfSource
    simp
  have least : ∀ n, origin.givenPort = some n → 0 ≤ n := by
    intro n given
    unfold SecurityOrigin.givenPort at given
    split_ifs at given
    cases given
    omega
  have stored : (selfSource origin).port = origin.givenPort.getD 0 := by
    unfold SecurityOrigin.givenPort selfSource
    split_ifs with zero
    · simp [zero]
    · rfl
  have port := portMatches_iff icu url least stored rfl
  have path : (selfSource origin).pathMatches icu decodeURLEscapeSequences url = true := rfl
  have host : (selfSource origin).hostMatches icu url = sameIgnoringCase icu url.host origin.host := by
    simp [CSPSource.hostMatches, selfSource]
  unfold CSPSource.matchesUrl CSPSource.isSchemeOnly
  simp only [scheme, host, path, port, Bool.and_eq_true, Bool.or_eq_true, beq_iff_eq, and_true]
  rfl

/-- What an accepted source contributes to the list. -/
def Parsed.Admits : Parsed → Prop
  | keyword .star => True
  | keyword .self =>
    (selfSource origin).matchesUrl icu decodeURLEscapeSequences origin url = true
  | keyword .unsafeInline => False
  | keyword .unsafeEval => False
  | source stored => ¬ (stored.scheme = [] ∧ stored.host = []) ∧
      stored.matchesUrl icu decodeURLEscapeSequences origin url = true

/-- Sources that `parseSource` rejects contribute nothing. -/
def Admits (text : List UChar) : Prop :=
  ∃ parsed, parseSource icu decodeURLEscapeSequences text = some parsed ∧
    parsed.Admits icu decodeURLEscapeSequences origin url

theorem not_admits_barePath {text : List UChar} {source : HostSource}
    (derives : Derives icu text (.host source)) (bare : source.BarePath) :
    ¬ Admits icu decodeURLEscapeSequences origin url text := by
  rcases derives_starts icu derives with ⟨k, -, other, -⟩ | ⟨-, c, rest, starts, plain⟩
  · cases other
  · rintro ⟨parsed, accepted, -⟩
    have notStar : c :: rest ≠ [asterisk] := by
      intro star
      have lone : Derives icu text (.keyword .star) := starts.trans star
      cases derivation_unique icu lone derives
    rw [starts, parseSource_unquoted icu plain notStar, ← starts, derives.2,
      parseUnquoted_barePath icu (.inl derives.1.host) derives.1.toSurrounded bare] at accepted
    cases accepted

theorem admits_scheme {name : List UChar} (valid : IsScheme name) :
    (Parsed.source (.schemeOnly name)).Admits icu decodeURLEscapeSequences origin url ↔
      sameIgnoringCase icu url.protocol name = true := by
  obtain ⟨c, rest, rfl, -⟩ := valid
  simp [Parsed.Admits, CSPSource.schemeOnly, CSPSource.matchesUrl, CSPSource.schemeMatches,
    CSPSource.isSchemeOnly]

theorem stored_scheme {source : HostSource} (valid : source.WellFormed) :
    (source.stored decodeURLEscapeSequences).scheme = [] ↔ source.scheme = none := by
  cases given : source.scheme with
  | none => simp [HostSource.stored, given]
  | some scheme =>
    obtain ⟨c, rest, rfl, -⟩ := valid.scheme scheme given
    simp [HostSource.stored, given]

theorem admits_host {source : HostSource} (valid : source.WellFormed)
    (notBare : ¬ source.BarePath) :
    (Parsed.source (source.stored decodeURLEscapeSequences)).Admits icu decodeURLEscapeSequences
        origin url ↔
      (¬ (SourceExpression.host source).Dropped ∧
        source.Matches icu decodeURLEscapeSequences origin url) ∨
        (SourceExpression.host source).Loose icu decodeURLEscapeSequences origin url := by
  simp only [Parsed.Admits, stored_scheme decodeURLEscapeSequences valid,
    stored_host decodeURLEscapeSequences valid,
    matchesUrl_stored icu decodeURLEscapeSequences origin url valid, SourceExpression.Dropped,
    SourceExpression.Loose]
  constructor
  · rintro ⟨stored, scheme, lone | ⟨named, host, port, path⟩⟩
    · exact .inr ⟨scheme, .inl ⟨lone, fun none_ => stored ⟨none_, lone⟩⟩⟩
    · have kept : ¬ (source.scheme = none ∧ (source.host = .any ∨ source.BarePath)) := by
        rintro ⟨-, lone | bare⟩
        · exact named lone
        · exact notBare bare
      rcases port with any | ⟨number, agrees | loose⟩
      · exact .inl ⟨kept, scheme, host, .inl any, path⟩
      · exact .inl ⟨kept, scheme, host, .inr agrees, path⟩
      · exact .inr ⟨scheme, .inr ⟨named, notBare, host, number, loose, path⟩⟩
  · rintro (⟨kept, scheme, host, port, path⟩ | ⟨scheme, ⟨lone, given⟩ |
      ⟨named, -, host, number, loose, path⟩⟩)
    · refine ⟨fun both => kept ⟨both.1, .inl both.2⟩, scheme, ?_⟩
      by_cases lone : source.host = .any
      · exact .inl lone
      · refine .inr ⟨lone, host, ?_, path⟩
        by_cases any : source.port = some .any
        · exact .inl any
        · exact .inr ⟨any, .inl (port.resolve_left any)⟩
    · exact ⟨fun both => given both.1, scheme, .inl lone⟩
    · exact ⟨fun both => named both.2, scheme, .inr ⟨named, host, .inr ⟨number, .inr loose⟩, path⟩⟩

theorem admits_self :
    (Parsed.keyword .self).Admits icu decodeURLEscapeSequences origin url ↔
      MatchesSelf icu origin url ∨
        (SourceExpression.keyword .self).Loose icu decodeURLEscapeSequences origin url := by
  simp only [Parsed.Admits, matchesUrl_self, SourceExpression.Loose]
  constructor
  · rintro ⟨scheme, empty | ⟨host, agrees | loose⟩⟩
    · exact .inr ⟨scheme, .inl empty⟩
    · exact .inl ⟨scheme, host, agrees⟩
    · exact .inr ⟨scheme, .inr ⟨host, loose⟩⟩
  · rintro (⟨scheme, host, agrees⟩ | ⟨scheme, empty | ⟨host, loose⟩⟩)
    · exact ⟨scheme, .inr ⟨host, .inl agrees⟩⟩
    · exact ⟨scheme, .inl empty⟩
    · exact ⟨scheme, .inr ⟨host, .inr loose⟩⟩

/-- An expression admits what it matches, unless it is dropped or read too loosely. -/
theorem admits_iff {text : List UChar} {e : SourceExpression} (derives : Derives icu text e) :
    Admits icu decodeURLEscapeSequences origin url text ↔
      (¬ e.Dropped ∧ e.Matches icu decodeURLEscapeSequences origin url) ∨
        e.Loose icu decodeURLEscapeSequences origin url := by
  by_cases bare : ∃ source, e = .host source ∧ source.BarePath
  · obtain ⟨source, rfl, bare⟩ := bare
    apply iff_of_false (not_admits_barePath icu decodeURLEscapeSequences origin url derives bare)
    rintro (⟨kept, -⟩ | ⟨-, ⟨-, given⟩ | ⟨-, notBare, -⟩⟩)
    · exact kept ⟨bare.1, .inr bare⟩
    · exact given bare.1
    · exact notBare bare
  · have parsed := @parseSource_complete icu decodeURLEscapeSequences _ _ derives
      (fun source same isBare => bare ⟨source, same, isBare⟩)
    have admits : Admits icu decodeURLEscapeSequences origin url text ↔
        (e.parsed decodeURLEscapeSequences).Admits icu decodeURLEscapeSequences origin url := by
      simp [Admits, parsed]
    rw [admits]
    cases e with
    | keyword k =>
      cases k with
      | star => simp [SourceExpression.parsed, Parsed.Admits, SourceExpression.Dropped,
          SourceExpression.Matches]
      | self =>
        rw [SourceExpression.parsed, admits_self]
        simp [SourceExpression.Dropped, SourceExpression.Matches]
      | unsafeInline => simp [SourceExpression.parsed, Parsed.Admits, SourceExpression.Matches,
          SourceExpression.Loose]
      | unsafeEval => simp [SourceExpression.parsed, Parsed.Admits, SourceExpression.Matches,
          SourceExpression.Loose]
    | scheme name =>
      rw [SourceExpression.parsed, admits_scheme _ _ _ _ derives.1]
      simp [SourceExpression.Dropped, SourceExpression.Matches, SourceExpression.Loose]
    | emptyHost name =>
      rw [SourceExpression.parsed, admits_scheme _ _ _ _ derives.1]
      simp [SourceExpression.Dropped, SourceExpression.Matches, SourceExpression.Loose]
    | host source =>
      exact admits_host _ _ _ _ derives.1 fun isBare => bare ⟨source, rfl, isBare⟩

/-! ## Source lists -/

/-- Source expressions with white space between them. -/
inductive SourceListText : List UChar → List SourceExpression → Prop
  | done {spaces : List UChar} (white : ∀ c ∈ spaces, isASCIISpace c = true) :
    SourceListText spaces []
  | next {spaces text rest : List UChar} {e : SourceExpression} {es : List SourceExpression}
    (white : ∀ c ∈ spaces, isASCIISpace c = true) (derives : Derives icu text e)
    (documented : e.Documented) (solid : ∀ c ∈ text, isASCIISpace c = false)
    (apart : ∀ c, rest.head? = some c → isASCIISpace c = true) (others : SourceListText rest es) :
    SourceListText (spaces ++ (text ++ rest)) (e :: es)

/-- The list as it is so far lets the URL through. -/
def CSPSourceList.Admits (sources : CSPSourceList) : Prop :=
  sources.allowStar = true ∨
    ∃ source ∈ sources.list, source.matchesUrl icu decodeURLEscapeSequences origin url = true

theorem add_admits (sources : CSPSourceList) (parsed : Parsed) :
    (sources.add origin parsed).Admits icu decodeURLEscapeSequences origin url ↔
      sources.Admits icu decodeURLEscapeSequences origin url ∨
        parsed.Admits icu decodeURLEscapeSequences origin url := by
  unfold CSPSourceList.Admits CSPSourceList.add
  cases parsed with
  | keyword k =>
    cases k with
    | star => simp [Parsed.Admits]
    | self =>
      simp only [CSPSourceList.addSourceSelf, Parsed.Admits, List.mem_append, List.mem_singleton,
        or_and_right, exists_or, exists_eq_left, or_assoc]
      rfl
    | unsafeInline => simp [Parsed.Admits]
    | unsafeEval => simp [Parsed.Admits]
  | source stored =>
    simp only [Parsed.Admits]
    split_ifs with hollow
    · simp [hollow]
    · simp [hollow, or_and_right, exists_or, or_assoc]

theorem Derives.ne_nil {icu : Icu} {text : List UChar} {e : SourceExpression}
    (derives : Derives icu text e) : text ≠ [] := by
  rintro rfl
  rcases derives_starts icu derives with ⟨k, quoted, -, same⟩ | ⟨-, c, rest, starts, -⟩
  · obtain ⟨rest, literal⟩ := literal_quote quoted
    rw [literal] at same
    cases same
  · cases starts

/-- White space is skipped. -/
theorem dropWhile_spaces {spaces text rest : List UChar}
    (white : ∀ c ∈ spaces, isASCIISpace c = true) (solid : ∀ c ∈ text, isASCIISpace c = false)
    (nonempty : text ≠ []) :
    (spaces ++ (text ++ rest)).dropWhile isASCIISpace = text ++ rest := by
  rw [List.dropWhile_append_of_pos white]
  cases text with
  | nil => exact absurd rfl nonempty
  | cons c more => simp [solid c List.mem_cons_self]

/-- The source goes up to the next white space. -/
theorem span_source {text rest : List UChar} (solid : ∀ c ∈ text, isASCIISpace c = false)
    (apart : ∀ c, rest.head? = some c → isASCIISpace c = true) :
    (text ++ rest).takeWhile (!isASCIISpace ·) = text ∧
      (text ++ rest).dropWhile (!isASCIISpace ·) = rest := by
  have inside : ∀ c ∈ text, (!isASCIISpace c) = true := by
    intro c member
    simp [solid c member]
  rw [List.takeWhile_append_of_pos inside, List.dropWhile_append_of_pos inside]
  cases rest with
  | nil => simp
  | cons c more => simp [apart c rfl]

theorem parseSources_next {spaces text rest : List UChar} (sources : CSPSourceList)
    (white : ∀ c ∈ spaces, isASCIISpace c = true) (solid : ∀ c ∈ text, isASCIISpace c = false)
    (nonempty : text ≠ []) (apart : ∀ c, rest.head? = some c → isASCIISpace c = true) :
    CSPSourceList.parseSources icu decodeURLEscapeSequences origin (spaces ++ (text ++ rest)) sources =
      CSPSourceList.parseSources icu decodeURLEscapeSequences origin rest
        (match parseSource icu decodeURLEscapeSequences text with
          | some parsed => sources.add origin parsed
          | none => sources) := by
  have skipped := @dropWhile_spaces spaces text rest white solid nonempty
  have source := span_source solid apart
  rw [CSPSourceList.parseSources]
  split
  · rename_i empty
    rw [skipped] at empty
    exact absurd (List.append_eq_nil_iff.mp empty).1 nonempty
  · rename_i c more starts
    rw [skipped] at starts
    rewrite [← starts, source.1, source.2]
    rfl

/-- What one turn of the loop adds. -/
theorem turn_admits (sources : CSPSourceList) (text : List UChar) :
    (match parseSource icu decodeURLEscapeSequences text with
      | some parsed => sources.add origin parsed
      | none => sources).Admits icu decodeURLEscapeSequences origin url ↔
      sources.Admits icu decodeURLEscapeSequences origin url ∨
        Admits icu decodeURLEscapeSequences origin url text := by
  unfold Csp.Admits
  cases parseSource icu decodeURLEscapeSequences text with
  | none => simp
  | some parsed => simp [add_admits]

/-- An expression counts when it is kept and matches, or is read too loosely. -/
def SourceExpression.Counts (e : SourceExpression) : Prop :=
  (¬ e.Dropped ∧ e.Matches icu decodeURLEscapeSequences origin url) ∨
    e.Loose icu decodeURLEscapeSequences origin url

theorem parseSources_admits {text : List UChar} {es : List SourceExpression}
    (written : SourceListText icu text es) (sources : CSPSourceList) :
    (CSPSourceList.parseSources icu decodeURLEscapeSequences origin text sources).Admits icu
        decodeURLEscapeSequences origin url ↔
      sources.Admits icu decodeURLEscapeSequences origin url ∨
        ∃ e ∈ es, e.Counts icu decodeURLEscapeSequences origin url := by
  induction written generalizing sources with
  | @done spaces white =>
    have skipped : spaces.dropWhile isASCIISpace = [] := List.dropWhile_eq_nil_iff.mpr white
    rw [CSPSourceList.parseSources]
    split
    · simp
    · rename_i starts
      rw [skipped] at starts
      cases starts
  | next white derives documented solid apart others ih =>
    rw [parseSources_next icu decodeURLEscapeSequences origin sources white solid derives.ne_nil apart,
      ih, turn_admits, admits_iff icu decodeURLEscapeSequences origin url derives]
    simp only [SourceExpression.Counts, List.mem_cons, exists_eq_or_imp, or_assoc]

/-- No expression is a beginning of 'none'. -/
theorem not_isSourceListNone {text : List UChar} {es : List SourceExpression}
    (written : SourceListText icu text es) (some_ : es ≠ []) :
    CSPSourceList.isSourceListNone icu text = false := by
  cases written with
  | done white => contradiction
  | @next spaces text rest e es white derives documented solid apart others =>
    have skipped := @dropWhile_spaces spaces text rest white solid derives.ne_nil
    have source := span_source solid apart
    have other : equalIgnoringCaseUpTo icu (ascii "'none'") text = false := by
      rcases derives_starts icu derives with ⟨k, quoted, -, same⟩ | ⟨-, c, more, starts, plain⟩
      · rw [equalIgnoringCaseUpTo, same]
        cases k with
        | star => contradiction
        | self => decide
        | unsafeInline => decide
        | unsafeEval => decide
      · rw [starts]
        exact not_upTo icu plain
    unfold CSPSourceList.isSourceListNone
    simp only [skipped, source.1, other, Bool.false_and]

theorem parse_admits {text : List UChar} {es : List SourceExpression}
    (written : SourceListText icu text es) :
    (CSPSourceList.parse icu decodeURLEscapeSequences origin text).Admits icu
        decodeURLEscapeSequences origin url ↔
      ∃ e ∈ es, e.Counts icu decodeURLEscapeSequences origin url := by
  have nothing : ¬ CSPSourceList.empty.Admits icu decodeURLEscapeSequences origin url := by
    simp [CSPSourceList.Admits, CSPSourceList.empty]
  have parsed := parseSources_admits icu decodeURLEscapeSequences origin url written .empty
  rw [or_iff_right nothing] at parsed
  unfold CSPSourceList.parse
  split_ifs with isNone
  · have none_ : es = [] := by
      by_contra some_
      rw [not_isSourceListNone icu written some_] at isNone
      cases isNone
    simp [nothing, none_]
  · exact parsed

/-- The URL that the sources are compared with. -/
def effectiveURL (extractInnerURL : Url → Url) : Url :=
  if sameIgnoringCase icu url.protocol (ascii "blob") then extractInnerURL url else url

theorem matches_iff_admits (extractInnerURL : Url → Url) (sources : CSPSourceList) :
    sources.matchesUrl icu decodeURLEscapeSequences extractInnerURL origin url = true ↔
      sources.Admits icu decodeURLEscapeSequences origin (effectiveURL icu url extractInnerURL) := by
  unfold CSPSourceList.matchesUrl CSPSourceList.Admits effectiveURL
  simp only [Bool.or_eq_true, List.any_eq_true]

/-- What the expressions of a list say about a URL. -/
def SomeMatches (es : List SourceExpression) : Prop :=
  ∃ e ∈ es, e.Matches icu decodeURLEscapeSequences origin url

/-- An expression that is kept matches, or a dropped one matches just when one is too loose. -/
def ReadAsWritten (es : List SourceExpression) : Prop :=
  (∃ e ∈ es, ¬ e.Dropped ∧ e.Matches icu decodeURLEscapeSequences origin url) ∨
    ((∃ e ∈ es, e.Dropped ∧ e.Matches icu decodeURLEscapeSequences origin url) ↔
      ∃ e ∈ es, e.Loose icu decodeURLEscapeSequences origin url)

theorem counts_iff_matches (es : List SourceExpression) :
    ((∃ e ∈ es, e.Counts icu decodeURLEscapeSequences origin url) ↔
        SomeMatches icu decodeURLEscapeSequences origin url es) ↔
      ReadAsWritten icu decodeURLEscapeSequences origin url es := by
  have counts : (∃ e ∈ es, e.Counts icu decodeURLEscapeSequences origin url) ↔
      (∃ e ∈ es, ¬ e.Dropped ∧ e.Matches icu decodeURLEscapeSequences origin url) ∨
        ∃ e ∈ es, e.Loose icu decodeURLEscapeSequences origin url := by
    simp only [SourceExpression.Counts, and_or_left, exists_or]
  have matching : SomeMatches icu decodeURLEscapeSequences origin url es ↔
      (∃ e ∈ es, ¬ e.Dropped ∧ e.Matches icu decodeURLEscapeSequences origin url) ∨
        ∃ e ∈ es, e.Dropped ∧ e.Matches icu decodeURLEscapeSequences origin url := by
    simp only [SomeMatches, ← exists_or, ← and_or_left, ← or_and_right, Classical.em, or_comm, true_and]
  rw [counts, matching, ReadAsWritten]
  by_cases kept : ∃ e ∈ es, ¬ e.Dropped ∧ e.Matches icu decodeURLEscapeSequences origin url
  · simp [kept]
  · simp only [kept, false_or]
    exact iff_comm

/-- **A source list admits what its expressions say** if and only if it is read as written. A blob is
compared by its inner URL. -/
theorem source_list_admits_iff (extractInnerURL : Url → Url) {text : List UChar}
    {es : List SourceExpression} (written : SourceListText icu text es) :
    ((CSPSourceList.parse icu decodeURLEscapeSequences origin text).matchesUrl icu
        decodeURLEscapeSequences extractInnerURL origin url = true ↔
      SomeMatches icu decodeURLEscapeSequences origin url es) ↔
    if sameIgnoringCase icu url.protocol (ascii "blob") then
      ((∃ e ∈ es, e.Counts icu decodeURLEscapeSequences origin (extractInnerURL url)) ↔
        SomeMatches icu decodeURLEscapeSequences origin url es)
    else ReadAsWritten icu decodeURLEscapeSequences origin url es := by
  rw [matches_iff_admits, parse_admits icu decodeURLEscapeSequences origin _ written, effectiveURL]
  split_ifs with blob
  · rfl
  · exact counts_iff_matches icu decodeURLEscapeSequences origin url es

end

/-! ## Two lists -/

theorem SourceListText.single {icu : Icu} {text : List UChar} {e : SourceExpression}
    (derives : Derives icu text e) (documented : e.Documented)
    (solid : ∀ c ∈ text, isASCIISpace c = false) : SourceListText icu text [e] := by
  have written := @next icu [] text [] e [] nofun derives documented solid nofun (done nofun)
  rwa [List.nil_append, List.append_nil] at written

theorem http_isScheme : IsScheme (ascii "http") :=
  ⟨0x68, ascii "ttp", by decide, by decide, List.all_iff_forall_prop.mp (by decide)⟩

/-- A scheme, and a directory of a host with its port. -/
theorem source_list_admits_directory :
    (CSPSourceList.parse .forASCII id ⟨ascii "http", ascii "b", 0⟩
        (ascii "https: http://a:8080/c/")).matchesUrl .forASCII id id ⟨ascii "http", ascii "b", 0⟩
          ⟨ascii "http", ascii "a", some 8080, ascii "/c/d"⟩ = true := by
  let source : HostSource :=
    ⟨some (ascii "http"), .name false (ascii "a"), some (.number (ascii "8080")), some (ascii "/c/")⟩
  have directory : Derives .forASCII (ascii "http://a:8080/c/") (.host source) := by
    refine ⟨⟨⟨?_, ?_, ?_⟩, .last ⟨by decide, List.all_iff_forall_prop.mp (by decide)⟩, by simp [HostSource.Lone, source]⟩,
      by decide⟩
    · rintro _ ⟨⟩
      exact http_isScheme
    · rintro _ ⟨⟩
      exact ⟨by decide, List.all_iff_forall_prop.mp (by decide), by decide⟩
    · rintro _ ⟨⟩
      decide
  have scheme : Derives .forASCII (ascii "https:") (.scheme (ascii "https")) :=
    ⟨⟨0x68, ascii "ttps", by decide, by decide, List.all_iff_forall_prop.mp (by decide)⟩, by decide⟩
  have last : SourceListText .forASCII (ascii " http://a:8080/c/") [.host source] :=
    @SourceListText.next _ [0x20] _ [] _ [] (List.all_iff_forall_prop.mp (by decide)) directory trivial
      (List.all_iff_forall_prop.mp (by decide)) (by simp) (.done (by simp))
  have written : SourceListText .forASCII (ascii "https: http://a:8080/c/")
      [.scheme (ascii "https"), .host source] :=
    @SourceListText.next _ [] _ _ _ _ (by simp) scheme trivial (List.all_iff_forall_prop.mp (by decide))
      (fun c first => by cases first; rfl) last
  have agrees : source.Matches .forASCII id ⟨ascii "http", ascii "b", 0⟩
      ⟨ascii "http", ascii "a", some 8080, ascii "/c/d"⟩ := by
    refine ⟨by decide, .inl (by decide), .inr (show decimal (ascii "8080") = _ by decide), .inr ?_⟩
    rw [if_pos (by decide)]
    decide
  have kept : ¬ (SourceExpression.host source).Dropped := by
    rintro ⟨noScheme, -⟩
    cases noScheme
  apply ((source_list_admits_iff .forASCII id _ _ id written).mpr ?_).mpr
  · exact ⟨.host source, by simp, agrees⟩
  · rw [if_neg (by decide)]
    exact .inl ⟨.host source, by simp, kept, agrees⟩

/-- "http://*:8080" lets every http URL through: the port is lost with the host. -/
theorem wildcard_host_loses_port :
    SourceListText .forASCII (ascii "http://*:8080")
      [.host ⟨some (ascii "http"), .any, some (.number (ascii "8080")), none⟩] ∧
    ¬ ((CSPSourceList.parse .forASCII id ⟨ascii "http", ascii "a", 0⟩
        (ascii "http://*:8080")).matchesUrl .forASCII id id ⟨ascii "http", ascii "a", 0⟩
          ⟨ascii "http", ascii "b", some 9090, ascii "/"⟩ = true ↔
      SomeMatches .forASCII id ⟨ascii "http", ascii "a", 0⟩
        ⟨ascii "http", ascii "b", some 9090, ascii "/"⟩
        [.host ⟨some (ascii "http"), .any, some (.number (ascii "8080")), none⟩]) := by
  constructor
  · refine .single ⟨⟨⟨?_, ?_, nofun⟩, trivial, by simp [HostSource.Lone]⟩, by decide⟩ trivial
      (List.all_iff_forall_prop.mp (by decide))
    · rintro _ ⟨⟩
      exact http_isScheme
    · rintro _ ⟨⟩
      exact ⟨by decide, List.all_iff_forall_prop.mp (by decide), by decide⟩
  · intro agrees
    obtain ⟨e, member, matching⟩ := agrees.mp (by decide +kernel)
    rw [List.mem_singleton] at member
    subst member
    rcases matching.port with any | same
    · cases any
    · exact absurd (show decimal (ascii "8080") = _ from same) (by decide)

end NetRider.Csp
