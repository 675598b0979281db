import NetRider.Csp.SourceGrammar

/-!
# Parsing a source follows the grammar
-/

namespace NetRider.Csp

open NetRider.Wtf

section

variable (icu : Icu) {decodeURLEscapeSequences : List UChar → List UChar}

/-! ## A whole source -/

section

variable {text first rest : List UChar}

theorem parseUnquoted_host (split : text.span isNotColonOrSlash = (first, [])) :
    parseUnquoted icu decodeURLEscapeSequences text =
      (parseHost first).map fun host => ⟨[], host.1, 0, [], host.2, false⟩ := by
  simp only [parseUnquoted, split]
  cases parseHost first <;> rfl

theorem parseUnquoted_slash (split : text.span isNotColonOrSlash = (first, slash :: rest)) :
    parseUnquoted icu decodeURLEscapeSequences text = none := by
  simp only [parseUnquoted, split, beq_self_eq_true, if_true]
  cases parseHost first <;> rfl

theorem parseUnquoted_scheme (split : text.span isNotColonOrSlash = (first, [colon])) :
    parseUnquoted icu decodeURLEscapeSequences text = (parseScheme first).map .schemeOnly := by
  simp only [parseUnquoted, split]
  rfl

theorem parseUnquoted_slashes
    (split : text.span isNotColonOrSlash = (first, colon :: slash :: slash :: rest)) :
    parseUnquoted icu decodeURLEscapeSequences text = (parseScheme first).bind fun scheme =>
      if rest = [] then some (.schemeOnly scheme)
      else parseFromHost icu decodeURLEscapeSequences scheme rest := by
  simp only [parseUnquoted, split]
  cases parseScheme first <;> rfl

theorem parseUnquoted_single (split : text.span isNotColonOrSlash = (first, colon :: slash :: rest))
    (single : rest.head? ≠ some slash) :
    parseUnquoted icu decodeURLEscapeSequences text = none := by
  simp only [parseUnquoted, split]
  cases rest with
  | nil => cases parseScheme first <;> rfl
  | cons e rest =>
    have other : (e == slash) = false := by simpa using single
    cases parseScheme first with
    | none => rfl
    | some scheme => simp [other]

theorem parseUnquoted_port {d : UChar}
    (split : text.span isNotColonOrSlash = (first, colon :: d :: rest)) (other : d ≠ slash) :
    parseUnquoted icu decodeURLEscapeSequences text =
      parseFromHost icu decodeURLEscapeSequences [] text := by
  have different : (d == slash) = false := by simpa using other
  simp only [parseUnquoted, split, different]
  rfl

end

/-- A host and a path alone: what the check of `position` behind `parsePath` rejects. -/
def HostSource.BarePath (source : HostSource) : Prop :=
  source.scheme = none ∧ source.port = none ∧ source.path ≠ none

theorem HostSource.Surrounded.withoutScheme {source : HostSource} (valid : source.Surrounded) :
    { source with scheme := none : HostSource }.Surrounded :=
  ⟨nofun, valid.port, valid.path⟩

theorem parseUnquoted_sound {text : List UChar} {source : CSPSource}
    (parsed : parseUnquoted icu decodeURLEscapeSequences text = some source) :
    (∃ name, IsScheme name ∧ text = name ++ [colon] ∧ source = .schemeOnly name) ∨
    (∃ scheme, IsScheme scheme ∧ text = scheme ++ [colon, slash, slash] ∧
      source = .schemeOnly scheme) ∨
    (∃ hostSource : HostSource, hostSource.host.Accepted ∧ hostSource.Surrounded ∧
      text = hostSource.text ∧ source = hostSource.stored decodeURLEscapeSequences) := by
  obtain ⟨⟨first, rest⟩, split⟩ : ∃ pair, text.span isNotColonOrSlash = pair := ⟨_, rfl⟩
  obtain ⟨rfl, -, ends⟩ := span_eq_iff.mp split
  match rest, ends with
  | [], _ =>
    rw [parseUnquoted_host icu split] at parsed
    obtain ⟨host, parsedHost, rfl⟩ := Option.map_eq_some_iff.mp parsed
    obtain ⟨host', accepted, rfl, rfl⟩ := parseHost_iff.mp parsedHost
    exact .inr (.inr ⟨⟨none, host', none, none⟩, accepted, ⟨nofun, nofun, nofun⟩, rfl, rfl⟩)
  | c :: rest, ends =>
    have special : c = colon ∨ c = slash := by
      have stops := ends c rfl
      by_contra other
      rw [not_or] at other
      rw [isNotColonOrSlash_iff.mpr other] at stops
      cases stops
    rcases special with rfl | rfl
    · match rest with
      | [] =>
        rw [parseUnquoted_scheme icu split] at parsed
        obtain ⟨scheme, parsedScheme, rfl⟩ := Option.map_eq_some_iff.mp parsed
        obtain ⟨valid, rfl⟩ := parseScheme_iff.mp parsedScheme
        exact .inl ⟨scheme, valid, rfl, rfl⟩
      | d :: rest =>
        by_cases isSlash : d = slash
        · subst isSlash
          by_cases double : rest.head? = some slash
          · obtain ⟨hostText, rfl⟩ : ∃ hostText, rest = slash :: hostText := by
              cases rest with
              | nil => cases double
              | cons e hostText =>
                cases double
                exact ⟨hostText, rfl⟩
            rw [parseUnquoted_slashes icu split] at parsed
            obtain ⟨scheme, parsedScheme, behind⟩ := Option.bind_eq_some_iff.mp parsed
            obtain ⟨valid, rfl⟩ := parseScheme_iff.mp parsedScheme
            split_ifs at behind with empty
            · cases behind
              exact .inr (.inl ⟨scheme, valid, by rw [empty], rfl⟩)
            · obtain ⟨hostSource, noScheme, accepted, surrounded, rfl, rfl⟩ :=
                (parseFromHost_iff icu).mp behind
              refine .inr (.inr ⟨{ hostSource with scheme := some scheme }, accepted,
                ⟨?_, surrounded.port, surrounded.path⟩, ?_, rfl⟩)
              · rintro _ ⟨⟩
                exact valid
              · simp [HostSource.text, HostSource.schemeText, HostSource.portText, noScheme]
          · rw [parseUnquoted_single icu split double] at parsed
            cases parsed
        · rw [parseUnquoted_port icu split isSlash] at parsed
          obtain ⟨hostSource, noScheme, accepted, surrounded, same, rfl⟩ :=
            (parseFromHost_iff icu).mp parsed
          refine .inr (.inr ⟨hostSource, accepted, surrounded, same, ?_⟩)
          simp [HostSource.stored, noScheme]
    · rw [parseUnquoted_slash icu split] at parsed
      cases parsed

/-- The first part of a host source and what is behind it. -/
theorem HostSource.split_scheme {source : HostSource} {scheme : List UChar}
    (given : source.scheme = some scheme) (valid : source.Surrounded) :
    source.text.span isNotColonOrSlash = (scheme, colon :: slash :: slash ::
      (source.host.text ++ (source.portText ++ source.path.getD []))) := by
  apply span_eq_iff.mpr
  refine ⟨by simp [text, schemeText, given], (valid.scheme scheme given).plain, ?_⟩
  rintro _ ⟨⟩
  decide

theorem HostSource.split_host {source : HostSource} (given : source.scheme = none)
    (accepted : source.host.Accepted) (valid : source.Surrounded) :
    source.text.span isNotColonOrSlash =
      (source.host.text, source.portText ++ source.path.getD []) := by
  apply span_eq_iff.mpr
  exact ⟨by simp [text, schemeText, given], accepted.plain.1, valid.ends⟩

theorem parseUnquoted_complete {source : HostSource} (accepted : source.host.Accepted)
    (valid : source.Surrounded) (notBare : ¬ source.BarePath) :
    parseUnquoted icu decodeURLEscapeSequences source.text =
      some (source.stored decodeURLEscapeSequences) := by
  cases given : source.scheme with
  | some scheme =>
    obtain ⟨c, rest, starts, -⟩ := accepted.plain.2
    rw [parseUnquoted_slashes icu (HostSource.split_scheme given valid),
      parseScheme_iff.mpr ⟨valid.scheme scheme given, rfl⟩, Option.bind_some,
      if_neg (by simp [starts])]
    apply (parseFromHost_iff icu).mpr
    refine ⟨{ source with scheme := none }, rfl, accepted, valid.withoutScheme, rfl, ?_⟩
    simp [HostSource.stored, given]
  | none =>
    have split := HostSource.split_host given accepted valid
    cases port : source.port with
    | none =>
      have noPath : source.path = none := by
        by_contra path
        exact notBare ⟨given, port, path⟩
      have noPort : source.portText = [] := by simp [HostSource.portText, port]
      rw [noPath, noPort] at split
      rw [parseUnquoted_host icu split, parseHost_iff.mpr ⟨source.host, accepted, rfl, rfl⟩]
      simp [HostSource.stored, given, port, noPath]
    | some port' =>
      obtain ⟨d, rest, starts, other⟩ : ∃ d rest, source.portText = colon :: d :: rest ∧
          d ≠ slash := by
        have text : source.portText = port'.text := by simp [HostSource.portText, port]
        rw [text]
        have wellFormed := valid.port port' port
        cases port' with
        | any => exact ⟨asterisk, [], rfl, by decide⟩
        | number digits =>
          cases digits with
          | nil => exact absurd rfl wellFormed.1
          | cons d rest =>
            exact ⟨d, rest, rfl, digit_not_slash (wellFormed.2.1 d List.mem_cons_self)⟩
      rw [starts] at split
      rw [parseUnquoted_port icu split other]
      apply (parseFromHost_iff icu).mpr
      refine ⟨source, given, accepted, valid, rfl, ?_⟩
      simp [HostSource.stored, given]

/-- Of a host and a path alone nothing is taken. -/
theorem parseUnquoted_barePath {source : HostSource} (accepted : source.host.Accepted)
    (valid : source.Surrounded) (bare : source.BarePath) :
    parseUnquoted icu decodeURLEscapeSequences source.text = none := by
  obtain ⟨noScheme, noPort, given⟩ := bare
  obtain ⟨path, given⟩ := Option.ne_none_iff_exists'.mp given
  have split := HostSource.split_host noScheme accepted valid
  have noPort' : source.portText = [] := by simp [HostSource.portText, noPort]
  obtain ⟨rest, starts⟩ : ∃ rest, path = slash :: rest := by
    have slashed := valid.path path given
    cases path with
    | nil => cases slashed
    | cons c rest =>
      cases slashed
      exact ⟨rest, rfl⟩
  rw [noPort', given, Option.getD_some, starts] at split
  exact parseUnquoted_slash icu split

/-! ## One derivation -/

theorem PortPart.text_injective {port port' : PortPart} (valid : port.WellFormed)
    (valid' : port'.WellFormed) (same : port.text = port'.text) : port = port' := by
  cases port with
  | any =>
    cases port' with
    | any => rfl
    | number digits =>
      cases same
      exact absurd (valid'.2.1 asterisk List.mem_cons_self) (by decide)
  | number digits =>
    cases port' with
    | any =>
      cases same
      exact absurd (valid.2.1 asterisk List.mem_cons_self) (by decide)
    | number digits' =>
      cases same
      rfl

theorem HostSource.Surrounded.path_starts {source : HostSource} (valid : source.Surrounded) :
    ∀ c, (source.path.getD []).head? = some c → (c != slash) = false := by
  intro c found
  cases given : source.path with
  | none => simp [given] at found
  | some path =>
    rw [given, Option.getD_some, valid.path path given] at found
    cases found
    rfl

theorem HostSource.Surrounded.path_injective {source source' : HostSource}
    (valid : source.Surrounded) (valid' : source'.Surrounded)
    (same : source.path.getD [] = source'.path.getD []) : source.path = source'.path := by
  have nonempty : ∀ {source : HostSource}, source.Surrounded → source.path ≠ some [] := by
    intro source valid given
    have := valid.path [] given
    cases this
  cases given : source.path with
  | none =>
    cases given' : source'.path with
    | none => rfl
    | some path' =>
      rw [given, given'] at same
      exact absurd (given'.trans (congrArg some same.symm)) (nonempty valid')
  | some path =>
    cases given' : source'.path with
    | none =>
      rw [given, given'] at same
      exact absurd (given.trans (congrArg some same)) (nonempty valid)
    | some path' =>
      rw [given, given'] at same
      exact congrArg some same

/-- What is behind the host determines port and path. -/
theorem HostSource.Surrounded.rest_injective {source source' : HostSource}
    (valid : source.Surrounded) (valid' : source'.Surrounded)
    (same : source.portText ++ source.path.getD [] = source'.portText ++ source'.path.getD []) :
    source.port = source'.port ∧ source.path = source'.path := by
  have split : ∀ {source : HostSource}, source.Surrounded →
      (source.portText ++ source.path.getD []).span (· != slash) =
        (source.portText, source.path.getD []) := by
    intro source valid
    refine span_eq_iff.mpr ⟨rfl, ?_, valid.path_starts⟩
    rcases source.portText_starts with ⟨empty, -⟩ | ⟨port, rest, given, text, -⟩
    · simp [empty]
    · rw [text]
      exact (valid.port port given).no_slash
  have both := split valid
  rw [same, split valid'] at both
  obtain ⟨ports, paths⟩ := Prod.mk.inj both
  refine ⟨?_, valid.path_injective valid' paths.symm⟩
  rcases source.portText_starts with ⟨empty, none_⟩ | ⟨port, rest, given, text, starts⟩
  · rcases source'.portText_starts with ⟨-, none'⟩ | ⟨port', rest', -, text', starts'⟩
    · rw [none_, none']
    · rw [text', starts', empty] at ports
      cases ports
  · rcases source'.portText_starts with ⟨empty', -⟩ | ⟨port', rest', given', text', -⟩
    · rw [empty', text, starts] at ports
      cases ports
    · rw [text, text'] at ports
      rw [given, given', PortPart.text_injective (valid'.port port' given') (valid.port port given)
        ports]

/-- Behind a colon there is a digit or an asterisk. -/
theorem HostSource.Surrounded.rest_colon {source : HostSource} (valid : source.Surrounded)
    {rest : List UChar} (same : source.portText ++ source.path.getD [] = colon :: rest) :
    ∃ d rest', rest = d :: rest' ∧ d ≠ slash := by
  rcases source.portText_starts with ⟨empty, -⟩ | ⟨port, _, given, text, -⟩
  · have starts := valid.path_starts colon
    rw [empty, List.nil_append] at same
    rw [same] at starts
    exact absurd (starts rfl) (by decide)
  · rw [text] at same
    have wellFormed := valid.port port given
    cases port with
    | any =>
      cases same
      exact ⟨asterisk, _, rfl, by decide⟩
    | number digits =>
      cases digits with
      | nil => exact absurd rfl wellFormed.1
      | cons d digits =>
        cases same
        exact ⟨d, _, rfl, digit_not_slash (wellFormed.2.1 d List.mem_cons_self)⟩

theorem HostSource.text_injective {source source' : HostSource} (valid : source.WellFormed)
    (valid' : source'.WellFormed) (same : source.text = source'.text) : source = source' := by
  have noScheme : ∀ {source source' : HostSource} {scheme : List UChar}, source.WellFormed →
      source'.WellFormed → source.scheme = none → source'.scheme = some scheme →
      source.text ≠ source'.text := by
    intro source source' scheme valid valid' given given' same
    have split := HostSource.split_host given (.inl valid.host) valid.toSurrounded
    rw [same, HostSource.split_scheme given' valid'.toSurrounded] at split
    obtain ⟨d, _, starts, other⟩ := valid.toSurrounded.rest_colon (Prod.mk.inj split).2.symm
    exact other (List.cons.inj starts).1.symm
  have finish : source.scheme = source'.scheme → source.host.text ++ (source.portText ++ source.path.getD []) =
      source'.host.text ++ (source'.portText ++ source'.path.getD []) → source = source' := by
    intro schemes same
    have split := span_eq_iff.mpr ⟨same,
      (HostPart.Accepted.plain (.inl valid'.host)).1, valid'.toSurrounded.ends⟩
    rw [span_eq_iff.mpr ⟨rfl, (HostPart.Accepted.plain (.inl valid.host)).1,
      valid.toSurrounded.ends⟩] at split
    obtain ⟨hosts, rests⟩ := Prod.mk.inj split
    have hosts := HostPart.text_injective (.inl valid.host) (.inl valid'.host) hosts
    obtain ⟨ports, paths⟩ := valid.toSurrounded.rest_injective valid'.toSurrounded rests
    cases source
    cases source'
    simp_all
  cases given : source.scheme with
  | none =>
    cases given' : source'.scheme with
    | none =>
      apply finish (given.trans given'.symm)
      simpa [text, schemeText, given, given'] using same
    | some scheme' => exact absurd same (noScheme valid valid' given given')
  | some scheme =>
    cases given' : source'.scheme with
    | none => exact absurd same.symm (noScheme valid' valid given' given)
    | some scheme' =>
      have split := HostSource.split_scheme given valid.toSurrounded
      rw [same, HostSource.split_scheme given' valid'.toSurrounded] at split
      obtain ⟨rfl, rests⟩ := Prod.mk.inj split
      apply finish (given.trans given'.symm)
      simpa using rests.symm

/-- The quoted keywords. -/
def Keyword.literal : Keyword → List UChar
  | star => [asterisk]
  | self => ascii "'self'"
  | unsafeInline => ascii "'unsafe-inline'"
  | unsafeEval => ascii "'unsafe-eval'"

/-- An expression is quoted, or begins with another character. -/
theorem derives_starts {text : List UChar} {e : SourceExpression} (derives : Derives icu text e) :
    (∃ k : Keyword, k ≠ .star ∧ e = .keyword k ∧ text.map (foldCase icu) = k.literal) ∨
    ((∀ k : Keyword, k ≠ .star → e ≠ .keyword k) ∧
      ∃ c rest, text = c :: rest ∧ foldCase icu c ≠ 0x27) := by
  have quoted : ∀ {literal : List UChar}, literal.map toASCIILower = literal →
      equalIgnoringCase icu text literal = true → text.map (foldCase icu) = literal := by
    intro literal lower same
    rw [equalIgnoringCase, lower] at same
    exact beq_iff_eq.mp same
  have scheme : ∀ {name rest : List UChar}, IsScheme name →
      ∃ c rest', name ++ rest = c :: rest' ∧ foldCase icu c ≠ 0x27 := by
    rintro name rest ⟨c, more, rfl, alpha, -⟩
    refine ⟨c, more ++ rest, rfl, foldCase_ne_quote icu
      (alphanumeric_ascii (alpha_alphanumeric alpha)) ?_⟩
    rintro rfl
    revert alpha
    decide
  cases e with
  | keyword k =>
    cases k with
    | star =>
      refine .inr ⟨fun k other same => other (by cases same; rfl), asterisk, [], derives, ?_⟩
      exact foldCase_ne_quote icu (by decide) (by decide)
    | self => exact .inl ⟨.self, by simp, rfl, quoted (by decide) derives⟩
    | unsafeInline => exact .inl ⟨.unsafeInline, by simp, rfl, quoted (by decide) derives⟩
    | unsafeEval => exact .inl ⟨.unsafeEval, by simp, rfl, quoted (by decide) derives⟩
  | scheme name =>
    obtain ⟨valid, rfl⟩ := derives
    exact .inr ⟨by simp, scheme valid⟩
  | emptyHost name =>
    obtain ⟨valid, rfl⟩ := derives
    exact .inr ⟨by simp, scheme valid⟩
  | host source =>
    obtain ⟨valid, rfl⟩ := derives
    refine .inr ⟨by simp, ?_⟩
    cases given : source.scheme with
    | some name =>
      have starts := @scheme name ([colon, slash, slash] ++
        (source.host.text ++ (source.portText ++ source.path.getD [])))
          (valid.scheme name given)
      simpa [HostSource.text, HostSource.schemeText, given] using starts
    | none =>
      obtain ⟨c, rest, starts, ascii, plain⟩ := (HostPart.Accepted.plain (.inl valid.host)).2
      refine ⟨c, rest ++ (source.portText ++ source.path.getD []), ?_,
        foldCase_ne_quote icu ascii plain⟩
      simp [HostSource.text, HostSource.schemeText, given, starts]

/-- The first part of an unquoted expression and the rest. -/
def SourceExpression.parts : SourceExpression → List UChar × List UChar
  | keyword k => (k.literal, [])
  | scheme name => (name, [colon])
  | emptyHost name => (name, [colon, slash, slash])
  | host source =>
    match source.scheme with
    | some name => (name, colon :: slash :: slash ::
        (source.host.text ++ (source.portText ++ source.path.getD [])))
    | none => (source.host.text, source.portText ++ source.path.getD [])

theorem derives_parts {text : List UChar} {e : SourceExpression} (derives : Derives icu text e)
    (unquoted : ∀ k : Keyword, k ≠ .star → e ≠ .keyword k) :
    text.span isNotColonOrSlash = e.parts := by
  cases e with
  | keyword k =>
    by_cases star : k = .star
    · subst star
      rw [show text = [asterisk] from derives]
      rfl
    · exact absurd rfl (unquoted k star)
  | scheme name =>
    obtain ⟨valid, rfl⟩ := derives
    exact span_eq_iff.mpr ⟨rfl, valid.plain, by rintro _ ⟨⟩; decide⟩
  | emptyHost name =>
    obtain ⟨valid, rfl⟩ := derives
    exact span_eq_iff.mpr ⟨rfl, valid.plain, by rintro _ ⟨⟩; decide⟩
  | host source =>
    obtain ⟨valid, rfl⟩ := derives
    cases given : source.scheme with
    | some name =>
      rw [HostSource.split_scheme given valid.toSurrounded]
      simp [SourceExpression.parts, given]
    | none =>
      rw [HostSource.split_host given (.inl valid.host) valid.toSurrounded]
      simp [SourceExpression.parts, given]

/-- The parts of a host source are not those of another expression. -/
theorem parts_host {source : HostSource} (valid : source.WellFormed) :
    (SourceExpression.host source).parts ≠ (Keyword.star.literal, []) ∧
    (∀ name, (SourceExpression.host source).parts ≠ (name, [colon])) ∧
    ∀ name, (SourceExpression.host source).parts ≠ (name, [colon, slash, slash]) := by
  obtain ⟨hostStart, hostRest, starts, -⟩ := (HostPart.Accepted.plain (.inl valid.host)).2
  cases given : source.scheme with
  | some scheme => simp [SourceExpression.parts, given, starts]
  | none =>
    simp only [SourceExpression.parts, given]
    refine ⟨?_, ?_, ?_⟩
    · intro same
      obtain ⟨lone, empty⟩ := Prod.mk.inj same
      have host : source.host = .any :=
        HostPart.text_injective (.inl valid.host) (.inl trivial) lone
      obtain ⟨ports, paths⟩ := @HostSource.Surrounded.rest_injective source ⟨none, .any, none, none⟩
        valid.toSurrounded ⟨nofun, nofun, nofun⟩ empty
      apply valid.notLone
      cases source
      simp_all [HostSource.Lone]
    · intro name same
      obtain ⟨d, _, nothing, -⟩ := valid.toSurrounded.rest_colon (Prod.mk.inj same).2
      cases nothing
    · intro name same
      obtain ⟨d, _, second, other⟩ := valid.toSurrounded.rest_colon (Prod.mk.inj same).2
      exact other (List.cons.inj second).1.symm

theorem literal_injective {k k' : Keyword} (same : k.literal = k'.literal) : k = k' := by
  revert same
  cases k <;> cases k' <;> decide

theorem literal_quote {k : Keyword} (quoted : k ≠ .star) : ∃ rest, k.literal = 0x27 :: rest := by
  cases k with
  | star => contradiction
  | self => exact ⟨_, rfl⟩
  | unsafeInline => exact ⟨_, rfl⟩
  | unsafeEval => exact ⟨_, rfl⟩

/-- A text has one derivation at most. -/
theorem derivation_unique {text : List UChar} {e e' : SourceExpression}
    (derives : Derives icu text e) (derives' : Derives icu text e') : e = e' := by
  have mixed : ∀ {k : Keyword} {c : UChar} {rest : List UChar}, k ≠ .star →
      (c :: rest).map (foldCase icu) = k.literal → foldCase icu c = 0x27 := by
    intro k c rest quoted same
    obtain ⟨more, literal⟩ := literal_quote quoted
    rw [literal] at same
    exact (List.cons.inj same).1
  rcases derives_starts icu derives with ⟨k, quoted, rfl, same⟩ | ⟨unquoted, c, rest, rfl, plain⟩
  · rcases derives_starts icu derives' with ⟨k', -, rfl, same'⟩ | ⟨-, c, rest, rfl, plain⟩
    · rw [literal_injective (same.symm.trans same')]
    · exact absurd (mixed quoted same) plain
  · rcases derives_starts icu derives' with ⟨k', quoted, rfl, same⟩ | ⟨unquoted', -⟩
    · exact absurd (mixed quoted same) plain
    · have parts := (derives_parts icu derives unquoted).symm.trans
        (derives_parts icu derives' unquoted')
      have star : ∀ {k : Keyword} {e : SourceExpression},
          (∀ k : Keyword, k ≠ .star → e ≠ .keyword k) → e = .keyword k → k = .star := by
        intro k e unquoted same
        by_contra other
        exact unquoted k other same
      cases e with
      | keyword k =>
        obtain rfl := star unquoted rfl
        cases e' with
        | keyword k' => rw [star unquoted' rfl]
        | scheme name => cases parts
        | emptyHost name => cases parts
        | host source => exact absurd parts.symm (parts_host derives'.1).1
      | scheme name =>
        cases e' with
        | keyword k' => cases parts
        | scheme name' =>
          cases parts
          rfl
        | emptyHost name' => cases parts
        | host source => exact absurd parts.symm ((parts_host derives'.1).2.1 name)
      | emptyHost name =>
        cases e' with
        | keyword k' => cases parts
        | scheme name' => cases parts
        | emptyHost name' =>
          cases parts
          rfl
        | host source => exact absurd parts.symm ((parts_host derives'.1).2.2 name)
      | host source =>
        cases e' with
        | keyword k' =>
          obtain rfl := star unquoted' rfl
          exact absurd parts (parts_host derives.1).1
        | scheme name' => exact absurd parts ((parts_host derives.1).2.1 name')
        | emptyHost name' => exact absurd parts ((parts_host derives.1).2.2 name')
        | host source' =>
          rw [HostSource.text_injective derives.1 derives'.1 (derives.2.symm.trans derives'.2)]

/-! ## Acceptance -/

/-- The beginning of a quoted keyword, or a keyword and a terminator: `equalIgnoringCase` compares no
further. -/
def PartOfKeyword (text : List UChar) : Prop :=
  2 ≤ text.length ∧ ∃ k : Keyword, k ≠ .star ∧ text.map (foldCase icu) ≠ k.literal ∧
    text.map (foldCase icu) <+: k.literal ++ [0]

/-- The texts that the parser does not treat by the grammar. -/
def Irregular (text : List UChar) : Prop :=
  PartOfKeyword icu text ∨ ∃ source : HostSource, source.Surrounded ∧ text = source.text ∧
    (source.host.EndsInDot ∨ (source.host.WellFormed ∧ source.BarePath))

theorem upTo_iff {literal text : List UChar} (lower : literal.map toASCIILower = literal) :
    equalIgnoringCaseUpTo icu literal text = true ↔ text.map (foldCase icu) <+: literal ++ [0] := by
  rw [equalIgnoringCaseUpTo, lower, List.isPrefixOf_iff_prefix]

theorem not_upTo {c : UChar} {rest literal : List UChar} (plain : foldCase icu c ≠ 0x27) :
    equalIgnoringCaseUpTo icu (0x27 :: literal) (c :: rest) = false := by
  have lower : toASCIILower 0x27 = 0x27 := by decide
  simp [equalIgnoringCaseUpTo, lower, List.isPrefixOf_cons_cons, plain]

/-- A text that does not begin with a quote. -/
theorem parseSource_unquoted {c : UChar} {rest : List UChar} (plain : foldCase icu c ≠ 0x27)
    (notStar : c :: rest ≠ [asterisk]) :
    parseSource icu decodeURLEscapeSequences (c :: rest) =
      (parseUnquoted icu decodeURLEscapeSequences (c :: rest)).map .source := by
  have noneLiteral : ascii "'none'" = 0x27 :: ascii "none'" := by decide
  have selfLiteral : ascii "'self'" = 0x27 :: ascii "self'" := by decide
  have inlineLiteral : ascii "'unsafe-inline'" = 0x27 :: ascii "unsafe-inline'" := by decide
  have evalLiteral : ascii "'unsafe-eval'" = 0x27 :: ascii "unsafe-eval'" := by decide
  rw [parseSource, noneLiteral, selfLiteral, inlineLiteral, evalLiteral, not_upTo icu plain,
    not_upTo icu plain, not_upTo icu plain, not_upTo icu plain]
  simp [notStar]

theorem parseSource_keyword {text : List UChar} {k : Keyword} (quoted : k ≠ .star)
    (same : text.map (foldCase icu) = k.literal) :
    parseSource icu decodeURLEscapeSequences text = some (.keyword k) := by
  have nonempty : text ≠ [] := by
    rintro rfl
    obtain ⟨rest, literal⟩ := literal_quote quoted
    rw [literal] at same
    cases same
  have notStar : text ≠ [asterisk] := by
    rintro rfl
    have folded : foldCase icu asterisk = asterisk := by
      rw [foldCase, if_pos (by decide)]
      decide
    rw [List.map_singleton, folded] at same
    cases k <;> revert same quoted <;> decide
  unfold parseSource equalIgnoringCaseUpTo
  rw [if_neg nonempty, if_neg notStar, same]
  cases k with
  | star => contradiction
  | self => rfl
  | unsafeInline => rfl
  | unsafeEval => rfl

/-- A single quote begins `'none'` too, which is compared first. -/
theorem long_of_prefix (k : Keyword) {text : List UChar} (nonempty : text ≠ [])
    (notNone : ¬ equalIgnoringCaseUpTo icu (ascii "'none'") text = true) (quoted : k ≠ .star)
    (part : text.map (foldCase icu) <+: k.literal ++ [0]) : 2 ≤ text.length := by
  obtain ⟨more, literal⟩ := literal_quote quoted
  match text with
  | [] => contradiction
  | [c] =>
    rw [literal, List.map_singleton, List.cons_append, List.cons_prefix_cons] at part
    rw [upTo_iff icu (by decide), List.map_singleton, part.1] at notNone
    exact absurd (by decide) notNone
  | c :: d :: rest => simp

theorem parseSource_eq_keyword {text : List UChar} {k : Keyword}
    (parsed : parseSource icu decodeURLEscapeSequences text = some (.keyword k)) :
    text = [asterisk] ∧ k = .star ∨ k ≠ .star ∧ 2 ≤ text.length ∧
      text.map (foldCase icu) <+: k.literal ++ [0] := by
  unfold parseSource at parsed
  split_ifs at parsed with empty isNone star isSelf isInline isEval
  · cases parsed
    exact .inl ⟨star, rfl⟩
  · cases parsed
    have part := (upTo_iff icu (by decide)).mp isSelf
    exact .inr ⟨by simp, long_of_prefix icu .self empty isNone (by simp) part, part⟩
  · cases parsed
    have part := (upTo_iff icu (by decide)).mp isInline
    exact .inr ⟨by simp, long_of_prefix icu .unsafeInline empty isNone (by simp) part, part⟩
  · cases parsed
    have part := (upTo_iff icu (by decide)).mp isEval
    exact .inr ⟨by simp, long_of_prefix icu .unsafeEval empty isNone (by simp) part, part⟩
  · obtain ⟨_, -, impossible⟩ := Option.map_eq_some_iff.mp parsed
    cases impossible

theorem parseSource_eq_source {text : List UChar} {source : CSPSource}
    (parsed : parseSource icu decodeURLEscapeSequences text = some (.source source)) :
    text ≠ [asterisk] ∧ parseUnquoted icu decodeURLEscapeSequences text = some source := by
  unfold parseSource at parsed
  split_ifs at parsed with empty isNone star isSelf isInline isEval
  · cases parsed
  · cases parsed
  · cases parsed
  · cases parsed
  · obtain ⟨_, unquoted, same⟩ := Option.map_eq_some_iff.mp parsed
    cases same
    exact ⟨star, unquoted⟩

theorem parseSource_complete {text : List UChar} {e : SourceExpression}
    (derives : Derives icu text e) (notBare : ∀ source, e = .host source → ¬ source.BarePath) :
    parseSource icu decodeURLEscapeSequences text = some (e.parsed decodeURLEscapeSequences) := by
  rcases derives_starts icu derives with ⟨k, quoted, rfl, same⟩ | ⟨unquoted, c, rest, rfl, plain⟩
  · exact parseSource_keyword icu quoted same
  · by_cases star : c :: rest = [asterisk]
    · have lone : Derives icu (c :: rest) (.keyword .star) := star
      rw [derivation_unique icu derives lone, star, parseSource]
      have first : c = asterisk := (List.cons.inj star).1
      have other : equalIgnoringCaseUpTo icu (ascii "'none'") [asterisk] = false :=
        not_upTo icu (first ▸ plain)
      simp [other, SourceExpression.parsed]
    · rw [parseSource_unquoted icu plain star]
      have split := derives_parts icu derives unquoted
      cases e with
      | keyword k =>
        by_cases isStar : k = .star
        · subst isStar
          exact absurd derives star
        · exact absurd rfl (unquoted k isStar)
      | scheme name =>
        rw [parseUnquoted_scheme icu split, parseScheme_iff.mpr ⟨derives.1, rfl⟩]
        rfl
      | emptyHost name =>
        rw [parseUnquoted_slashes icu split, parseScheme_iff.mpr ⟨derives.1, rfl⟩]
        rfl
      | host source =>
        obtain ⟨valid, same⟩ := derives
        rw [same, parseUnquoted_complete icu (.inl valid.host) valid.toSurrounded
          (notBare source rfl)]
        rfl

/-- **The parser follows the grammar** on every text that is not irregular: it accepts a text if and
only if there is a derivation, which is then unique, and returns the parts of the derivation. -/
theorem parseSource_follows_grammar (decodeURLEscapeSequences : List UChar → List UChar)
    {text : List UChar} (regular : ¬ Irregular icu text) :
    (∀ parsed, parseSource icu decodeURLEscapeSequences text = some parsed ↔
      ∃ e, Derives icu text e ∧ parsed = e.parsed decodeURLEscapeSequences) ∧
    ∀ e e', Derives icu text e → Derives icu text e' → e = e' := by
  refine ⟨fun parsed => ⟨?_, ?_⟩, fun e e' => derivation_unique icu⟩
  · intro accepted
    cases parsed with
    | keyword k =>
      refine ⟨.keyword k, ?_, rfl⟩
      rcases parseSource_eq_keyword icu accepted with ⟨star, rfl⟩ | ⟨quoted, long, part⟩
      · exact star
      · have whole : text.map (foldCase icu) = k.literal := by
          by_contra other
          exact regular (.inl ⟨long, k, quoted, other, part⟩)
        have lower : k.literal.map toASCIILower = k.literal := by cases k <;> decide
        have same : equalIgnoringCase icu text k.literal = true := by
          rw [equalIgnoringCase, lower, whole]
          exact beq_self_eq_true _
        cases k with
        | star => contradiction
        | self => exact same
        | unsafeInline => exact same
        | unsafeEval => exact same
    | source source =>
      obtain ⟨notStar, unquoted⟩ := parseSource_eq_source icu accepted
      rcases parseUnquoted_sound icu unquoted with ⟨name, valid, rfl, rfl⟩ | ⟨scheme, valid, rfl, rfl⟩ |
        ⟨hostSource, taken, surrounded, rfl, rfl⟩
      · exact ⟨.scheme name, ⟨valid, rfl⟩, rfl⟩
      · exact ⟨.emptyHost scheme, ⟨valid, rfl⟩, rfl⟩
      · have host : hostSource.host.WellFormed := by
          refine taken.resolve_right fun dotted => ?_
          exact regular (.inr ⟨hostSource, surrounded, rfl, .inl dotted⟩)
        refine ⟨.host hostSource, ⟨⟨surrounded, host, ?_⟩, rfl⟩, rfl⟩
        intro lone
        rw [HostSource.Lone] at lone
        rw [lone] at notStar
        exact notStar rfl
  · rintro ⟨e, derives, rfl⟩
    apply parseSource_complete icu derives
    rintro source rfl bare
    exact regular (.inr ⟨source, derives.1.toSurrounded, derives.2, .inr ⟨derives.1.host, bare⟩⟩)

end

theorem HostPart.EndsInDot.dot_mem {host : HostPart} (dotted : host.EndsInDot) :
    dot ∈ host.text := by
  cases host with
  | any => cases dotted
  | name wildcard labels =>
    rcases dotted with ⟨rfl, rfl⟩ | ⟨name, -, rfl⟩
    · decide
    · simp [HostPart.text]

/-- A port, and a path that ends before the query. -/
theorem parseSource_follows_grammar_query :
    ¬ Irregular .forASCII (ascii "https://a:8080/b?c") ∧
    parseSource .forASCII id (ascii "https://a:8080/b?c") =
      some (.source ⟨ascii "https", ascii "a", 8080, ascii "/b", false, false⟩) := by
  have regular : ¬ Irregular .forASCII (ascii "https://a:8080/b?c") := by
    rintro (⟨-, k, quoted, -, part⟩ | ⟨source, surrounded, same, dotted | ⟨host, bare⟩⟩)
    · obtain ⟨rest, literal⟩ := literal_quote quoted
      rw [literal] at part
      exact absurd (List.cons_prefix_cons.mp part).1 (by decide)
    · have member : dot ∈ ascii "https://a:8080/b?c" := by
        rw [same, HostSource.text]
        exact List.mem_append_right _ (List.mem_append_left _ dotted.dot_mem)
      exact absurd member (by decide)
    · have split := HostSource.split_host bare.1 (.inl host) surrounded
      rw [← same, show (ascii "https://a:8080/b?c").span isNotColonOrSlash =
        (ascii "https", ascii "://a:8080/b?c") by decide] at split
      obtain ⟨d, rest, colons, other⟩ := surrounded.rest_colon (Prod.mk.inj split).2.symm
      exact other (List.cons.inj colons).1.symm
  refine ⟨regular, ((parseSource_follows_grammar .forASCII id regular).1 _).mpr ?_⟩
  refine ⟨.host ⟨some (ascii "https"), .name false (ascii "a"), some (.number (ascii "8080")),
    some (ascii "/b?c")⟩, ⟨⟨⟨?_, ?_, ?_⟩, .last ⟨by decide, List.all_iff_forall_prop.mp (by decide)⟩, by simp [HostSource.Lone]⟩,
    by decide⟩, by decide⟩
  · rintro _ ⟨⟩
    exact ⟨0x68, ascii "ttps", by decide, by decide, List.all_iff_forall_prop.mp (by decide)⟩
  · rintro _ ⟨⟩
    exact ⟨by decide, List.all_iff_forall_prop.mp (by decide), by decide⟩
  · rintro _ ⟨⟩
    decide

/-- "http://" is accepted, although the documented grammar does not derive it, and of a path that the
grammar derives only the part before the query is returned. -/
theorem scheme_and_slashes_accepted :
    ¬ ((∃ e : SourceExpression, e.Documented ∧ Derives .forASCII (ascii "http://") e) ↔
      (parseSource .forASCII id (ascii "http://")).isSome) ∧
    Derives .forASCII (ascii "http://a/b?c")
      (.host ⟨some (ascii "http"), .name false (ascii "a"), none, some (ascii "/b?c")⟩) ∧
    parseSource .forASCII id (ascii "http://a/b?c") =
      some (.source ⟨ascii "http", ascii "a", 0, ascii "/b", false, false⟩) := by
  have http : IsScheme (ascii "http") := 
    ⟨0x68, ascii "ttp", by decide, by decide, List.all_iff_forall_prop.mp (by decide)⟩
  refine ⟨?_, ⟨⟨⟨?_, nofun, ?_⟩, .last ⟨by decide, List.all_iff_forall_prop.mp (by decide)⟩, by simp [HostSource.Lone]⟩,
    by decide⟩, by decide +kernel⟩
  · intro documented
    have slashes : Derives .forASCII (ascii "http://") (.emptyHost (ascii "http")) :=
      ⟨http, by decide⟩
    obtain ⟨e, listed, derives⟩ := documented.mpr (by decide)
    rw [derivation_unique .forASCII derives slashes] at listed
    exact listed
  · rintro _ ⟨⟩
    exact http
  · rintro _ ⟨⟩
    decide

end NetRider.Csp
