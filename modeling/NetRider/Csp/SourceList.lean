import NetRider.Wtf.IntegralTypes

/-!
# Source lists of a content security policy

`CSPSourceList` of a build without `CSP_NEXT`. What is written to the console is left out.
-/

namespace NetRider.Csp

open NetRider.Wtf

abbrev asterisk : UChar := 0x2A
abbrev dot : UChar := 0x2E
abbrev slash : UChar := 0x2F
abbrev colon : UChar := 0x3A

def isPathComponentCharacter (c : UChar) : Bool := c != 0x3F && c != 0x23

def isHostCharacter (c : UChar) : Bool := isASCIIAlphanumeric c || c == 0x2D

def isSchemeContinuationCharacter (c : UChar) : Bool :=
  isASCIIAlphanumeric c || c == 0x2B || c == 0x2D || c == dot

def isNotColonOrSlash (c : UChar) : Bool := c != colon && c != slash

/-! ## Parsing a source -/

/-- A stored source. An empty string stands for an absent scheme or path, 0 for an absent port. -/
structure CSPSource where
  scheme : List UChar
  host : List UChar
  port : Int
  path : List UChar
  hostHasWildcard : Bool
  portHasWildcard : Bool
  deriving DecidableEq, Repr

def CSPSource.schemeOnly (scheme : List UChar) : CSPSource := ⟨scheme, [], 0, [], false, false⟩

/-- The expressions that `parseSource` adds to the list itself. -/
inductive Keyword
  | star
  | self
  | unsafeInline
  | unsafeEval
  deriving DecidableEq, Repr

/-- What `parseSource` finds when it returns true. -/
inductive Parsed
  | keyword (keyword : Keyword)
  | source (source : CSPSource)
  deriving DecidableEq, Repr

/-- `equalIgnoringCase(literal, begin, length)`. The length is that of the source, so the literal is
compared as far as the source goes, over its terminator at most. -/
def equalIgnoringCaseUpTo (icu : Icu) (literal source : List UChar) : Bool :=
  (source.map (foldCase icu)).isPrefixOf (literal.map toASCIILower ++ [0])

def parseScheme (text : List UChar) : Option (List UChar) :=
  match text with
  | [] => none
  | c :: rest =>
    if isASCIIAlpha c ∧ rest.dropWhile isSchemeContinuationCharacter = [] then some text else none

/-- The loop of `parseHost` over the labels. -/
def hostLabels (text : List UChar) : Bool :=
  match text with
  | [] => true
  | c :: rest =>
    if isHostCharacter c then
      match _found : rest.dropWhile isHostCharacter with
      | [] => true
      | d :: rest' => if d == dot then hostLabels rest' else false
    else false
termination_by text.length
decreasing_by
  have shorter := (List.dropWhile_suffix (l := rest) isHostCharacter).length_le
  rw [_found] at shorter
  simp only [List.length_cons] at shorter ⊢
  omega

/-- The host and `hostHasWildcard`. -/
def parseHost (text : List UChar) : Option (List UChar × Bool) :=
  match text with
  | [] => none
  | c :: rest =>
    if c == asterisk then
      match rest with
      | [] => some ([], true)
      | d :: name => if d == dot && hostLabels name then some (name, true) else none
    else if hostLabels text then some (text, false) else none

/-- The port and `portHasWildcard`, from a text that begins with the colon. -/
def parsePort (icu : Icu) (text : List UChar) : Option (Int × Bool) :=
  let text := text.drop 1
  if text = [] then none
  else if text = [asterisk] then some (0, true)
  else if text.dropWhile isASCIIDigit = [] then (charactersToIntStrict icu text).map (·, false)
  else none

/-- The path up to a query or fragment, decoded. -/
def parsePath (decodeURLEscapeSequences : List UChar → List UChar) (text : List UChar) :
    List UChar :=
  decodeURLEscapeSequences (text.takeWhile isPathComponentCharacter)

variable (icu : Icu) (decodeURLEscapeSequences : List UChar → List UChar)

/-- `parseSource` from `beginHost` on, with the scheme that it has found. -/
def parseFromHost (scheme text : List UChar) : Option CSPSource :=
  let (hostText, rest) := text.span isNotColonOrSlash
  let (portText, pathText) :=
    if rest.head? = some colon then
      let (portText, pathText) := rest.span (· != slash)
      (some portText, pathText)
    else (none, rest)
  if pathText ≠ [] ∧ hostText = [] ∧ portText = none then none
  else do
    let (host, hostHasWildcard) ← parseHost hostText
    let (port, portHasWildcard) ← match portText with
      | some portText => parsePort icu portText
      | none => some (0, false)
    let path := if pathText ≠ [] then parsePath decodeURLEscapeSequences pathText else []
    some ⟨scheme, host, port, path, hostHasWildcard, portHasWildcard⟩

/-- `parseSource` when the text is no keyword. -/
def parseUnquoted (text : List UChar) : Option CSPSource :=
  let (first, rest) := text.span isNotColonOrSlash
  match rest with
  | [] => do
    let (host, hostHasWildcard) ← parseHost first
    some ⟨[], host, 0, [], hostHasWildcard, false⟩
  | c :: afterFirst =>
    if c == slash then do
      let (host, hostHasWildcard) ← parseHost first
      let path := parsePath decodeURLEscapeSequences rest
      -- `parsePath` gets `position` by value, so it is still at the slash
      if rest ≠ [] then none
      else some ⟨[], host, 0, path, hostHasWildcard, false⟩
    else
      match afterFirst with
      | [] => (parseScheme first).map .schemeOnly
      | d :: afterColon =>
        if d == slash then do
          let scheme ← parseScheme first
          match afterColon with
          | [] => none
          | e :: hostText =>
            if e == slash then
              if hostText = [] then some (.schemeOnly scheme)
              else parseFromHost icu decodeURLEscapeSequences scheme hostText
            else none
        else parseFromHost icu decodeURLEscapeSequences [] text

def parseSource (text : List UChar) : Option Parsed :=
  if text = [] then none
  else if equalIgnoringCaseUpTo icu (ascii "'none'") text then none
  else if text = [asterisk] then some (.keyword .star)
  else if equalIgnoringCaseUpTo icu (ascii "'self'") text then some (.keyword .self)
  else if equalIgnoringCaseUpTo icu (ascii "'unsafe-inline'") text then
    some (.keyword .unsafeInline)
  else if equalIgnoringCaseUpTo icu (ascii "'unsafe-eval'") text then some (.keyword .unsafeEval)
  else (parseUnquoted icu decodeURLEscapeSequences text).map .source

/-! ## Matching -/

/-- What the policy asks a URL for. The port is that of the text of the URL. -/
structure Url where
  protocol : List UChar
  host : List UChar
  port : Option UInt16
  path : List UChar
  deriving DecidableEq, Repr

/-- `URL::port`. -/
def Url.portNumber (url : Url) : UInt16 := url.port.getD 0

/-- The origin of the protected resource; its port is 0 for the default of the protocol. -/
structure SecurityOrigin where
  protocol : List UChar
  host : List UChar
  port : UInt16
  deriving DecidableEq, Repr

/-- `equalIgnoringCase` of two strings. -/
def sameIgnoringCase (a b : List UChar) : Bool := a.map (foldCase icu) == b.map (foldCase icu)

def endsWithIgnoringCase (s suffix : List UChar) : Bool :=
  suffix.length ≤ s.length && sameIgnoringCase icu (s.drop (s.length - suffix.length)) suffix

def startsWithStringIgnoringCase (s start : List UChar) : Bool :=
  start.length ≤ s.length && sameIgnoringCase icu (s.take start.length) start

def defaultPort (protocol : List UChar) : Option UInt16 :=
  if sameIgnoringCase icu protocol (ascii "http") then some 80
  else if sameIgnoringCase icu protocol (ascii "https") then some 443
  else if sameIgnoringCase icu protocol (ascii "ftp") then some 21
  else if sameIgnoringCase icu protocol (ascii "ftps") then some 990
  else none

/-- The map gives 0 for other protocols. -/
def isDefaultPortForProtocol (port : UInt16) (protocol : List UChar) : Bool :=
  if protocol = [] then false else (defaultPort icu protocol).getD 0 == port

namespace CSPSource

def isSchemeOnly (source : CSPSource) : Bool := source.host == []

def schemeMatches (source : CSPSource) (origin : SecurityOrigin) (url : Url) : Bool :=
  if source.scheme = [] then sameIgnoringCase icu url.protocol origin.protocol
  else sameIgnoringCase icu url.protocol source.scheme

def hostMatches (source : CSPSource) (url : Url) : Bool :=
  sameIgnoringCase icu url.host source.host ||
    (source.hostHasWildcard && endsWithIgnoringCase icu url.host (dot :: source.host))

def pathMatches (source : CSPSource) (url : Url) : Bool :=
  if source.path = [] then true
  else
    let path := decodeURLEscapeSequences url.path
    if source.path.getLast? = some slash then startsWithStringIgnoringCase icu path source.path
    else path == source.path

def portMatches (source : CSPSource) (url : Url) : Bool :=
  if source.portHasWildcard then true
  else
    let port : Int := url.portNumber.toNat
    if port = source.port then true
    else if port = 0 then isDefaultPortForProtocol icu (UInt16.ofInt source.port) url.protocol
    else if source.port = 0 then isDefaultPortForProtocol icu url.portNumber url.protocol
    else false

/-- `matches` -/
def matchesUrl (source : CSPSource) (origin : SecurityOrigin) (url : Url) : Bool :=
  source.schemeMatches icu origin url &&
    (source.isSchemeOnly || (source.hostMatches icu url && source.portMatches icu url &&
      source.pathMatches icu decodeURLEscapeSequences url))

end CSPSource

structure CSPSourceList where
  list : List CSPSource
  allowStar : Bool
  allowInline : Bool
  allowEval : Bool
  deriving DecidableEq, Repr

namespace CSPSourceList

def empty : CSPSourceList := ⟨[], false, false, false⟩

def addSourceSelf (sources : CSPSourceList) (origin : SecurityOrigin) : CSPSourceList :=
  { sources with
    list := sources.list ++ [⟨origin.protocol, origin.host, origin.port.toNat, [], false, false⟩] }

/-- What the loop of `parse` and `parseSource` do with an accepted source. -/
def add (sources : CSPSourceList) (origin : SecurityOrigin) : Parsed → CSPSourceList
  | .keyword .star => { sources with allowStar := true }
  | .keyword .self => sources.addSourceSelf origin
  | .keyword .unsafeInline => { sources with allowInline := true }
  | .keyword .unsafeEval => { sources with allowEval := true }
  | .source source =>
    if source.scheme = [] ∧ source.host = [] then sources
    else { sources with list := sources.list ++ [source] }

def isSourceListNone (value : List UChar) : Bool :=
  let value := value.dropWhile isASCIISpace
  equalIgnoringCaseUpTo icu (ascii "'none'") (value.takeWhile (!isASCIISpace ·)) &&
    (value.dropWhile (!isASCIISpace ·)).dropWhile isASCIISpace == []

/-- The loop of `parse`. -/
def parseSources (origin : SecurityOrigin) (text : List UChar) (sources : CSPSourceList) :
    CSPSourceList :=
  match _found : text.dropWhile isASCIISpace with
  | [] => sources
  | c :: rest =>
    let source := (c :: rest).takeWhile (!isASCIISpace ·)
    parseSources origin ((c :: rest).dropWhile (!isASCIISpace ·))
      (match parseSource icu decodeURLEscapeSequences source with
        | some parsed => sources.add origin parsed
        | none => sources)
termination_by text.length
decreasing_by
  have shorter := (List.dropWhile_suffix (l := text) isASCIISpace).length_le
  have starts := List.head?_dropWhile_not isASCIISpace text
  have rest := (List.dropWhile_suffix (l := rest) (!isASCIISpace ·)).length_le
  rw [_found] at shorter starts
  simp only [List.head?_cons] at starts
  rw [List.dropWhile_cons_of_pos (by simp [starts])]
  simp only [List.length_cons] at shorter ⊢
  omega

def parse (origin : SecurityOrigin) (value : List UChar) : CSPSourceList :=
  if isSourceListNone icu value then empty
  else parseSources icu decodeURLEscapeSequences origin value empty

/-- `matches`, with the URL that `extractInnerURL` gives for a blob. -/
def matchesUrl (extractInnerURL : Url → Url) (sources : CSPSourceList) (origin : SecurityOrigin)
    (url : Url) : Bool :=
  sources.allowStar ||
    let effectiveURL :=
      if sameIgnoringCase icu url.protocol (ascii "blob") then extractInnerURL url else url
    sources.list.any (·.matchesUrl icu decodeURLEscapeSequences origin effectiveURL)

end CSPSourceList

end NetRider.Csp
