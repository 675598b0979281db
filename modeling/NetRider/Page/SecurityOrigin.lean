import NetRider.Lib.Run
import NetRider.Wtf.Strings

/-!
# Security origins

The origins that documents have, as objects of which pointers are compared. A URL is what its
accessors return; a null string is `none`. A cached origin is one that is there already.
-/

namespace NetRider.Page

open NetRider.Wtf NetRider.Lib

abbrev WTFString := Option (List UChar)

/-- What an origin is made from. -/
structure URL where
  isValid : Bool
  protocol : WTFString
  protocolIsInHTTPFamily : Bool
  host : WTFString
  port : UInt16
  path : WTFString

/-- The registries of schemes, ICU, and what a `blob` URL wraps. -/
structure Embedder where
  icu : Icu
  lower : List UChar → List UChar
  shouldTreatURLSchemeAsNoAccess : List UChar → Bool
  shouldTreatURLSchemeAsLocal : List UChar → Bool
  extractInnerURL : URL → URL

/-- The fields that access depends on. -/
structure SecurityOrigin where
  protocol : List UChar
  host : List UChar
  domain : WTFString
  filePath : WTFString
  port : UInt16
  isUnique : Bool
  universalAccess : Bool
  domainWasSetInDOM : Bool
  enforceFilePathSeparation : Bool
  deriving DecidableEq

def invalidPort : UInt16 := 0

variable (embedder : Embedder)

/-- `URL::protocolIs`: the case of ASCII is ignored. -/
def protocolIs (url : URL) (protocol : List UChar) : Bool :=
  url.isValid && (url.protocol.getD []).map (· ||| 0x20) == protocol

def schemeRequiresHost (url : URL) : Bool :=
  url.protocolIsInHTTPFamily || protocolIs url (ascii "ftp")

def shouldUseInnerURL (url : URL) : Bool := protocolIs url (ascii "blob")

def shouldTreatAsUniqueOrigin (url : URL) : Bool :=
  if !url.isValid then true
  else
    let innerURL := if shouldUseInnerURL url then embedder.extractInnerURL url else url
    if schemeRequiresHost innerURL && (innerURL.host.getD []).isEmpty then true
    else embedder.shouldTreatURLSchemeAsNoAccess (embedder.lower (innerURL.protocol.getD []))

def isDefaultPortForProtocol (port : UInt16) (protocol : List UChar) : Bool :=
  if protocol = [] then false
  else if equalIgnoringCase embedder.icu protocol (ascii "http") then port == 80
  else if equalIgnoringCase embedder.icu protocol (ascii "https") then port == 443
  else if equalIgnoringCase embedder.icu protocol (ascii "ftp") then port == 21
  else if equalIgnoringCase embedder.icu protocol (ascii "ftps") then port == 990
  else port == 0

namespace SecurityOrigin

/-- `SecurityOrigin(const URL&)` -/
def ofURL (url : URL) : SecurityOrigin :=
  let protocol := (url.protocol.map embedder.lower).getD []
  let host := (url.host.map embedder.lower).getD []
  { protocol, host
    domain := some host
    filePath := if embedder.shouldTreatURLSchemeAsLocal protocol then url.path else none
    port := if isDefaultPortForProtocol embedder url.port protocol then invalidPort else url.port
    isUnique := false
    universalAccess := false
    domainWasSetInDOM := false
    enforceFilePathSeparation := false }

/-- `SecurityOrigin()` -/
def unique : SecurityOrigin :=
  { protocol := [], host := [], domain := some [], filePath := none, port := invalidPort
    isUnique := true, universalAccess := false, domainWasSetInDOM := false
    enforceFilePathSeparation := false }

def create (url : URL) : SecurityOrigin :=
  if shouldTreatAsUniqueOrigin embedder url then unique
  else if shouldUseInnerURL url then ofURL embedder (embedder.extractInnerURL url)
  else ofURL embedder url

variable (this other : SecurityOrigin)

def isLocal : Bool := embedder.shouldTreatURLSchemeAsLocal this.protocol

def setDomainFromDOM (newDomain : WTFString) : SecurityOrigin :=
  { this with domainWasSetInDOM := true, domain := newDomain.map embedder.lower }

def enforcing : SecurityOrigin := { this with enforceFilePathSeparation := true }

def passesFileCheck : Bool :=
  if !this.enforceFilePathSeparation && !other.enforceFilePathSeparation then true
  else this.filePath == other.filePath

/-- `canAccess`; `same` is whether the pointers are equal. -/
def canAccess (same : Bool) : Bool :=
  if this.universalAccess then true
  else if same then true
  else if this.isUnique || other.isUnique then false
  else
    let canAccess :=
      if this.protocol == other.protocol then
        if !this.domainWasSetInDOM && !other.domainWasSetInDOM then
          this.host == other.host && this.port == other.port
        else if this.domainWasSetInDOM && other.domainWasSetInDOM then this.domain == other.domain
        else false
      else false
    if canAccess && this.isLocal embedder then this.passesFileCheck other else canAccess

end SecurityOrigin

/-! ## Objects -/

inductive Command
  | create (url : URL)
  | setDomainFromDOM (origin : Nat) (newDomain : WTFString)
  | enforceFilePathSeparation (origin : Nat)

/-- A call; a pointer is the place of an origin in the list. -/
def step (origins : List SecurityOrigin) : Command → Option (List SecurityOrigin)
  | .create url => some (origins ++ [.create embedder url])
  | .setDomainFromDOM i newDomain =>
    if i < origins.length then
      some (origins.modify i fun origin => origin.setDomainFromDOM embedder newDomain)
    else none
  | .enforceFilePathSeparation i =>
    if i < origins.length then some (origins.modify i .enforcing) else none

/-- The origins after some calls. -/
def Reached (origins : List SecurityOrigin) : Prop :=
  Reach (step embedder) (fun _ _ => True) [] origins

/-- `canAccess` of two objects that are not unique. -/
def Accesses (origins : List SecurityOrigin) (i j : Nat) : Prop :=
  ∃ a b, origins[i]? = some a ∧ origins[j]? = some b ∧ a.canAccess embedder b (i == j) = true

/-- Local origins of different files, one of which enforces the separation. -/
def Separated (a b : SecurityOrigin) : Prop :=
  a.isLocal embedder = true ∧ a.enforceFilePathSeparation ≠ b.enforceFilePathSeparation ∧
    a.filePath ≠ b.filePath

/-! ## Two objects -/

variable {embedder} {origins : List SecurityOrigin} {a b c : SecurityOrigin} {i j k : Nat}

theorem step_universalAccess {origins' : List SecurityOrigin} {command : Command}
    (none : ∀ a ∈ origins, a.universalAccess = false)
    (stepped : step embedder origins command = some origins') :
    ∀ a ∈ origins', a.universalAccess = false := by
  have modified : ∀ {i : Nat} {f : SecurityOrigin → SecurityOrigin},
      (∀ a, (f a).universalAccess = a.universalAccess) →
      ∀ a ∈ origins.modify i f, a.universalAccess = false := by
    intro i f keeps a member
    obtain ⟨j, found⟩ := List.mem_iff_getElem?.mp member
    rw [List.getElem?_modify] at found
    obtain ⟨b, old, rfl⟩ := Option.map_eq_some_iff.mp found
    have known := none b (List.mem_of_getElem? old)
    split_ifs
    · rw [keeps, known]
    · exact known
  cases command with
  | create url =>
    cases stepped
    refine List.forall_mem_append.mpr ⟨none, ?_⟩
    rw [List.forall_mem_singleton]
    unfold SecurityOrigin.create
    split_ifs <;> rfl
  | setDomainFromDOM i newDomain =>
    simp only [step] at stepped
    split_ifs at stepped
    cases stepped
    exact modified fun _ => rfl
  | enforceFilePathSeparation i =>
    simp only [step] at stepped
    split_ifs at stepped
    cases stepped
    exact modified fun _ => rfl

theorem reached_universalAccess (reached : Reached embedder origins) (at_ : origins[i]? = some a) :
    a.universalAccess = false :=
  reached.invariant (I := fun origins => ∀ a ∈ origins, a.universalAccess = false) (by simp)
    (fun _ _ _ none _ stepped => step_universalAccess none stepped) a (List.mem_of_getElem? at_)

/-- The same host and port, or the same domain where both have set it. -/
def SameDomain (a b : SecurityOrigin) : Prop :=
  a.protocol = b.protocol ∧ a.domainWasSetInDOM = b.domainWasSetInDOM ∧
    if a.domainWasSetInDOM then a.domain = b.domain else a.host = b.host ∧ a.port = b.port

theorem SameDomain.refl (a : SecurityOrigin) : SameDomain a a := by
  unfold SameDomain
  split_ifs <;> simp

theorem SameDomain.symm (same : SameDomain a b) : SameDomain b a := by
  obtain ⟨protocol, set, domain⟩ := same
  refine ⟨protocol.symm, set.symm, ?_⟩
  rw [← set]
  split_ifs at domain ⊢
  · exact domain.symm
  · exact ⟨domain.1.symm, domain.2.symm⟩

theorem SameDomain.trans (first : SameDomain a b) (second : SameDomain b c) : SameDomain a c := by
  obtain ⟨protocol, set, domain⟩ := first
  obtain ⟨protocol', set', domain'⟩ := second
  refine ⟨protocol.trans protocol', set.trans set', ?_⟩
  rw [← set] at domain'
  split_ifs at domain domain' ⊢
  · exact domain.trans domain'
  · exact ⟨domain.1.trans domain'.1, domain.2.trans domain'.2⟩

/-- Between local origins the files have to be the same where one enforces it. -/
def FilesAgree (embedder : Embedder) (a b : SecurityOrigin) : Prop :=
  a.isLocal embedder = true → a.enforceFilePathSeparation = true ∨
    b.enforceFilePathSeparation = true → a.filePath = b.filePath

/-- What access between two objects is. -/
theorem canAccess_iff {same : Bool} (none : a.universalAccess = false) (first : a.isUnique = false)
    (second : b.isUnique = false) : a.canAccess embedder b same = true ↔
      same = true ∨ SameDomain a b ∧ FilesAgree embedder a b := by
  unfold SecurityOrigin.canAccess SameDomain FilesAgree SecurityOrigin.passesFileCheck
  cases same
  · rw [none, first, second]
    cases a.isLocal embedder <;> cases a.domainWasSetInDOM <;> cases b.domainWasSetInDOM <;>
      cases a.enforceFilePathSeparation <;> cases b.enforceFilePathSeparation <;>
      by_cases protocol : a.protocol = b.protocol <;> simp [protocol]
  · simp

theorem accesses_iff (reached : Reached embedder origins) (first : origins[i]? = some a)
    (second : origins[j]? = some b) (shared : a.isUnique = false) (shared' : b.isUnique = false) :
    Accesses embedder origins i j ↔ SameDomain a b ∧ FilesAgree embedder a b := by
  have access : Accesses embedder origins i j ↔ a.canAccess embedder b (i == j) = true := by
    simp [Accesses, first, second]
  rw [access, canAccess_iff (reached_universalAccess reached first) shared shared', beq_iff_eq]
  constructor
  · rintro (rfl | same)
    · cases first.symm.trans second
      exact ⟨.refl a, fun _ _ => rfl⟩
    · exact same
  · exact .inr

/-- **Access is reflexive, symmetric, and transitive but for separated origins.** -/
theorem access_laws (reached : Reached embedder origins)
    (first : origins[i]? = some a) (second : origins[j]? = some b) (third : origins[k]? = some c)
    (shared : a.isUnique = false) (shared' : b.isUnique = false) (shared'' : c.isUnique = false) :
    Accesses embedder origins i i ∧
      (Accesses embedder origins i j → Accesses embedder origins j i) ∧
      (Accesses embedder origins i j → Accesses embedder origins j k →
        (Accesses embedder origins i k ↔ ¬ Separated embedder a c)) := by
  rw [accesses_iff reached first first shared shared,
    accesses_iff reached first second shared shared',
    accesses_iff reached second first shared' shared,
    accesses_iff reached second third shared' shared'',
    accesses_iff reached first third shared shared'']
  refine ⟨⟨.refl a, fun _ _ => rfl⟩, ?_, ?_⟩
  · rintro ⟨domain, files⟩
    refine ⟨domain.symm, fun isLocal enforced => ?_⟩
    rw [SecurityOrigin.isLocal, ← domain.1] at isLocal
    exact (files isLocal enforced.symm).symm
  · rintro ⟨domain, files⟩ ⟨domain', files'⟩
    rw [and_iff_right (domain.trans domain')]
    have isLocal : a.isLocal embedder = b.isLocal embedder :=
      congrArg embedder.shouldTreatURLSchemeAsLocal domain.1
    unfold FilesAgree at files files' ⊢
    unfold Separated
    rw [← isLocal] at files'
    constructor
    · rintro agree ⟨isLocal, differ, paths⟩
      refine paths (agree isLocal ?_)
      revert differ
      cases a.enforceFilePathSeparation <;> cases c.enforceFilePathSeparation <;> simp
    · intro together isLocal enforced
      by_contra paths
      have both : a.enforceFilePathSeparation = c.enforceFilePathSeparation := by
        by_contra differ
        exact together ⟨isLocal, differ, paths⟩
      have enforcing : a.enforceFilePathSeparation = true := enforced.elim id both.trans
      exact paths ((files isLocal (.inl enforcing)).trans
        (files' isLocal (.inr (both.symm.trans enforcing))))

/-! ## Three files -/

def fileEmbedder : Embedder :=
  { icu := .forASCII
    lower := List.map toASCIILower
    shouldTreatURLSchemeAsNoAccess := fun _ => false
    shouldTreatURLSchemeAsLocal := (· == ascii "file")
    extractInnerURL := id }

def fileURL (path : String) : URL :=
  { isValid := true, protocol := some (ascii "file"), protocolIsInHTTPFamily := false
    host := some [], port := 0, path := some (ascii path) }

/-- Two documents of one file and one of another. -/
def documents : List Command :=
  [.create (fileURL "/a"), .create (fileURL "/b"), .create (fileURL "/b"),
    .enforceFilePathSeparation 2]

def fileOrigins : List SecurityOrigin :=
  [.ofURL fileEmbedder (fileURL "/a"), .ofURL fileEmbedder (fileURL "/b"),
    SecurityOrigin.enforcing (.ofURL fileEmbedder (fileURL "/b"))]

theorem reached_fileOrigins : Reached fileEmbedder fileOrigins :=
  @Reach.of_run _ _ _ _ _ _ _ _ documents .start rfl

theorem access_laws_files : ¬ Accesses fileEmbedder fileOrigins 0 2 := by
  have laws := access_laws reached_fileOrigins (i := 0) (j := 1) (k := 2) rfl rfl rfl rfl rfl rfl
  exact fun access => (laws.2.2 ⟨_, _, rfl, rfl, rfl⟩ ⟨_, _, rfl, rfl, rfl⟩).mp access
    ⟨rfl, by decide, by decide⟩

/-- The first two do not enforce the separation and the last two have the same file. -/
theorem access_not_transitive : Reached fileEmbedder fileOrigins ∧
    (∀ origin ∈ fileOrigins, origin.isUnique = false) ∧
    Accesses fileEmbedder fileOrigins 0 1 ∧ Accesses fileEmbedder fileOrigins 1 2 ∧
      ¬ Accesses fileEmbedder fileOrigins 0 2 := by
  refine ⟨reached_fileOrigins, by decide, ⟨_, _, rfl, rfl, rfl⟩, ⟨_, _, rfl, rfl, rfl⟩, ?_⟩
  rintro ⟨a, b, first, second, access⟩
  cases first
  cases second
  revert access
  decide

end NetRider.Page
