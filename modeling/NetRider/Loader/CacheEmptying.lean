import NetRider.Loader.CacheRuns

/-!
# Emptying the memory cache

`setDisabled` evicts what the first session has. The session table keeps a session whose last
resource is gone.
-/

namespace NetRider.Loader.MemoryCache

variable {w w' : MemoryCache} {r : ResourceId}

/-! ## The loop -/

/-- What an iterator over the map of a session begins with. -/
abbrev FirstResource := (String → Option ResourceId) → Option ResourceId

/-- An iterator begins with a resource of the map, or the map is empty. -/
def Begins (begin_ : FirstResource) : Prop :=
  ∀ resources, match begin_ resources with
    | some r => ∃ url, resources url = some r
    | none => ∀ url, resources url = none

/-- The loop of `setDisabled`, with the sessions in the order of the table; nothing while it has
not ended. -/
def evictAll (sessions : List Nat) (begin_ : FirstResource) : Nat → MemoryCache → Option MemoryCache
  | 0, _ => none
  | turns + 1, w =>
    match sessions with
    | [] => some w
    | session :: _ =>
      match begin_ (w.sessionResources session) with
      | none => some w
      | some r => evictAll sessions begin_ turns (w.evict r)

def setDisabled (sessions : List Nat) (begin_ : FirstResource) (turns : Nat) (w : MemoryCache)
    (disabled : Bool) : Option MemoryCache :=
  let w := { w with disabled := disabled }
  if !disabled then some w else evictAll sessions begin_ turns w

/-! ## The maps -/

/-- The maps hold the resources that are in the cache, each in its place. -/
structure Filed (w : MemoryCache) : Prop where
  entry : ∀ {session : Nat} {url : String} {r : ResourceId}, w.sessionResources session url = some r →
    (w.resource r).inCache = true ∧ (w.resource r).info.sessionID = session ∧
      (w.resource r).info.url = url
  place : ∀ {r : ResourceId}, (w.resource r).inCache = true →
    w.sessionResources (w.resource r).info.sessionID (w.resource r).info.url = some r

/-- Nothing is left. -/
structure Emptied (w : MemoryCache) : Prop where
  maps : ∀ session url, w.sessionResources session url = none
  resources : ∀ r, (w.resource r).inCache = false
  liveSize : w.liveSize = 0
  deadSize : w.deadSize = 0

theorem removeFromLRUList_maps (w : MemoryCache) (r : ResourceId) :
    (w.removeFromLRUList r).sessionResources = w.sessionResources := by
  unfold removeFromLRUList
  split_ifs <;> rfl

theorem removeFromLive_maps (w : MemoryCache) (r : ResourceId) :
    (w.removeFromLiveDecodedResourcesList r).sessionResources = w.sessionResources := by
  unfold removeFromLiveDecodedResourcesList
  split_ifs <;> rfl

theorem adjustSize_maps (w : MemoryCache) (live : Bool) (delta : BitVec 32) :
    (w.adjustSize live delta).sessionResources = w.sessionResources := by
  unfold adjustSize
  split_ifs <;> rfl

theorem deleteIfPossible_maps (w : MemoryCache) (r : ResourceId) :
    (w.deleteIfPossible r).1.sessionResources = w.sessionResources := by
  unfold deleteIfPossible
  split_ifs <;> rfl

theorem deleteIfPossible_resource (w : MemoryCache) (r x : ResourceId) :
    ((w.deleteIfPossible r).1.resource x).inCache = (w.resource x).inCache ∧
      ((w.deleteIfPossible r).1.resource x).info = (w.resource x).info := by
  unfold deleteIfPossible
  split_ifs
  · by_cases same : x = r
    · subst same
      rw [setResource_self]
      exact ⟨rfl, rfl⟩
    · rw [setResource_other same]
      exact ⟨rfl, rfl⟩
  · exact ⟨rfl, rfl⟩

/-- What `evict` changes for a resource in the cache: its entry and its mark. -/
theorem evict_spec (there : (w.resource r).inCache = true) :
    (w.evict r).sessionResources = (w.setEntry r none).sessionResources ∧
      ∀ x, ((w.evict r).resource x).info = (w.resource x).info ∧
        ((w.evict r).resource x).inCache = if x = r then false else (w.resource x).inCache := by
  unfold evict
  simp only [there, if_true]
  constructor
  · rw [deleteIfPossible_maps, adjustSize_maps, removeFromLive_maps, removeFromLRUList_maps]
    rfl
  · intro x
    rw [(deleteIfPossible_resource _ r x).1, (deleteIfPossible_resource _ r x).2,
      adjustSize_resource, (removeFromLive_same _ r).resource, removeFromLRUList_resource]
    by_cases same : x = r
    · subst same
      rw [Function.update_self, setResource_self, if_pos rfl]
      exact ⟨rfl, rfl⟩
    · rw [Function.update_of_ne same, setResource_other same, if_neg same]
      exact ⟨rfl, rfl⟩

theorem evict_entry (there : (w.resource r).inCache = true) (session : Nat) (url : String) :
    (w.evict r).sessionResources session url =
      if session = (w.resource r).info.sessionID ∧ url = (w.resource r).info.url then none
      else w.sessionResources session url := by
  rw [(evict_spec there).1]
  dsimp only [setEntry]
  by_cases own : session = (w.resource r).info.sessionID
  · subst own
    rw [Function.update_self]
    by_cases here : url = (w.resource r).info.url
    · rw [here, Function.update_self, if_pos ⟨rfl, rfl⟩]
    · rw [Function.update_of_ne here, if_neg fun both => here both.2]
  · rw [Function.update_of_ne own, if_neg fun both => own both.1]

theorem Filed.evict (filed : w.Filed) (there : (w.resource r).inCache = true) :
    (w.evict r).Filed := by
  have spec := (evict_spec there).2
  constructor
  · intro session url x entry
    rw [evict_entry there] at entry
    split_ifs at entry with own
    obtain ⟨cached, session', url'⟩ := filed.entry entry
    have other : x ≠ r := by
      rintro rfl
      exact own ⟨session'.symm, url'.symm⟩
    rw [(spec x).1, (spec x).2, if_neg other]
    exact ⟨cached, session', url'⟩
  · intro x cached
    rw [(spec x).2] at cached
    split_ifs at cached with same
    have place := filed.place cached
    have apart : ¬ ((w.resource x).info.sessionID = (w.resource r).info.sessionID ∧
        (w.resource x).info.url = (w.resource r).info.url) := by
      rintro ⟨session, url⟩
      rw [session, url, filed.place there] at place
      exact same (Option.some.inj place).symm
    rw [(spec x).1, evict_entry there, if_neg apart]
    exact place

/-- A cache without resources has no sizes. -/
theorem Accounted.sizes (ok : w.Accounted) (none : ∀ r, (w.resource r).inCache = false) :
    w.liveSize = 0 ∧ w.deadSize = 0 := by
  obtain ⟨cached, -, live, dead⟩ := ok.totals
  rw [live, dead]
  constructor
  · refine Finset.sum_eq_zero fun x _ => ?_
    rw [CachedResource.livePart, none x]
    rfl
  · refine Finset.sum_eq_zero fun x _ => ?_
    rw [CachedResource.deadPart, none x]
    rfl

theorem Filed.emptied_iff (filed : w.Filed) (ok : w.Accounted) :
    w.Emptied ↔ ∀ session url, w.sessionResources session url = none := by
  constructor
  · exact Emptied.maps
  · intro maps
    have resources : ∀ r, (w.resource r).inCache = false := by
      intro r
      by_contra there
      have place := filed.place (by simpa using there)
      rw [maps] at place
      exact Option.some_ne_none r place.symm
    exact ⟨maps, resources, (ok.sizes resources).1, (ok.sizes resources).2⟩

/-! ## What the loop leaves -/

/-- The loop ends when the map of the first session is empty; it does not touch the others. The
induction is on the resources that are in the cache. -/
theorem evictAll_spec {session : Nat} {sessions : List Nat} {begin_ : FirstResource}
    (begins : Begins begin_) : ∀ {cached : Finset ResourceId} {w : MemoryCache}, w.Filed →
      w.Accounted → (∀ r, (w.resource r).inCache = true → r ∈ cached) →
      ∃ turns w', evictAll (session :: sessions) begin_ turns w = some w' ∧ w'.Filed ∧
        w'.Accounted ∧ (∀ url, w'.sessionResources session url = none) ∧
        ∀ other, other ≠ session → w'.sessionResources other = w.sessionResources other := by
  intro cached
  induction cached using Finset.strongInduction with
  | H cached ih =>
    intro w filed ok within
    have first := begins (w.sessionResources session)
    cases begun : begin_ (w.sessionResources session) with
    | none =>
      rw [begun] at first
      exact ⟨1, w, by simp only [evictAll, begun], filed, ok, first, fun _ _ => rfl⟩
    | some r =>
      rw [begun] at first
      obtain ⟨url, entry⟩ := first
      obtain ⟨there, own, -⟩ := filed.entry entry
      have spec := (evict_spec there).2
      have fewer : ∀ x, ((w.evict r).resource x).inCache = true → x ∈ cached.erase r := by
        intro x cachedX
        rw [(spec x).2] at cachedX
        split_ifs at cachedX with same
        exact Finset.mem_erase.mpr ⟨same, within x cachedX⟩
      obtain ⟨turns, w', run, filed', ok', empty, others⟩ := ih (cached.erase r)
        (Finset.erase_ssubset (within r there)) (filed.evict there) ok.evict fewer
      refine ⟨turns + 1, w', by simp only [evictAll, begun, run], filed', ok', empty, ?_⟩
      intro other different
      rw [others other different]
      funext url
      rw [evict_entry there, if_neg]
      rintro ⟨same, -⟩
      exact different (same.trans own)

/-- **When disabling the cache empties it**: exactly when only the first session of the table has
resources. -/
theorem setDisabled_empties_iff (w : MemoryCache) (sessions : List Nat) (begin_ : FirstResource)
    (filed : w.Filed) (ok : w.Accounted) (begins : Begins begin_) (distinct : sessions.Nodup)
    (listed : ∀ session url, w.sessionResources session url ≠ none → session ∈ sessions) :
    ∃ turns w', setDisabled sessions begin_ turns w true = some w' ∧
      (w'.Emptied ↔ ∀ session ∈ sessions.tail, ∀ url, w.sessionResources session url = none) := by
  have filed' : Filed { w with disabled := true } := ⟨filed.entry, filed.place⟩
  have ok' : Accounted { w with disabled := true } :=
    ⟨ok.lru, ok.live, ok.totals, ok.sound, ok.revalidated⟩
  cases sessions with
  | nil =>
    refine ⟨1, { w with disabled := true }, rfl, ?_⟩
    rw [filed'.emptied_iff ok']
    refine iff_of_true ?_ (by simp)
    intro session url
    by_contra entry
    exact absurd (listed session url entry) List.not_mem_nil
  | cons session sessions =>
    obtain ⟨cached, within, -⟩ := ok.totals
    obtain ⟨turns, w', run, filedW, okW, empty, others⟩ :=
      @evictAll_spec session sessions begin_ begins cached _ filed' ok' within
    refine ⟨turns, w', run, ?_⟩
    rw [filedW.emptied_iff okW, List.tail_cons]
    constructor
    · intro none other among url
      have different : other ≠ session := by
        rintro rfl
        exact (List.nodup_cons.mp distinct).1 among
      have rest := none other url
      rw [others other different] at rest
      exact rest
    · intro none other url
      by_cases same : other = session
      · rw [same]
        exact empty url
      · rw [others other same]
        by_contra entry
        obtain first | among := List.mem_cons.mp (listed other url entry)
        · exact same first
        · exact entry (none other among url)

/-! ## Two sessions -/

theorem create_filed (disabled : Bool) (info : ResourceId → ResourceInfo) :
    (create disabled info).Filed := by
  constructor
  · intro session url r entry
    exact absurd entry.symm (Option.some_ne_none r)
  · intro r there
    exact absurd there Bool.false_ne_true

theorem add_maps (enabled : w.disabled = false) (new : (w.resource r).accessCount = 0)
    (session : Nat) (url : String) : (w.add r).sessionResources session url =
      if session = (w.resource r).info.sessionID ∧ url = (w.resource r).info.url then some r
      else w.sessionResources session url := by
  rw [add_eq enabled new, adjustSize_maps]
  show (w.setEntry r (some r)).sessionResources session url = _
  dsimp only [setEntry]
  by_cases own : session = (w.resource r).info.sessionID
  · subst own
    rw [Function.update_self]
    by_cases here : url = (w.resource r).info.url
    · rw [here, Function.update_self, if_pos ⟨rfl, rfl⟩]
    · rw [Function.update_of_ne here, if_neg fun both => here both.2]
  · rw [Function.update_of_ne own, if_neg fun both => own both.1]

theorem add_resource (enabled : w.disabled = false) (new : (w.resource r).accessCount = 0)
    (x : ResourceId) : ((w.add r).resource x).info = (w.resource x).info ∧
      ((w.add r).resource x).inCache = if x = r then true else (w.resource x).inCache := by
  rw [add_eq enabled new, adjustSize_resource, insertInLRUList_resource]
  by_cases same : x = r
  · subst same
    rw [setResource_self, if_pos rfl]
    exact ⟨rfl, rfl⟩
  · rw [setResource_other same, if_neg same]
    exact ⟨rfl, rfl⟩

theorem Filed.add (filed : w.Filed) (enabled : w.disabled = false)
    (new : (w.resource r).accessCount = 0)
    (free : w.sessionResources (w.resource r).info.sessionID (w.resource r).info.url = none) :
    (w.add r).Filed := by
  have maps := add_maps enabled new
  have resources := add_resource enabled new
  constructor
  · intro session url x entry
    rw [maps] at entry
    rw [(resources x).1, (resources x).2]
    split_ifs at entry with own
    · obtain rfl := Option.some.inj entry
      rw [if_pos rfl]
      exact ⟨rfl, own.1.symm, own.2.symm⟩
    · obtain ⟨cached, place⟩ := filed.entry entry
      refine ⟨?_, place⟩
      split_ifs
      · rfl
      · exact cached
  · intro x cached
    rw [(resources x).2] at cached
    rw [(resources x).1, maps]
    split_ifs at cached with same
    · rw [same, if_pos ⟨rfl, rfl⟩]
    · have place := filed.place cached
      rw [if_neg]
      · exact place
      · rintro ⟨session, url⟩
        rw [session, url, free] at place
        exact Option.some_ne_none x place.symm

/-- Resources of different sessions with one URL. -/
def ownSession (r : ResourceId) : ResourceInfo := ⟨r, "http://a/", false, false, 1000⟩

def oneCached : MemoryCache := (create false ownSession).add 0

def twoCached : MemoryCache := oneCached.add 1

theorem oneCached_filed : oneCached.Filed := (create_filed false ownSession).add rfl rfl rfl

theorem oneCached_accounted : oneCached.Accounted :=
  (create_accounted false ownSession).add rfl rfl

open Classical in
/-- Some iterator. -/
noncomputable def anyResource : FirstResource := fun resources =>
  if entry : ∃ r url, resources url = some r then some entry.choose else none

theorem anyResource_begins : Begins anyResource := by
  intro resources
  unfold anyResource
  by_cases entry : ∃ r url, resources url = some r
  · rw [dif_pos entry]
    exact entry.choose_spec
  · rw [dif_neg entry]
    intro url
    by_contra there
    obtain ⟨r, found⟩ := Option.ne_none_iff_exists'.mp there
    exact entry ⟨r, url, found⟩

theorem oneCached_sessions (session : Nat) (url : String)
    (entry : oneCached.sessionResources session url ≠ none) : session = 0 := by
  by_contra other
  refine entry ?_
  rw [oneCached, add_maps rfl rfl, if_neg fun both => other both.1]
  rfl

theorem setDisabled_empties_iff_one : ∃ turns w',
    setDisabled [0] anyResource turns oneCached true = some w' ∧
      (w'.Emptied ↔ ∀ session ∈ [0].tail, ∀ url, oneCached.sessionResources session url = none) :=
  setDisabled_empties_iff oneCached [0] anyResource oneCached_filed oneCached_accounted
    anyResource_begins (by decide) fun session url entry =>
      List.mem_singleton.mpr (oneCached_sessions session url entry)

theorem second_session_stays : twoCached.Filed ∧ twoCached.Accounted ∧ ∃ turns w',
    setDisabled [0, 1] anyResource turns twoCached true = some w' ∧ ¬ w'.Emptied := by
  have filed : twoCached.Filed := oneCached_filed.add rfl rfl rfl
  have ok : twoCached.Accounted := oneCached_accounted.add rfl rfl
  have filed' : Filed { twoCached with disabled := true } := ⟨filed.entry, filed.place⟩
  have ok' : Accounted { twoCached with disabled := true } :=
    ⟨ok.lru, ok.live, ok.totals, ok.sound, ok.revalidated⟩
  obtain ⟨cached, within, -⟩ := ok.totals
  obtain ⟨turns, w', run, -, -, -, others⟩ :=
    @evictAll_spec 0 [1] anyResource anyResource_begins cached _ filed' ok' within
  refine ⟨filed, ok, turns, w', run, ?_⟩
  intro emptied
  have left : w'.sessionResources 1 "http://a/" = some 1 := by
    rw [others 1 (by decide)]
    rfl
  rw [emptied.maps] at left
  exact Option.some_ne_none 1 left.symm

end NetRider.Loader.MemoryCache
