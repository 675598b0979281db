import NetRider.Storage.Drain

/-!
# The invariant of one process

`Process.Ok` ties a cache to the messages of its process: seeds, pending changes, and what the
cache will be when all has arrived. Each lemma takes a step of the process, or of the storage
manager on its behalf.
-/

namespace NetRider.Storage

open scoped List

/-- No value is null. -/
def Plain (items : Items) : Prop := ∀ k, items.lookup k ≠ some none

def Request.isGetValues : Request → Bool
  | getValues _ => true
  | _ => false

/-- The key whose pending change a request makes under a seed. -/
def Request.changes (current : Nat) (r : Request) : Option Text :=
  if r.seed = current then r.key else none

/-- Requests of a process: earlier than the seed while the values are not loaded, and with
`GetValues` at the end while the process waits. -/
def Sent (a : StorageAreaMap) (waiting : Option Operation) (up : List Request) : Prop :=
  (waiting = none ∧ ∀ r ∈ up, r.isGetValues = false ∧ r.seed ≤ a.currentSeed ∧
      (a.storageMap = none → r.seed < a.currentSeed)) ∨
    (a.storageMap = none ∧ waiting.isSome = true ∧ ∃ old, up = old ++ [.getValues a.currentSeed] ∧
      ∀ r ∈ old, r.isGetValues = false ∧ r.seed < a.currentSeed)

structure Process.Ok (items : Items) (p : Process) : Prop where
  plain : ∀ map, p.area.storageMap = some map → Plain map.items
  unloaded : p.area.storageMap = none →
    p.area.hasPendingClear = false ∧ p.area.hasPendingGetValues = false
  sent : Sent p.area p.waiting p.up
  answered : ∀ n ∈ p.down, ∀ seed, n.seed = some seed →
    seed ≤ p.area.currentSeed ∧ (p.area.storageMap = none → seed < p.area.currentSeed)
  pending : p.area.pendingValueChanges =
    p.down.filterMap (Notice.answers p.area.currentSeed) ++
      p.up.filterMap (Request.changes p.area.currentSeed)
  since : Since items p.down
  ahead : Drains (Settled items p.up) p.area p.down

theorem Notice.seed_of_answers {n : Notice} {current : Nat} {k : Text}
    (h : n.answers current = some k) : n.seed = some current := by
  cases n with
  | didSetItem seed key quotaError =>
    simp only [answers] at h
    split_ifs at h with same
    rw [Notice.seed, same]
  | didRemoveItem seed key =>
    simp only [answers] at h
    split_ifs at h with same
    rw [Notice.seed, same]
  | _ => simp [answers] at h

theorem no_answers {current : Nat} {ns : List Notice}
    (stale : ∀ n ∈ ns, n.seed ≠ some current) : ns.filterMap (Notice.answers current) = [] := by
  apply List.filterMap_eq_nil_iff.mpr
  intro n member
  cases h : n.answers current with
  | none => rfl
  | some k => exact absurd (Notice.seed_of_answers h) (stale n member)

theorem no_changes {current : Nat} {up : List Request} (older : ∀ r ∈ up, r.seed ≠ current) :
    up.filterMap (Request.changes current) = [] :=
  List.filterMap_eq_nil_iff.mpr fun r member => if_neg (older r member)

theorem plain_empty : Plain ∅ := by
  intro k
  simp

theorem plain_insert {items : Items} (plain : Plain items) (key value : Text) :
    Plain (items.insert key (some value)) := by
  intro k
  by_cases same : k = key
  · subst same
    simp
  · rw [Finmap.lookup_insert_of_ne _ same]
    exact plain k

theorem plain_erase {items : Items} (plain : Plain items) (key : Text) :
    Plain (items.erase key) := by
  intro k
  by_cases same : k = key
  · subst same
    simp
  · rw [Finmap.lookup_erase_ne same]
    exact plain k

/-- Setting an item to the value it has. -/
theorem insert_getItem {map : StorageMap} {key value : Text}
    (there : map.getItem key = some value) : map.items.insert key (some value) = map.items := by
  apply Finmap.ext_lookup
  intro k
  by_cases same : k = key
  · subst same
    rw [Finmap.lookup_insert]
    exact (Option.join_eq_some_iff.mp there).symm
  · rw [Finmap.lookup_insert_of_ne _ same]

/-- Removing an item that is not there. -/
theorem erase_getItem {map : StorageMap} {key : Text} (plain : Plain map.items)
    (absent : map.getItem key = none) : map.items.erase key = map.items := by
  apply Finmap.ext_lookup
  intro k
  by_cases same : k = key
  · subst same
    rw [Finmap.lookup_erase]
    cases found : map.items.lookup k with
    | none => rfl
    | some value =>
      rw [StorageMap.getItem, found] at absent
      obtain rfl : value = none := absent
      exact absurd found (plain k)
  · rw [Finmap.lookup_erase_ne same]

/-! ## What receiving a notice leaves alone -/

/-- A notice that does not reset the cache. -/
structure Kept (n : Notice) (a b : StorageAreaMap) : Prop where
  seed : b.currentSeed = a.currentSeed
  loaded : b.storageMap = none → a.storageMap = none
  pending : b.pendingValueChanges =
    (n.answers a.currentSeed).elim a.pendingValueChanges a.pendingValueChanges.erase
  clear : b.hasPendingClear = true → a.hasPendingClear = true
  getValues : b.hasPendingGetValues = true → a.hasPendingGetValues = true
  plain : (∀ map, a.storageMap = some map → Plain map.items) →
    ∀ map, b.storageMap = some map → Plain map.items

theorem Kept.refl {n : Notice} {a : StorageAreaMap} (silent : n.answers a.currentSeed = none) :
    Kept n a a :=
  ⟨rfl, id, by rw [silent]; rfl, id, id, id⟩

theorem kept_didRemoveItem {n : Notice} {a : StorageAreaMap} {seed : Nat} {key : Text}
    (answer : ∀ current, n.answers current = if seed = current then some key else none) :
    Kept n a (a.didRemoveItem seed key) := by
  unfold StorageAreaMap.didRemoveItem
  split_ifs with stale
  · exact .refl (by rw [answer, if_neg (Ne.symm stale)])
  · refine ⟨rfl, id, ?_, id, id, id⟩
    rw [answer, if_pos (not_not.mp stale).symm]
    rfl

theorem kept_replaced {a : StorageAreaMap} {id : Nat} {key newValue : Option Text}
    {map : StorageMap} (plain : (∀ map, a.storageMap = some map → Plain map.items) →
      Plain map.items) :
    Kept (.dispatchStorageEvent id key newValue) a { a with storageMap := some map } where
  seed := rfl
  loaded unloaded := by cases unloaded
  pending := rfl
  clear := fun h => h
  getValues := fun h => h
  plain before map' loaded := Option.some.inj loaded ▸ plain before

theorem kept_applyChange {a : StorageAreaMap} {key newValue : Option Text}
    (fits : a.appliesClear (.dispatchStorageEvent 0 key newValue) = true →
      a.pendingValueChanges = []) :
    Kept (.dispatchStorageEvent 0 key newValue) a (a.applyChange key newValue) := by
  unfold StorageAreaMap.applyChange
  split_ifs with putOff
  · exact .refl rfl
  · cases key with
    | none =>
      have applied : a.appliesClear (.dispatchStorageEvent 0 none newValue) = true := by
        simpa [StorageAreaMap.appliesClear] using putOff
      simp only [applyClear_eq (fits applied)]
      exact kept_replaced fun _ => plain_empty
    | some key =>
      by_cases free : key ∈ a.pendingValueChanges ∨ a.storageMap = none
      · have ignored : a.applyChangeForKey key newValue = a := by
          unfold StorageAreaMap.applyChangeForKey
          rcases free with mine | unloaded
          · cases a.storageMap with
            | none => rfl
            | some map => exact if_pos mine
          · rw [unloaded]
        simp only [ignored]
        exact .refl rfl
      · obtain ⟨mine, loaded⟩ := not_or.mp free
        obtain ⟨map, loaded⟩ := Option.ne_none_iff_exists'.mp loaded
        obtain ⟨map', result, effect⟩ := applyChangeForKey_items loaded mine newValue
        simp only [result]
        apply kept_replaced
        intro plain
        rw [effect]
        cases newValue with
        | none => exact plain_erase (plain map loaded) key
        | some value => exact plain_insert (plain map loaded) key value

theorem reset_or_kept {a : StorageAreaMap} {n : Notice}
    (fits : a.appliesClear n = true → a.pendingValueChanges = []) :
    a.didReceiveMessage n = a.resetValues ∨ Kept n a (a.didReceiveMessage n) := by
  cases n with
  | didGetValues seed =>
    right
    simp only [StorageAreaMap.didReceiveMessage, StorageAreaMap.didGetValues]
    split_ifs with stale
    · exact .refl rfl
    · exact ⟨rfl, id, rfl, id, by simp, id⟩
  | didClear seed =>
    right
    simp only [StorageAreaMap.didReceiveMessage, StorageAreaMap.didClear]
    split_ifs with stale
    · exact .refl rfl
    · exact ⟨rfl, id, rfl, by simp, id, id⟩
  | didSetItem seed key quotaError =>
    cases quotaError with
    | false =>
      simp only [StorageAreaMap.didReceiveMessage, didSetItem_accepted]
      exact .inr (kept_didRemoveItem fun _ => rfl)
    | true =>
      simp only [StorageAreaMap.didReceiveMessage, StorageAreaMap.didSetItem]
      split_ifs with stale
      · exact .inr (.refl (if_neg (Ne.symm stale)))
      · exact .inl rfl
  | didRemoveItem seed key => exact .inr (kept_didRemoveItem fun _ => rfl)
  | clearCache => exact .inl rfl
  | dispatchStorageEvent id key newValue =>
    right
    simp only [StorageAreaMap.didReceiveMessage, StorageAreaMap.dispatchStorageEvent]
    split_ifs with other
    · subst other
      exact kept_applyChange fits
    · exact .refl rfl

namespace Process.Ok

variable {items : Items} {p : Process}

theorem down_stale (ok : p.Ok items) (unloaded : p.area.storageMap = none) :
    ∀ n ∈ p.down, n.seed ≠ some p.area.currentSeed := by
  intro n member same
  exact lt_irrefl _ ((ok.answered n member _ same).2 unloaded)

theorem seeds_le (ok : p.Ok items) : ∀ r ∈ p.up, r.seed ≤ p.area.currentSeed := by
  intro r member
  rcases ok.sent with ⟨-, each⟩ | ⟨-, -, old, requests, each⟩
  · exact (each r member).2.1
  · rw [requests] at member
    rcases List.mem_append.mp member with member | member
    · exact (each r member).2.le
    · obtain rfl := List.mem_singleton.mp member
      exact le_rfl

/-- Under the next seed nothing on its way counts any more. -/
theorem quiet_later (ok : p.Ok items) :
    p.down.filterMap (Notice.answers (p.area.currentSeed + 1)) = [] ∧
      p.up.filterMap (Request.changes (p.area.currentSeed + 1)) = [] := by
  constructor
  · apply no_answers
    intro n member same
    exact absurd (ok.answered n member _ same).1 (Nat.not_succ_le_self _)
  · apply no_changes
    intro r member
    exact (Nat.lt_succ_of_le (ok.seeds_le r member)).ne

/-- Before the values are loaded no change is pending. -/
theorem none_pending (ok : p.Ok items) (unloaded : p.area.storageMap = none) :
    p.area.pendingValueChanges = [] := by
  rw [ok.pending, no_answers (ok.down_stale unloaded), List.nil_append]
  rcases ok.sent with ⟨-, each⟩ | ⟨-, -, old, requests, each⟩
  · exact no_changes fun r member => ((each r member).2.2 unloaded).ne
  · rw [requests, List.filterMap_append, no_changes fun r member => (each r member).2.ne]
    simp [Request.changes, Request.key]

/-- A notice about a change that others made, or about the whole area. -/
theorem notified (ok : p.Ok items) {n : Notice} (unasked : n.seed = none)
    (effect : ∀ a, Settled items p.up a → Fits a n →
      Settled (n.apply items) p.up (a.didReceiveMessage n)) :
    Process.Ok (n.apply items) { p with down := p.down ++ [n] } where
  plain := ok.plain
  unloaded := ok.unloaded
  sent := ok.sent
  answered m member seed hseed := by
    rcases List.mem_append.mp member with member | member
    · exact ok.answered m member seed hseed
    · obtain rfl := List.mem_singleton.mp member
      rw [unasked] at hseed
      cases hseed
  pending := by
    have silent : n.answers p.area.currentSeed = none := by
      cases h : n.answers p.area.currentSeed with
      | none => rfl
      | some k => exact absurd (Notice.seed_of_answers h) (by simp [unasked])
    simp [ok.pending, silent]
  since := ok.since.append [n]
  ahead := drains_append.mpr (ok.ahead.mono effect)

/-- The storage manager has handled the first request and answered it. -/
theorem handled {r : Request} {up : List Request} {ns : List Notice}
    (ok : p.Ok items) (requests : p.up = r :: up) (asked : r.isGetValues = false)
    (seeds : ∀ n ∈ ns, ∀ seed, n.seed = some seed → seed = r.seed)
    (answers : ∀ current, ns.filterMap (Notice.answers current) = (r.changes current).toList)
    (effect : ∀ a, Settled items (r :: up) a → Drains (Settled (history items ns) up) a ns) :
    Process.Ok (history items ns) { p with up, down := p.down ++ ns } where
  plain := ok.plain
  unloaded := ok.unloaded
  sent := by
    rcases ok.sent with ⟨running, each⟩ | ⟨unloaded, waits, old, requests', each⟩
    · exact .inl ⟨running, fun r' member => each r' (by simp [requests, member])⟩
    · refine .inr ⟨unloaded, waits, ?_⟩
      rw [requests] at requests'
      cases old with
      | nil =>
        obtain ⟨rfl, -⟩ := List.cons.inj requests'
        cases asked
      | cons r' old =>
        exact ⟨old, (List.cons.inj requests').2, fun r'' member =>
          each r'' (List.mem_cons_of_mem _ member)⟩
  answered n member seed hseed := by
    rcases List.mem_append.mp member with member | member
    · exact ok.answered n member seed hseed
    · obtain rfl := seeds n member seed hseed
      rcases ok.sent with ⟨-, each⟩ | ⟨unloaded, -, old, requests', each⟩
      · exact (each r (by simp [requests])).2
      · have old_request : r ∈ old := by
          have member : r ∈ old ++ [.getValues p.area.currentSeed] := by simp [← requests', requests]
          rcases List.mem_append.mp member with member | member
          · exact member
          · obtain rfl := List.mem_singleton.mp member
            cases asked
        exact ⟨(each r old_request).2.le, fun _ => (each r old_request).2⟩
  pending := by
    rw [ok.pending, requests, List.filterMap_append, answers]
    cases h : r.changes p.area.currentSeed with
    | none => simp [List.filterMap_cons_none h]
    | some k => simp [List.filterMap_cons_some h]
  since := ok.since.append ns
  ahead := drains_append.mpr ((requests ▸ ok.ahead).mono effect)

/-- The area of a running process changes and requests are sent. -/
theorem performed {b : StorageAreaMap} {sent : List Request} (ok : p.Ok items)
    (running : p.waiting = none) (loaded : b.storageMap ≠ none)
    (plain : ∀ map, b.storageMap = some map → Plain map.items)
    (seed : p.area.currentSeed ≤ b.currentSeed)
    (requests : ∀ r ∈ sent, r.isGetValues = false ∧ r.seed = b.currentSeed)
    (pending : b.pendingValueChanges = p.down.filterMap (Notice.answers b.currentSeed) ++
      (p.up ++ sent).filterMap (Request.changes b.currentSeed))
    (ahead : Drains (Settled items (p.up ++ sent)) b p.down) :
    Process.Ok items { p with area := b, up := p.up ++ sent } where
  plain := plain
  unloaded unloaded := absurd unloaded loaded
  sent := by
    refine .inl ⟨running, ?_⟩
    intro r member
    rcases ok.sent with ⟨-, each⟩ | ⟨-, waits, -⟩
    · refine ⟨?_, ?_, fun unloaded => absurd unloaded loaded⟩
      · rcases List.mem_append.mp member with member | member
        · exact (each r member).1
        · exact (requests r member).1
      · rcases List.mem_append.mp member with member | member
        · exact (each r member).2.1.trans seed
        · exact (requests r member).2.le
    · simp [running] at waits
  answered n member s hs :=
    ⟨(ok.answered n member s hs).1.trans seed, fun unloaded => absurd unloaded loaded⟩
  pending := pending
  since := ok.since
  ahead := ahead

/-- A local operation that leaves the items as they are. -/
theorem unchanged {map map' : StorageMap} (ok : p.Ok items) (running : p.waiting = none)
    (loaded : p.area.storageMap = some map) (same : map'.items = map.items) :
    Process.Ok items { p with
      area := { p.area with storageMap := some map' }
      up := p.up ++ [] } := by
  apply ok.performed running
  · simp
  · intro map'' loaded'
    obtain rfl := Option.some.inj loaded'
    rw [same]
    exact ok.plain map loaded
  · exact le_rfl
  · simp
  · simpa using ok.pending
  · rw [List.append_nil]
    exact drains_unchanged ok.ahead loaded ok.pending same

/-- A local change of one item, and the request that tells of it. -/
theorem changed {map map' : StorageMap} {r : Request} {k : Text} (ok : p.Ok items)
    (running : p.waiting = none) (loaded : p.area.storageMap = some map)
    (plain : Plain map'.items) (hk : r.key = some k) (now : r.seed = p.area.currentSeed)
    (effect : map'.items = r.apply map.items) :
    Process.Ok items { p with
      area := { p.area with
        storageMap := some map'
        pendingValueChanges := p.area.pendingValueChanges ++ [k] }
      up := p.up ++ [r] } := by
  apply ok.performed running
  · simp
  · intro map'' loaded'
    obtain rfl := Option.some.inj loaded'
    exact plain
  · exact le_rfl
  · intro r' member
    obtain rfl := List.mem_singleton.mp member
    refine ⟨?_, now⟩
    cases r' with
    | getValues => cases hk
    | _ => rfl
  · simp [ok.pending, Request.changes, now, hk]
  · exact drains_changed ok.ahead loaded ok.pending hk now effect

theorem setItem {map : StorageMap} (sourceArea : StorageAreaID) (key value : Text)
    (ok : p.Ok items) (running : p.waiting = none) (loaded : p.area.storageMap = some map) :
    Process.Ok items { p with
      area := (p.area.setItem map sourceArea key value).1
      up := p.up ++ (p.area.setItem map sourceArea key value).2 } := by
  simp only [StorageAreaMap.setItem]
  split_ifs with refused there
  · simpa using ok
  · -- the value is there already
    have effect := StorageMap.setItem_items (Bool.eq_false_of_not_eq_true refused)
    rw [StorageMap.setItem_oldValue] at there
    exact ok.unchanged running loaded (effect.trans (insert_getItem there))
  · have effect := StorageMap.setItem_items (Bool.eq_false_of_not_eq_true refused)
    have plain := plain_insert (ok.plain map loaded) key value
    rw [← effect] at plain
    exact ok.changed running loaded plain rfl rfl effect

theorem removeItem {map : StorageMap} (sourceArea : StorageAreaID) (key : Text)
    (ok : p.Ok items) (running : p.waiting = none) (loaded : p.area.storageMap = some map) :
    Process.Ok items { p with
      area := (p.area.removeItem map sourceArea key).1
      up := p.up ++ (p.area.removeItem map sourceArea key).2 } := by
  have effect := map.removeItem_items key
  simp only [StorageAreaMap.removeItem]
  split_ifs with absent
  · have missing := Option.isNone_iff_eq_none.mp absent
    exact ok.unchanged running loaded (effect.trans (erase_getItem (ok.plain map loaded) missing))
  · exact ok.changed running loaded (plain_erase (ok.plain map loaded) key) rfl rfl effect

/-- An operation on a loaded map. -/
theorem perform {map : StorageMap} (ok : p.Ok items) (running : p.waiting = none)
    (loaded : p.area.storageMap = some map) (operation : Operation) :
    Process.Ok items { p with
      area := (p.area.perform map operation).1
      up := p.up ++ (p.area.perform map operation).2 } := by
  cases operation with
  | read => simpa [StorageAreaMap.perform] using ok
  | setItem sourceArea key value => exact ok.setItem sourceArea key value running loaded
  | removeItem sourceArea key => exact ok.removeItem sourceArea key running loaded

theorem clear (ok : p.Ok items) (running : p.waiting = none) (sourceArea : StorageAreaID) :
    Process.Ok items { p with
      area := (p.area.clear sourceArea).1
      up := p.up ++ (p.area.clear sourceArea).2 } := by
  have older := ok.seeds_le
  have earlier : ∀ n ∈ p.down, ∀ seed, n.seed = some seed → seed ≤ p.area.currentSeed :=
    fun n member seed hseed => (ok.answered n member seed hseed).1
  refine ok.performed running (by simp [StorageAreaMap.clear]) ?_ (Nat.le_succ _) ?_ ?_
    (drains_cleared sourceArea earlier older)
  · intro map loaded
    obtain rfl := Option.some.inj loaded
    exact plain_empty
  · intro r member
    obtain rfl := List.mem_singleton.mp member
    exact ⟨rfl, rfl⟩
  · obtain ⟨noAnswer, noChange⟩ := ok.quiet_later
    have sent : [Request.clear sourceArea (p.area.currentSeed + 1)].filterMap
        (Request.changes (p.area.currentSeed + 1)) = [] := by
      simp [Request.changes, Request.key]
    have quiet : p.down.filterMap (Notice.answers (p.area.currentSeed + 1)) ++
        (p.up ++ [Request.clear sourceArea (p.area.currentSeed + 1)]).filterMap
          (Request.changes (p.area.currentSeed + 1)) = [] := by
      rw [List.filterMap_append, noAnswer, noChange, sent]
      rfl
    exact quiet.symm

/-- An operation that has to load the values. -/
theorem wait (ok : p.Ok items) (running : p.waiting = none) (unloaded : p.area.storageMap = none)
    (operation : Operation) :
    Process.Ok items { p with
      waiting := some operation
      up := p.up ++ [.getValues p.area.currentSeed] } where
  plain := ok.plain
  unloaded := ok.unloaded
  sent := by
    refine .inr ⟨unloaded, rfl, p.up, rfl, ?_⟩
    rcases ok.sent with ⟨-, each⟩ | ⟨-, waits, -⟩
    · exact fun r member => ⟨(each r member).1, (each r member).2.2 unloaded⟩
    · simp [running] at waits
  answered := ok.answered
  pending := by
    have silent : [Request.getValues p.area.currentSeed].filterMap
        (Request.changes p.area.currentSeed) = [] := by
      simp [Request.changes, Request.key]
    rw [List.filterMap_append, silent, List.append_nil]
    exact ok.pending
  since := ok.since
  ahead := (drains_unloaded unloaded).mono fun _ => settled_unloaded

/-- The values have arrived. -/
theorem load {seed : Nat} {up : List Request} (ok : p.Ok items) (plain : Plain items)
    (requests : p.up = .getValues seed :: up) :
    Process.Ok items { p with
      area := p.area.loadValues items
      waiting := none
      up
      down := p.down ++ [.didGetValues seed] } := by
  obtain ⟨unloaded, rfl, rfl⟩ :
      p.area.storageMap = none ∧ seed = p.area.currentSeed ∧ up = [] := by
    rcases ok.sent with ⟨-, each⟩ | ⟨unloaded, -, old, requests', each⟩
    · have plainRequest := (each (.getValues seed) (by simp [requests])).1
      cases plainRequest
    · rw [requests] at requests'
      cases old with
      | nil =>
        obtain ⟨first, rfl⟩ := List.cons.inj requests'
        exact ⟨unloaded, Request.getValues.inj first, rfl⟩
      | cons r old =>
        obtain ⟨rfl, -⟩ := List.cons.inj requests'
        exact absurd (each _ List.mem_cons_self).1 (by simp [Request.isGetValues])
  have earlier : ∀ n ∈ p.down, ∀ seed, n.seed = some seed → seed < p.area.currentSeed :=
    fun n member seed hseed => (ok.answered n member seed hseed).2 unloaded
  refine ⟨?_, ?_, ?_, ?_, ?_, ok.since.append [.didGetValues p.area.currentSeed], ?_⟩
  · intro map loaded
    obtain rfl := Option.some.inj loaded
    rwa [StorageMap.importItems_create]
  · intro absent
    cases absent
  · exact .inl ⟨rfl, by simp⟩
  · intro n member seed hseed
    refine ⟨?_, fun absent => by cases absent⟩
    rcases List.mem_append.mp member with member | member
    · exact (earlier n member seed hseed).le
    · obtain rfl := List.mem_singleton.mp member
      exact (Option.some.inj hseed).ge
  · have silent := no_answers (ok.down_stale unloaded)
    have none_pending := ok.none_pending unloaded
    have quiet : (p.down ++ [Notice.didGetValues p.area.currentSeed]).filterMap
        (Notice.answers p.area.currentSeed) = [] := by
      rw [List.filterMap_append, silent]
      rfl
    exact none_pending.trans (congrArg (· ++ []) quiet).symm
  · exact drains_loaded (ok.unloaded unloaded).1 (ok.none_pending unloaded) earlier

/-- The first notice resets the cache. -/
theorem reset {n : Notice} {down : List Notice} (ok : p.Ok items) (running : p.waiting = none)
    (notices : p.down = n :: down) :
    Process.Ok items { p with area := p.area.resetValues, down } where
  plain map loaded := by cases loaded
  unloaded _ := ⟨rfl, rfl⟩
  sent := by
    rcases ok.sent with ⟨-, each⟩ | ⟨-, waits, -⟩
    · exact .inl ⟨running, fun r member => ⟨(each r member).1, (each r member).2.1.trans (Nat.le_succ _),
        fun _ => Nat.lt_succ_of_le (each r member).2.1⟩⟩
    · simp [running] at waits
  answered m member seed hseed := by
    have bound := (ok.answered m (by simp [notices, member]) seed hseed).1
    exact ⟨bound.trans (Nat.le_succ _), fun _ => Nat.lt_succ_of_le bound⟩
  pending := by
    obtain ⟨noAnswer, noChange⟩ := ok.quiet_later
    have fewer : down <+ p.down := by simp [notices]
    have noAnswer' := List.sublist_nil.mp (noAnswer ▸ fewer.filterMap _)
    exact (congrArg₂ (· ++ ·) noAnswer' noChange).symm
  since := (notices ▸ ok.since).2
  ahead := (drains_unloaded rfl).mono fun _ => settled_unloaded

/-- The first notice leaves the cache under its seed. -/
theorem keep {n : Notice} {down : List Notice} {b : StorageAreaMap} (ok : p.Ok items)
    (running : p.waiting = none) (notices : p.down = n :: down) (kept : Kept n p.area b)
    (ahead : Drains (Settled items p.up) b down) : Process.Ok items { p with area := b, down } where
  plain := kept.plain ok.plain
  unloaded unloaded := by
    obtain ⟨noClear, idle⟩ := ok.unloaded (kept.loaded unloaded)
    refine ⟨Bool.eq_false_of_not_eq_true fun h => ?_, Bool.eq_false_of_not_eq_true fun h => ?_⟩
    · exact absurd (kept.clear h) (by simp [noClear])
    · exact absurd (kept.getValues h) (by simp [idle])
  sent := by
    rcases ok.sent with ⟨-, each⟩ | ⟨-, waits, -⟩
    · refine .inl ⟨running, ?_⟩
      intro r member
      rw [kept.seed]
      exact ⟨(each r member).1, (each r member).2.1, fun h => (each r member).2.2 (kept.loaded h)⟩
    · simp [running] at waits
  answered m member seed hseed := by
    obtain ⟨bound, strict⟩ := ok.answered m (by simp [notices, member]) seed hseed
    rw [kept.seed]
    exact ⟨bound, fun h => strict (kept.loaded h)⟩
  pending := by
    rw [kept.pending, kept.seed, ok.pending, notices]
    cases answer : n.answers p.area.currentSeed with
    | none => rw [List.filterMap_cons_none answer]; rfl
    | some k => simp [List.filterMap_cons_some answer]
  since := (notices ▸ ok.since).2
  ahead := ahead

/-- A clear event that finds the values not loaded makes an empty map of them. This is right
only if nothing of the process itself is missing from it. -/
theorem empty_followed {down : List Notice} {newValue : Option Text} (ok : p.Ok items)
    (notices : p.down = .dispatchStorageEvent 0 none newValue :: down)
    (unloaded : p.area.storageMap = none) (nothing : p.up = [])
    (foreign : ∀ m ∈ down, m.isOwn = false) :
    Drains (Settled items p.up)
      (p.area.didReceiveMessage (.dispatchStorageEvent 0 none newValue)) down := by
  obtain ⟨noClear, idle⟩ := ok.unloaded unloaded
  have none_pending := ok.none_pending unloaded
  have emptied : p.area.didReceiveMessage (.dispatchStorageEvent 0 none newValue) =
      { p.area with storageMap := some (StorageMap.create p.area.quotaInBytes) } := by
    rw [← applyClear_eq none_pending]
    exact if_neg (by simp [noClear, idle])
  have stale : ∀ m ∈ down, m.seed ≠ some p.area.currentSeed :=
    fun m member => ok.down_stale unloaded m (by simp [notices, member])
  have followed := @drains_followed down
    { p.area with storageMap := some (StorageMap.create p.area.quotaInBytes) } _ rfl noClear idle
    none_pending stale foreign
  have since := ok.since
  rw [notices] at since
  rw [emptied, nothing, ← since.1 rfl]
  exact followed

end Process.Ok

/-- A clear event of another process that is applied finds no pending change. -/
def Process.ClearFindsNoChange (p : Process) : Prop :=
  ∀ n ∈ p.down.head?, p.area.appliesClear n = true → p.area.pendingValueChanges = []

/-- Where the values are not loaded, it finds no request of the process on its way up and no
event of one on its way down. -/
def Process.ClearFindsNothingOwn (p : Process) : Prop :=
  ∀ n ∈ p.down.head?, p.area.appliesClear n = true → p.area.storageMap = none →
    p.up = [] ∧ ∀ m ∈ p.down.tail, m.isOwn = false

instance (p : Process) : Decidable p.ClearFindsNoChange :=
  inferInstanceAs (Decidable (∀ n ∈ p.down.head?, _ → _))

instance (p : Process) : Decidable p.ClearFindsNothingOwn :=
  inferInstanceAs (Decidable (∀ n ∈ p.down.head?, _ → _ → _))

theorem Process.Ok.deliver {items : Items} {p : Process} {n : Notice} {down : List Notice}
    (ok : p.Ok items) (running : p.waiting = none) (notices : p.down = n :: down)
    (noChange : p.ClearFindsNoChange) (nothingOwn : p.ClearFindsNothingOwn) :
    Process.Ok items { p with area := p.area.didReceiveMessage n, down } := by
  have first : n ∈ p.down.head? := by simp [notices]
  rcases reset_or_kept (noChange n first) with reset | kept
  · rw [reset]
    exact ok.reset running notices
  · refine ok.keep running notices kept ?_
    by_cases bare : p.area.appliesClear n = true ∧ p.area.storageMap = none
    · obtain ⟨applied, unloaded⟩ := bare
      obtain ⟨nothing, foreign⟩ := nothingOwn n first applied unloaded
      obtain ⟨newValue, rfl⟩ : ∃ newValue, n = .dispatchStorageEvent 0 none newValue := by
        unfold StorageAreaMap.appliesClear at applied
        split at applied
        · exact ⟨_, rfl⟩
        · cases applied
      exact ok.empty_followed notices unloaded nothing (by simpa [notices] using foreign)
    · have ahead := ok.ahead
      rw [notices] at ahead
      refine ahead fun applied => ⟨noChange n first applied, ?_⟩
      exact Option.isSome_iff_ne_none.mpr fun unloaded => bare ⟨applied, unloaded⟩

end NetRider.Storage
