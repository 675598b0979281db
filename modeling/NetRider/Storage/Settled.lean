import NetRider.Storage.StorageAreas

/-!
# A cache when nothing is on its way down

`Drains` looks ahead: what a cache will be once it has received all that is on its way down.
`Settled` says what it should be then: the items of the storage area, with all that is on its
way up applied to them. Each lemma about it takes one step of the storage manager, on behalf of
the process or of another one.
-/

namespace NetRider.Storage

/-! ## Requests applied to the items -/

namespace Request

def seed : Request → Nat
  | setItem _ seed _ _ => seed
  | removeItem _ seed _ => seed
  | clear _ seed => seed
  | getValues seed => seed

/-- The key of a change of one item. -/
def key : Request → Option Text
  | setItem _ _ key _ => some key
  | removeItem _ _ key => some key
  | _ => none

def apply (items : Items) : Request → Items
  | setItem _ _ key value => items.insert key (some value)
  | removeItem _ _ key => items.erase key
  | clear _ _ => ∅
  | getValues _ => items

end Request

def replay (items : Items) (requests : List Request) : Items := requests.foldl Request.apply items

/-- Changes of single items made under one seed. -/
def Changes (seed : Nat) (requests : List Request) : Prop :=
  ∀ r ∈ requests, r.key.isSome ∧ r.seed = seed

theorem replay_append (items : Items) (rs rs' : List Request) :
    replay items (rs ++ rs') = replay (replay items rs) rs' :=
  List.foldl_append

theorem replay_clear (items : Items) (old new : List Request) (id : StorageAreaID) (seed : Nat) :
    replay items (old ++ .clear id seed :: new) = replay ∅ new := by
  rw [replay_append]
  rfl

/-- `f` gives one key a value of its own and leaves the others alone. -/
structure Touches (k : Text) (f : Items → Items) : Prop where
  other : ∀ items j, j ≠ k → (f items).lookup j = items.lookup j
  self : ∀ items items', (f items).lookup k = (f items').lookup k

theorem touches_insert (k : Text) (value : Option Text) : Touches k (Finmap.insert k value) where
  other items _ ne := Finmap.lookup_insert_of_ne items ne
  self _ _ := by simp

theorem touches_erase (k : Text) : Touches k (Finmap.erase k : Items → Items) where
  other _ _ ne := Finmap.lookup_erase_ne ne
  self _ _ := by simp

theorem Touches.comm {k j : Text} {f g : Items → Items} (hf : Touches k f) (hg : Touches j g)
    (ne : j ≠ k) (items : Items) : g (f items) = f (g items) := by
  apply Finmap.ext_lookup
  intro x
  by_cases hx : x = k
  · subst hx
    rw [hg.other _ _ ne.symm]
    exact hf.self _ _
  · rw [hf.other _ _ hx]
    by_cases hx' : x = j
    · subst hx'
      exact hg.self _ _
    · rw [hg.other _ _ hx', hg.other _ _ hx', hf.other _ _ hx]

/-- The later of two changes of a key wins. -/
theorem Touches.absorb {k : Text} {f g : Items → Items} (hf : Touches k f) (hg : Touches k g)
    (items : Items) : f (g items) = f items := by
  apply Finmap.ext_lookup
  intro x
  by_cases hx : x = k
  · subst hx
    exact hf.self _ _
  · rw [hf.other _ _ hx, hf.other _ _ hx, hg.other _ _ hx]

theorem touches_apply {r : Request} {k : Text} (hk : r.key = some k) :
    Touches k fun items => r.apply items := by
  cases r with
  | setItem id seed key value =>
    obtain rfl : key = k := Option.some.inj hk
    exact touches_insert key (some value)
  | removeItem id seed key =>
    obtain rfl : key = k := Option.some.inj hk
    exact touches_erase key
  | clear | getValues => simp [Request.key] at hk

theorem Changes.cons {seed : Nat} {r : Request} {new : List Request}
    (changes : Changes seed (r :: new)) :
    (∃ k, r.key = some k) ∧ r.seed = seed ∧ Changes seed new :=
  ⟨Option.isSome_iff_exists.mp (changes r List.mem_cons_self).1,
    (changes r List.mem_cons_self).2, fun r' member => changes r' (List.mem_cons_of_mem _ member)⟩

/-- A change of a key that no later request changes can be made last. -/
theorem replay_comm {new : List Request} {seed : Nat} {k : Text} {f : Items → Items}
    (touches : Touches k f) (changes : Changes seed new)
    (fresh : k ∉ new.filterMap Request.key) (items : Items) :
    replay (f items) new = f (replay items new) := by
  induction new generalizing items with
  | nil => rfl
  | cons r new ih =>
    obtain ⟨⟨j, hj⟩, -, later⟩ := changes.cons
    rw [List.filterMap_cons_some hj, List.mem_cons, not_or] at fresh
    have swap := touches.comm (touches_apply hj) (Ne.symm fresh.1) items
    have rest := ih later fresh.2 (r.apply items)
    exact (congrArg (replay · new) swap).trans rest

/-- A change of a key that a later request changes leaves no trace. -/
theorem replay_absorb {new : List Request} {seed : Nat} {k : Text} {f : Items → Items}
    (touches : Touches k f) (changes : Changes seed new)
    (named : k ∈ new.filterMap Request.key) (items : Items) :
    replay (f items) new = replay items new := by
  induction new generalizing items with
  | nil => simp at named
  | cons r new ih =>
    obtain ⟨⟨j, hj⟩, -, later⟩ := changes.cons
    by_cases same : j = k
    · subst same
      exact congrArg (replay · new) ((touches_apply hj).absorb touches items)
    · rw [List.filterMap_cons_some hj, List.mem_cons] at named
      have swap := touches.comm (touches_apply hj) same items
      have rest := ih later (named.resolve_left (Ne.symm same)) (r.apply items)
      exact (congrArg (replay · new) swap).trans rest

/-! ## Receiving all that is on its way -/

/-- A clear event of another process that is not put off. -/
def StorageAreaMap.appliesClear (a : StorageAreaMap) : Notice → Bool
  | .dispatchStorageEvent 0 none _ => !a.hasPendingClear && !a.hasPendingGetValues
  | _ => false

/-- Such an event finds a loaded map without pending changes. -/
def Fits (a : StorageAreaMap) (notice : Notice) : Prop :=
  a.appliesClear notice = true → a.pendingValueChanges = [] ∧ a.storageMap.isSome = true

/-- `Q` holds once the notices have been received, if each of them fits. -/
def Drains (Q : StorageAreaMap → Prop) : StorageAreaMap → List Notice → Prop
  | a, [] => Q a
  | a, notice :: notices => Fits a notice → Drains Q (a.didReceiveMessage notice) notices

theorem drains_append {Q : StorageAreaMap → Prop} {a : StorageAreaMap} {ns ns' : List Notice} :
    Drains Q a (ns ++ ns') ↔ Drains (fun b => Drains Q b ns') a ns := by
  induction ns generalizing a with
  | nil => rfl
  | cons n ns ih => simp only [List.cons_append, Drains, ih]

theorem Drains.mono {Q Q' : StorageAreaMap → Prop} {a : StorageAreaMap} {ns : List Notice}
    (h : Drains Q a ns) (imp : ∀ b, Q b → Q' b) : Drains Q' a ns := by
  induction ns generalizing a with
  | nil => exact imp a h
  | cons n ns ih => exact fun fits => ih (h fits)

/-- What every notice preserves holds in the end. -/
theorem drains_invariant {J : StorageAreaMap → Prop} {a : StorageAreaMap} {ns : List Notice}
    (start : J a) (one : ∀ b, J b → ∀ n ∈ ns, Fits b n → J (b.didReceiveMessage n)) :
    Drains J a ns := by
  induction ns generalizing a with
  | nil => exact start
  | cons n ns ih =>
    intro fits
    exact ih (one a start n List.mem_cons_self fits)
      fun b hb m member => one b hb m (List.mem_cons_of_mem _ member)

theorem applyChange_eq_self {a : StorageAreaMap} (putOff : a.hasPendingClear || a.hasPendingGetValues)
    (key newValue : Option Text) : a.applyChange key newValue = a :=
  if_pos putOff

/-- A fitting notice does not load a map. -/
theorem unloaded_didReceiveMessage {a : StorageAreaMap} {n : Notice}
    (unloaded : a.storageMap = none) (fits : Fits a n) :
    (a.didReceiveMessage n).storageMap = none := by
  cases n with
  | didGetValues seed =>
    simp only [StorageAreaMap.didReceiveMessage, StorageAreaMap.didGetValues]
    split_ifs <;> exact unloaded
  | didSetItem seed key quotaError =>
    simp only [StorageAreaMap.didReceiveMessage, StorageAreaMap.didSetItem]
    split_ifs <;> first | exact unloaded | rfl
  | didRemoveItem seed key =>
    simp only [StorageAreaMap.didReceiveMessage, StorageAreaMap.didRemoveItem]
    split_ifs <;> exact unloaded
  | didClear seed =>
    simp only [StorageAreaMap.didReceiveMessage, StorageAreaMap.didClear]
    split_ifs <;> exact unloaded
  | clearCache => rfl
  | dispatchStorageEvent id key newValue =>
    simp only [StorageAreaMap.didReceiveMessage, StorageAreaMap.dispatchStorageEvent,
      StorageAreaMap.applyChange]
    split_ifs with other putOff
    · exact unloaded
    · cases key with
      | some key => simp only [StorageAreaMap.applyChangeForKey, unloaded]
      | none =>
        subst other
        have applied : a.appliesClear (.dispatchStorageEvent 0 none newValue) = true := by
          simpa [StorageAreaMap.appliesClear] using putOff
        exact absurd (fits applied).2 (by simp [unloaded])
    · exact unloaded

theorem drains_unloaded {a : StorageAreaMap} {ns : List Notice} (unloaded : a.storageMap = none) :
    Drains (fun b => b.storageMap = none) a ns :=
  drains_invariant unloaded fun _ h _ _ fits => unloaded_didReceiveMessage h fits

/-! ## Settled caches -/

/-- What a loaded cache is when nothing is on its way down: the items with the requests on
their way up applied, and in the requests the pending clear and changes. -/
def Settled (items : Items) (up : List Request) (a : StorageAreaMap) : Prop :=
  ∀ map, a.storageMap = some map →
    a.hasPendingGetValues = false ∧ map.items = replay items up ∧
    ∃ new, Changes a.currentSeed new ∧ a.pendingValueChanges = new.filterMap Request.key ∧
      (a.hasPendingClear = false ∧ up = new ∨
        a.hasPendingClear = true ∧ ∃ old id, up = old ++ .clear id a.currentSeed :: new ∧
          ∀ r ∈ old, r.seed ≠ a.currentSeed)

theorem settled_unloaded {items : Items} {up : List Request} {a : StorageAreaMap}
    (unloaded : a.storageMap = none) : Settled items up a := by
  intro map loaded
  rw [unloaded] at loaded
  cases loaded

/-- The effect of an event or a cleared cache on the items. -/
def Notice.apply (items : Items) : Notice → Items
  | dispatchStorageEvent _ none _ => ∅
  | dispatchStorageEvent _ (some key) none => items.erase key
  | dispatchStorageEvent _ (some key) (some value) => items.insert key (some value)
  | clearCache => ∅
  | _ => items

theorem applyClear_eq {a : StorageAreaMap} (none_pending : a.pendingValueChanges = []) :
    a.applyClear = { a with storageMap := some (StorageMap.create a.quotaInBytes) } := by
  simp [StorageAreaMap.applyClear, none_pending]

/-- A change of one item by another process. -/
theorem applyChangeForKey_items {a : StorageAreaMap} {map : StorageMap} {key : Text}
    (loaded : a.storageMap = some map) (free : key ∉ a.pendingValueChanges)
    (newValue : Option Text) :
    ∃ map', a.applyChangeForKey key newValue = { a with storageMap := some map' } ∧
      map'.items = (Notice.dispatchStorageEvent 0 (some key) newValue).apply map.items := by
  simp only [StorageAreaMap.applyChangeForKey, loaded, if_neg free]
  cases newValue with
  | none => exact ⟨_, rfl, rfl⟩
  | some value => exact ⟨_, rfl, StorageMap.setItemIgnoringQuota_items map key (some value)⟩

theorem touches_event (id : Nat) (key : Text) (newValue : Option Text) :
    Touches key fun items => (Notice.dispatchStorageEvent id (some key) newValue).apply items := by
  cases newValue with
  | none => exact touches_erase key
  | some value => exact touches_insert key (some value)

theorem changes_eq_nil {seed : Nat} {new : List Request} (changes : Changes seed new)
    (none_pending : new.filterMap Request.key = []) : new = [] := by
  cases new with
  | nil => rfl
  | cons r new =>
    obtain ⟨⟨k, hk⟩, -⟩ := changes.cons
    simp [List.filterMap_cons_some hk] at none_pending

/-- A change by another process reaches the cache. -/
theorem Settled.event {items : Items} {up : List Request} {a : StorageAreaMap}
    {key newValue : Option Text} (settled : Settled items up a)
    (fits : Fits a (.dispatchStorageEvent 0 key newValue)) :
    Settled ((Notice.dispatchStorageEvent 0 key newValue).apply items) up
      (a.didReceiveMessage (.dispatchStorageEvent 0 key newValue)) := by
  cases loaded : a.storageMap with
  | none => exact settled_unloaded (unloaded_didReceiveMessage loaded fits)
  | some map =>
    obtain ⟨idle, same, new, changes, pending, shape⟩ := settled map loaded
    rw [show a.didReceiveMessage (.dispatchStorageEvent 0 key newValue) = a.applyChange key newValue
      from rfl]
    rcases shape with ⟨noClear, rfl⟩ | ⟨clear, old, id, rfl, older⟩
    · have open_ : ¬ (a.hasPendingClear || a.hasPendingGetValues) = true := by simp [noClear, idle]
      cases key with
      | none =>
        rw [show a.applyChange none newValue = a.applyClear from if_neg open_]
        -- the clear event finds no pending change, so nothing is on its way up
        have applied : a.appliesClear (.dispatchStorageEvent 0 none newValue) = true := by
          simp [StorageAreaMap.appliesClear, noClear, idle]
        have none_pending := (fits applied).1
        obtain rfl := changes_eq_nil changes (pending ▸ none_pending)
        rw [applyClear_eq none_pending]
        intro map' loaded'
        obtain rfl := Option.some.inj loaded'
        exact ⟨idle, rfl, [], changes, pending, .inl ⟨noClear, rfl⟩⟩
      | some key =>
        rw [show a.applyChange (some key) newValue = a.applyChangeForKey key newValue from
          if_neg open_]
        by_cases mine : key ∈ a.pendingValueChanges
        · have ignored : a.applyChangeForKey key newValue = a := by
            simp only [StorageAreaMap.applyChangeForKey, loaded, if_pos mine]
          simp only [ignored]
          intro map' loaded'
          obtain rfl : map = map' := Option.some.inj (loaded.symm.trans loaded')
          refine ⟨idle, ?_, up, changes, pending, .inl ⟨noClear, rfl⟩⟩
          rw [same]
          exact (replay_absorb (touches_event 0 key newValue) changes (pending ▸ mine) items).symm
        · obtain ⟨map', result, effect⟩ := applyChangeForKey_items loaded mine newValue
          simp only [result]
          intro map'' loaded'
          obtain rfl : map' = map'' := Option.some.inj loaded'
          refine ⟨idle, ?_, up, changes, pending, .inl ⟨noClear, rfl⟩⟩
          rw [effect, same]
          exact (replay_comm (touches_event 0 key newValue) changes (pending ▸ mine) items).symm
    · have putOff : (a.hasPendingClear || a.hasPendingGetValues) = true := by simp [clear]
      rw [applyChange_eq_self putOff]
      intro map' loaded'
      obtain rfl : map = map' := Option.some.inj (loaded.symm.trans loaded')
      refine ⟨idle, ?_, new, changes, pending, .inr ⟨clear, old, id, rfl, older⟩⟩
      rw [same, replay_clear, replay_clear]

theorem didSetItem_accepted (a : StorageAreaMap) (seed : Nat) (key : Text) :
    a.didSetItem seed key false = a.didRemoveItem seed key := by
  simp [StorageAreaMap.didSetItem, StorageAreaMap.didRemoveItem]

/-- The first request is a change made since the last clear or one from before it. -/
theorem split_requests {seed : Nat} {r : Request} {up old new : List Request} {id : StorageAreaID}
    {k : Text} (hk : r.key = some k) (requests : r :: up = old ++ .clear id seed :: new) :
    ∃ old', old = r :: old' ∧ up = old' ++ .clear id seed :: new := by
  cases old with
  | nil =>
    obtain ⟨rfl, -⟩ := List.cons.inj requests
    simp [Request.key] at hk
  | cons r' old' =>
    obtain ⟨rfl, rest⟩ := List.cons.inj requests
    exact ⟨old', rfl, rest⟩

/-- The storage manager has made the first change on its way up. -/
theorem Settled.changed {items : Items} {r : Request} {up : List Request} {a : StorageAreaMap}
    {k : Text} (settled : Settled items (r :: up) a) (hk : r.key = some k) :
    Settled (r.apply items) up (a.didRemoveItem r.seed k) := by
  intro map loaded
  have loaded' : a.storageMap = some map := by
    unfold StorageAreaMap.didRemoveItem at loaded
    split_ifs at loaded <;> exact loaded
  obtain ⟨idle, same, new, changes, pending, shape⟩ := settled map loaded'
  rcases shape with ⟨noClear, rfl⟩ | ⟨clear, old, id, requests, older⟩
  · obtain ⟨-, now, later⟩ := changes.cons
    rw [List.filterMap_cons_some hk] at pending
    have acknowledged : a.didRemoveItem r.seed k =
        { a with pendingValueChanges := up.filterMap Request.key } := by
      simp [StorageAreaMap.didRemoveItem, now, pending]
    rw [acknowledged]
    exact ⟨idle, same, up, later, rfl, .inl ⟨noClear, rfl⟩⟩
  · obtain ⟨old', rfl, rfl⟩ := split_requests hk requests
    have stale : a.didRemoveItem r.seed k = a := if_pos (older r List.mem_cons_self).symm
    rw [stale]
    refine ⟨idle, ?_, new, changes, pending, .inr ⟨clear, old', id, rfl,
      fun r' member => older r' (List.mem_cons_of_mem _ member)⟩⟩
    rw [same, requests, replay_clear, replay_clear]

/-- The storage manager has refused the first change on its way up. -/
theorem Settled.refused {items : Items} {r : Request} {up : List Request} {a : StorageAreaMap}
    {k : Text} (settled : Settled items (r :: up) a) (hk : r.key = some k) :
    Settled items up (a.didSetItem r.seed k true) := by
  by_cases now : a.currentSeed = r.seed
  · refine settled_unloaded ?_
    simp [StorageAreaMap.didSetItem, now, StorageAreaMap.resetValues]
  · rw [show a.didSetItem r.seed k true = a from if_pos now]
    intro map loaded
    obtain ⟨idle, same, new, changes, pending, shape⟩ := settled map loaded
    rcases shape with ⟨-, rfl⟩ | ⟨clear, old, id, requests, older⟩
    · exact absurd changes.cons.2.1.symm now
    · obtain ⟨old', rfl, rfl⟩ := split_requests hk requests
      refine ⟨idle, ?_, new, changes, pending, .inr ⟨clear, old', id, rfl,
        fun r' member => older r' (List.mem_cons_of_mem _ member)⟩⟩
      rw [same, requests, replay_clear, replay_clear]

/-- The storage manager has made the clear that is first on its way up. -/
theorem Settled.cleared {items : Items} {id : StorageAreaID} {seed : Nat} {up : List Request}
    {a : StorageAreaMap} (settled : Settled items (.clear id seed :: up) a) :
    Settled ∅ up (a.didClear seed) := by
  intro map loaded
  have loaded' : a.storageMap = some map := by
    unfold StorageAreaMap.didClear at loaded
    split_ifs at loaded <;> exact loaded
  obtain ⟨idle, same, new, changes, pending, shape⟩ := settled map loaded'
  rcases shape with ⟨-, rfl⟩ | ⟨clear, old, id', requests, older⟩
  · obtain ⟨⟨k, hk⟩, -⟩ := changes.cons
    simp [Request.key] at hk
  · cases old with
    | nil =>
      obtain ⟨first, rfl⟩ := List.cons.inj requests
      obtain ⟨-, rfl⟩ := Request.clear.inj first
      have acknowledged : a.didClear a.currentSeed = { a with hasPendingClear := false } := by
        simp [StorageAreaMap.didClear]
      rw [acknowledged]
      exact ⟨idle, same, up, changes, pending, .inl ⟨rfl, rfl⟩⟩
    | cons r' old' =>
      obtain ⟨rfl, rfl⟩ := List.cons.inj requests
      have stale : a.didClear seed = a := if_pos (older _ List.mem_cons_self).symm
      rw [stale]
      refine ⟨idle, ?_, new, changes, pending, .inr ⟨clear, old', id', rfl,
        fun r' member => older r' (List.mem_cons_of_mem _ member)⟩⟩
      rw [same, requests, replay_clear]
      exact (replay_clear ∅ old' new id' a.currentSeed).symm

end NetRider.Storage
