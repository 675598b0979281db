import NetRider.Storage.Settled

/-!
# A cache with notices on their way down

A process changes its cache ahead of the notices that are on their way to it. Each kind of
change leaves a cache that will be settled when they have arrived.
-/

namespace NetRider.Storage

/-! ## A change made ahead of the notices on their way down -/

/-- The seed a notice answers. -/
def Notice.seed : Notice → Option Nat
  | didGetValues seed => some seed
  | didSetItem seed _ _ => some seed
  | didRemoveItem seed _ => some seed
  | didClear seed => some seed
  | _ => none

/-- The key whose pending change a notice answers under a seed. -/
def Notice.answers (current : Nat) : Notice → Option Text
  | didSetItem seed key _ => if seed = current then some key else none
  | didRemoveItem seed key => if seed = current then some key else none
  | _ => none

@[simp]
theorem Notice.seed_event (id : Nat) (key newValue : Option Text) :
    (dispatchStorageEvent id key newValue).seed = none :=
  rfl

@[simp]
theorem Notice.answers_event (current id : Nat) (key newValue : Option Text) :
    (dispatchStorageEvent id key newValue).answers current = none :=
  rfl

/-- An answer under another seed is ignored. -/
theorem didReceiveMessage_stale {a : StorageAreaMap} {n : Notice} {seed : Nat}
    (asked : n.seed = some seed) (stale : n.seed ≠ some a.currentSeed) :
    a.didReceiveMessage n = a := by
  have other : a.currentSeed ≠ seed := by
    intro same
    rw [same] at stale
    exact stale asked
  cases n with
  | didGetValues | didSetItem | didRemoveItem | didClear =>
    obtain rfl := Option.some.inj asked
    exact if_pos other
  | _ => cases asked

/-- `b` is `a` after a local change `f` of the key `k`, if there is one, until both have left
the seed. Pending changes that notices on their way answer come first. -/
def Ahead (seed : Nat) (k : Option Text) (f : Items → Items) (ns : List Notice)
    (a b : StorageAreaMap) : Prop :=
  (a = b ∧ a.storageMap = none) ∨
    ∃ map map' rest, a.currentSeed = seed ∧ a.storageMap = some map ∧ map'.items = f map.items ∧
      a.pendingValueChanges = ns.filterMap (Notice.answers a.currentSeed) ++ rest ∧
      b = { a with
        storageMap := some map'
        pendingValueChanges := a.pendingValueChanges ++ k.toList }

section

variable {current : Nat} {k : Option Text} {f : Items → Items} {ns : List Notice} {a b : StorageAreaMap}

/-- An answer to the first pending change takes it off both. -/
theorem Ahead.answered {seed : Nat} {key : Text} {n : Notice}
    (ahead : Ahead current k f (n :: ns) a b)
    (answer : ∀ s, n.answers s = if seed = s then some key else none) :
    Ahead current k f ns (a.didRemoveItem seed key) (b.didRemoveItem seed key) := by
  rcases ahead with ⟨rfl, unloaded⟩ | ⟨map, map', rest, same, loaded, effect, pending, rfl⟩
  · refine .inl ⟨rfl, ?_⟩
    unfold StorageAreaMap.didRemoveItem
    split_ifs <;> exact unloaded
  · by_cases now : a.currentSeed = seed
    · have named : n.answers a.currentSeed = some key := by rw [answer, if_pos now.symm]
      rw [List.filterMap_cons_some named] at pending
      have same' : (a.didRemoveItem seed key).currentSeed = current := by
        simpa [StorageAreaMap.didRemoveItem, now] using now.symm.trans same
      refine .inr ⟨map, map', rest, same', ?_, effect, ?_, ?_⟩
      · simpa [StorageAreaMap.didRemoveItem, now] using loaded
      · simp [StorageAreaMap.didRemoveItem, now, pending]
      · simp [StorageAreaMap.didRemoveItem, now, pending]
    · have stale : n.answers a.currentSeed = none := by rw [answer, if_neg (Ne.symm now)]
      rw [List.filterMap_cons_none stale] at pending
      rw [show a.didRemoveItem seed key = a from if_pos now]
      exact .inr ⟨map, map', rest, same, loaded, effect, pending, if_pos now⟩

/-- A notice that answers no pending change. -/
theorem Ahead.other {n : Notice} (ahead : Ahead current k f (n :: ns) a b)
    (silent : n.answers a.currentSeed = none) : Ahead current k f ns a b := by
  rcases ahead with left | ⟨map, map', rest, same, loaded, effect, pending, rfl⟩
  · exact .inl left
  · rw [List.filterMap_cons_none silent] at pending
    exact .inr ⟨map, map', rest, same, loaded, effect, pending, rfl⟩

theorem Ahead.flags (ahead : Ahead current k f ns a b) :
    b.currentSeed = a.currentSeed ∧ b.hasPendingClear = a.hasPendingClear ∧
      b.hasPendingGetValues = a.hasPendingGetValues ∧ b.quotaInBytes = a.quotaInBytes := by
  rcases ahead with ⟨rfl, -⟩ | ⟨map, map', rest, -, -, -, -, rfl⟩ <;> exact ⟨rfl, rfl, rfl, rfl⟩

theorem Ahead.reset (ahead : Ahead current k f ns a b) {ns' : List Notice} :
    Ahead current k f ns' a.resetValues b.resetValues := by
  obtain ⟨seed, -, -, quota⟩ := ahead.flags
  refine .inl ⟨?_, rfl⟩
  simp [StorageAreaMap.resetValues, seed, quota]

theorem Ahead.fits {n : Notice} (ahead : Ahead current k f ns a b) (fits : Fits b n) : Fits a n := by
  intro applied
  obtain ⟨-, clear, getValues, -⟩ := ahead.flags
  have applied' : b.appliesClear n = true := by
    unfold StorageAreaMap.appliesClear at applied ⊢
    rwa [clear, getValues]
  obtain ⟨none_pending, loaded⟩ := fits applied'
  rcases ahead with ⟨rfl, -⟩ | ⟨map, map', rest, -, loaded', -, -, rfl⟩
  · exact ⟨none_pending, loaded⟩
  · exact ⟨(List.append_eq_nil_iff.mp none_pending).1, by simp [loaded']⟩

/-- An event of another process, put off by neither. -/
theorem Ahead.change {key newValue : Option Text}
    (touches : ∀ j, k = some j → Touches j f) (still : k = none → ∀ items, f items = items)
    (ahead : Ahead current k f ns a b) (fits : Fits b (.dispatchStorageEvent 0 key newValue)) :
    Ahead current k f ns (a.applyChange key newValue) (b.applyChange key newValue) := by
  obtain ⟨-, clear, getValues, -⟩ := ahead.flags
  by_cases putOff : (a.hasPendingClear || a.hasPendingGetValues) = true
  · rw [applyChange_eq_self putOff, applyChange_eq_self (by rwa [clear, getValues])]
    exact ahead
  · have putOff' : ¬ (b.hasPendingClear || b.hasPendingGetValues) = true := by
      rwa [clear, getValues]
    rcases ahead with ⟨rfl, unloaded⟩ | ⟨map, map', rest, same, loaded, effect, pending, rfl⟩
    · exact .inl ⟨rfl, unloaded_didReceiveMessage unloaded fits⟩
    · cases key with
      | none =>
        rw [show a.applyChange none newValue = a.applyClear from if_neg putOff,
          show StorageAreaMap.applyChange _ none newValue = StorageAreaMap.applyClear _ from
            if_neg putOff']
        have applied : StorageAreaMap.appliesClear
            { a with
              storageMap := some map'
              pendingValueChanges := a.pendingValueChanges ++ k.toList }
            (.dispatchStorageEvent 0 none newValue) = true := by
          simpa [StorageAreaMap.appliesClear] using putOff
        obtain ⟨none_pending, unchanged⟩ := List.append_eq_nil_iff.mp (fits applied).1
        have identity := still (by simpa using unchanged)
        rw [applyClear_eq none_pending, applyClear_eq (fits applied).1]
        exact .inr ⟨_, _, rest, same, rfl, (identity _).symm, pending, rfl⟩
      | some key =>
        rw [show a.applyChange (some key) newValue = a.applyChangeForKey key newValue from
            if_neg putOff,
          show StorageAreaMap.applyChange _ (some key) newValue =
            StorageAreaMap.applyChangeForKey _ key newValue from if_neg putOff']
        have event := touches_event 0 key newValue
        by_cases mine : key ∈ a.pendingValueChanges
        · have ignored : a.applyChangeForKey key newValue = a := by
            simp only [StorageAreaMap.applyChangeForKey, loaded, if_pos mine]
          rw [ignored]
          refine .inr ⟨map, map', rest, same, loaded, effect, pending, ?_⟩
          simp [StorageAreaMap.applyChangeForKey, mine]
        · obtain ⟨changed, result, effect'⟩ := applyChangeForKey_items loaded mine newValue
          rw [result]
          by_cases ours : k = some key
          · refine .inr ⟨changed, map', rest, same, rfl, ?_, pending, ?_⟩
            · rw [effect, effect']
              exact ((touches key ours).absorb event map.items).symm
            · simp [StorageAreaMap.applyChangeForKey, ours]
          · have free : key ∉ a.pendingValueChanges ++ k.toList := by
              cases k with
              | none => simpa using mine
              | some j => simpa [mine] using fun h : key = j => ours (by rw [h])
            obtain ⟨changed', result', effect''⟩ := @applyChangeForKey_items
              { a with
                storageMap := some map'
                pendingValueChanges := a.pendingValueChanges ++ k.toList } map' key rfl free newValue
            rw [result']
            refine .inr ⟨changed, changed', rest, same, rfl, ?_, pending, rfl⟩
            rw [effect'', effect, effect']
            cases k with
            | none => rw [still rfl, still rfl]
            | some j =>
              have ne : key ≠ j := fun h => ours (by rw [h])
              exact (touches j rfl).comm event ne map.items

/-- The two stay together while they receive the same notices. -/
theorem Ahead.didReceiveMessage {n : Notice} (touches : ∀ j, k = some j → Touches j f)
    (still : k = none → ∀ items, f items = items) (ahead : Ahead current k f (n :: ns) a b)
    (fits : Fits b n) : Ahead current k f ns (a.didReceiveMessage n) (b.didReceiveMessage n) := by
  obtain ⟨sameSeed, -⟩ := ahead.flags
  cases n with
  | didGetValues seed =>
    have rest : Ahead current k f ns a b := ahead.other rfl
    simp only [StorageAreaMap.didReceiveMessage, StorageAreaMap.didGetValues, sameSeed]
    split_ifs with stale
    · exact rest
    · rcases rest with ⟨rfl, unloaded⟩ | ⟨map, map', rest, same, loaded, effect, pending, rfl⟩
      · exact .inl ⟨rfl, unloaded⟩
      · exact .inr ⟨map, map', rest, same, loaded, effect, pending, rfl⟩
  | didClear seed =>
    have rest : Ahead current k f ns a b := ahead.other rfl
    simp only [StorageAreaMap.didReceiveMessage, StorageAreaMap.didClear, sameSeed]
    split_ifs with stale
    · exact rest
    · rcases rest with ⟨rfl, unloaded⟩ | ⟨map, map', rest, same, loaded, effect, pending, rfl⟩
      · exact .inl ⟨rfl, unloaded⟩
      · exact .inr ⟨map, map', rest, same, loaded, effect, pending, rfl⟩
  | didSetItem seed key quotaError =>
    cases quotaError with
    | false =>
      simp only [StorageAreaMap.didReceiveMessage, didSetItem_accepted]
      exact ahead.answered fun _ => rfl
    | true =>
      simp only [StorageAreaMap.didReceiveMessage, StorageAreaMap.didSetItem, sameSeed, if_true]
      split_ifs with stale
      · exact ahead.other (if_neg (Ne.symm stale))
      · exact ahead.reset
  | didRemoveItem seed key => exact ahead.answered fun _ => rfl
  | clearCache => exact ahead.reset
  | dispatchStorageEvent id key newValue =>
    have rest : Ahead current k f ns a b := ahead.other rfl
    simp only [StorageAreaMap.didReceiveMessage, StorageAreaMap.dispatchStorageEvent]
    split_ifs with other
    · subst other
      exact rest.change touches still fits
    · exact rest

theorem drains_ahead {Q Q' : StorageAreaMap → Prop} (touches : ∀ j, k = some j → Touches j f)
    (still : k = none → ∀ items, f items = items) (ahead : Ahead current k f ns a b)
    (h : Drains Q a ns) (last : ∀ a b, Ahead current k f [] a b → Q a → Q' b) : Drains Q' b ns := by
  induction ns generalizing a b with
  | nil => exact last a b ahead h
  | cons n ns ih =>
    intro fits
    exact ih (ahead.didReceiveMessage touches still fits) (h (ahead.fits fits))

end

/-! ## Local operations -/

section

variable {items : Items} {up : List Request} {ns : List Notice} {a : StorageAreaMap}

/-- A change of an item, made in the cache and sent. -/
theorem drains_changed {map map' : StorageMap} {rest : List Text} {r : Request} {k : Text}
    (h : Drains (Settled items up) a ns) (loaded : a.storageMap = some map)
    (pending : a.pendingValueChanges = ns.filterMap (Notice.answers a.currentSeed) ++ rest)
    (hk : r.key = some k) (now : r.seed = a.currentSeed) (effect : map'.items = r.apply map.items) :
    Drains (Settled items (up ++ [r]))
      { a with
        storageMap := some map'
        pendingValueChanges := a.pendingValueChanges ++ [k] } ns := by
  have ahead : Ahead a.currentSeed (some k) (fun items => r.apply items) ns a
      { a with
        storageMap := some map'
        pendingValueChanges := a.pendingValueChanges ++ [k] } :=
    .inr ⟨map, map', rest, rfl, loaded, effect, pending, rfl⟩
  refine drains_ahead (fun j hj => ?_) (by simp) ahead h fun b b' ahead settled => ?_
  · obtain rfl := Option.some.inj hj
    exact touches_apply hk
  rcases ahead with ⟨rfl, unloaded⟩ | ⟨map, map', -, same, loaded, effect, -, rfl⟩
  · exact settled_unloaded unloaded
  obtain ⟨idle, items_eq, new, changes, pending, shape⟩ := settled map loaded
  intro map'' loaded'
  obtain rfl := Option.some.inj loaded'
  refine ⟨idle, ?_, new ++ [r], ?_, ?_, ?_⟩
  · rw [effect, items_eq, replay_append]
    rfl
  · intro r' member
    rcases List.mem_append.mp member with member | member
    · exact changes r' member
    · obtain rfl := List.mem_singleton.mp member
      exact ⟨by simp [hk], now.trans same.symm⟩
  · simp [pending, hk]
  · rcases shape with ⟨noClear, rfl⟩ | ⟨clear, old, id, rfl, older⟩
    · exact .inl ⟨noClear, rfl⟩
    · exact .inr ⟨clear, old, id, by simp, older⟩

/-- An operation that leaves the items as they are, and sends nothing. -/
theorem drains_unchanged {map map' : StorageMap} {rest : List Text}
    (h : Drains (Settled items up) a ns) (loaded : a.storageMap = some map)
    (pending : a.pendingValueChanges = ns.filterMap (Notice.answers a.currentSeed) ++ rest)
    (effect : map'.items = map.items) :
    Drains (Settled items up) { a with storageMap := some map' } ns := by
  have ahead : Ahead a.currentSeed none (fun items => items) ns a
      { a with storageMap := some map' } :=
    .inr ⟨map, map', rest, rfl, loaded, effect, pending, by simp⟩
  apply drains_ahead (by simp) (fun _ _ => rfl) ahead h
  intro b b' ahead settled
  rcases ahead with ⟨rfl, -⟩ | ⟨map, map', -, -, loaded, effect, -, rfl⟩
  · exact settled
  obtain ⟨idle, items_eq, new, changes, pending, shape⟩ := settled map loaded
  intro map'' loaded'
  obtain rfl := Option.some.inj loaded'
  exact ⟨idle, effect.trans items_eq, new, changes, by simpa using pending, shape⟩

/-- While a clear or `GetValues` is pending, only a reset changes the cache. -/
theorem drains_putOff (putOff : (a.hasPendingClear || a.hasPendingGetValues) = true)
    (stale : ∀ n ∈ ns, n.seed ≠ some a.currentSeed) :
    Drains (fun b => b = a ∨ b.storageMap = none) a ns := by
  apply drains_invariant (.inl rfl)
  intro b hb n member fits
  rcases hb with rfl | unloaded
  · cases asked : n.seed with
    | some seed => exact .inl (didReceiveMessage_stale asked (stale n member))
    | none =>
      cases n with
      | clearCache => exact .inr rfl
      | dispatchStorageEvent id key newValue =>
        left
        simp only [StorageAreaMap.didReceiveMessage, StorageAreaMap.dispatchStorageEvent,
          applyChange_eq_self putOff, ite_self]
      | _ => cases asked
  · exact .inr (unloaded_didReceiveMessage unloaded fits)

theorem drains_cleared (sourceArea : StorageAreaID)
    (earlier : ∀ n ∈ ns, ∀ seed, n.seed = some seed → seed ≤ a.currentSeed)
    (older : ∀ r ∈ up, r.seed ≤ a.currentSeed) :
    Drains (Settled items (up ++ (a.clear sourceArea).2)) (a.clear sourceArea).1 ns := by
  have stale : ∀ n ∈ ns, n.seed ≠ some (a.clear sourceArea).1.currentSeed := by
    intro n member same
    have : a.currentSeed + 1 ≤ a.currentSeed := earlier n member _ same
    omega
  apply (drains_putOff rfl stale).mono
  intro b hb
  rcases hb with rfl | unloaded
  · intro map loaded
    obtain rfl := Option.some.inj loaded
    refine ⟨rfl, (replay_clear items up [] sourceArea (a.currentSeed + 1)).symm, [], ?_, rfl,
      .inr ⟨rfl, up, sourceArea, rfl, ?_⟩⟩
    · simp [Changes]
    · intro r member same
      have bound := older r member
      have : r.seed = a.currentSeed + 1 := same
      omega
  · exact settled_unloaded unloaded

theorem drains_loaded (noClear : a.hasPendingClear = false)
    (none_pending : a.pendingValueChanges = [])
    (earlier : ∀ n ∈ ns, ∀ seed, n.seed = some seed → seed < a.currentSeed) :
    Drains (Settled items []) (a.loadValues items) (ns ++ [.didGetValues a.currentSeed]) := by
  have stale : ∀ n ∈ ns, n.seed ≠ some (a.loadValues items).currentSeed := by
    intro n member same
    exact lt_irrefl _ (earlier n member _ same)
  have putOff : ((a.loadValues items).hasPendingClear || (a.loadValues items).hasPendingGetValues)
      = true := by
    simp [StorageAreaMap.loadValues]
  refine drains_append.mpr ((drains_putOff putOff stale).mono fun b hb fits => ?_)
  rcases hb with rfl | unloaded
  · rw [show (a.loadValues items).didReceiveMessage (.didGetValues a.currentSeed) =
      { a.loadValues items with hasPendingGetValues := false } from if_neg (not_not.mpr rfl)]
    intro map loaded
    obtain rfl := Option.some.inj loaded
    exact ⟨rfl, StorageMap.importItems_create _ _, [], by simp [Changes], none_pending,
      .inl ⟨noClear, rfl⟩⟩
  · exact settled_unloaded (unloaded_didReceiveMessage unloaded fits)

end

/-! ## What the notices say about the items -/

def history (items : Items) (notices : List Notice) : Items := notices.foldl Notice.apply items

/-- A clear event, of any process. -/
def Notice.clears : Notice → Bool
  | dispatchStorageEvent _ none _ => true
  | _ => false

/-- An event of the process that receives it. -/
def Notice.isOwn : Notice → Bool
  | dispatchStorageEvent id _ _ => id != 0
  | _ => false

/-- Behind every clear event are the changes that lead from there to the items. -/
def Since (items : Items) : List Notice → Prop
  | [] => True
  | n :: ns => (n.clears = true → history ∅ ns = items) ∧ Since items ns

theorem since_history (items : Items) (ns : List Notice) : Since (history items ns) ns := by
  induction ns generalizing items with
  | nil => trivial
  | cons n ns ih =>
    refine ⟨fun clears => ?_, ih (n.apply items)⟩
    have empty : n.apply items = ∅ := by
      unfold Notice.clears at clears
      split at clears
      · rfl
      · cases clears
    exact congrArg (history · ns) empty.symm

theorem Since.append {items : Items} {ns : List Notice} (since : Since items ns)
    (ns' : List Notice) : Since (history items ns') (ns ++ ns') := by
  induction ns with
  | nil => exact since_history items ns'
  | cons n ns ih =>
    refine ⟨fun clears => ?_, ih since.2⟩
    rw [← since.1 clears]
    exact List.foldl_append

/-- A cache that follows every event from a clear on ends with the items. -/
theorem drains_followed {ns : List Notice} {a : StorageAreaMap} {map : StorageMap}
    (loaded : a.storageMap = some map) (noClear : a.hasPendingClear = false)
    (idle : a.hasPendingGetValues = false) (none_pending : a.pendingValueChanges = [])
    (stale : ∀ n ∈ ns, n.seed ≠ some a.currentSeed) (foreign : ∀ n ∈ ns, n.isOwn = false) :
    Drains (Settled (history map.items ns) []) a ns := by
  induction ns generalizing a map with
  | nil =>
    intro map' loaded'
    obtain rfl := Option.some.inj (loaded.symm.trans loaded')
    exact ⟨idle, rfl, [], by simp [Changes], none_pending, .inl ⟨noClear, rfl⟩⟩
  | cons n ns ih =>
    intro fits
    have stale' := fun m member => stale m (List.mem_cons_of_mem n member)
    have foreign' := fun m member => foreign m (List.mem_cons_of_mem n member)
    cases asked : n.seed with
    | some seed =>
      have ignored := didReceiveMessage_stale asked (stale n List.mem_cons_self)
      have silent : ∀ items, n.apply items = items := by
        intro items
        cases n with
        | clearCache => cases asked
        | dispatchStorageEvent => cases asked
        | _ => rfl
      rw [ignored, show history map.items (n :: ns) = history (n.apply map.items) ns from rfl, silent]
      exact ih loaded noClear idle none_pending stale' foreign'
    | none =>
      cases n with
      | clearCache => exact (drains_unloaded rfl).mono fun _ => settled_unloaded
      | dispatchStorageEvent id key newValue =>
        obtain rfl : id = 0 := by simpa [Notice.isOwn] using foreign _ List.mem_cons_self
        have open_ : ¬ (a.hasPendingClear || a.hasPendingGetValues) = true := by
          simp [noClear, idle]
        cases key with
        | none =>
          rw [show a.didReceiveMessage (.dispatchStorageEvent 0 none newValue) = a.applyClear from
            if_neg open_, applyClear_eq none_pending]
          exact @ih { a with storageMap := some (StorageMap.create a.quotaInBytes) } _ rfl noClear idle
            none_pending stale' foreign'
        | some key =>
          obtain ⟨map', result, effect⟩ := applyChangeForKey_items loaded
            (show key ∉ a.pendingValueChanges by simp [none_pending]) newValue
          rw [show a.didReceiveMessage (.dispatchStorageEvent 0 (some key) newValue) =
            a.applyChangeForKey key newValue from if_neg open_, result]
          have followed := @ih { a with storageMap := some map' } map' rfl noClear idle none_pending
            stale' foreign'
          rwa [effect] at followed
      | _ => cases asked

end NetRider.Storage
