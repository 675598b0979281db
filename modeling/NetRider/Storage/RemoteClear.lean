import Mathlib
import NetRider.Storage.StorageAreas

/-!
# A clear by another process

`applyChange` with a null key builds a new map for the keys that this process has changed since.
-/

namespace NetRider.Storage

namespace StorageAreaMap

/-- The new map has the pending values of `map`, and nothing else. -/
def KeepsPendingWrites (pending : List Text) (map newMap : StorageMap) : Prop :=
  (∀ key ∈ pending, ∀ value, map.getItem key = some value → newMap.getItem key = some value) ∧
    ∀ key ∈ newMap.items, key ∈ pending ∧ map.getItem key ≠ none

/-- The loop that fills the new map: every key gets the null string. -/
theorem lookup_kept (keys : List Text) (map : StorageMap) (key : Text) :
    (keys.foldl (fun map key => map.setItemIgnoringQuota key none) map).items.lookup key =
      if key ∈ keys then some none else map.items.lookup key := by
  induction keys generalizing map with
  | nil => rfl
  | cons first keys ih =>
    rw [List.foldl_cons, ih, StorageMap.setItemIgnoringQuota_items]
    by_cases later : key ∈ keys
    · rw [if_pos later, if_pos (List.mem_cons_of_mem first later)]
    · rw [if_neg later]
      by_cases same : key = first
      · subst same
        rw [Finmap.lookup_insert, if_pos List.mem_cons_self]
      · rw [Finmap.lookup_insert_of_ne _ same, if_neg]
        simp [same, later]

theorem mem_kept (a : StorageAreaMap) (map : StorageMap) (loaded : a.storageMap = some map)
    (key : Text) :
    (key ∈ a.pendingValueChanges.dedup.filter fun key =>
        (a.storageMap.bind (·.getItem key)).isSome) ↔
      key ∈ a.pendingValueChanges ∧ map.getItem key ≠ none := by
  simp [loaded, List.mem_filter, Option.isSome_iff_ne_none]

/-- The items after the clear. -/
theorem lookup_applyClear {a : StorageAreaMap} {map : StorageMap} (loaded : a.storageMap = some map) :
    ∃ newMap, a.applyClear.storageMap = some newMap ∧ ∀ key, newMap.items.lookup key =
      if key ∈ a.pendingValueChanges ∧ map.getItem key ≠ none then some none else none := by
  refine ⟨_, rfl, ?_⟩
  intro key
  rw [lookup_kept, if_congr (mem_kept a map loaded key) rfl rfl]
  rfl

theorem applyClear_keeps_iff {a : StorageAreaMap} {map : StorageMap}
    (loaded : a.storageMap = some map) :
    (∃ newMap, a.applyClear.storageMap = some newMap ∧
        KeepsPendingWrites a.pendingValueChanges map newMap) ↔
      ∀ key ∈ a.pendingValueChanges, map.getItem key = none := by
  obtain ⟨newMap, after, items⟩ := lookup_applyClear loaded
  rw [after]
  constructor
  · rintro ⟨_, ⟨⟩, keeps, -⟩ key pending
    by_contra written
    obtain ⟨value, held⟩ := Option.ne_none_iff_exists'.mp written
    have kept := keeps key pending value held
    rw [StorageMap.getItem, items key, if_pos ⟨pending, written⟩] at kept
    cases kept
  · intro removals
    refine ⟨newMap, rfl, ?_, ?_⟩
    · intro key pending value held
      rw [removals key pending] at held
      cases held
    · intro key member
      have lost : newMap.items.lookup key = none := by
        rw [items key, if_neg]
        rintro ⟨pending, written⟩
        exact written (removals key pending)
      exact absurd member (Finmap.lookup_eq_none.mp lost)

theorem applyChange_null {a : StorageAreaMap} (noClear : a.hasPendingClear = false)
    (idle : a.hasPendingGetValues = false) (newValue : Option Text) :
    a.applyChange none newValue = a.applyClear := by
  simp [applyChange, noClear, idle]

/-- **What a clear by another process keeps.** Pending writes are lost, since the null string is
written for them: only where no pending key has a value is the new map as it should be. -/
theorem remote_clear_keeps_iff (a : StorageAreaMap) (map : StorageMap) (newValue : Option Text)
    (loaded : a.storageMap = some map) (noClear : a.hasPendingClear = false)
    (idle : a.hasPendingGetValues = false) :
    (∃ newMap, (a.applyChange none newValue).storageMap = some newMap ∧
        KeepsPendingWrites a.pendingValueChanges map newMap) ↔
      ∀ key ∈ a.pendingValueChanges, map.getItem key = none := by
  rw [applyChange_null noClear idle]
  exact applyClear_keeps_iff loaded

def oneItem : StorageMap := (StorageMap.create noQuota).setItemIgnoringQuota [97] (some [49])

theorem oneItem_items : oneItem.items = Finmap.insert [97] (some [49]) ∅ :=
  StorageMap.setItemIgnoringQuota_items ..

/-- A map with one item, and one change that is pending. -/
def changed (key : Text) : StorageAreaMap := ⟨some oneItem, noQuota, 0, false, false, [key]⟩

/-- Another key has been removed. -/
theorem remote_clear_keeps_removal :
    ∃ newMap, ((changed [98]).applyChange none none).storageMap = some newMap ∧
      KeepsPendingWrites [[98]] oneItem newMap := by
  apply (remote_clear_keeps_iff (changed [98]) oneItem none rfl rfl rfl).mpr
  intro key pending
  obtain rfl := List.mem_singleton.mp pending
  rw [StorageMap.getItem, oneItem_items, Finmap.lookup_insert_of_ne _ (by decide)]
  rfl

/-- The item has been written. -/
theorem remote_clear_loses_write :
    ¬ ∃ newMap, ((changed [97]).applyChange none none).storageMap = some newMap ∧
      KeepsPendingWrites [[97]] oneItem newMap := by
  intro keeps
  have removed := applyClear_keeps_iff rfl |>.mp keeps [97] List.mem_cons_self
  rw [StorageMap.getItem, oneItem_items, Finmap.lookup_insert] at removed
  cases removed

end StorageAreaMap

end NetRider.Storage
