import Mathlib.Data.Finmap

/-!
# Storage maps

`WebCore::StorageMap`: the items of a storage area, with the quota in bytes.

* A string is the list of its UTF-16 code units, a string that may be null an `Option`. A key
  in a map is not null; a value should not be.
* Copying on write is not visible in a model without sharing.
-/

namespace NetRider.Storage

abbrev Text := List UInt16

/-- `HashMap<String, String>`. -/
abbrev Items := Finmap fun _ : Text => Option Text

def noQuota : Nat := 2 ^ 32 - 1

def sizeofUChar : Nat := 2

structure StorageMap where
  items : Items
  currentLength : Nat
  quotaSize : Nat

namespace StorageMap

def create (quota : Nat) : StorageMap := ⟨∅, 0, quota⟩

def textLength (s : Option Text) : Nat := s.elim 0 List.length

/-- Null if the key is not in the map. -/
def getItem (m : StorageMap) (key : Text) : Option Text := (m.items.lookup key).join

/-- `m_map` is empty. -/
def isEmpty (m : StorageMap) : Bool := m.items.keys = ∅

section

variable (m : StorageMap) (key : Text) (value : Option Text)

/-- Lengths are `unsigned`: with the new value, -/
def addedLength : Nat := (m.currentLength + textLength value) % 2 ^ 32

/-- without the old value, -/
def replacedLength : Nat := (m.addedLength value + 2 ^ 32 - textLength (m.getItem key)) % 2 ^ 32

/-- and with the key if it is new. -/
def newLength : Nat :=
  (m.replacedLength key value + if (m.getItem key).isNone then key.length else 0) % 2 ^ 32

def exceedsQuota : Prop :=
  m.quotaSize ≠ noQuota ∧
    (m.addedLength value < m.currentLength ∨ m.replacedLength key value > m.addedLength value ∨
      m.newLength key value < m.replacedLength key value ∨
      m.newLength key value > m.quotaSize / sizeofUChar)

instance : Decidable (m.exceedsQuota key value) := inferInstanceAs (Decidable (_ ∧ _))

structure SetResult where
  map : StorageMap
  oldValue : Option Text
  quotaException : Bool

def setItem : SetResult :=
  if m.exceedsQuota key value then ⟨m, m.getItem key, true⟩
  else
    ⟨{ m with items := m.items.insert key value, currentLength := m.newLength key value },
      m.getItem key, false⟩

end

def setItemIgnoringQuota (m : StorageMap) (key : Text) (value : Option Text) : StorageMap :=
  { (setItem { m with quotaSize := noQuota } key value).map with quotaSize := m.quotaSize }

/-- The map and the value that was removed. -/
def removeItem (m : StorageMap) (key : Text) : StorageMap × Option Text :=
  let oldValue := m.getItem key
  let keyLength := if oldValue.isNone then 0 else key.length
  ({ m with
      items := m.items.erase key
      currentLength := (m.currentLength + 2 ^ 33 - keyLength - textLength oldValue) % 2 ^ 32 },
    oldValue)

/-- Items already in the map stay. -/
def importItems (m : StorageMap) (items : Items) : StorageMap :=
  { m with
    items := m.items ∪ items
    currentLength := (m.currentLength +
      (items.entries.map fun e => e.1.length + textLength e.2).sum) % 2 ^ 32 }

/-! ## What happens to the items -/

theorem setItem_refused {m : StorageMap} {key : Text} {value : Option Text}
    (refused : (m.setItem key value).quotaException = true) : (m.setItem key value).map = m := by
  unfold setItem at refused ⊢
  split_ifs with exceeds
  · rfl
  · simp [exceeds] at refused

theorem setItem_items {m : StorageMap} {key : Text} {value : Option Text}
    (accepted : (m.setItem key value).quotaException = false) :
    (m.setItem key value).map.items = m.items.insert key value := by
  unfold setItem at accepted ⊢
  split_ifs with exceeds
  · simp [exceeds] at accepted
  · rfl

theorem setItem_oldValue (m : StorageMap) (key : Text) (value : Option Text) :
    (m.setItem key value).oldValue = m.getItem key := by
  unfold setItem
  split_ifs <;> rfl

theorem setItemIgnoringQuota_items (m : StorageMap) (key : Text) (value : Option Text) :
    (m.setItemIgnoringQuota key value).items = m.items.insert key value := by
  have free : ¬ ({ m with quotaSize := noQuota } : StorageMap).exceedsQuota key value :=
    fun exceeds => exceeds.1 rfl
  rw [setItemIgnoringQuota, setItem, if_neg free]

theorem removeItem_items (m : StorageMap) (key : Text) :
    (m.removeItem key).1.items = m.items.erase key := rfl

theorem importItems_create (quota : Nat) (items : Items) :
    ((create quota).importItems items).items = items :=
  Finmap.empty_union

theorem isEmpty_iff (m : StorageMap) : m.isEmpty = true ↔ m.items = ∅ := by
  rw [isEmpty, decide_eq_true_iff]
  constructor
  · intro empty
    apply Finmap.ext_lookup
    intro key
    rw [Finmap.lookup_empty, Finmap.lookup_eq_none, ← Finmap.mem_keys, empty]
    simp
  · rintro empty
    rw [empty, Finmap.keys_empty]

end StorageMap

end NetRider.Storage
