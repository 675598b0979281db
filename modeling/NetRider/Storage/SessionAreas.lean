import NetRider.Lib.CopyOnWrite
import NetRider.Storage.StorageMap

/-!
# Session storage areas

`StorageAreaImpl` without a database. The areas of a window that is opened by another start with
the opener's maps; a map with more than one area is copied before it is changed.

* In which order a table iterates is not known. A call that may change a table says in which order
  it iterates afterwards, and has no result if that is no order of its keys.
* A string has fewer than `2 ^ 32` units and a table fewer than `2 ^ 31` keys: both are counted
  in an `int`.
-/

namespace NetRider.Storage.Session

open Lib

def uintMax : Nat := 2 ^ 32 - 1

/-- In this order a table with these items can iterate. -/
def Lists (order : List Text) (items : Items) : Prop :=
  order.Nodup ∧ order.toFinset = items.keys ∧ order.length < 2 ^ 31

instance (order : List Text) (items : Items) : Decidable (Lists order items) :=
  inferInstanceAs (Decidable (_ ∧ _ ∧ _))

/-! ## A map and its iterator -/

/-- `m_iterator` is a position in the order; `m_map.end()` is the length. -/
structure CachedMap where
  map : StorageMap
  order : List Text
  iterator : Nat
  iteratorIndex : Nat

namespace CachedMap

def create (quota : Nat) : CachedMap := ⟨.create quota, [], 0, uintMax⟩

/-- The copy does not take the iterator over. -/
def copy (m : CachedMap) (order : List Text) : CachedMap :=
  { create m.map.quotaSize with
    map := ⟨m.map.items, m.map.currentLength, m.map.quotaSize⟩
    order := order }

def invalidateIterator (m : CachedMap) : CachedMap :=
  { m with iterator := m.order.length, iteratorIndex := uintMax }

/-- No result if the iterator passes the end. -/
def advance (m : CachedMap) : Nat → Option CachedMap
  | 0 => some m
  | steps + 1 =>
    if m.iterator + 1 < m.order.length then
      advance { m with iterator := m.iterator + 1, iteratorIndex := m.iteratorIndex + 1 } steps
    else none

def setIteratorToIndex (m : CachedMap) (index : Nat) : Option CachedMap :=
  if m.iteratorIndex = index then some m
  else
    let m := if index < m.iteratorIndex then { m with iterator := 0, iteratorIndex := 0 } else m
    m.advance (index - m.iteratorIndex)

def length (m : CachedMap) : Nat := m.order.length

/-- No result if the iterator is not at a key. -/
def key (m : CachedMap) (index : Nat) : Option (CachedMap × Option Text) :=
  if index ≥ m.length then some (m, none)
  else
    match m.setIteratorToIndex index with
    | none => none
    | some m =>
      match m.order[m.iterator]? with
      | none => none
      | some key => some (m, some key)

/-- `setItem` of a map that is not shared. -/
def setItem (m : CachedMap) (key value : Text) (order : List Text) : CachedMap :=
  let result := m.map.setItem key (some value)
  if result.quotaException then m
  else invalidateIterator { m with map := result.map, order := order }

/-- `removeItem` of a map that is not shared: `take` leaves the table alone if the key is not
there. -/
def removeItem (m : CachedMap) (key : Text) (order : List Text) : CachedMap :=
  if (m.map.getItem key).isSome then
    invalidateIterator { m with map := (m.map.removeItem key).1, order := order }
  else { m with map := (m.map.removeItem key).1 }

end CachedMap

/-! ## Areas -/

/-- What `dispatchStorageEvent` is called with. -/
structure StorageEvent where
  key : Option Text
  oldValue : Option Text
  newValue : Option Text
  deriving DecidableEq

inductive Answer
  | changed (quotaException : Bool) (event : Option StorageEvent)
  | text (text : Option Text)
  | count (length : Nat)
  | found (contained : Bool)
  deriving DecidableEq

inductive Call
  | setItem (key value : Text) (order : List Text)
  | removeItem (key : Text) (order : List Text)
  | clear
  | key (index : Nat)
  | item (key : Text)
  | length
  | contains (key : Text)

/-- The maps and the map of each area. -/
abbrev Areas := Shared CachedMap

/-- Change the map of the area, or a copy of it if it is shared. -/
def mutate (s : Areas) (area cell : Nat) (m : CachedMap) (order : List Text)
    (change : CachedMap → CachedMap) : Option Areas :=
  let shared := 1 < s.refCount cell
  let changed := if shared then change (m.copy order) else change m
  if Lists changed.order changed.map.items then
    some (if shared then s.assign area changed else s.modify area fun _ => changed)
  else none

def setItem (s : Areas) (area cell : Nat) (m : CachedMap) (key value : Text) (order : List Text) :
    Option (Areas × Answer) :=
  let result := m.map.setItem key (some value)
  if key.length < 2 ^ 32 ∧ value.length < 2 ^ 32 then
    (mutate s area cell m order (·.setItem key value order)).map fun s => (s,
      if result.quotaException then .changed true none
      else if result.oldValue = some value then .changed false none
      else .changed false (some ⟨some key, result.oldValue, some value⟩))
  else none

def removeItem (s : Areas) (area cell : Nat) (m : CachedMap) (key : Text) (order : List Text) :
    Option (Areas × Answer) :=
  let oldValue := (m.map.removeItem key).2
  (mutate s area cell m order (·.removeItem key order)).map fun s => (s,
    if oldValue.isNone then .changed false none
    else .changed false (some ⟨some key, oldValue, none⟩))

def clear (s : Areas) (area : Nat) (m : CachedMap) : Areas × Answer :=
  if m.length = 0 then (s, .changed false none)
  else (s.assign area (.create m.map.quotaSize), .changed false (some ⟨none, none, none⟩))

/-- A call of an area with this map. -/
def call (s : Areas) (area cell : Nat) (m : CachedMap) : Call → Option (Areas × Answer)
  | .setItem key value order => setItem s area cell m key value order
  | .removeItem key order => removeItem s area cell m key order
  | .clear => some (clear s area m)
  | .key index => (m.key index).map fun found => (s.modify area fun _ => found.1, .text found.2)
  | .item key => some (s, .text (m.map.getItem key))
  | .length => some (s, .count m.length)
  | .contains key => some (s, .found (key ∈ m.map.items))

inductive Action
  | create (quota : Nat)
  | copy (area : Nat)
  | close (area : Nat)
  | call (area : Nat) (call : Call)

/-- No result for an area that is closed. -/
def step (s : Areas) : Action → Option (Areas × Option Answer)
  | .create quota => if quota ≤ uintMax then some (s.add (.create quota), none) else none
  | .copy area => if (s.cellOf area).isSome then some (s.share area, none) else none
  | .close area => if (s.cellOf area).isSome then some (s.leave area, none) else none
  | .call area request =>
    match s.cellOf area with
    | none => none
    | some cell =>
      match s.cells[cell]? with
      | none => none
      | some m => (call s area cell m request).map fun done => (done.1, some done.2)

/-- The answers of a run. -/
def run (s : Areas) : List Action → Option (Areas × List (Option Answer))
  | [] => some (s, [])
  | a :: as =>
    match step s a with
    | none => none
    | some (t, answer) => (run t as).map fun rest => (rest.1, answer :: rest.2)

/-! ## Areas that share nothing -/

/-- The length of all keys and values, in units. -/
def contentLength (items : Items) : Nat :=
  (items.entries.map fun e => e.1.length + StorageMap.textLength e.2).sum

/-- The area as its users know it. -/
@[ext] structure PrivateArea where
  items : Items
  quota : Nat
  order : List Text

namespace PrivateArea

/-- The item can be set without exceeding the quota, which counts bytes. -/
def Fits (p : PrivateArea) (key value : Text) : Prop :=
  p.quota = noQuota ∨
    contentLength (p.items.insert key (some value)) ≤ p.quota / sizeofUChar

def getItem (p : PrivateArea) (key : Text) : Option Text := (p.items.lookup key).join

/-- What a call does to an area of its own. -/
def Does (p : PrivateArea) : Call → Answer → PrivateArea → Prop
  | .setItem key value _, answer, q =>
    q.quota = p.quota ∧ Lists q.order q.items ∧
      (p.Fits key value ∧ q.items = p.items.insert key (some value) ∧
          answer = .changed false (if p.getItem key = some value then none
            else some ⟨some key, p.getItem key, some value⟩) ∨
        ¬ p.Fits key value ∧ q.items = p.items ∧ answer = .changed true none)
  | .removeItem key _, answer, q =>
    q.quota = p.quota ∧ Lists q.order q.items ∧ q.items = p.items.erase key ∧
      answer = .changed false (if key ∈ p.items then some ⟨some key, p.getItem key, none⟩ else none)
  | .clear, answer, q =>
    q = ⟨∅, p.quota, []⟩ ∧
      answer = .changed false (if p.items = ∅ then none else some ⟨none, none, none⟩)
  | .key index, answer, q => q = p ∧ answer = .text p.order[index]?
  | .item key, answer, q => q = p ∧ answer = .text (p.getItem key)
  | .length, answer, q => q = p ∧ answer = .count p.items.keys.card
  | .contains key, answer, q => q = p ∧ answer = .found (key ∈ p.items)

end PrivateArea

/-- A step of areas each of which has items of its own. -/
inductive PrivateStep : List (Option PrivateArea) → Action → Option Answer →
    List (Option PrivateArea) → Prop
  | create {areas : List (Option PrivateArea)} {quota : Nat} :
    PrivateStep areas (.create quota) none (areas ++ [some ⟨∅, quota, []⟩])
  | copy {areas : List (Option PrivateArea)} {area : Nat} {p : PrivateArea}
    (present : areas[area]? = some (some p)) :
    PrivateStep areas (.copy area) none (areas ++ [some p])
  | close {areas : List (Option PrivateArea)} {area : Nat} {p : PrivateArea}
    (present : areas[area]? = some (some p)) :
    PrivateStep areas (.close area) none (areas.set area none)
  | call {areas : List (Option PrivateArea)} {area : Nat} {p q : PrivateArea} {request : Call}
    {answer : Answer} (present : areas[area]? = some (some p)) (does : p.Does request answer q) :
    PrivateStep areas (.call area request) (some answer) (areas.set area (some q))

inductive PrivateRun : List (Option PrivateArea) → List Action → List (Option Answer) →
    List (Option PrivateArea) → Prop
  | done {areas : List (Option PrivateArea)} : PrivateRun areas [] [] areas
  | next {areas next final : List (Option PrivateArea)} {a : Action} {as : List Action}
    {answer : Option Answer} {answers : List (Option Answer)}
    (one : PrivateStep areas a answer next) (rest : PrivateRun next as answers final) :
    PrivateRun areas (a :: as) (answer :: answers) final

end NetRider.Storage.Session
