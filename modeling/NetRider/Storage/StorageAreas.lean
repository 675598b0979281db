import NetRider.Storage.StorageMap

/-!
# Storage areas across processes

One storage area of the UI process and, in each web process, a `StorageAreaMap` that caches
it. Every web process is joined to the UI process by a channel in either direction.

* Seeds and ids are `uint64_t` that only count up; they are natural numbers.
* Reading an item, the length or a key is one operation, which only loads the values.
* `GetValues` is synchronous: the process does nothing until the reply arrives. The reply is
  taken when the request is handled, since nothing at the process can come in between.
* The items in the database are there from the start, since they are imported before anything
  is read. The database itself, the urls and the DOM events are left out.
-/

namespace NetRider.Storage

/-- Counted from 1, so that 0 can stand for an area of another process. -/
def StorageAreaID := { id : Nat // id ≠ 0 }

/-- Messages to `StorageManager`. -/
inductive Request
  | setItem (sourceStorageAreaID : StorageAreaID) (seed : Nat) (key value : Text)
  | removeItem (sourceStorageAreaID : StorageAreaID) (seed : Nat) (key : Text)
  | clear (sourceStorageAreaID : StorageAreaID) (seed : Nat)
  | getValues (seed : Nat)

/-- Messages to `StorageAreaMap`. -/
inductive Notice
  | didGetValues (seed : Nat)
  | didSetItem (seed : Nat) (key : Text) (quotaError : Bool)
  | didRemoveItem (seed : Nat) (key : Text)
  | didClear (seed : Nat)
  | dispatchStorageEvent (sourceStorageAreaID : Nat) (key newValue : Option Text)
  | clearCache

/-! ## The cache in a web process -/

structure StorageAreaMap where
  storageMap : Option StorageMap
  quotaInBytes : Nat
  currentSeed : Nat
  hasPendingClear : Bool
  hasPendingGetValues : Bool
  /-- A `HashCountedSet`, with its keys in the order they were added. -/
  pendingValueChanges : List Text

/-- Operations that load the values first. -/
inductive Operation
  | read
  | setItem (sourceArea : StorageAreaID) (key value : Text)
  | removeItem (sourceArea : StorageAreaID) (key : Text)

namespace StorageAreaMap

def create (quotaInBytes : Nat) : StorageAreaMap := ⟨none, quotaInBytes, 0, false, false, []⟩

def resetValues (a : StorageAreaMap) : StorageAreaMap :=
  { a with
    storageMap := none
    pendingValueChanges := []
    hasPendingClear := false
    hasPendingGetValues := false
    currentSeed := a.currentSeed + 1 }

/-- `loadValuesIfNeeded` when the reply has arrived. -/
def loadValues (a : StorageAreaMap) (values : Items) : StorageAreaMap :=
  { a with
    storageMap := some ((StorageMap.create a.quotaInBytes).importItems values)
    hasPendingGetValues := true }

/-- `setItem` behind `loadValuesIfNeeded`, with the messages it sends. -/
def setItem (a : StorageAreaMap) (map : StorageMap) (sourceArea : StorageAreaID)
    (key value : Text) : StorageAreaMap × List Request :=
  let result := map.setItem key (some value)
  if result.quotaException then (a, [])
  else if result.oldValue = some value then ({ a with storageMap := some result.map }, [])
  else
    ({ a with
        storageMap := some result.map
        pendingValueChanges := a.pendingValueChanges ++ [key] },
      [.setItem sourceArea a.currentSeed key value])

/-- `removeItem` behind `loadValuesIfNeeded`. -/
def removeItem (a : StorageAreaMap) (map : StorageMap) (sourceArea : StorageAreaID)
    (key : Text) : StorageAreaMap × List Request :=
  let (map, oldValue) := map.removeItem key
  if oldValue.isNone then ({ a with storageMap := some map }, [])
  else
    ({ a with
        storageMap := some map
        pendingValueChanges := a.pendingValueChanges ++ [key] },
      [.removeItem sourceArea a.currentSeed key])

def perform (a : StorageAreaMap) (map : StorageMap) : Operation → StorageAreaMap × List Request
  | .read => (a, [])
  | .setItem sourceArea key value => a.setItem map sourceArea key value
  | .removeItem sourceArea key => a.removeItem map sourceArea key

def clear (a : StorageAreaMap) (sourceArea : StorageAreaID) : StorageAreaMap × List Request :=
  let a := a.resetValues
  ({ a with
      hasPendingClear := true
      storageMap := some (StorageMap.create a.quotaInBytes) },
    [.clear sourceArea a.currentSeed])

def didGetValues (a : StorageAreaMap) (seed : Nat) : StorageAreaMap :=
  if a.currentSeed ≠ seed then a else { a with hasPendingGetValues := false }

def didSetItem (a : StorageAreaMap) (seed : Nat) (key : Text) (quotaError : Bool) :
    StorageAreaMap :=
  if a.currentSeed ≠ seed then a
  else if quotaError then a.resetValues
  else { a with pendingValueChanges := a.pendingValueChanges.erase key }

def didRemoveItem (a : StorageAreaMap) (seed : Nat) (key : Text) : StorageAreaMap :=
  if a.currentSeed ≠ seed then a
  else { a with pendingValueChanges := a.pendingValueChanges.erase key }

def didClear (a : StorageAreaMap) (seed : Nat) : StorageAreaMap :=
  if a.currentSeed ≠ seed then a else { a with hasPendingClear := false }

/-- `applyChange` with a null key. Keys with a pending change get the null string that the
code leaves in `oldValue`, not their value. -/
def applyClear (a : StorageAreaMap) : StorageAreaMap :=
  let kept := a.pendingValueChanges.dedup.filter fun key =>
    (a.storageMap.bind (·.getItem key)).isSome
  let newStorageMap :=
    kept.foldl (fun map key => map.setItemIgnoringQuota key none) (StorageMap.create a.quotaInBytes)
  { a with storageMap := some newStorageMap }

/-- `applyChange` with a key, which is refused by `shouldApplyChangeForKey` before the values
are loaded and while the key has a pending change. -/
def applyChangeForKey (a : StorageAreaMap) (key : Text) (newValue : Option Text) :
    StorageAreaMap :=
  match a.storageMap with
  | none => a
  | some map =>
    if key ∈ a.pendingValueChanges then a
    else match newValue with
      | none => { a with storageMap := some (map.removeItem key).1 }
      | some value => { a with storageMap := some (map.setItemIgnoringQuota key (some value)) }

def applyChange (a : StorageAreaMap) (key newValue : Option Text) : StorageAreaMap :=
  if a.hasPendingClear || a.hasPendingGetValues then a
  else match key with
    | none => a.applyClear
    | some key => a.applyChangeForKey key newValue

def dispatchStorageEvent (a : StorageAreaMap) (sourceStorageAreaID : Nat)
    (key newValue : Option Text) : StorageAreaMap :=
  if sourceStorageAreaID = 0 then a.applyChange key newValue else a

def clearCache (a : StorageAreaMap) : StorageAreaMap := a.resetValues

def didReceiveMessage (a : StorageAreaMap) : Notice → StorageAreaMap
  | .didGetValues seed => a.didGetValues seed
  | .didSetItem seed key quotaError => a.didSetItem seed key quotaError
  | .didRemoveItem seed key => a.didRemoveItem seed key
  | .didClear seed => a.didClear seed
  | .dispatchStorageEvent sourceStorageAreaID key newValue =>
    a.dispatchStorageEvent sourceStorageAreaID key newValue
  | .clearCache => a.clearCache

end StorageAreaMap

/-! ## The processes and the storage manager -/

structure Process where
  area : StorageAreaMap
  /-- The operation that waits for the reply to `GetValues`. -/
  waiting : Option Operation
  up : List Request
  down : List Notice

/-- The web processes `P` and the storage map of the area in the UI process. -/
structure System (P : Type) where
  storageMap : StorageMap
  processes : P → Process

namespace System

variable {P : Type} [DecidableEq P]

def start (items : Items) (quota quotaInBytes : Nat) : System P :=
  ⟨(StorageMap.create quota).importItems items,
    fun _ => ⟨StorageAreaMap.create quotaInBytes, none, [], []⟩⟩

def update (s : System P) (i : P) (process : Process) : System P :=
  { s with processes := Function.update s.processes i process }

def send (s : System P) (i : P) (notice : Notice) : System P :=
  let process := s.processes i
  s.update i { process with down := process.down ++ [notice] }

def broadcast (s : System P) (notice : P → Notice) : System P :=
  { s with
    processes := fun i => { s.processes i with down := (s.processes i).down ++ [notice i] } }

def dispatchEvents (s : System P) (source : P) (sourceStorageAreaID : StorageAreaID)
    (key newValue : Option Text) : System P :=
  s.broadcast fun i =>
    .dispatchStorageEvent (if i = source then sourceStorageAreaID.1 else 0) key newValue

def setItem (s : System P) (source : P) (sourceStorageAreaID : StorageAreaID) (seed : Nat)
    (key value : Text) : System P :=
  let result := s.storageMap.setItem key (some value)
  let s := { s with storageMap := result.map }
  let s := if result.quotaException then s
    else s.dispatchEvents source sourceStorageAreaID (some key) (some value)
  s.send source (.didSetItem seed key result.quotaException)

def removeItem (s : System P) (source : P) (sourceStorageAreaID : StorageAreaID) (seed : Nat)
    (key : Text) : System P :=
  let (map, oldValue) := s.storageMap.removeItem key
  let s := { s with storageMap := map }
  let s := if oldValue.isNone then s else s.dispatchEvents source sourceStorageAreaID (some key) none
  s.send source (.didRemoveItem seed key)

def clear (s : System P) (source : P) (sourceStorageAreaID : StorageAreaID) (seed : Nat) :
    System P :=
  let s := if s.storageMap.isEmpty then s
    else
      { s with storageMap := StorageMap.create s.storageMap.quotaSize }.dispatchEvents source
        sourceStorageAreaID none none
  s.send source (.didClear seed)

/-- The answer to `GetValues` lets the waiting operation go on. -/
def getValues (s : System P) (source : P) (seed : Nat) : System P :=
  let s := s.send source (.didGetValues seed)
  let process := s.processes source
  match process.waiting with
  | none => s
  | some operation =>
    let area := process.area.loadValues s.storageMap.items
    match area.storageMap with
    | none => s
    | some map =>
      let (area, sent) := area.perform map operation
      s.update source { process with area, waiting := none, up := process.up ++ sent }

inductive Action (P : Type)
  | perform (process : P) (operation : Operation)
  | clear (process : P) (sourceArea : StorageAreaID)
  /-- The storage manager handles the oldest message of a process. -/
  | handle (process : P)
  /-- A process handles the oldest message of the storage manager. -/
  | deliver (process : P)
  /-- `StorageArea::clear()`, when the data of the origin is deleted. -/
  | clearArea

def step (s : System P) : Action P → Option (System P)
  | .perform i operation =>
    let process := s.processes i
    if process.waiting.isSome then none
    else match process.area.storageMap with
      | none => some (s.update i
          { process with
            waiting := some operation
            up := process.up ++ [.getValues process.area.currentSeed] })
      | some map =>
        let (area, sent) := process.area.perform map operation
        some (s.update i { process with area, up := process.up ++ sent })
  | .clear i sourceArea =>
    let process := s.processes i
    if process.waiting.isSome then none
    else
      let (area, sent) := process.area.clear sourceArea
      some (s.update i { process with area, up := process.up ++ sent })
  | .handle i =>
    let process := s.processes i
    match process.up with
    | [] => none
    | request :: up =>
      let s := s.update i { process with up }
      match request with
      | .setItem id seed key value => some (s.setItem i id seed key value)
      | .removeItem id seed key => some (s.removeItem i id seed key)
      | .clear id seed => some (s.clear i id seed)
      | .getValues seed => some (s.getValues i seed)
  | .deliver i =>
    let process := s.processes i
    match process.down with
    | [] => none
    | notice :: down =>
      if process.waiting.isSome then none
      else some (s.update i { process with area := process.area.didReceiveMessage notice, down })
  | .clearArea =>
    some ({ s with storageMap := StorageMap.create s.storageMap.quotaSize }.broadcast
      fun _ => .clearCache)

end System

end NetRider.Storage
