import NetRider.Lib.OrderedMap

/-!
# A LevelDB transaction and its iterator

`LevelDBTransaction` keeps its writes in a tree over a database snapshot;
`TransactionIterator` merges a cursor over each. Keys are compared by a linear
order and two keys that compare equal are one key. The `AVLTree` is the ordered
map it implements; what remains of its node paths is that a path taken before
an insertion must not be followed after it (`stamp`).
-/

namespace NetRider.LevelDb

open NetRider.Lib

structure TreeNode (V : Type) where
  value : V
  deleted : Bool

structure Tree (K V : Type) where
  nodes : OrderedMap K (TreeNode V)
  /-- The number of nodes inserted so far. -/
  inserts : Nat

/-- `position` is `m_key` of a valid iterator; `stamp` the tree its path is for. -/
structure TreeIterator (K : Type) where
  position : Option K
  stamp : Nat

inductive Direction
  | kForward
  | kReverse
  deriving DecidableEq, Repr

/-- What `m_current` points to. -/
inductive Source
  | tree
  | db
  deriving DecidableEq, Repr

structure TransactionIterator (K : Type) where
  treeIterator : TreeIterator K
  dbIterator : Option K
  current : Option Source
  direction : Direction
  treeChanged : Bool

/-- The transaction with the one iterator under study. -/
structure LevelDBTransaction (K V : Type) where
  snapshot : OrderedMap K V
  tree : Tree K V
  iterator : TransactionIterator K

variable {K V : Type} [LinearOrder K]

namespace TreeIterator

def isValid (it : TreeIterator K) : Bool := it.position.isSome

/-- The node the path leads to; `none` where the code would follow an old path
or none at all. -/
def path (it : TreeIterator K) (t : Tree K V) : Option K :=
  if it.stamp = t.inserts then it.position else none

def seekToLast (t : Tree K V) : TreeIterator K := ⟨t.nodes.last, t.inserts⟩

def seek (t : Tree K V) (target : K) : TreeIterator K :=
  if target ∈ t.nodes.keys then ⟨some target, t.inserts⟩
  else ⟨t.nodes.firstAfter target, t.inserts⟩

def next (it : TreeIterator K) (t : Tree K V) : Option (TreeIterator K) :=
  (it.path t).map fun k => ⟨t.nodes.firstAfter k, t.inserts⟩

def prev (it : TreeIterator K) (t : Tree K V) : Option (TreeIterator K) :=
  (it.path t).map fun k => ⟨t.nodes.lastBefore k, t.inserts⟩

def isDeleted (it : TreeIterator K) (t : Tree K V) : Option Bool :=
  (it.path t).bind fun k => (t.nodes.get k).map TreeNode.deleted

def value (it : TreeIterator K) (t : Tree K V) : Option V :=
  (it.path t).bind fun k => (t.nodes.get k).map TreeNode.value

/-- Finds `m_key` again in the changed tree. -/
def reset (it : TreeIterator K) (t : Tree K V) : Option (TreeIterator K) :=
  it.position.map fun k => ⟨if k ∈ t.nodes.keys then some k else none, t.inserts⟩

end TreeIterator

namespace LevelDBTransaction

/-! ## Writes -/

def set (x : LevelDBTransaction K V) (key : K) (value : V) (deleted : Bool) :
    LevelDBTransaction K V :=
  let nodes := x.tree.nodes.insert key ⟨value, deleted⟩
  if key ∈ x.tree.nodes.keys then { x with tree := ⟨nodes, x.tree.inserts⟩ }
  else
    { x with
      tree := ⟨nodes, x.tree.inserts + 1⟩
      iterator := { x.iterator with treeChanged := true } }

def put (x : LevelDBTransaction K V) (key : K) (value : V) : LevelDBTransaction K V :=
  x.set key value false

/-- The marker carries an empty value. -/
def remove (x : LevelDBTransaction K V) (key : K) (emptyValue : V) : LevelDBTransaction K V :=
  x.set key emptyValue true

/-! ## The iterator -/

/-- `m_dbIterator->next()` or `prev()`; `none` on an invalid iterator. -/
def dbStep (x : LevelDBTransaction K V) (d : Direction) (it : Option K) : Option (Option K) :=
  it.map fun k =>
    match d with
    | .kForward => x.snapshot.firstAfter k
    | .kReverse => x.snapshot.lastBefore k

def treeStep (x : LevelDBTransaction K V) (d : Direction) (it : TreeIterator K) :
    Option (TreeIterator K) :=
  match d with
  | .kForward => it.next x.tree
  | .kReverse => it.prev x.tree

/-- `treeIteratorIsLower` going forward, `treeIteratorIsHigher` going back. -/
def comesFirst (d : Direction) (a b : K) : Bool :=
  match d with
  | .kForward => decide (a < b)
  | .kReverse => decide (b < a)

def withIterator (x : LevelDBTransaction K V) (it : TransactionIterator K) :
    LevelDBTransaction K V := { x with iterator := it }

def refreshTreeIterator (x : LevelDBTransaction K V) : Option (LevelDBTransaction K V) :=
  let it := { x.iterator with treeChanged := false }
  if it.treeIterator.isValid = true ∧ it.current = some .tree then do
    let t ← it.treeIterator.reset x.tree
    some (x.withIterator { it with treeIterator := t })
  else
    match it.dbIterator with
    | none => some (x.withIterator it)
    | some dbKey =>
      let t := TreeIterator.seek x.tree dbKey
      match it.direction with
      | .kForward =>
        if t.position = some dbKey then do
          let t ← t.next x.tree
          some (x.withIterator { it with treeIterator := t })
        else some (x.withIterator { it with treeIterator := t })
      | .kReverse =>
        if t.isValid then do
          let t ← t.prev x.tree
          some (x.withIterator { it with treeIterator := t })
        else some (x.withIterator { it with treeIterator := t })

def refreshIfChanged (x : LevelDBTransaction K V) : Option (LevelDBTransaction K V) :=
  if x.iterator.treeChanged then x.refreshTreeIterator else some x

def isValid (x : LevelDBTransaction K V) : Bool := x.iterator.current.isSome

/-- `m_current->key()`. -/
def currentKey (x : LevelDBTransaction K V) : Option K :=
  match x.iterator.current with
  | none => none
  | some .tree => x.iterator.treeIterator.position
  | some .db => x.iterator.dbIterator

/-- `m_current->value()`. -/
def currentValue (x : LevelDBTransaction K V) : Option V :=
  match x.iterator.current with
  | none => none
  | some .tree => x.iterator.treeIterator.value x.tree
  | some .db => x.iterator.dbIterator.bind x.snapshot.get

/-- `key()` and `value()` refresh the tree iterator first. -/
def key (x : LevelDBTransaction K V) : Option K := x.refreshIfChanged.bind currentKey

def value (x : LevelDBTransaction K V) : Option V := x.refreshIfChanged.bind currentValue

/-- For equal keys the tree takes precedence: the database cursor moves on. -/
def resolveConflict (x : LevelDBTransaction K V) : Option (LevelDBTransaction K V) :=
  let it := x.iterator
  if it.treeIterator.isValid = true ∧ it.treeIterator.position = it.dbIterator then do
    let db ← x.dbStep it.direction it.dbIterator
    some (x.withIterator { it with dbIterator := db })
  else some x

/-- The tree cursor is on a delete marker the database cursor has not reached. -/
def onDeleteMarker (x : LevelDBTransaction K V) : Option Bool :=
  let it := x.iterator
  match it.treeIterator.position with
  | none => some false
  | some k => do
    let deleted ← it.treeIterator.isDeleted x.tree
    some (deleted && match it.dbIterator with
      | none => true
      | some dbKey => comesFirst it.direction k dbKey)

/-- The loop, for at most `fuel` rounds. -/
def handleConflictsAndDeletes : Nat → LevelDBTransaction K V → Option (LevelDBTransaction K V)
  | 0, _ => none
  | fuel + 1, x => do
    let x ← x.resolveConflict
    let skip ← x.onDeleteMarker
    if skip then
      let t ← x.treeStep x.iterator.direction x.iterator.treeIterator
      handleConflictsAndDeletes fuel (x.withIterator { x.iterator with treeIterator := t })
    else some x

/-- `setCurrentIteratorToSmallestKey` going forward, `...ToLargestKey` going back. -/
def setCurrentIterator (x : LevelDBTransaction K V) : LevelDBTransaction K V :=
  let it := x.iterator
  x.withIterator { it with
    current :=
      match it.treeIterator.position, it.dbIterator with
      | none, none => none
      | some _, none => some .tree
      | none, some _ => some .db
      | some k, some dbKey => if comesFirst it.direction dbKey k then some .db else some .tree }

/-- Every round moves the tree cursor on, so one per node and one more are enough. -/
def settle (x : LevelDBTransaction K V) : Option (LevelDBTransaction K V) := do
  let x ← handleConflictsAndDeletes (x.tree.nodes.keys.card + 1) x
  some x.setCurrentIterator

def seekToLast (x : LevelDBTransaction K V) : Option (LevelDBTransaction K V) :=
  settle (x.withIterator { x.iterator with
    treeIterator := TreeIterator.seekToLast x.tree
    dbIterator := x.snapshot.last
    direction := .kReverse })

def seek (x : LevelDBTransaction K V) (target : K) : Option (LevelDBTransaction K V) :=
  settle (x.withIterator { x.iterator with
    treeIterator := TreeIterator.seek x.tree target
    dbIterator := x.snapshot.firstFrom target
    direction := .kForward })

/-- `m_current->next()` or `prev()`. -/
def stepCurrent (x : LevelDBTransaction K V) (d : Direction) : Option (LevelDBTransaction K V) :=
  let it := x.iterator
  match it.current with
  | none => none
  | some .tree => do
    let t ← x.treeStep d it.treeIterator
    some (x.withIterator { it with treeIterator := t })
  | some .db => do
    let db ← x.dbStep d it.dbIterator
    some (x.withIterator { it with dbIterator := db })

/-- `next()` after a step back: the other cursor goes to the first key after `key()`. -/
def turnForward (x : LevelDBTransaction K V) : Option (LevelDBTransaction K V) := do
  let it := { x.iterator with direction := .kForward }
  let key ← x.currentKey
  match it.current with
  | none => none
  | some .db =>
    let t := TreeIterator.seek x.tree key
    let t ← if t.position = some key then t.next x.tree else some t
    some (x.withIterator { it with treeIterator := t })
  | some .tree =>
    let db := x.snapshot.firstFrom key
    let db ← if db = some key then x.dbStep .kForward db else some db
    some (x.withIterator { it with dbIterator := db })

/-- `prev()` after a step forward: the other cursor goes to the last key before `key()`. -/
def turnBack (x : LevelDBTransaction K V) : Option (LevelDBTransaction K V) := do
  let it := { x.iterator with direction := .kReverse }
  let key ← x.currentKey
  match it.current with
  | none => none
  | some .db =>
    let t := TreeIterator.seek x.tree key
    let t ← if t.isValid then t.prev x.tree else some (TreeIterator.seekToLast x.tree)
    some (x.withIterator { it with treeIterator := t })
  | some .tree =>
    let db := x.snapshot.firstFrom key
    let db ← if db.isSome then x.dbStep .kReverse db else some x.snapshot.last
    some (x.withIterator { it with dbIterator := db })

def next (x : LevelDBTransaction K V) : Option (LevelDBTransaction K V) := do
  let x ← x.refreshIfChanged
  let x ← if x.iterator.direction = .kForward then some x else x.turnForward
  let x ← x.stepCurrent .kForward
  x.settle

def prev (x : LevelDBTransaction K V) : Option (LevelDBTransaction K V) := do
  let x ← x.refreshIfChanged
  let x ← if x.iterator.direction = .kReverse then some x else x.turnBack
  let x ← x.stepCurrent .kReverse
  x.settle

inductive Call (K V : Type)
  | put (key : K) (value : V)
  | remove (key : K) (emptyValue : V)
  /-- `key()` or `value()`, both of which may move the tree cursor. -/
  | read
  | seek (target : K)
  | seekToLast
  | next
  | prev

def step (x : LevelDBTransaction K V) : Call K V → Option (LevelDBTransaction K V)
  | .put key value => some (x.put key value)
  | .remove key emptyValue => some (x.remove key emptyValue)
  | .read => x.refreshIfChanged
  | .seek target => x.seek target
  | .seekToLast => x.seekToLast
  | .next => x.next
  | .prev => x.prev

end LevelDBTransaction

end NetRider.LevelDb
