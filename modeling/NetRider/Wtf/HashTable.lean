import Mathlib.Algebra.Group.Int.Defs
import Mathlib.Algebra.Group.Nat.Defs
import Mathlib.Data.List.Basic

/-!
# HashTable

Buckets are probed with steps that depend on the hash, until one is empty. An index at or beyond
the number of buckets, the use of a null table, a loop that goes on after it has seen every bucket
and an overflow of a count are faults. The sum of an index and a step wraps around.
-/

namespace NetRider.Wtf.HashTables

inductive Fault
  | outside
  | null
  | endless
  | overflow
deriving DecidableEq

/-! ## Traits -/

/-- `Extractor`, `HashFunctions`, `Traits` and `KeyTraits`. -/
structure Traits (K V : Type) where
  extract : V → K
  hash : K → BitVec 32
  equal : K → K → Bool
  safeToCompareToEmptyOrDeleted : Bool
  isEmptyValue : K → Bool
  isDeletedValue : K → Bool
  emptyValue : V
  /-- What `constructDeletedValue` makes. -/
  deletedValue : V
  minimumTableSize : Nat

namespace Traits

variable {K V : Type} (T : Traits K V)

def isEmptyBucket (value : V) : Bool := T.isEmptyValue (T.extract value)

def isDeletedBucket (value : V) : Bool := T.isDeletedValue (T.extract value)

def isEmptyOrDeletedBucket (value : V) : Bool := T.isEmptyBucket value || T.isDeletedBucket value

/-- The assertions of `checkKey`. -/
def checkKey (key : K) : Bool :=
  !T.safeToCompareToEmptyOrDeleted ||
    (!T.equal (T.extract T.emptyValue) key && !T.equal (T.extract T.deletedValue) key)

end Traits

/-! ## Integers -/

/-- An `int` that a computation gives. -/
def int (x : Int) : Except Fault Int :=
  if -2 ^ 31 ≤ x ∧ x < 2 ^ 31 then .ok x else .error .overflow

def m_maxLoad : Int := 2

def m_minLoad : Int := 6

def doubleHash (key : BitVec 32) : BitVec 32 :=
  let key := ~~~key + (key >>> 23)
  let key := key ^^^ (key <<< 12)
  let key := key ^^^ (key >>> 7)
  let key := key ^^^ (key <<< 2)
  key ^^^ (key >>> 20)

/-! ## HashTable -/

structure HashTable (V : Type) where
  m_table : Option (List V)
  m_tableSize : Nat
  m_tableSizeMask : Nat
  m_keyCount : Int
  m_deletedCount : Int

namespace HashTable

variable {K V : Type}

def empty : HashTable V := ⟨none, 0, 0, 0, 0⟩

section
variable (T : Traits K V) (t : HashTable V)

def isEmpty : Bool := t.m_keyCount == 0

def endPosition : Nat := t.m_tableSize

/-- `*entry`. -/
def load (entry : Nat) : Except Fault V :=
  match t.m_table with
  | some table =>
    match table[entry]? with
    | some value => .ok value
    | none => .error .outside
  | none => .error .null

/-- `*entry = value`. -/
def store (entry : Nat) (value : V) : Except Fault (HashTable V) :=
  match t.m_table with
  | some table =>
    if entry < table.length then .ok { t with m_table := some (table.set entry value) }
    else .error .outside
  | none => .error .null

def initializeBucket (bucket : Nat) : Except Fault (HashTable V) := t.store bucket T.emptyValue

def deleteBucket (bucket : Nat) : Except Fault (HashTable V) := t.store bucket T.deletedValue

def shouldExpand : Except Fault Bool := do
  let sum ← int (t.m_keyCount + t.m_deletedCount)
  let load ← int (sum * m_maxLoad)
  return load ≥ t.m_tableSize

def mustRehashInPlace : Except Fault Bool := do
  let load ← int (t.m_keyCount * m_minLoad)
  let size ← int (t.m_tableSize * 2)
  return load < size

def shouldShrink : Except Fault Bool := do
  let load ← int (t.m_keyCount * m_minLoad)
  return load < t.m_tableSize ∧ t.m_tableSize > T.minimumTableSize

/-! ### Probes -/

/-- The loop of a search. `visit` ends it or goes on with another state. -/
def probeLoop {σ ρ : Type} (table : List V) (sizeMask h : BitVec 32)
    (visit : σ → Nat → V → ρ ⊕ σ) : Nat → BitVec 32 → BitVec 32 → σ → Except Fault ρ
  | 0, _, _, _ => .error .endless
  | fuel + 1, i, k, state =>
    match table[i.toNat]? with
    | none => .error .outside
    | some entry =>
      match visit state i.toNat entry with
      | .inl result => .ok result
      | .inr state =>
        let k := if k = 0 then 1 ||| doubleHash h else k
        probeLoop table sizeMask h visit fuel ((i + k) &&& sizeMask) k state

/-- A search in `table`, for as many probes as there are buckets. -/
def probe {σ ρ : Type} (table : List V) (visit : σ → Nat → V → ρ ⊕ σ) (key : K) (state : σ) :
    Except Fault ρ :=
  let sizeMask := BitVec.ofNat 32 t.m_tableSizeMask
  let h := T.hash key
  probeLoop table sizeMask h visit table.length (h &&& sizeMask) 0 state

def lookupVisit (key : K) (_ : Unit) (i : Nat) (entry : V) : Option Nat ⊕ Unit :=
  if T.safeToCompareToEmptyOrDeleted then
    if T.equal (T.extract entry) key then .inl (some i)
    else if T.isEmptyBucket entry then .inl none
    else .inr ()
  else
    if T.isEmptyBucket entry then .inl none
    else if !T.isDeletedBucket entry && T.equal (T.extract entry) key then .inl (some i)
    else .inr ()

def lookup (key : K) : Except Fault (Option Nat) :=
  match t.m_table with
  | none => .ok none
  | some table => t.probe T table (lookupVisit T key) key ()

/-- What a search for a place ends with. -/
structure Place where
  entry : Nat
  deletedEntry : Option Nat
  found : Bool

def writingVisit (key : K) (deletedEntry : Option Nat) (i : Nat) (entry : V) :
    Place ⊕ Option Nat :=
  if T.safeToCompareToEmptyOrDeleted then
    if T.isEmptyBucket entry then .inl ⟨i, deletedEntry, false⟩
    else if T.equal (T.extract entry) key then .inl ⟨i, deletedEntry, true⟩
    else if T.isDeletedBucket entry then .inr (some i)
    else .inr deletedEntry
  else
    if T.isEmptyBucket entry then .inl ⟨i, deletedEntry, false⟩
    else if T.isDeletedBucket entry then .inr (some i)
    else if T.equal (T.extract entry) key then .inl ⟨i, deletedEntry, true⟩
    else .inr deletedEntry

/-- The loop that `lookupForWriting`, `fullLookupForWriting` and `add` have in common. -/
def place (key : K) : Except Fault Place :=
  match t.m_table with
  | none => .error .null
  | some table => t.probe T table (writingVisit T key) key none

def lookupForWriting (key : K) : Except Fault (Nat × Bool) := do
  let p ← t.place T key
  return (if p.found then p.entry else p.deletedEntry.getD p.entry, p.found)

def fullLookupForWriting (key : K) : Except Fault ((Nat × Bool) × BitVec 32) := do
  let p ← t.place T key
  return ((if p.found then p.entry else p.deletedEntry.getD p.entry, p.found), T.hash key)

/-! ### Sizes -/

def allocateTable (size : Nat) : List V := List.replicate size T.emptyValue

def reinsert (entry : V) : Except Fault (HashTable V × Nat) := do
  let newEntry := (← t.lookupForWriting T (T.extract entry)).1
  return (← t.store newEntry entry, newEntry)

/-- The loop of `rehash`, with `n` buckets to go. -/
def rehashLoop (oldTable : List V) (entry : Option Nat) :
    Nat → Nat → HashTable V → Option Nat → Except Fault (HashTable V × Option Nat)
  | 0, _, t, newEntry => .ok (t, newEntry)
  | n + 1, i, t, newEntry =>
    match oldTable[i]? with
    | none => .error .outside
    | some bucket =>
      if T.isEmptyOrDeletedBucket bucket then rehashLoop oldTable entry n (i + 1) t newEntry
      else do
        let (t, reinsertedEntry) ← t.reinsert T bucket
        rehashLoop oldTable entry n (i + 1) t
          (if entry = some i then some reinsertedEntry else newEntry)

def rehash (newTableSize : Nat) (entry : Option Nat) :
    Except Fault (HashTable V × Option Nat) := do
  let new : HashTable V :=
    { t with
      m_tableSize := newTableSize
      m_tableSizeMask := newTableSize - 1
      m_table := some (allocateTable T newTableSize) }
  let (t, newEntry) ← rehashLoop T (t.m_table.getD []) entry t.m_tableSize 0 new none
  return ({ t with m_deletedCount := 0 }, newEntry)

def expand (entry : Option Nat) : Except Fault (HashTable V × Option Nat) := do
  if t.m_tableSize = 0 then t.rehash T T.minimumTableSize entry
  else if ← t.mustRehashInPlace then t.rehash T t.m_tableSize entry
  else
    let size ← int (t.m_tableSize * 2)
    t.rehash T size.toNat entry

def shrink : Except Fault (HashTable V) := do
  return (← t.rehash T (t.m_tableSize / 2) none).1

/-! ### Additions -/

/-- `if (!m_table) expand()`. -/
def allocated : Except Fault (HashTable V) :=
  match t.m_table with
  | none => do return (← t.expand T none).1
  | some _ => .ok t

/-- The end of an addition at `entry`. -/
def added (entry : Nat) : Except Fault (HashTable V × Nat × Bool) := do
  let t := { t with m_keyCount := ← int (t.m_keyCount + 1) }
  if ← t.shouldExpand then
    match ← t.expand T (some entry) with
    | (t, some entry) => return (t, entry, true)
    | (_, none) => .error .null
  else return (t, entry, true)

def add (value : V) : Except Fault (HashTable V × Nat × Bool) := do
  let t ← t.allocated T
  let p ← t.place T (T.extract value)
  if p.found then return (t, p.entry, false)
  else
    match p.deletedEntry with
    | some deletedEntry =>
      let t ← t.initializeBucket T deletedEntry
      let t := { t with m_deletedCount := t.m_deletedCount - 1 }
      let t ← t.store deletedEntry value
      t.added T deletedEntry
    | none =>
      let t ← t.store p.entry value
      t.added T p.entry

def addPassingHashCode (value : V) : Except Fault (HashTable V × Nat × Bool) := do
  let t ← t.allocated T
  let ((entry, found), _) ← t.fullLookupForWriting T (T.extract value)
  if found then return (t, entry, false)
  else if T.isDeletedBucket (← t.load entry) then
    let t ← t.initializeBucket T entry
    let t := { t with m_deletedCount := t.m_deletedCount - 1 }
    let t ← t.store entry value
    t.added T entry
  else
    let t ← t.store entry value
    t.added T entry

/-! ### Searches and removals -/

def find (key : K) : Except Fault Nat := do
  if t.m_table.isNone then return t.endPosition
  else
    match ← t.lookup T key with
    | none => return t.endPosition
    | some entry => return entry

def contains (key : K) : Except Fault Bool := do
  if t.m_table.isNone then return false
  else return (← t.lookup T key).isSome

/-- `remove(ValueType*)`. -/
def removeEntry (pos : Nat) : Except Fault (HashTable V) := do
  let t ← t.deleteBucket T pos
  let t := { t with
    m_deletedCount := ← int (t.m_deletedCount + 1)
    m_keyCount := t.m_keyCount - 1 }
  if ← t.shouldShrink T then t.shrink T
  else return t

/-- `remove(iterator)`. -/
def removeIterator (it : Nat) : Except Fault (HashTable V) :=
  if it = t.endPosition then .ok t else t.removeEntry T it

def remove (key : K) : Except Fault (HashTable V) := do
  t.removeIterator T (← t.find T key)

def clear : HashTable V :=
  match t.m_table with
  | none => t
  | some _ => { t with m_table := none, m_tableSize := 0, m_tableSizeMask := 0, m_keyCount := 0 }

/-! ### Iteration -/

/-- At most as many buckets are skipped as there are. -/
def skipEmptyBuckets : Nat → Nat → Except Fault Nat
  | 0, _ => .error .endless
  | fuel + 1, position => do
    if position = t.endPosition then return position
    else if T.isEmptyOrDeletedBucket (← t.load position) then skipEmptyBuckets fuel (position + 1)
    else return position

def begin : Except Fault Nat :=
  if t.isEmpty then .ok t.endPosition else t.skipEmptyBuckets T (t.m_tableSize + 1) 0

/-- `++it`. -/
def next (position : Nat) : Except Fault Nat :=
  t.skipEmptyBuckets T (t.m_tableSize + 1) (position + 1)

/-- `for (; it != end; ++it)`, with the values seen. -/
def visitLoop : Nat → Nat → Except Fault (List V)
  | 0, _ => .error .endless
  | fuel + 1, it => do
    if it = t.endPosition then return []
    else
      let value ← t.load it
      return value :: (← visitLoop fuel (← t.next T it))

def visit : Except Fault (List V) := do
  t.visitLoop T (t.m_tableSize + 1) (← t.begin T)

/-! ### Two tables -/

def addAll : List V → HashTable V → Except Fault (HashTable V)
  | [], t => .ok t
  | value :: rest, t => do addAll rest (← t.add T value).1

/-- `HashTable(const HashTable&)`. -/
def copy (other : HashTable V) : Except Fault (HashTable V) := do
  addAll T (← other.visit T) empty

def swap (other : HashTable V) : HashTable V × HashTable V :=
  (⟨other.m_table, other.m_tableSize, other.m_tableSizeMask, other.m_keyCount,
      other.m_deletedCount⟩,
    ⟨t.m_table, t.m_tableSize, t.m_tableSizeMask, t.m_keyCount, t.m_deletedCount⟩)

/-- `operator=`. -/
def assign (other : HashTable V) : Except Fault (HashTable V) := do
  let tmp ← copy T other
  return (t.swap tmp).1

end

end HashTable

end NetRider.Wtf.HashTables
