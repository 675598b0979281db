import Mathlib.Algebra.Group.Nat.Defs
import NetRider.Lib.Slots

/-!
# Deque

A circular buffer that grows by a quarter. The elements lie between `m_start` and `m_end`, around
the end of the buffer if `m_end` is below `m_start`, and one slot always stays empty. The slots are
those of `Storage`: an index beyond the capacity, an object used where there is none or made where
there is one is a fault.
-/

namespace NetRider.Wtf.Deques

open NetRider.Lib.Slots

/-! ## VectorBuffer -/

/-- `fastMallocGoodSize` and `sizeof(T)`. -/
structure Allocator where
  fastMallocGoodSize : Nat → Nat
  sizeOf : Nat

/-- What an allocator makes of a size: one that is large enough, and not larger for less. -/
structure Allocator.Sound (A : Allocator) : Prop where
  enough : ∀ n, n ≤ A.fastMallocGoodSize n
  monotone : ∀ {m n}, m ≤ n → A.fastMallocGoodSize m ≤ A.fastMallocGoodSize n
  settled : ∀ n, A.fastMallocGoodSize (A.fastMallocGoodSize n) = A.fastMallocGoodSize n
  bounded : ∀ {n}, n < 2 ^ 32 → A.fastMallocGoodSize n < 2 ^ 32
  positive : 0 < A.sizeOf

variable {α : Type} (A : Allocator)

/-- `m_capacity` is unsigned. -/
def allocateBuffer (newCapacity : Nat) : Except Fault (Storage α) :=
  if (2 ^ 32 - 1) / A.sizeOf < newCapacity then .error .exhausted
  else
    let sizeToAllocate := A.fastMallocGoodSize (newCapacity * A.sizeOf)
    .ok (Storage.fresh (sizeToAllocate / A.sizeOf % 2 ^ 32))

def vectorBuffer (capacity : Nat) : Except Fault (Storage α) :=
  if capacity ≠ 0 then allocateBuffer A capacity else .ok (Storage.fresh 0)

/-- The number of elements between two pointers. -/
def distance (first last : Nat) : Except Fault Nat :=
  if first ≤ last then .ok (last - first) else .error .outside

/-! ## Deque -/

structure Deque (α : Type) where
  m_start : Nat
  m_end : Nat
  m_buffer : Storage α

namespace Deque

def empty : Deque α := ⟨0, 0, Storage.fresh 0⟩

variable (d other : Deque α)

def capacity : Nat := d.m_buffer.capacity

def size : Nat :=
  if d.m_start ≤ d.m_end then d.m_end - d.m_start else d.m_end + d.capacity - d.m_start

def isEmpty : Bool := d.m_start == d.m_end

/-- The copy constructor. -/
def copy : Except Fault (Deque α) := do
  let buffer ← vectorBuffer A other.capacity
  if other.m_start ≤ other.m_end then
    let n ← distance other.m_start other.m_end
    let buffer ← Storage.copyRange other.m_buffer buffer other.m_start other.m_start n
    pure ⟨other.m_start, other.m_end, buffer⟩
  else
    let n ← distance 0 other.m_end
    let buffer ← Storage.copyRange other.m_buffer buffer 0 0 n
    let n ← distance other.m_start buffer.capacity
    let buffer ← Storage.copyRange other.m_buffer buffer other.m_start other.m_start n
    pure ⟨other.m_start, other.m_end, buffer⟩

def destroyAll : Except Fault (Storage α) :=
  if d.m_start ≤ d.m_end then do
    let n ← distance d.m_start d.m_end
    d.m_buffer.destructRange d.m_start n
  else do
    let n ← distance 0 d.m_end
    let buffer ← d.m_buffer.destructRange 0 n
    let n ← distance d.m_start d.capacity
    buffer.destructRange d.m_start n

/-- The two deques behind `swap`. -/
def swap : Deque α × Deque α := (other, d)

/-- `operator=`: the copy is swapped in, and destroyed with the old elements. -/
def assign : Except Fault (Deque α) := do
  let copied ← copy A other
  let (d', old) := d.swap copied
  let _ ← old.destroyAll
  pure d'

def clear : Except Fault (Deque α) := do
  let _ ← d.destroyAll
  pure empty

def expandCapacity : Except Fault (Deque α) := do
  let oldCapacity := d.capacity
  let oldBuffer := d.m_buffer
  let buffer ← allocateBuffer A (max 16 (oldCapacity + oldCapacity / 4 + 1))
  if d.m_start ≤ d.m_end then
    let n ← distance d.m_start d.m_end
    let (_, buffer) ← Storage.moveRange oldBuffer buffer d.m_start d.m_start n
    pure ⟨d.m_start, d.m_end, buffer⟩
  else
    let n ← distance 0 d.m_end
    let (oldBuffer, buffer) ← Storage.moveRange oldBuffer buffer 0 0 n
    let newStart := buffer.capacity - (oldCapacity - d.m_start)
    let n ← distance d.m_start oldCapacity
    let (_, buffer) ← Storage.moveRange oldBuffer buffer d.m_start newStart n
    pure ⟨newStart, d.m_end, buffer⟩

def expandCapacityIfNeeded : Except Fault (Deque α) :=
  if d.m_start ≠ 0 then
    if d.m_end + 1 ≠ d.m_start then .ok d else d.expandCapacity A
  else if d.m_end ≠ 0 then
    if d.m_end ≠ d.capacity - 1 then .ok d else d.expandCapacity A
  else if d.capacity ≠ 0 then .ok d
  else d.expandCapacity A

/-- The index behind `index`, around the end of the buffer. -/
def next (index : Nat) : Nat := if index = d.capacity - 1 then 0 else index + 1

/-- The index before `index`. -/
def previous (index : Nat) : Nat := if index = 0 then d.capacity - 1 else index - 1

def append (value : α) : Except Fault (Deque α) := do
  let d ← d.expandCapacityIfNeeded A
  let buffer ← d.m_buffer.construct d.m_end value
  pure { d with m_buffer := buffer, m_end := d.next d.m_end }

def prepend (value : α) : Except Fault (Deque α) := do
  let d ← d.expandCapacityIfNeeded A
  let start := d.previous d.m_start
  let buffer ← d.m_buffer.construct start value
  pure { d with m_buffer := buffer, m_start := start }

def removeFirst : Except Fault (Deque α) := do
  let buffer ← d.m_buffer.destroy d.m_start
  pure { d with m_buffer := buffer, m_start := d.next d.m_start }

def removeLast : Except Fault (Deque α) := do
  let last := d.previous d.m_end
  let buffer ← d.m_buffer.destroy last
  pure { d with m_buffer := buffer, m_end := last }

def first : Except Fault α := d.m_buffer.load d.m_start

def last : Except Fault α := d.m_buffer.load (d.previous d.m_end)

def takeFirst : Except Fault (α × Deque α) := do
  let oldFirst ← d.first
  let d ← d.removeFirst
  pure (oldFirst, d)

def takeLast : Except Fault (α × Deque α) := do
  let oldLast ← d.last
  let d ← d.removeLast
  pure (oldLast, d)

/-- `moveOverlapping`, which looks at the order of the two ranges. -/
def moveOverlapping (m : Storage α) (first last dest : Nat) : Except Fault (Storage α) := do
  let n ← distance first last
  if dest < first then m.moveAscending first dest n else m.moveDescending last (dest + n) n

def removeAt (position : Nat) : Except Fault (Deque α) :=
  if position = d.m_end then .ok d
  else do
    let buffer ← d.m_buffer.destroy position
    if d.m_start ≤ position then
      let buffer ← moveOverlapping buffer d.m_start position (d.m_start + 1)
      pure { d with m_buffer := buffer, m_start := (d.m_start + 1) % d.capacity }
    else
      let buffer ← moveOverlapping buffer (position + 1) d.m_end position
      pure { d with m_buffer := buffer, m_end := (d.m_end + d.capacity - 1) % d.capacity }

/-! ## Iterators -/

/-- `k` steps forward. -/
def advance (index : Nat) : Nat → Nat
  | 0 => index
  | k + 1 => advance (d.next index) k

/-- The iterator that is `k` steps behind `begin()` is removed. -/
def remove (k : Nat) : Except Fault (Deque α) := d.removeAt (d.advance d.m_start k)

/-- The elements from `index` to `end()`, with fuel. -/
def forward (index : Nat) : Nat → Except Fault (List α)
  | 0 => if index = d.m_end then .ok [] else .error .exhausted
  | fuel + 1 =>
    if index = d.m_end then .ok []
    else do
      let value ← d.m_buffer.load index
      let rest ← forward (d.next index) fuel
      pure (value :: rest)

/-- The elements that a reverse iterator at `index` meets before `rend()`. -/
def backward (index : Nat) : Nat → Except Fault (List α)
  | 0 => if index = d.m_start then .ok [] else .error .exhausted
  | fuel + 1 =>
    if index = d.m_start then .ok []
    else do
      let value ← d.m_buffer.load (d.previous index)
      let rest ← backward (d.previous index) fuel
      pure (value :: rest)

end Deque

end NetRider.Wtf.Deques
