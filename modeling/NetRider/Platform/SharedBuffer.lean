import Mathlib
import NetRider.Lib.Segments

/-!
# SharedBuffer

Bytes in a flat vector and in segments of 4096 bytes behind it. A cell that was never written is
`none`. An access outside a block and a loop that makes no progress are faults. Platform data and
purgeable buffers are left out.
-/

namespace NetRider.Platform.SharedBuffers

open NetRider.Lib.Segments

inductive Fault
  | outside
  | endless
  | missing
deriving DecidableEq

abbrev Cell := Option UInt8

def segmentSize : Nat := 0x1000

def segmentIndex (position : Nat) : Nat := position / segmentSize

def offsetInSegment (position : Nat) : Nat := position % segmentSize

/-- The difference of two `unsigned`s. -/
def minus (a b : Nat) : Nat := (a + 2 ^ 32 - b) % 2 ^ 32

def allocateSegment : List Cell := List.replicate segmentSize none

structure SharedBuffer where
  m_size : Nat
  m_buffer : List Cell
  m_segments : List (List Cell)
deriving DecidableEq

namespace SharedBuffer

def new : SharedBuffer := ⟨0, [], []⟩

def adoptVector (vector : List Cell) : SharedBuffer := ⟨vector.length, vector, []⟩

variable (b : SharedBuffer)

/-! ## Appending -/

/-- `memcpy` into the last segment. -/
def writeLast (segments : List (List Cell)) (position : Nat) (chunk : List Cell) :
    Except Fault (List (List Cell)) :=
  match segments.getLast? with
  | none => .error .outside
  | some last =>
    if position + chunk.length ≤ last.length then
      .ok (segments.dropLast ++ [overwrite last position chunk])
    else .error .outside

/-- The loop of `append`, which has a segment to write to. -/
def copyLoop : Nat → List (List Cell) → Nat → List Cell → Except Fault (List (List Cell))
  | 0, _, _, _ => .error .endless
  | fuel + 1, segments, position, data =>
    let bytesToCopy := min data.length (segmentSize - position)
    match writeLast segments position (data.take bytesToCopy) with
    | .error fault => .error fault
    | .ok segments =>
      if data.length = bytesToCopy then .ok segments
      else copyLoop fuel (segments ++ [allocateSegment]) 0 (data.drop bytesToCopy)

def append (data : List Cell) : Except Fault SharedBuffer :=
  if data.length = 0 then .ok b
  else
    let positionInSegment := offsetInSegment (minus b.m_size b.m_buffer.length)
    let size := (b.m_size + data.length) % 2 ^ 32
    if size ≤ segmentSize then
      .ok { b with m_size := size, m_buffer := b.m_buffer ++ data }
    else
      let segments :=
        if positionInSegment = 0 then b.m_segments ++ [allocateSegment] else b.m_segments
      match copyLoop data.length segments positionInSegment data with
      | .error fault => .error fault
      | .ok segments => .ok { b with m_size := size, m_segments := segments }

/-- `SharedBuffer(const char*, unsigned)`. -/
def create (data : List Cell) : Except Fault SharedBuffer := new.append data

def clear : SharedBuffer := ⟨0, [], []⟩

/-! ## Reading -/

/-- The memory from `someData` on, and the length that is returned. -/
def getSomeData (position : Nat) : Except Fault (List Cell × Nat) :=
  if b.m_size ≤ position then .ok ([], 0)
  else
    let consecutiveSize := b.m_buffer.length
    if position < consecutiveSize then
      .ok (b.m_buffer.drop position, consecutiveSize - position)
    else
      let position := position - consecutiveSize
      let maxSegmentedSize := b.m_segments.length * segmentSize % 2 ^ 32
      let segment := segmentIndex position
      match b.m_segments[segment]? with
      | none => .ok ([], 0)
      | some memory =>
        let bytesLeft := minus b.m_size consecutiveSize
        let segmentedSize := min maxSegmentedSize bytesLeft
        let positionInSegment := offsetInSegment position
        .ok (memory.drop positionInSegment,
          if segment = b.m_segments.length - 1 then minus segmentedSize position
          else segmentSize - positionInSegment)

/-- The cells that `copyBufferAndClear` writes. -/
def copyBufferAndClear : List (List Cell) → Nat → List Cell
  | [], _ => []
  | segment :: rest, bytesToCopy =>
    segment.take (min bytesToCopy segmentSize) ++
      copyBufferAndClear rest (bytesToCopy - min bytesToCopy segmentSize)

/-- The vector is resized, and what is in the segments is copied into it. -/
def buffer : SharedBuffer :=
  let bufferSize := b.m_buffer.length
  if bufferSize < b.m_size then
    let copied := copyBufferAndClear b.m_segments (b.m_size - bufferSize)
    { b with
      m_buffer := b.m_buffer ++ copied ++
        List.replicate (b.m_size - bufferSize - copied.length) none
      m_segments := [] }
  else b

/-- The memory that `data()` points to, behind the call of `buffer()`. -/
def data : List Cell := b.buffer.m_buffer

def copy : SharedBuffer := ⟨b.m_size, b.m_buffer ++ b.m_segments.flatten, []⟩

/-- The loop of `createArrayBuffer`. An `ArrayBuffer` that is incomplete is not returned. -/
def arrayLoop : Nat → List Cell → Nat → Except Fault (Option (List Cell))
  | 0, _, _ => .error .endless
  | fuel + 1, array, position =>
    match b.getSomeData position with
    | .error fault => .error fault
    | .ok (segment, length) =>
      if length = 0 then .ok (if position = array.length then some array else none)
      else if length ≤ segment.length ∧ position + length ≤ array.length then
        arrayLoop fuel (overwrite array position (segment.take length)) (position + length)
      else .error .outside

def createArrayBuffer : Except Fault (Option (List Cell)) :=
  b.arrayLoop (b.m_size + 1) (List.replicate b.m_size none) 0

/-- The loop of `append(SharedBuffer*)`. -/
def appendLoop (other : SharedBuffer) : Nat → SharedBuffer → Nat → Except Fault SharedBuffer
  | 0, _, _ => .error .endless
  | fuel + 1, b, position =>
    match other.getSomeData position with
    | .error fault => .error fault
    | .ok (segment, length) =>
      if length = 0 then .ok b
      else if length ≤ segment.length then
        match b.append (segment.take length) with
        | .error fault => .error fault
        | .ok b => appendLoop other fuel b (position + length)
      else .error .outside

def appendBuffer (other : SharedBuffer) : Except Fault SharedBuffer :=
  appendLoop other (other.m_size + 1) b 0

end SharedBuffer

/-! ## Several buffers -/

/-- Operations that change buffers, which are numbered as they come. -/
inductive Operation
  | create (bytes : List UInt8)
  | adoptVector (bytes : List UInt8)
  | append (i : Nat) (bytes : List UInt8)
  | appendBuffer (i j : Nat)
  | copy (i : Nat)
  | data (i : Nat)
  | clear (i : Nat)

def cells (bytes : List UInt8) : List Cell := bytes.map some

def step (buffers : List SharedBuffer) : Operation → Except Fault (List SharedBuffer)
  | .create bytes => (SharedBuffer.create (cells bytes)).map fun b => buffers ++ [b]
  | .adoptVector bytes => .ok (buffers ++ [.adoptVector (cells bytes)])
  | .append i bytes =>
    match buffers[i]? with
    | none => .error .missing
    | some b => (b.append (cells bytes)).map fun b => buffers.set i b
  | .appendBuffer i j =>
    match buffers[i]?, buffers[j]? with
    | some b, some other => (b.appendBuffer other).map fun b => buffers.set i b
    | _, _ => .error .missing
  | .copy i =>
    match buffers[i]? with
    | none => .error .missing
    | some b => .ok (buffers ++ [b.copy])
  | .data i =>
    match buffers[i]? with
    | none => .error .missing
    | some b => .ok (buffers.set i b.buffer)
  | .clear i =>
    match buffers[i]? with
    | none => .error .missing
    | some _ => .ok (buffers.set i .clear)

def run : List SharedBuffer → List Operation → Except Fault (List SharedBuffer)
  | buffers, [] => .ok buffers
  | buffers, operation :: rest =>
    match step buffers operation with
    | .error fault => .error fault
    | .ok buffers => run buffers rest

/-- What the operations do to byte strings. -/
def stepStrings (strings : List (List UInt8)) : Operation → List (List UInt8)
  | .create bytes => strings ++ [bytes]
  | .adoptVector bytes => strings ++ [bytes]
  | .append i bytes => strings.set i (strings.getD i [] ++ bytes)
  | .appendBuffer i j => strings.set i (strings.getD i [] ++ strings.getD j [])
  | .copy i => strings ++ [strings.getD i []]
  | .data _ => strings
  | .clear i => strings.set i []

/-! ## What a buffer is for -/

/-- What a caller sees of a buffer that holds the bytes. -/
structure Refines (b : SharedBuffer) (bytes : List UInt8) : Prop where
  size : b.m_size = bytes.length
  data : b.data.take bytes.length = cells bytes
  some_data : ∀ p < bytes.length, ∃ memory n, b.getSomeData p = .ok (memory, n) ∧ 0 < n ∧
    p + n ≤ bytes.length ∧ memory.take n = cells ((bytes.drop p).take n)
  no_data : ∀ p, bytes.length ≤ p → b.getSomeData p = .ok ([], 0)
  array : b.createArrayBuffer = .ok (some (cells bytes))

end NetRider.Platform.SharedBuffers
