import NetRider.Lib.Bytes

/-!
# Argument coders

`ArgumentEncoder` appends values to a buffer, each at a multiple of its alignment;
`ArgumentDecoder` reads them back from a copy of the buffer elsewhere in memory.
The coders are indexed by the type they code, as the C++ templates are.

* A number is its bit pattern; `bool` has the patterns 0 and 1.
* A `Vector` is a list, a `HashMap` the list of its entries in iteration order. Running out
  of memory or of container capacity is not modelled.
* Sizes are natural numbers: a buffer in a 64-bit address space never makes `size_t` wrap.
-/

namespace NetRider.Ipc

open NetRider.Lib

/-! ## The types and their values -/

inductive Integer
  | uint8 | uint16 | uint32 | uint64 | int32 | int64
  deriving DecidableEq

inductive Arithmetic
  | bool
  | integer (type : Integer)
  | float
  | double
  deriving DecidableEq

def Integer.size : Integer → Nat
  | .uint8 => 1
  | .uint16 => 2
  | .uint32 => 4
  | .uint64 => 8
  | .int32 => 4
  | .int64 => 8

/-- `sizeof` and `alignof`. -/
def Arithmetic.size : Arithmetic → Nat
  | .bool => 1
  | .integer type => type.size
  | .float => 4
  | .double => 8

def Arithmetic.bound : Arithmetic → Nat
  | .bool => 2
  | type => 256 ^ type.size

inductive WTFString
  | null
  | latin1 (characters : List UInt8)
  | utf16 (characters : List UInt16)
  deriving DecidableEq

def WTFString.codeUnits : WTFString → Option (List UInt16)
  | .null => none
  | .latin1 characters => some (characters.map UInt8.toUInt16)
  | .utf16 characters => some characters

def nullLength : Nat := 2 ^ 32 - 1

def sizeofStringImpl : Nat := 32

def sizeofCStringBuffer : Nat := 16

/-- The longest string `StringImpl` allocates for characters of this size. -/
def maxStringLength (characterSize : Nat) : Nat := (2 ^ 32 - 1 - sizeofStringImpl) / characterSize

def maxCStringLength : Nat := 2 ^ 32 - 1 - sizeofCStringBuffer - 1

/-- A string without characters is an 8-bit one. -/
def WTFString.WellFormed : WTFString → Prop
  | .null => True
  | .latin1 characters => characters.length ≤ maxStringLength 1
  | .utf16 characters => characters ≠ [] ∧ characters.length ≤ maxStringLength 2

inductive KeyTy
  | integer (type : Integer)
  | string

def KeyTy.Value : KeyTy → Type
  | .integer type => Fin (Arithmetic.integer type).bound
  | .string => WTFString

/-- The equality of the key's hash: strings are compared by content. -/
def KeyTy.same : (k : KeyTy) → k.Value → k.Value → Bool
  | .integer _, a, b => decide (a.val = b.val)
  | .string, a, b => decide (WTFString.codeUnits a = WTFString.codeUnits b)

/-- Not a value the hash table keeps for empty and deleted buckets. -/
def KeyTy.isValid : (k : KeyTy) → k.Value → Bool
  | .integer type, a => decide (a.val ≠ 0 ∧ a.val ≠ (Arithmetic.integer type).bound - 1)
  | .string, a => (WTFString.codeUnits a).isSome

def KeyTy.WellFormed : (k : KeyTy) → k.Value → Prop
  | .integer _, _ => True
  | .string, s => WTFString.WellFormed s

/-- `fixedSizeVector` is `VectorArgumentCoder<true>`, for arithmetic elements. -/
inductive Ty
  | arithmetic (type : Arithmetic)
  | byteArray
  | string
  | cString
  | pair (first second : Ty)
  | fixedSizeVector (element : Arithmetic)
  | vector (element : Ty)
  | hashMap (key : KeyTy) (mapped : Ty)

def Ty.Value : Ty → Type
  | .arithmetic type => Fin type.bound
  | .byteArray => List UInt8
  | .string => WTFString
  | .cString => Option (List UInt8)
  | .pair first second => first.Value × second.Value
  | .fixedSizeVector element => List (Fin element.bound)
  | .vector element => List element.Value
  | .hashMap key mapped => List (key.Value × mapped.Value)

def Every {α : Type} (P : α → Prop) (vs : List α) : Prop := ∀ v ∈ vs, P v

/-- The values the types can have: their classes hold no longer ones, and a hash map has
distinct valid keys. -/
def Ty.WellFormed : (t : Ty) → t.Value → Prop
  | .arithmetic _, _ => True
  | .byteArray, bytes => bytes.length < 2 ^ 64
  | .string, s => WTFString.WellFormed s
  | .cString, s => ∀ characters, s = some characters → characters.length ≤ maxCStringLength
  | .pair first second, v => first.WellFormed v.1 ∧ second.WellFormed v.2
  | .fixedSizeVector _, vs => vs.length < 2 ^ 32
  | .vector element, vs => vs.length < 2 ^ 32 ∧ Every element.WellFormed vs
  | .hashMap key mapped, entries => entries.length < 2 ^ 32 ∧
      entries.Pairwise (fun a b => key.same a.1 b.1 = false) ∧
      Every (fun entry => key.isValid entry.1 = true ∧ key.WellFormed entry.1 ∧
        mapped.WellFormed entry.2) entries

/-! ## Encoding -/

def roundUpToAlignment (value alignment : Nat) : Nat :=
  (value + alignment - 1) / alignment * alignment

/-- `while (newCapacity < alignedSize + size) newCapacity *= 2`, for `fuel` rounds. -/
def doubleCapacity (needed : Nat) : Nat → Nat → Nat
  | 0, newCapacity => newCapacity
  | fuel + 1, newCapacity =>
    if newCapacity < needed then doubleCapacity needed fuel (newCapacity * 2) else newCapacity

theorem doubleCapacity_ge {needed fuel newCapacity : Nat} (enough : needed ≤ newCapacity * 2 ^ fuel) :
    needed ≤ doubleCapacity needed fuel newCapacity := by
  induction fuel generalizing newCapacity with
  | zero => simpa [doubleCapacity] using enough
  | succ fuel ih =>
    unfold doubleCapacity
    split
    · refine ih ?_
      rw [Nat.mul_assoc, ← pow_succ']
      exact enough
    · omega

/-- `buffer` is the part in use of a block of `capacity` bytes. -/
structure ArgumentEncoder where
  buffer : List UInt8
  capacity : Nat
  within : buffer.length ≤ capacity
  positive : 0 < capacity

namespace ArgumentEncoder

/-- The inline buffer. -/
def empty : ArgumentEncoder := ⟨[], 512, by decide, by decide⟩

def newCapacity (e : ArgumentEncoder) (needed : Nat) : Nat :=
  if needed > e.capacity then
    doubleCapacity needed needed (roundUpToAlignment (e.capacity * 2) 4096)
  else e.capacity

theorem newCapacity_ge (e : ArgumentEncoder) (needed : Nat) :
    needed ≤ e.newCapacity needed ∧ 0 < e.newCapacity needed := by
  have positive := e.positive
  unfold newCapacity
  split
  · have large : 1 ≤ roundUpToAlignment (e.capacity * 2) 4096 := by
      unfold roundUpToAlignment
      omega
    have enough : needed ≤ roundUpToAlignment (e.capacity * 2) 4096 * 2 ^ needed :=
      Nat.lt_two_pow_self.le.trans (Nat.le_mul_of_pos_left _ large)
    have := doubleCapacity_ge enough
    omega
  · omega

variable (fresh : Nat → Nat → UInt8)

/-- `grow`, and the copy of the data to the place it returns. The bytes skipped for the
alignment are what a fresh block of that capacity has there. -/
def encodeFixedLengthData (e : ArgumentEncoder) (data : List UInt8) (alignment : Nat) :
    ArgumentEncoder :=
  let alignedSize := roundUpToAlignment e.buffer.length alignment
  let capacity := e.newCapacity (e.buffer.length + (alignedSize - e.buffer.length) + data.length)
  { buffer := e.buffer ++ ((List.range (alignedSize - e.buffer.length)).map
      (fun i => fresh capacity (e.buffer.length + i)) ++ data)
    capacity := capacity
    within := by
      have := (e.newCapacity_ge
        (e.buffer.length + (alignedSize - e.buffer.length) + data.length)).1
      simp only [List.length_append, List.length_map, List.length_range]
      omega
    positive := (e.newCapacity_ge _).2 }

/-- The overloads of `encode` for arithmetic types. -/
def encodeArithmetic (type : Arithmetic) (n : Nat) (e : ArgumentEncoder) : ArgumentEncoder :=
  e.encodeFixedLengthData fresh (toLe type.size n) type.size

def encodeVariableLengthByteArray (data : List UInt8) (e : ArgumentEncoder) : ArgumentEncoder :=
  (e.encodeArithmetic fresh (.integer .uint64) data.length).encodeFixedLengthData fresh data 1

def encodeString (s : WTFString) (e : ArgumentEncoder) : ArgumentEncoder :=
  match s with
  | .null => e.encodeArithmetic fresh (.integer .uint32) nullLength
  | .latin1 characters =>
    ((e.encodeArithmetic fresh (.integer .uint32) characters.length).encodeArithmetic fresh .bool
      1).encodeFixedLengthData fresh characters 1
  | .utf16 characters =>
    ((e.encodeArithmetic fresh (.integer .uint32) characters.length).encodeArithmetic fresh .bool
      0).encodeFixedLengthData fresh (characters.flatMap fun c => toLe 2 c.toNat) 2

/-- The length is a `size_t` that goes through a `uint32_t`. -/
def encodeCString (s : Option (List UInt8)) (e : ArgumentEncoder) : ArgumentEncoder :=
  match s with
  | none => e.encodeArithmetic fresh (.integer .uint32) nullLength
  | some characters =>
    let length := characters.length % 2 ^ 32
    (e.encodeArithmetic fresh (.integer .uint32) length).encodeFixedLengthData fresh
      (characters.take length) 1

def encodeKey : (k : KeyTy) → k.Value → ArgumentEncoder → ArgumentEncoder
  | .integer type, v, e => e.encodeArithmetic fresh (.integer type) v.val
  | .string, v, e => e.encodeString fresh v

def encode : (t : Ty) → t.Value → ArgumentEncoder → ArgumentEncoder
  | .arithmetic type, v, e => e.encodeArithmetic fresh type v.val
  | .byteArray, v, e => e.encodeVariableLengthByteArray fresh v
  | .string, v, e => e.encodeString fresh v
  | .cString, v, e => e.encodeCString fresh v
  | .pair first second, v, e => encode second v.2 (encode first v.1 e)
  | .fixedSizeVector element, vs, e =>
    (e.encodeArithmetic fresh (.integer .uint64) vs.length).encodeFixedLengthData fresh
      (vs.flatMap fun v => toLe element.size v.val) element.size
  | .vector element, vs, e =>
    vs.foldl (fun e v => encode element v e) (e.encodeArithmetic fresh (.integer .uint64) vs.length)
  | .hashMap key mapped, entries, e =>
    entries.foldl (fun e entry => encode mapped entry.2 (e.encodeKey fresh key entry.1))
      (e.encodeArithmetic fresh (.integer .uint64) entries.length)

end ArgumentEncoder

/-! ## Decoding -/

/-- A copy of the buffer in memory at `base`. -/
structure ArgumentDecoder where
  base : Nat
  data : List UInt8
  bufferPos : Nat
  aligned : 8 ∣ base
  within : base + data.length + 8 ≤ 2 ^ 64

inductive Failure
  | returnsFalse
  | crashes
  deriving DecidableEq

abbrev Decode (α : Type) : Type := ExceptT Failure (StateM ArgumentDecoder) α

namespace ArgumentDecoder

def ofBuffer (base : Nat) (buffer : List UInt8) (aligned : 8 ∣ base)
    (within : base + buffer.length + 8 ≤ 2 ^ 64) : ArgumentDecoder :=
  ⟨base, buffer, base, aligned, within⟩

def bufferEnd (d : ArgumentDecoder) : Nat := d.base + d.data.length

def isInvalid (d : ArgumentDecoder) : Prop := d.bufferPos > d.bufferEnd

def markInvalid (d : ArgumentDecoder) : ArgumentDecoder := { d with bufferPos := d.bufferEnd + 1 }

/-- The decoder's rounding, of a pointer and by a mask. -/
def roundUpPointer (ptr alignment : Nat) : Nat :=
  let alignmentMask := alignment - 1
  (ptr + alignmentMask) % 2 ^ 64 &&& (2 ^ 64 - 1 - alignmentMask)

def alignedBufferIsLargeEnoughToContain (alignedPosition bufferEnd size : Nat) : Bool :=
  decide (alignedPosition ≤ bufferEnd) && decide (size ≤ bufferEnd - alignedPosition)

def alignBufferPosition (alignment size : Nat) : Decode Unit := fun d =>
  let alignedPosition := roundUpPointer d.bufferPos alignment
  if alignedBufferIsLargeEnoughToContain alignedPosition d.bufferEnd size then
    (.ok (), { d with bufferPos := alignedPosition })
  else (.error .returnsFalse, d.markInvalid)

/-- `bufferIsLargeEnoughToContain<T>(numElements)`, or `markInvalid()` and `return false`. -/
def checkBufferIsLargeEnough (size numElements : Nat) : Decode Unit := fun d =>
  if numElements ≤ (2 ^ 64 - 1) / size ∧ alignedBufferIsLargeEnoughToContain
      (roundUpPointer d.bufferPos size) d.bufferEnd (numElements * size) = true then
    (.ok (), d)
  else (.error .returnsFalse, d.markInvalid)

/-- The next bytes, copied out of the buffer. -/
def takeBytes (size : Nat) : Decode (List UInt8) := fun d =>
  (.ok ((d.data.drop (d.bufferPos - d.base)).take size), { d with bufferPos := d.bufferPos + size })

def decodeFixedLengthData (size alignment : Nat) : Decode (List UInt8) := do
  alignBufferPosition alignment size
  takeBytes size

/-- The value with these bytes. -/
def readValue (type : Arithmetic) (bytes : List UInt8) : Fin type.bound :=
  match type with
  | .bool => if ofLe bytes = 0 then ⟨0, by decide⟩ else ⟨1, by decide⟩
  | .integer t => ⟨ofLe bytes % 256 ^ t.size, Nat.mod_lt _ (Nat.pow_pos (by decide))⟩
  | .float => ⟨ofLe bytes % 256 ^ 4, Nat.mod_lt _ (Nat.pow_pos (by decide))⟩
  | .double => ⟨ofLe bytes % 256 ^ 8, Nat.mod_lt _ (Nat.pow_pos (by decide))⟩

def decodeArithmetic (type : Arithmetic) : Decode (Fin type.bound) := do
  let bytes ← decodeFixedLengthData type.size type.size
  pure (readValue type bytes)

def decodeVariableLengthByteArray : Decode (List UInt8) := do
  let size ← decodeArithmetic (.integer .uint64)
  alignBufferPosition 1 size.val
  takeBytes size.val

/-- `count` pieces of `size` bytes. -/
def pieces (size : Nat) : Nat → List UInt8 → List (List UInt8)
  | 0, _ => []
  | count + 1, bytes => bytes.take size :: pieces size count (bytes.drop size)

def crashUnless (condition : Bool) : Decode Unit :=
  if condition then pure () else throw .crashes

/-- `StringImpl` has one string without characters. -/
def decodeStringText (is8Bit : Bool) (length : Nat) : Decode WTFString := do
  let characterSize := if is8Bit then 1 else 2
  checkBufferIsLargeEnough characterSize length
  crashUnless (length ≤ maxStringLength characterSize)
  let bytes ← decodeFixedLengthData (length * characterSize) characterSize
  if is8Bit then pure (.latin1 bytes)
  else if length = 0 then pure (.latin1 [])
  else pure (.utf16 ((pieces 2 length bytes).map fun piece => UInt16.ofNat (ofLe piece)))

/-- The rest of the string coder, once the length is read. -/
def decodeStringRest (length : Nat) : Decode WTFString :=
  if length = nullLength then pure .null
  else do
    let is8Bit ← decodeArithmetic .bool
    decodeStringText (is8Bit.val != 0) length

def decodeString : Decode WTFString := do
  let length ← decodeArithmetic (.integer .uint32)
  decodeStringRest length.val

def decodeCStringRest (length : Nat) : Decode (Option (List UInt8)) :=
  if length = nullLength then pure none
  else do
    checkBufferIsLargeEnough 1 length
    crashUnless (length ≤ maxCStringLength)
    let bytes ← decodeFixedLengthData length 1
    pure (some bytes)

def decodeCString : Decode (Option (List UInt8)) := do
  let length ← decodeArithmetic (.integer .uint32)
  decodeCStringRest length.val

def decodeKey : (k : KeyTy) → Decode k.Value
  | .integer type => decodeArithmetic (.integer type)
  | .string => decodeString

/-- The elements of `VectorArgumentCoder<true>`. The code ignores what `decodeFixedLengthData`
returns, which is never false after the check. -/
def decodeFixedSizeElements (element : Arithmetic) (size : Nat) : Decode (List (Fin element.bound)) :=
  do
    checkBufferIsLargeEnough element.size size
    let bytes ← decodeFixedLengthData (size * element.size) element.size
    pure ((pieces element.size size bytes).map (readValue element))

/-- The loop that decodes and appends `size` elements. -/
def decodeElements {α : Type} (element : Decode α) : Nat → Decode (List α)
  | 0 => pure []
  | size + 1 => do
    let v ← element
    let vs ← decodeElements element size
    pure (v :: vs)

/-- `tempHashMap.add(key, value)`, or `markInvalid()` and `return false`. -/
def addEntry {k : KeyTy} {α : Type} (hashMap : List (k.Value × α)) (entry : k.Value × α) :
    Decode (List (k.Value × α)) := fun d =>
  if hashMap.any fun other => k.same other.1 entry.1 then (.error .returnsFalse, d.markInvalid)
  else (.ok (hashMap ++ [entry]), d)

def decodeEntries {k : KeyTy} {α : Type} (mapped : Decode α) :
    Nat → List (k.Value × α) → Decode (List (k.Value × α))
  | 0, hashMap => pure hashMap
  | size + 1, hashMap => do
    let key ← decodeKey k
    let value ← mapped
    let hashMap ← addEntry hashMap (key, value)
    decodeEntries mapped size hashMap

def decode : (t : Ty) → Decode t.Value
  | .arithmetic type => decodeArithmetic type
  | .byteArray => decodeVariableLengthByteArray
  | .string => decodeString
  | .cString => decodeCString
  | .pair first second => do
    let v ← decode first
    let w ← decode second
    pure (v, w)
  | .fixedSizeVector element => do
    let size ← decodeArithmetic (.integer .uint64)
    decodeFixedSizeElements element size.val
  | .vector element => do
    let size ← decodeArithmetic (.integer .uint64)
    decodeElements (decode element) size.val
  | .hashMap _ mapped => do
    let size ← decodeArithmetic (.integer .uint64)
    decodeEntries (decode mapped) size.val []

end ArgumentDecoder

end NetRider.Ipc
