import NetRider.Lib.Unicode
import NetRider.Url.TextCodecUTF8

/-!
# Incremental UTF-8

`TextCodecUTF8::decode` with its buffers. The first pass writes into a buffer of bytes; the second
one, into a buffer of UTF-16 units, goes on from where bytes are not enough. An access outside a
buffer, the partial sequence or the source is a fault, and so is a loop that goes on.
-/

namespace NetRider.Text

open Url (isASCII nonASCIISequenceLength decodeNonASCIISequence)

inductive Fault
  | outsideBuffer
  | outsidePartialSequence
  | outsideSource
  | endless
  deriving DecidableEq, Repr

def replacementCharacter : UInt16 := 0xFFFD

/-- `U8_MAX_LENGTH`, the size of `m_partialSequence`. -/
def maxLength : Nat := 4

/-- Both buffers hold units here; those in the first one are bytes. `source` is what is left up to
`end`, and `partialSequence` the first `m_partialSequenceSize` bytes of the array. -/
structure State where
  text : List UInt16
  source : List UInt8
  partialSequence : List UInt8
  sawError : Bool
  deriving DecidableEq, Repr

/-- How a pass ends. -/
inductive Outcome
  | finished (s : State)
  | upConvert (s : State)
  deriving DecidableEq, Repr

/-- How a turn of a loop ends. -/
inductive Turn
  | next (s : State)
  | ended (outcome : Outcome)
  deriving DecidableEq, Repr

/-! ## Memory -/

def write (capacity : Nat) (text units : List UInt16) : Except Fault (List UInt16) :=
  if text.length + units.length ≤ capacity then .ok (text ++ units) else .error .outsideBuffer

def readSource (source : List UInt8) (count : Nat) : Except Fault (List UInt8) :=
  if count ≤ source.length then .ok (source.take count) else .error .outsideSource

/-- `memcpy` to the end of the partial sequence. -/
def store (partialSequence source : List UInt8) (count : Nat) : Except Fault (List UInt8) := do
  let bytes ← readSource source count
  if partialSequence.length + count ≤ maxLength then return partialSequence ++ bytes
  else throw .outsidePartialSequence

/-- `sizeof(MachineWord)`, and the address of `end`. -/
structure Memory where
  wide : Bool
  endAddress : Nat

def Memory.wordSize (memory : Memory) : Nat := if memory.wide then 8 else 4

def Memory.isAlignedToMachineWord (memory : Memory) (source : List UInt8) : Bool :=
  (memory.endAddress - source.length) % memory.wordSize = 0

/-- `source < alignedEnd`. -/
def Memory.isBeforeAlignedEnd (memory : Memory) (source : List UInt8) : Bool :=
  memory.endAddress - source.length < memory.endAddress / memory.wordSize * memory.wordSize

/-! ## ASCII -/

variable (memory : Memory) (flush stopOnError : Bool) (capacity : Nat)

/-- The loop over machine words. -/
def copyASCIIMachineWords : Nat → List UInt16 → List UInt8 →
    Except Fault (List UInt16 × List UInt8)
  | 0, _, _ => .error .endless
  | fuel + 1, text, source =>
    if memory.isBeforeAlignedEnd source then do
      let chunk ← readSource source memory.wordSize
      if chunk.all isASCII then do
        let text ← write capacity text (chunk.map UInt8.toUInt16)
        copyASCIIMachineWords fuel text (source.drop memory.wordSize)
      else return (text, source)
    else return (text, source)

/-- `*destination++ = *source++`. -/
def copyByte (text : List UInt16) : List UInt8 → Except Fault (List UInt16 × List UInt8)
  | [] => .error .outsideSource
  | byte :: rest => do
    let text ← write capacity text [byte.toUInt16]
    return (text, rest)

/-- Both ways out of the fast path lead back to the condition of the loop. -/
def copyASCII (text : List UInt16) (source : List UInt8) :
    Except Fault (List UInt16 × List UInt8) :=
  if memory.isAlignedToMachineWord source then do
    let (text, source) ← copyASCIIMachineWords memory capacity (source.length + 1) text source
    match source with
    | [] => return (text, source)
    | byte :: _ =>
      if isASCII byte then copyByte capacity text source else return (text, source)
  else copyByte capacity text source

def appendCharacter (character : Nat) : List UInt16 :=
  if character < 0x10000 then [UInt16.ofNat character]
  else
    [UInt16.ofNat (0xD800 + (character - 0x10000) / 0x400),
      UInt16.ofNat (0xDC00 + (character - 0x10000) % 0x400)]

/-! ## Sequences -/

/-- What a pass does with a sequence of `count` bytes; `none` is `nonCharacter`. -/
abbrev Take := Nat → Option Nat → State → Except Fault Turn

/-- In the source, in the first pass. -/
def takeLatin1 : Take
  | _, none, s =>
    if stopOnError then return .ended (.finished { s with sawError := true })
    else return .ended (.upConvert { s with sawError := true })
  | count, some character, s =>
    if character > 0xFF then return .ended (.upConvert s)
    else do
      let text ← write capacity s.text [UInt16.ofNat character]
      return .next { s with text := text, source := s.source.drop count }

/-- In the source, in the second pass. -/
def takeUTF16 : Take
  | _, none, s =>
    if stopOnError then return .ended (.finished { s with sawError := true })
    else do
      let text ← write capacity s.text [replacementCharacter]
      return .next { s with text := text, source := s.source.drop 1, sawError := true }
  | count, some character, s => do
    let text ← write capacity s.text (appendCharacter character)
    return .next { s with text := text, source := s.source.drop count }

/-- In the partial sequence, in the first pass. -/
def takePartialLatin1 : Take
  | _, none, s => return .ended (.upConvert s)
  | count, some character, s =>
    if character > 0xFF then return .ended (.upConvert s)
    else do
      let text ← write capacity s.text [UInt16.ofNat character]
      return .next { s with
        text := text
        partialSequence := s.partialSequence.take (s.partialSequence.length - count) }

/-- In the partial sequence, in the second pass: `handleError`, or the character. The size is
reduced but the bytes behind the character are not moved to the front. -/
def takePartialUTF16 : Take
  | _, none, s =>
    if stopOnError then return .ended (.finished { s with sawError := true })
    else do
      let text ← write capacity s.text [replacementCharacter]
      return .next { s with
        text := text, partialSequence := s.partialSequence.tail, sawError := true }
  | count, some character, s => do
    let text ← write capacity s.text (appendCharacter character)
    return .next { s with
      text := text
      partialSequence := s.partialSequence.take (s.partialSequence.length - count) }

/-! ## Loops -/

/-- One turn of the loop of `handlePartialSequence`. -/
def partialTurn (take : Take) (byte : UInt8) (rest : List UInt8) (s : State) :
    Except Fault Turn :=
  let count := nonASCIISequenceLength byte
  let size := s.partialSequence.length
  if isASCII byte then do
    let text ← write capacity s.text [byte.toUInt16]
    return .next { s with text := text, partialSequence := rest }
  else if count = 0 then take count none s
  else if count > size then
    if count - size > s.source.length then
      if !flush then do
        let sequence ← store s.partialSequence s.source s.source.length
        return .ended (.finished { s with partialSequence := sequence })
      else take count none s
    else do
      let sequence ← store s.partialSequence s.source (count - size)
      take count (decodeNonASCIISequence sequence)
        { s with source := s.source.drop (count - size), partialSequence := sequence }
  else take count (decodeNonASCIISequence (s.partialSequence.take count)) s

def handlePartialSequence (take : Take) : Nat → State → Except Fault Outcome
  | 0, _ => .error .endless
  | fuel + 1, s =>
    match s.partialSequence with
    | [] => return .finished s
    | byte :: rest => do
      match ← partialTurn flush capacity take byte rest s with
      | .next s => handlePartialSequence take fuel s
      | .ended outcome => return outcome

/-- One turn of the loop over the source. -/
def sourceTurn (take : Take) (byte : UInt8) (s : State) : Except Fault Turn :=
  let count := nonASCIISequenceLength byte
  if isASCII byte then do
    let (text, source) ← copyASCII memory capacity s.text s.source
    return .next { s with text := text, source := source }
  else if count = 0 then take count none s
  else if count > s.source.length then do
    let sequence ← store [] s.source s.source.length
    return .ended (.finished { s with source := [], partialSequence := sequence })
  else do
    let sequence ← readSource s.source count
    take count (decodeNonASCIISequence sequence) s

def decodeSource (take : Take) : Nat → State → Except Fault Outcome
  | 0, _ => .error .endless
  | fuel + 1, s =>
    match s.source with
    | [] => return .finished s
    | byte :: _ => do
      match ← sourceTurn memory capacity take byte s with
      | .next s => decodeSource take fuel s
      | .ended outcome => return outcome

def handleCarried (takePartial : Take) (s : State) : Except Fault Outcome :=
  if s.partialSequence = [] then .ok (.finished s)
  else
    handlePartialSequence flush capacity takePartial
      (s.partialSequence.length + s.source.length + 1) s

/-- One pass: partial sequence and source, and what is left at the end again if it is flushed. On
the way to the second pass the first one forgets what it has written for the partial sequence. -/
def pass (takePartial take : Take) : Nat → State → Except Fault Outcome
  | 0, _ => .error .endless
  | fuel + 1, s => do
    match ← handleCarried flush capacity takePartial s with
    | .upConvert s' => return .upConvert { s' with text := s.text }
    | .finished s =>
      if s.partialSequence ≠ [] then return .finished s
      else
        match ← decodeSource memory capacity take (s.source.length + 1) s with
        | .upConvert s => return .upConvert s
        | .finished s =>
          if flush ∧ s.partialSequence ≠ [] then pass takePartial take fuel s
          else return .finished s

/-! ## The codec -/

/-- The length of a `StringBuffer` is `unsigned`. -/
def bufferLength (partialSequence : List UInt8) (length : Nat) : Nat :=
  (partialSequence.length + length) % 2 ^ 32

/-- The text, and what the codec and the caller's variable keep. -/
structure Decoded where
  text : List UInt16
  partialSequence : List UInt8
  sawError : Bool
  deriving DecidableEq, Repr

def firstPass (capacity : Nat) (s : State) : Except Fault Outcome :=
  pass memory flush capacity (takePartialLatin1 capacity) (takeLatin1 stopOnError capacity) 2 s

def secondPass (capacity : Nat) (s : State) : Except Fault Outcome :=
  pass memory flush capacity (takePartialUTF16 stopOnError capacity)
    (takeUTF16 stopOnError capacity) 2 s

def decode (wide : Bool) (address : Nat) (flush stopOnError : Bool)
    (partialSequence bytes : List UInt8) (sawError : Bool) : Except Fault Decoded := do
  let memory := ⟨wide, address + bytes.length⟩
  let capacity := bufferLength partialSequence bytes.length
  match ← firstPass memory flush stopOnError capacity ⟨[], bytes, partialSequence, sawError⟩ with
  | .finished s => return ⟨s.text, s.partialSequence, s.sawError⟩
  | .upConvert s =>
    let capacity := bufferLength s.partialSequence bytes.length
    let text ← write capacity [] s.text
    match ← secondPass memory flush stopOnError capacity { s with text := text } with
    | .finished s | .upConvert s => return ⟨s.text, s.partialSequence, s.sawError⟩

example : decode true 0 false false [] [0xF1] false = .ok ⟨[], [0xF1], false⟩ := by decide

/-- The `A` is lost, and the first byte of the character in front of it comes back. -/
example : decode true 0 true false [0xF1] [0xC3, 0xA9, 0x41] false =
    .ok ⟨[0xFFFD, 0xE9, 0xFFFD], [], true⟩ := by decide

end NetRider.Text
