import NetRider.Wtf.IntegralTypes

/-!
# Loading a blob

A blob is a list of items, each a slice of some raw data or of a file. The loader copies bytes
without looking at them, so the model says of each byte of a buffer where it was read: in which
item, at which position of its data or file. `none` stands for undefined behaviour: a signed
overflow, a negative size, or a copy from outside of the data item.
-/

namespace NetRider.Blob

open NetRider.Wtf

/-! ## The range header -/

def positionNotSpecified : Int := -1

structure ByteRange where
  rangeOffset : Int
  rangeEnd : Int
  rangeSuffixLength : Int
  deriving DecidableEq, Repr

def ByteRange.notSpecified : ByteRange :=
  ⟨positionNotSpecified, positionNotSpecified, positionNotSpecified⟩

/-- `parseRange`; `none` where it returns false. -/
def parseRange (icu : Icu) (range : List UChar) : Option ByteRange :=
  if startsWithIgnoringCase icu range (ascii "bytes=") then
    let byteRange := range.drop 6
    match byteRange.findIdx? (· == 0x2D) with
    | none => none
    | some index =>
      if index = 0 then
        match toInt64Strict icu (stripWhiteSpace icu (byteRange.drop (index + 1))) with
        | some value => some { ByteRange.notSpecified with rangeSuffixLength := value }
        | none => some .notSpecified
      else
        match toInt64Strict icu (stripWhiteSpace icu (byteRange.take index)) with
        | none => none
        | some firstBytePos =>
          let lastBytePosStr := stripWhiteSpace icu (byteRange.drop (index + 1))
          match if lastBytePosStr = [] then some (-1) else toInt64Strict icu lastBytePosStr with
          | none => none
          | some lastBytePos =>
            if firstBytePos < 0 ∨ ¬ (lastBytePos = -1 ∨ lastBytePos ≥ firstBytePos) then none
            else some ⟨firstBytePos, lastBytePos, positionNotSpecified⟩
  else none

/-- The range of a request: an absent header is empty. `none` is answered with a range error. -/
def requestRange (icu : Icu) (header : List UChar) : Option ByteRange :=
  if header = [] then some .notSpecified else parseRange icu header

/-! ## Items -/

/-- An item, with the size of its data or file. The length of a file may be `toEndOfFile`. -/
inductive BlobDataItem
  | data (size offset length : Nat)
  | file (size offset : Nat) (length : Option Nat)
  deriving DecidableEq, Repr

namespace BlobDataItem

def offset : BlobDataItem → Nat
  | data _ offset _ => offset
  | file _ offset _ => offset

def size : BlobDataItem → Nat
  | data size _ _ => size
  | file size _ _ => size

/-- What `didGetSize` counts. -/
def itemLength : BlobDataItem → Nat
  | data _ _ length => length
  | file size _ length => length.getD size

def isData : BlobDataItem → Bool
  | data .. => true
  | file .. => false

/-- The sizes are as recorded: the slice is there, and a whole file starts at its beginning. -/
def WellFormed : BlobDataItem → Prop
  | data size offset length => offset + length ≤ size
  | file size offset (some length) => offset + length ≤ size
  | file _ offset none => offset = 0

instance (item : BlobDataItem) : Decidable item.WellFormed := by
  unfold WellFormed
  split <;> infer_instance

end BlobDataItem

/-- A byte of the blob: the item and the position in its data or file. -/
abbrev Address := Nat × Nat

/-- Some bytes of an item. -/
def bytesAt (item position count : Nat) : List Address :=
  (List.range' position count).map (item, ·)

/-- The bytes of the concatenated items, the first of which is the item `first`. -/
def blobFrom (first : Nat) : List BlobDataItem → List Address
  | [] => []
  | item :: items => bytesAt first item.offset item.itemLength ++ blobFrom (first + 1) items

def blob (items : List BlobDataItem) : List Address := blobFrom 0 items

/-- `static_cast<int>`. -/
def castInt (value : Int) : Int := value.bmod (2 ^ 32)

/-! ## The stream of a file -/

structure FileStream where
  position : Nat
  /-- `m_totalBytesToRead - m_bytesProcessed` -/
  remaining : Int
  deriving DecidableEq, Repr

def FileStream.openForRead (offset length : Int) : FileStream :=
  ⟨if offset > 0 then offset.toNat else 0, length⟩

/-- How many bytes a read asks the file for. -/
def FileStream.bytesToRead (stream : FileStream) (bufferSize : Int) : Int :=
  if stream.remaining < bufferSize then castInt stream.remaining else bufferSize

/-- The stream after a read of so many bytes. -/
def FileStream.advance (stream : FileStream) (bytesRead : Nat) : FileStream :=
  ⟨stream.position + bytesRead, stream.remaining - bytesRead⟩

/-! ## The handle -/

structure BlobResourceHandle where
  rangeOffset : Int
  rangeEnd : Int
  rangeSuffixLength : Int
  totalRemainingSize : Int
  itemLengthList : List Int
  currentItemReadSize : Int
  sizeItemCount : Nat
  readItemCount : Nat
  /-- `m_fileOpened` with the state of the stream. -/
  fileOpened : Option FileStream
  deriving DecidableEq, Repr

/-- The result of `long long` arithmetic. -/
def checked (value : Int) : Option Int :=
  if int64Min ≤ value ∧ value ≤ int64Max then some value else none

namespace BlobResourceHandle

def create (range : ByteRange) : BlobResourceHandle :=
  ⟨range.rangeOffset, range.rangeEnd, range.rangeSuffixLength, 0, [], 0, 0, 0, none⟩

/-- The loop of `seek`: the first item in the range and the offset in it. -/
def skipItems : List Int → Nat → Int → Nat × Int
  | [], readItemCount, offset => (readItemCount, offset)
  | length :: lengths, readItemCount, offset =>
    if offset ≥ length then skipItems lengths (readItemCount + 1) (offset - length)
    else (readItemCount, offset)

/-- The first part of `seek`: from the suffix length to the range. -/
def convertSuffix (h : BlobResourceHandle) : Option BlobResourceHandle :=
  if h.rangeSuffixLength ≠ positionNotSpecified then do
    let rangeOffset ← checked (h.totalRemainingSize - h.rangeSuffixLength)
    let past ← checked (rangeOffset + h.rangeSuffixLength)
    let rangeEnd ← checked (past - 1)
    some { h with rangeOffset, rangeEnd }
  else some h

/-- The last part of `seek`: not to go beyond the range. -/
def adjustSize (h : BlobResourceHandle) : Option BlobResourceHandle :=
  if h.rangeEnd ≠ positionNotSpecified then do
    let rangeSize ← checked (h.rangeEnd - h.rangeOffset + 1)
    some (if h.totalRemainingSize > rangeSize then { h with totalRemainingSize := rangeSize } else h)
  else do
    let totalRemainingSize ← checked (h.totalRemainingSize - h.rangeOffset)
    some { h with totalRemainingSize }

def seek (h : BlobResourceHandle) : Option BlobResourceHandle := do
  let h ← h.convertSuffix
  if h.rangeOffset = positionNotSpecified then some h
  else
    let (readItemCount, offset) := skipItems h.itemLengthList 0 h.rangeOffset
    { h with readItemCount, currentItemReadSize := offset }.adjustSize

/-- `getSizeForNext`, which `didGetSize` calls again for the next item. The sizes of files arrive. -/
def getSizeForNext (items : List BlobDataItem) (h : BlobResourceHandle) :
    Option BlobResourceHandle :=
  if within : h.sizeItemCount < items.length then
    let size : Int := items[h.sizeItemCount].itemLength
    match checked (h.totalRemainingSize + size) with
    | none => none
    | some totalRemainingSize =>
      getSizeForNext items { h with
        itemLengthList := h.itemLengthList ++ [size]
        totalRemainingSize
        sizeItemCount := h.sizeItemCount + 1 }
  else h.seek
termination_by items.length - h.sizeItemCount

/-- What `readFileSync` and `readFileAsync` open, when they read so many bytes. -/
def openFile (h : BlobResourceHandle) (item : BlobDataItem) (bytesToRead : Int) :
    BlobResourceHandle :=
  { h with
    fileOpened := some (.openForRead (item.offset + h.currentItemReadSize) bytesToRead)
    currentItemReadSize := 0 }

/-! ## Synchronous loads -/

/-- `doStart` before the response. -/
def startSync (items : List BlobDataItem) (range : ByteRange) : Option BlobResourceHandle :=
  items.foldlM (fun h _ => getSizeForNext items h) (create range)

/-- `readDataSync`: the bytes and the handle. -/
def readDataSync (h : BlobResourceHandle) (size offset length : Nat) (bufferLength : Nat) :
    Option (List Address × BlobResourceHandle) :=
  let remaining : Int := length - h.currentItemReadSize
  let bytesToRead := if bufferLength > remaining then remaining else bufferLength
  let bytesToRead := if bytesToRead > h.totalRemainingSize then h.totalRemainingSize else bytesToRead
  let position := offset + h.currentItemReadSize
  if 0 ≤ bytesToRead ∧ (bytesToRead = 0 ∨ (offset ≤ position ∧ position + bytesToRead ≤ offset + length ∧
      offset + length ≤ size)) then
    let bytes := bytesAt h.readItemCount position.toNat bytesToRead.toNat
    let h := { h with
      totalRemainingSize := h.totalRemainingSize - bytesToRead
      currentItemReadSize := h.currentItemReadSize + bytesToRead }
    if h.currentItemReadSize = (length : Int) then
      some (bytes, { h with readItemCount := h.readItemCount + 1, currentItemReadSize := 0 })
    else some (bytes, h)
  else none

/-- The first part of `readFileSync`. -/
def openFileSync (h : BlobResourceHandle) (item : BlobDataItem) : BlobResourceHandle :=
  match h.fileOpened with
  | some _ => h
  | none =>
    let bytesToRead := item.itemLength - h.currentItemReadSize
    h.openFile item
      (if bytesToRead > h.totalRemainingSize then h.totalRemainingSize else bytesToRead)

/-- `readFileSync`, with a file that gives all that is asked for, up to its end. -/
def readFileSync (h : BlobResourceHandle) (item : BlobDataItem) (bufferLength : Nat) :
    Option (List Address × BlobResourceHandle) :=
  let h := h.openFileSync item
  match h.fileOpened with
  | none => none
  | some stream =>
    let bytesRead := min (stream.bytesToRead bufferLength).toNat (item.size - stream.position)
    if bytesRead = 0 then
      some ([], { h with fileOpened := none, readItemCount := h.readItemCount + 1 })
    else
      some (bytesAt h.readItemCount stream.position bytesRead, { h with
        fileOpened := some (stream.advance bytesRead)
        totalRemainingSize := h.totalRemainingSize - bytesRead })

/-- One round of the loop of `readSync`. -/
def readItemSync (h : BlobResourceHandle) (item : BlobDataItem) (bufferLength : Nat) :
    Option (List Address × BlobResourceHandle) :=
  match item with
  | .data size offset length => h.readDataSync size offset length bufferLength
  | .file .. => h.readFileSync item bufferLength

/-- The loop of `readSync`, for at most so many rounds. -/
def readSync (items : List BlobDataItem) :
    (rounds : Nat) → BlobResourceHandle → (remaining : Nat) → Option (List Address)
  | 0, _, _ => none
  | rounds + 1, h, remaining =>
    if remaining = 0 ∨ h.totalRemainingSize = 0 then some []
    else
      match items[h.readItemCount]? with
      | none => some []
      | some item => do
        let (bytes, h) ← h.readItemSync item remaining
        let rest ← readSync items rounds h (remaining - bytes.length)
        some (bytes ++ rest)

end BlobResourceHandle

open BlobResourceHandle

structure SyncResponse where
  expectedContentLength : Int
  data : List Address
  deriving DecidableEq, Repr

def intMax : Int := 2147483647

/-- `loadResourceSynchronously` of a request whose header was accepted. The vector gets the expected
size; `none` also stands for the error that this is too large. Every round of the loop reads a byte
or ends an item, so it ends within these rounds. -/
def loadResourceSynchronously (items : List BlobDataItem) (range : ByteRange) :
    Option SyncResponse := do
  let h ← startSync items range
  if 0 ≤ h.totalRemainingSize ∧ h.totalRemainingSize ≤ intMax then
    let length := h.totalRemainingSize.toNat
    let data ← readSync items (length + items.length + 1) h length
    some ⟨h.totalRemainingSize, data⟩
  else none

/-! ## Asynchronous loads -/

/-- The event that ends a turn: an answer of the file thread, or none because all is read. -/
inductive Waiting
  | didOpen
  | didRead
  | nothing
  deriving DecidableEq, Repr

def bufferSize : Nat := 512 * 1024

namespace BlobResourceHandle

/-- `readDataAsync` up to `consumeData`: the bytes it hands over. -/
def readDataAsync (h : BlobResourceHandle) (size offset length : Nat) : Option (List Address) :=
  let bytesToRead : Int := length - h.currentItemReadSize
  let bytesToRead :=
    castInt (if bytesToRead > h.totalRemainingSize then h.totalRemainingSize else bytesToRead)
  let position := offset + h.currentItemReadSize
  if 0 ≤ bytesToRead ∧ (bytesToRead = 0 ∨ (offset ≤ position ∧ position + bytesToRead ≤ offset + length ∧
      offset + length ≤ size)) then
    some (bytesAt h.readItemCount position.toNat bytesToRead.toNat)
  else none

/-- `consumeData` when no file is open, up to `readAsync`. -/
def consumeItem (h : BlobResourceHandle) (bytesRead : Nat) : BlobResourceHandle :=
  { h with
    totalRemainingSize := h.totalRemainingSize - bytesRead
    readItemCount := h.readItemCount + 1 }

/-- `consumeData` when a file is open, up to `readAsync`. -/
def consumeFile (h : BlobResourceHandle) (bytesRead : Nat) : BlobResourceHandle :=
  if bytesRead = 0 then { h with fileOpened := none, readItemCount := h.readItemCount + 1 }
  else { h with totalRemainingSize := h.totalRemainingSize - bytesRead }

def readFileAsync (h : BlobResourceHandle) (item : BlobDataItem) : BlobResourceHandle × Waiting :=
  match h.fileOpened with
  | some _ => (h, .didRead)
  | none =>
    let bytesToRead := item.itemLength - h.currentItemReadSize
    (h.openFile item
      (if bytesToRead > h.totalRemainingSize then castInt h.totalRemainingSize else bytesToRead),
      .didOpen)

/-- `readAsync`: what the client gets until the next event. `readDataAsync` resets the size only when
the items behind it have been read, or their file has been opened. -/
def readAsync (items : List BlobDataItem) (h : BlobResourceHandle) :
    Option (List Address × BlobResourceHandle × Waiting) :=
  if h.totalRemainingSize = 0 then some ([], h, .nothing)
  else
    match _found : items[h.readItemCount]? with
    | none => some ([], h, .nothing)
    | some (.data size offset length) =>
      match h.readDataAsync size offset length with
      | none => none
      | some bytes =>
        (readAsync items (h.consumeItem bytes.length)).map fun (rest, h, waiting) =>
          (bytes ++ rest, { h with currentItemReadSize := 0 }, waiting)
    | some (.file size offset length) =>
      some ([], h.readFileAsync (.file size offset length))
termination_by items.length - h.readItemCount
decreasing_by
  have := (List.getElem?_eq_some_iff.mp _found).1
  simp only [consumeItem]
  omega

/-- `didRead` of an open file. A read gives at least one byte and no more than is asked for or is in
the file; `split` says how many, wherever it starts. -/
def didRead (items : List BlobDataItem) (split : Address → Nat) (h : BlobResourceHandle) :
    Option (List Address × BlobResourceHandle × Waiting) :=
  match h.fileOpened, items[h.readItemCount]? with
  | some stream, some item =>
    let limit := min (stream.bytesToRead bufferSize).toNat (item.size - stream.position)
    let bytesRead := min limit (max 1 (split (h.readItemCount, stream.position)))
    let bytes := bytesAt h.readItemCount stream.position bytesRead
    (readAsync items
      ({ h with fileOpened := some (stream.advance bytesRead) }.consumeFile bytesRead)).map
        fun (rest, h, waiting) => (bytes ++ rest, h, waiting)
  | _, _ => none

/-- Some turns of the main thread, until the handle waits for nothing. -/
def runAsync (items : List BlobDataItem) (split : Address → Nat) :
    (turns : Nat) → BlobResourceHandle → Waiting → Option (List Address)
  | _, _, .nothing => some []
  | 0, _, _ => none
  | turns + 1, h, .didOpen => do
    let (bytes, h, waiting) ← readAsync items h
    let rest ← runAsync items split turns h waiting
    some (bytes ++ rest)
  | turns + 1, h, .didRead => do
    let (bytes, h, waiting) ← didRead items split h
    let rest ← runAsync items split turns h waiting
    some (bytes ++ rest)

end BlobResourceHandle

/-- All the client gets from an asynchronous load within so many turns. -/
def loadResourceAsynchronously (items : List BlobDataItem) (range : ByteRange)
    (split : Address → Nat) (turns : Nat) : Option (List Address) := do
  let h ← getSizeForNext items (create range)
  let (bytes, h, waiting) ← readAsync items h
  let rest ← runAsync items split turns h waiting
  some (bytes ++ rest)

end NetRider.Blob
