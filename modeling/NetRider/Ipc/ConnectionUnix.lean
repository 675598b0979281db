import NetRider.Lib.Bytes

/-!
# The Unix connection

`sendOutgoingMessage` turns an encoder into one packet: a `MessageInfo`, an array of
`AttachmentInfo` and the body, inline or in shared memory, with the descriptors beside it.
`processMessage` takes one message off the front of the bytes and descriptors received.

* Structures are sent as they lie in memory on a 64-bit machine; their padding is `junk`.
* A descriptor is named by the number the receiving process gets for it.
* What the receiver sees when it maps a descriptor is a parameter, `mapped`.
-/

namespace NetRider.Ipc

open NetRider.Lib

def messageMaxSize : Nat := 4096

def attachmentMaxAmount : Nat := 255

def sizeofMessageInfo : Nat := 24

def sizeofAttachmentInfo : Nat := 24

def sizeofInt : Nat := 4

/-- The value of a `size_t` expression. -/
def sizeT (n : Nat) : Nat := n % 2 ^ 64

def subT (a b : Nat) : Nat := sizeT (a + (2 ^ 64 - b))

/-- An `int`, by its bits. -/
abbrev Fd : Type := UInt32

/-- The descriptor `-1`. -/
def noFd : Fd := 0xffffffff

inductive Attachment
  | uninitialized
  | socketType (fileDescriptor : Fd)
  | mappedMemoryType (fileDescriptor : Fd) (size : UInt64)
  deriving DecidableEq

def Attachment.fileDescriptor : Attachment → Fd
  | .uninitialized => noFd
  | .socketType fd => fd
  | .mappedMemoryType fd _ => fd

/-! ## What is on the wire -/

structure MessageInfo where
  bodySize : Nat
  attachmentCount : Nat
  isMessageBodyOutOfLine : Bool

structure AttachmentInfo where
  type : Nat
  size : Nat
  isNull : Bool

def boolByte (b : Bool) : UInt8 := if b then 1 else 0

def padding (junk : Nat → UInt8) (from_ count : Nat) : List UInt8 :=
  (List.range count).map fun i => junk (from_ + i)

def MessageInfo.encode (info : MessageInfo) (junk : Nat → UInt8) : List UInt8 :=
  toLe 8 info.bodySize ++ (toLe 8 info.attachmentCount ++
    (boolByte info.isMessageBodyOutOfLine :: padding junk 0 7))

def MessageInfo.decode (data : List UInt8) : MessageInfo where
  bodySize := ofLe (data.take 8)
  attachmentCount := ofLe ((data.drop 8).take 8)
  isMessageBodyOutOfLine := (data.drop 16).headD 0 != 0

def AttachmentInfo.encode (info : AttachmentInfo) (junk : Nat → UInt8) : List UInt8 :=
  toLe 4 info.type ++ (padding junk 0 4 ++ (toLe 8 info.size ++
    (boolByte info.isNull :: padding junk 4 7)))

def AttachmentInfo.decode (data : List UInt8) : AttachmentInfo where
  type := ofLe (data.take 4)
  size := ofLe ((data.drop 8).take 8)
  isNull := (data.drop 16).headD 0 != 0

def encodeAttachmentInfos (junk : Nat → Nat → UInt8) : List AttachmentInfo → List UInt8
  | [] => []
  | info :: infos => info.encode (junk 0) ++ encodeAttachmentInfos (fun i => junk (i + 1)) infos

def decodeAttachmentInfos : Nat → List UInt8 → List AttachmentInfo
  | 0, _ => []
  | count + 1, data =>
    AttachmentInfo.decode data :: decodeAttachmentInfos count (data.drop sizeofAttachmentInfo)

def descriptorBytes (fds : List Fd) : List UInt8 :=
  fds.flatMap fun fd => toLe sizeofInt fd.toNat

/-! ## Sending -/

/-- An encoder holds less than half the address space, and attachments that were set. -/
structure MessageEncoder where
  buffer : List UInt8
  attachments : List Attachment
  fits : buffer.length < 2 ^ 63
  typed : ∀ a ∈ attachments, a ≠ .uninitialized

/-- What the system provides to one call: the descriptor of a new shared memory object,
unless that fails, and the bytes structure padding happens to have. -/
structure Environment where
  sharedMemory : Option { fd : Fd // fd ≠ noFd }
  junk : Nat → UInt8
  junkInfos : Nat → Nat → UInt8

/-- What is handed to `sendmsg`; `sharedMemory` is the object written on the way. -/
structure Packet where
  bytes : List UInt8
  descriptors : List Fd
  sharedMemory : Option (Fd × List UInt8)

/-- `AttachmentInfo` of an attachment, as the loop over `attachments` sets it. -/
def Attachment.info : Attachment → AttachmentInfo
  | .uninitialized => ⟨0, 0, false⟩
  | .socketType fd => ⟨1, 0, fd == noFd⟩
  | .mappedMemoryType fd size => ⟨2, size.toNat, fd == noFd⟩

def sentDescriptors (attachments : List Attachment) : List Fd :=
  (attachments.map Attachment.fileDescriptor).filter (· != noFd)

def packet (env : Environment) (messageInfo : MessageInfo) (attachments : List Attachment)
    (body : List UInt8) (sharedMemory : Option (Fd × List UInt8)) : Packet where
  bytes := messageInfo.encode env.junk ++
    (encodeAttachmentInfos env.junkInfos (attachments.map Attachment.info) ++ body)
  descriptors := sentDescriptors attachments
  sharedMemory := sharedMemory

/-- `messageSizeWithBodyInline > messageMaxSize && encoder->bufferSize()`. -/
def MessageEncoder.isOutOfLine (encoder : MessageEncoder) : Bool :=
  decide (sizeT (sizeofMessageInfo + encoder.attachments.length * sizeofAttachmentInfo +
    encoder.buffer.length) > messageMaxSize) && decide (encoder.buffer.length ≠ 0)

def sendOutgoingMessage (env : Environment) (encoder : MessageEncoder) : Option Packet :=
  let attachments := encoder.attachments
  let bodySize := encoder.buffer.length
  if attachments.length > attachmentMaxAmount - 1 then none
  else if encoder.isOutOfLine then do
    let fd ← env.sharedMemory
    some (packet env ⟨bodySize, attachments.length + 1, true⟩
      (attachments ++ [.mappedMemoryType fd (UInt64.ofNat bodySize)]) []
      (some (fd, encoder.buffer)))
  else some (packet env ⟨bodySize, attachments.length, false⟩ attachments encoder.buffer none)

/-! ## Receiving -/

structure Connection where
  readBuffer : Block messageMaxSize
  readBufferSize : Nat
  fileDescriptors : Block (attachmentMaxAmount * sizeofInt)
  fileDescriptorsSize : Nat

structure MessageDecoder where
  body : List UInt8
  attachments : List Attachment

def MessageDecoder.removeAttachment (d : MessageDecoder) : Option (Attachment × MessageDecoder) :=
  match d.attachments.getLast? with
  | none => none
  | some attachment => some (attachment, { d with attachments := d.attachments.dropLast })

/-- Why `processMessage` delivers nothing: it returns false for want of bytes, it returns
false on a bad out-of-line body, or it reads outside its data. -/
inductive Stop
  | waits
  | rejects
  | faults
  deriving DecidableEq

def orFaults {α : Type} : Option α → Except Stop α
  | some a => .ok a
  | none => .error .faults

@[simp] theorem orFaults_some {α : Type} (a : α) : orFaults (some a) = .ok a := rfl

@[simp] theorem ok_bind {α β : Type} (a : α) (f : α → Except Stop β) :
    (Except.ok a >>= f) = f a := rfl

@[simp] theorem error_bind {α β : Type} (stop : Stop) (f : α → Except Stop β) :
    (Except.error stop >>= f) = .error stop := rfl

@[simp] theorem throw_eq_error {α : Type} (stop : Stop) :
    (throw stop : Except Stop α) = .error stop := rfl

@[simp] theorem pure_eq_ok {α : Type} (a : α) : (pure a : Except Stop α) = .ok a := rfl

/-- `m_fileDescriptors[i]`. -/
def Connection.descriptorAt (c : Connection) (i : Nat) : Option Fd :=
  if i < attachmentMaxAmount then
    some (UInt32.ofNat (ofLe ((c.fileDescriptors.1.drop (i * sizeofInt)).take sizeofInt)))
  else none

def isDescriptorType (type : Nat) : Bool := type == 1 || type == 2

def attachmentFileDescriptorCount (infos : List AttachmentInfo) : Nat :=
  infos.countP fun info => isDescriptorType info.type && !info.isNull

/-- The descriptor of the next attachment, and the new `fdIndex`. -/
def Connection.nextDescriptor (c : Connection) (isNull : Bool) (fdIndex : Nat) :
    Option (Fd × Nat) :=
  if isNull then some (noFd, fdIndex)
  else (c.descriptorAt fdIndex).map fun fd => (fd, fdIndex + 1)

/-- The loop over `attachmentInfo`, in its order. -/
def Connection.takeAttachments (c : Connection) :
    List AttachmentInfo → Nat → Option (List Attachment)
  | [], _ => some []
  | info :: infos, fdIndex =>
    if info.type = 2 then do
      let (fd, fdIndex) ← c.nextDescriptor info.isNull fdIndex
      let rest ← c.takeAttachments infos fdIndex
      some (.mappedMemoryType fd (UInt64.ofNat info.size) :: rest)
    else if info.type = 1 then do
      let (fd, fdIndex) ← c.nextDescriptor info.isNull fdIndex
      let rest ← c.takeAttachments infos fdIndex
      some (.socketType fd :: rest)
    else do
      let rest ← c.takeAttachments infos fdIndex
      some (.uninitialized :: rest)

/-- The mapping of the shared memory that the last `AttachmentInfo` announces. -/
def Connection.oolMessageBody (c : Connection) (mapped : Fd → Nat → Option (List UInt8))
    (infos : List AttachmentInfo) (attachmentCount : Nat) : Except Stop (List UInt8) := do
  let info ← orFaults infos[attachmentCount]?
  if info.isNull then throw .rejects
  let fd ← orFaults (c.descriptorAt (subT (attachmentFileDescriptorCount infos) 1))
  match mapped fd info.size with
  | none => throw .rejects
  | some memory => pure memory

def Connection.shiftBytes (c : Connection) (messageLength : Nat) : Option Connection :=
  if c.readBufferSize > messageLength then do
    let readBuffer ← c.readBuffer.moveToFront messageLength (c.readBufferSize - messageLength)
    some { c with
      readBuffer := readBuffer
      readBufferSize := c.readBufferSize - messageLength }
  else some { c with readBufferSize := 0 }

/-- `fileDescriptorsLength` is a number of bytes, used as an offset in `int`s and taken from
a number of `int`s. -/
def Connection.shiftDescriptors (c : Connection) (count : Nat) : Option Connection :=
  if count ≠ 0 then
    if c.fileDescriptorsSize > count then do
      let fileDescriptorsLength := sizeT (count * sizeofInt)
      let fileDescriptors ← c.fileDescriptors.moveToFront (fileDescriptorsLength * sizeofInt)
        (subT c.fileDescriptorsSize fileDescriptorsLength)
      some { c with
        fileDescriptors := fileDescriptors
        fileDescriptorsSize := subT c.fileDescriptorsSize fileDescriptorsLength }
    else some { c with fileDescriptorsSize := 0 }
  else some c

def MessageInfo.messageLength (info : MessageInfo) : Nat :=
  sizeT (sizeofMessageInfo + info.attachmentCount * sizeofAttachmentInfo +
    if info.isMessageBodyOutOfLine then 0 else info.bodySize)

/-- The message handed to `processIncomingMessage`, and the connection after the shifts
that follow; `none` where these leave the vectors. -/
def Connection.processMessage (mapped : Fd → Nat → Option (List UInt8)) (c : Connection) :
    Except Stop (MessageDecoder × Option Connection) := do
  if c.readBufferSize < sizeofMessageInfo then throw .waits
  let data := c.readBuffer.1
  let messageInfo := MessageInfo.decode data
  if c.readBufferSize < messageInfo.messageLength then throw .waits
  let infosEnd := sizeofMessageInfo + messageInfo.attachmentCount * sizeofAttachmentInfo
  if messageMaxSize < infosEnd then throw .faults
  let infos := decodeAttachmentInfos messageInfo.attachmentCount (data.drop sizeofMessageInfo)
  let attachmentCount :=
    if messageInfo.isMessageBodyOutOfLine then messageInfo.attachmentCount - 1
    else messageInfo.attachmentCount
  let attachments ← orFaults (c.takeAttachments (infos.take attachmentCount) 0)
  let messageBody ←
    if messageInfo.isMessageBodyOutOfLine then c.oolMessageBody mapped infos attachmentCount
    else pure (data.drop infosEnd)
  if messageBody.length < messageInfo.bodySize then throw .faults
  let shifted := do
    let c ← c.shiftBytes messageInfo.messageLength
    c.shiftDescriptors (attachmentFileDescriptorCount infos)
  pure (⟨messageBody.take messageInfo.bodySize, attachments.reverse⟩, shifted)

/-- One `recvmsg` of `readyReadHandler` on a `SOCK_SEQPACKET` socket: what does not fit in
the buffer is lost. -/
def Connection.receive (c : Connection) (p : Packet) : Option Connection := do
  let bytes := p.bytes.take (messageMaxSize - c.readBufferSize)
  let readBuffer ← c.readBuffer.write c.readBufferSize bytes
  let fileDescriptors ← c.fileDescriptors.write (c.fileDescriptorsSize * sizeofInt)
    (descriptorBytes p.descriptors)
  some { readBuffer := readBuffer
         readBufferSize := c.readBufferSize + bytes.length
         fileDescriptors := fileDescriptors
         fileDescriptorsSize := c.fileDescriptorsSize + p.descriptors.length }

end NetRider.Ipc
