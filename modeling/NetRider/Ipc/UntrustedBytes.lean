import Mathlib
import NetRider.Ipc.Framing

/-!
# Bytes from an untrusted peer

`processMessage` once more, with a record of what it reads on the way: nothing here is
assumed of the bytes in the read buffer, nor of the descriptors that came with them.

* `processMessageAccesses` differs from `processMessage` in the record alone.
* `reads_within_iff`: when each index and each length it uses is within its bounds.
-/

namespace NetRider.Ipc

open NetRider.Lib

/-! ## A record of what is read -/

inductive Access
  | attachmentInfo (index : Nat)
  | fileDescriptors (index : Nat)
  /-- `bodySize` bytes of a mapping whose attachment announces `mappedSize`. -/
  | outOfLineBody (bodySize mappedSize : Nat)
  deriving DecidableEq

/-- What was read, and how it ended. -/
structure Accessing (α : Type) where
  accesses : List Access
  result : Except Stop α

namespace Accessing

variable {α β : Type}

def bind (x : Accessing α) (f : α → Accessing β) : Accessing β :=
  match x.result with
  | .ok a => ⟨x.accesses ++ (f a).accesses, (f a).result⟩
  | .error stop => ⟨x.accesses, .error stop⟩

instance : Monad Accessing where
  pure a := ⟨[], .ok a⟩
  bind := bind

def reads (accesses : List Access) : Accessing Unit := ⟨accesses, .ok ()⟩

def lift (x : Except Stop α) : Accessing α := ⟨[], x⟩

@[simp] theorem pure_accesses (a : α) : (pure a : Accessing α).accesses = [] := rfl

@[simp] theorem pure_result (a : α) : (pure a : Accessing α).result = .ok a := rfl

@[simp] theorem lift_accesses (x : Except Stop α) : (lift x).accesses = [] := rfl

@[simp] theorem lift_result (x : Except Stop α) : (lift x).result = x := rfl

@[simp] theorem reads_accesses (accesses : List Access) : (reads accesses).accesses = accesses :=
  rfl

@[simp] theorem reads_result (accesses : List Access) : (reads accesses).result = .ok () := rfl

theorem bind_of_ok {x : Accessing α} {a : α} (f : α → Accessing β) (ends : x.result = .ok a) :
    (x >>= f) = ⟨x.accesses ++ (f a).accesses, (f a).result⟩ := by
  change bind x f = _
  rw [bind, ends]

theorem bind_of_error {x : Accessing α} {stop : Stop} (f : α → Accessing β)
    (ends : x.result = .error stop) : (x >>= f) = ⟨x.accesses, .error stop⟩ := by
  change bind x f = _
  rw [bind, ends]

theorem forall_bind_iff {x : Accessing α} {a : α} {P : Access → Prop} (f : α → Accessing β)
    (ends : x.result = .ok a) :
    (∀ access ∈ (x >>= f).accesses, P access) ↔
      (∀ access ∈ x.accesses, P access) ∧ ∀ access ∈ (f a).accesses, P access := by
  rw [bind_of_ok f ends, List.forall_mem_append]

/-- Without the record it is the computation in `Except`. -/
@[simp] theorem bind_result (x : Accessing α) (f : α → Accessing β) :
    (x >>= f).result = x.result >>= fun a => (f a).result := by
  cases ends : x.result with
  | ok a => rw [bind_of_ok f ends]; rfl
  | error stop => rw [bind_of_error f ends]; rfl

end Accessing

/-! ## `processMessage`, recorded -/

open Accessing

def attachmentInfoReads (attachmentCount : Nat) : List Access :=
  (List.range attachmentCount).map .attachmentInfo

def Connection.nextDescriptorAccesses (c : Connection) (isNull : Bool) (fdIndex : Nat) :
    Accessing (Fd × Nat) :=
  if isNull then pure (noFd, fdIndex)
  else do
    reads [.fileDescriptors fdIndex]
    let fd ← lift (orFaults (c.descriptorAt fdIndex))
    pure (fd, fdIndex + 1)

/-- The loop over `attachmentInfo`, from its element `i` on. -/
def Connection.takeAttachmentsAccesses (c : Connection) (i : Nat) :
    List AttachmentInfo → Nat → Accessing (List Attachment)
  | [], _ => pure []
  | info :: infos, fdIndex => do
    reads [.attachmentInfo i]
    if info.type = 2 then do
      let (fd, fdIndex) ← c.nextDescriptorAccesses info.isNull fdIndex
      let rest ← takeAttachmentsAccesses c (i + 1) infos fdIndex
      pure (.mappedMemoryType fd (UInt64.ofNat info.size) :: rest)
    else if info.type = 1 then do
      let (fd, fdIndex) ← c.nextDescriptorAccesses info.isNull fdIndex
      let rest ← takeAttachmentsAccesses c (i + 1) infos fdIndex
      pure (.socketType fd :: rest)
    else do
      let rest ← takeAttachmentsAccesses c (i + 1) infos fdIndex
      pure (.uninitialized :: rest)

def Connection.oolMessageBodyAccesses (c : Connection) (mapped : Fd → Nat → Option (List UInt8))
    (infos : List AttachmentInfo) (attachmentCount bodySize : Nat) : Accessing (List UInt8) := do
  reads [.attachmentInfo attachmentCount]
  let info ← lift (orFaults infos[attachmentCount]?)
  if info.isNull then lift (throw .rejects)
  else do
    let fdIndex := subT (attachmentFileDescriptorCount infos) 1
    reads [.fileDescriptors fdIndex]
    let fd ← lift (orFaults (c.descriptorAt fdIndex))
    match mapped fd info.size with
    | none => lift (throw .rejects)
    | some memory => do
      reads [.outOfLineBody bodySize info.size]
      pure memory

/-- The attachments announced at the front of the buffer, `attachmentInfo`. -/
def Connection.attachmentInfos (c : Connection) : List AttachmentInfo :=
  decodeAttachmentInfos (MessageInfo.decode c.readBuffer.1).attachmentCount
    (c.readBuffer.1.drop sizeofMessageInfo)

def Connection.messageBodyAccesses (c : Connection) (mapped : Fd → Nat → Option (List UInt8))
    (messageInfo : MessageInfo) (attachmentCount : Nat) : Accessing (List UInt8) :=
  if messageInfo.isMessageBodyOutOfLine then
    c.oolMessageBodyAccesses mapped c.attachmentInfos attachmentCount messageInfo.bodySize
  else pure (c.readBuffer.1.drop
    (sizeofMessageInfo + messageInfo.attachmentCount * sizeofAttachmentInfo))

/-- What follows the checks of the length. -/
def Connection.deliverAccesses (mapped : Fd → Nat → Option (List UInt8)) (c : Connection)
    (messageInfo : MessageInfo) : Accessing (MessageDecoder × Option Connection) := do
  reads (attachmentInfoReads messageInfo.attachmentCount)
  let attachmentCount :=
    if messageInfo.isMessageBodyOutOfLine then messageInfo.attachmentCount - 1
    else messageInfo.attachmentCount
  let attachments ← c.takeAttachmentsAccesses 0 (c.attachmentInfos.take attachmentCount) 0
  let messageBody ← c.messageBodyAccesses mapped messageInfo attachmentCount
  if messageBody.length < messageInfo.bodySize then lift (throw .faults)
  else
    let attachmentFileDescriptorCount := attachmentFileDescriptorCount c.attachmentInfos
    let shifted := do
      let c ← c.shiftBytes messageInfo.messageLength
      c.shiftDescriptors attachmentFileDescriptorCount
    pure (⟨messageBody.take messageInfo.bodySize, attachments.reverse⟩, shifted)

def Connection.processMessageAccesses (mapped : Fd → Nat → Option (List UInt8))
    (c : Connection) : Accessing (MessageDecoder × Option Connection) :=
  let messageInfo := MessageInfo.decode c.readBuffer.1
  let infosEnd := sizeofMessageInfo + messageInfo.attachmentCount * sizeofAttachmentInfo
  if c.readBufferSize < sizeofMessageInfo then lift (throw .waits)
  else if c.readBufferSize < messageInfo.messageLength then lift (throw .waits)
  else if messageMaxSize < infosEnd then lift (throw .faults)
  else c.deliverAccesses mapped messageInfo

/-! ## The record changes nothing -/

theorem orFaults_bind {α β : Type} (x : Option α) (f : α → Option β) :
    orFaults (x >>= f) = orFaults x >>= fun a => orFaults (f a) := by
  cases x <;> rfl

theorem nextDescriptorAccesses_result (c : Connection) (isNull : Bool) (fdIndex : Nat) :
    (c.nextDescriptorAccesses isNull fdIndex).result =
      orFaults (c.nextDescriptor isNull fdIndex) := by
  cases isNull with
  | true => rfl
  | false =>
    cases found : c.descriptorAt fdIndex <;>
      simp [Connection.nextDescriptorAccesses, Connection.nextDescriptor, found, orFaults]

theorem takeAttachmentsAccesses_result (c : Connection) (i : Nat) (infos : List AttachmentInfo)
    (fdIndex : Nat) :
    (c.takeAttachmentsAccesses i infos fdIndex).result =
      orFaults (c.takeAttachments infos fdIndex) := by
  induction infos generalizing i fdIndex with
  | nil => rfl
  | cons info infos ih =>
    simp only [Connection.takeAttachmentsAccesses, Connection.takeAttachments]
    split_ifs <;>
      simp only [bind_result, reads_result, ok_bind, nextDescriptorAccesses_result, orFaults_bind,
        ih, pure_result, orFaults_some]

theorem oolMessageBodyAccesses_result (c : Connection) (mapped : Fd → Nat → Option (List UInt8))
    (infos : List AttachmentInfo) (attachmentCount bodySize : Nat) :
    (c.oolMessageBodyAccesses mapped infos attachmentCount bodySize).result =
      c.oolMessageBody mapped infos attachmentCount := by
  simp only [Connection.oolMessageBodyAccesses, Connection.oolMessageBody, bind_result,
    reads_result, ok_bind, lift_result]
  generalize subT (attachmentFileDescriptorCount infos) 1 = fdIndex
  cases infos[attachmentCount]? with
  | none => simp [orFaults]
  | some info =>
    cases null : info.isNull with
    | true => simp [null]
    | false =>
      cases c.descriptorAt fdIndex with
      | none => simp [null, orFaults]
      | some fd => cases found : mapped fd info.size <;> simp [null, found]

theorem processMessageAccesses_result (mapped : Fd → Nat → Option (List UInt8)) (c : Connection) :
    (c.processMessageAccesses mapped).result = c.processMessage mapped := by
  simp only [Connection.processMessageAccesses, Connection.processMessage,
    Connection.deliverAccesses, Connection.messageBodyAccesses, Connection.attachmentInfos]
  generalize MessageInfo.decode c.readBuffer.1 = info
  generalize decodeAttachmentInfos info.attachmentCount _ = infos
  generalize sizeofMessageInfo + info.attachmentCount * sizeofAttachmentInfo = infosEnd
  by_cases header : c.readBufferSize < sizeofMessageInfo
  · simp [header]
  by_cases enough : c.readBufferSize < info.messageLength
  · simp [header, enough]
  by_cases beyond : messageMaxSize < infosEnd
  · simp [header, enough, beyond]
  simp only [header, enough, beyond, if_false, bind_result, reads_result, ok_bind,
    takeAttachmentsAccesses_result, pure_eq_ok]
  congr 1
  funext attachments
  cases info.isMessageBodyOutOfLine with
  | true =>
    simp only [if_true, oolMessageBodyAccesses_result]
    congr 1
    funext body
    split_ifs <;> simp
  | false =>
    simp only [Bool.false_eq_true, if_false, pure_result, ok_bind]
    split_ifs <;> simp

/-! ## Within bounds -/

/-- The length of the message in natural numbers. -/
def MessageInfo.unboundedLength (info : MessageInfo) : Nat :=
  sizeofMessageInfo + info.attachmentCount * sizeofAttachmentInfo +
    if info.isMessageBodyOutOfLine then 0 else info.bodySize

def Connection.Within (c : Connection) (attachmentCount : Nat) : Access → Prop
  | .attachmentInfo index => index < attachmentCount
  | .fileDescriptors index => index < c.fileDescriptorsSize
  | .outOfLineBody bodySize mappedSize => bodySize ≤ mappedSize

/-- `processMessage` returns false, or all it read for the message it delivers was there. -/
def Connection.ProcessesSafely (mapped : Fd → Nat → Option (List UInt8)) (c : Connection) : Prop :=
  match (c.processMessageAccesses mapped).result with
  | .error .waits => True
  | .error .rejects => True
  | .error .faults => False
  | .ok _ =>
    (MessageInfo.decode c.readBuffer.1).unboundedLength ≤ c.readBufferSize ∧
      ∀ access ∈ (c.processMessageAccesses mapped).accesses,
        c.Within (MessageInfo.decode c.readBuffer.1).attachmentCount access

/-- The last attachment is there; unless it is null it has a descriptor, and if the mapping
succeeds enough descriptors came along and the body is not longer than the mapping. -/
def Connection.OutOfLineConsistent (mapped : Fd → Nat → Option (List UInt8)) (c : Connection) :
    Prop :=
  ∃ last, c.attachmentInfos.getLast? = some last ∧ (last.isNull = false →
    attachmentFileDescriptorCount c.attachmentInfos ≠ 0 ∧
    ∀ fd memory, c.descriptorAt (attachmentFileDescriptorCount c.attachmentInfos - 1) = some fd →
      mapped fd last.size = some memory →
        attachmentFileDescriptorCount c.attachmentInfos ≤ c.fileDescriptorsSize ∧
          (MessageInfo.decode c.readBuffer.1).bodySize ≤ last.size)

/-- Where the announced length has arrived, computing it did not wrap, and the counts and
flags of the header agree with the attachments and with what came along. -/
def Connection.Consistent (mapped : Fd → Nat → Option (List UInt8)) (c : Connection) : Prop :=
  sizeofMessageInfo ≤ c.readBufferSize →
    (MessageInfo.decode c.readBuffer.1).messageLength ≤ c.readBufferSize →
      (MessageInfo.decode c.readBuffer.1).unboundedLength < 2 ^ 64 ∧
        if (MessageInfo.decode c.readBuffer.1).isMessageBodyOutOfLine then
          c.OutOfLineConsistent mapped
        else attachmentFileDescriptorCount c.attachmentInfos ≤ c.fileDescriptorsSize

@[simp] theorem decodeAttachmentInfos_length (count : Nat) (data : List UInt8) :
    (decodeAttachmentInfos count data).length = count := by
  induction count generalizing data with
  | zero => rfl
  | succ count ih => simp [decodeAttachmentInfos, ih]

theorem attachmentInfos_length (c : Connection) :
    c.attachmentInfos.length = (MessageInfo.decode c.readBuffer.1).attachmentCount := by
  rw [Connection.attachmentInfos, decodeAttachmentInfos_length]

theorem attachmentFileDescriptorCount_cons (info : AttachmentInfo) (infos : List AttachmentInfo) :
    attachmentFileDescriptorCount (info :: infos) =
      attachmentFileDescriptorCount infos +
        if isDescriptorType info.type && !info.isNull then 1 else 0 :=
  List.countP_cons

theorem descriptorAt_some (c : Connection) {i : Nat} (small : i < attachmentMaxAmount) :
    ∃ fd, c.descriptorAt i = some fd :=
  ⟨_, if_pos small⟩

/-- One descriptor, within bounds exactly if the index is. -/
theorem nextDescriptorAccesses_spec (c : Connection) (isNull : Bool) (fdIndex : Nat)
    (small : fdIndex + (if isNull then 0 else 1) ≤ attachmentMaxAmount) (count : Nat) :
    ∃ fd, (c.nextDescriptorAccesses isNull fdIndex).result =
        .ok (fd, fdIndex + if isNull then 0 else 1) ∧
      ((∀ access ∈ (c.nextDescriptorAccesses isNull fdIndex).accesses, c.Within count access) ↔
        (isNull = false → fdIndex < c.fileDescriptorsSize)) := by
  cases isNull with
  | true => exact ⟨noFd, rfl, by simp [Connection.nextDescriptorAccesses]⟩
  | false =>
    obtain ⟨fd, found⟩ := descriptorAt_some c (by simpa using small)
    refine ⟨fd, by simp [Connection.nextDescriptorAccesses, found], ?_⟩
    simp [Connection.nextDescriptorAccesses, found, bind_of_ok, Connection.Within]

/-- The loop reads its part of `attachmentInfo` and one descriptor after the other. -/
theorem takeAttachmentsAccesses_spec (c : Connection) {i count : Nat} (infos : List AttachmentInfo)
    (fdIndex : Nat) (announced : i + infos.length ≤ count)
    (small : fdIndex + attachmentFileDescriptorCount infos ≤ attachmentMaxAmount) :
    (∃ attachments, (c.takeAttachmentsAccesses i infos fdIndex).result = .ok attachments) ∧
      ((∀ access ∈ (c.takeAttachmentsAccesses i infos fdIndex).accesses, c.Within count access) ↔
        (attachmentFileDescriptorCount infos ≠ 0 →
          fdIndex + attachmentFileDescriptorCount infos ≤ c.fileDescriptorsSize)) := by
  induction infos generalizing i fdIndex with
  | nil =>
    exact ⟨⟨[], rfl⟩, by simp [Connection.takeAttachmentsAccesses, attachmentFileDescriptorCount]⟩
  | cons info infos ih =>
    rw [List.length_cons] at announced
    rw [attachmentFileDescriptorCount_cons] at small ⊢
    have read : c.Within count (.attachmentInfo i) := by
      simp only [Connection.Within]
      omega
    rw [Connection.takeAttachmentsAccesses, forall_bind_iff _ (reads_result _)]
    by_cases typed : isDescriptorType info.type = true
    · have used : (if isDescriptorType info.type && !info.isNull then 1 else 0) =
          if info.isNull then 0 else 1 := by
        cases info.isNull <;> simp [typed]
      rw [used] at small ⊢
      obtain ⟨fd, found, reads_iff⟩ := nextDescriptorAccesses_spec c info.isNull
        fdIndex (by omega) count
      obtain ⟨⟨rest, ends⟩, rest_iff⟩ :=
        ih (fdIndex + if info.isNull then 0 else 1) (show i + 1 + infos.length ≤ count by omega)
          (by omega)
      have bounds : ((info.isNull = false → fdIndex < c.fileDescriptorsSize) ∧
          (attachmentFileDescriptorCount infos ≠ 0 →
            fdIndex + (if info.isNull then 0 else 1) + attachmentFileDescriptorCount infos ≤
              c.fileDescriptorsSize)) ↔
          (attachmentFileDescriptorCount infos + (if info.isNull then 0 else 1) ≠ 0 →
            fdIndex + (attachmentFileDescriptorCount infos + if info.isNull then 0 else 1) ≤
              c.fileDescriptorsSize) := by
        cases info.isNull <;> simp; omega
      by_cases memory : info.type = 2
      · simp only [if_pos memory]
        refine ⟨⟨_, by simp [found, ends]; rfl⟩, ?_⟩
        rw [forall_bind_iff _ found, forall_bind_iff _ ends, reads_iff, rest_iff, ← bounds]
        simp [read]
      · have socket : info.type = 1 := by
          simpa [isDescriptorType, memory] using typed
        simp only [if_neg memory, if_pos socket]
        refine ⟨⟨_, by simp [found, ends]; rfl⟩, ?_⟩
        rw [forall_bind_iff _ found, forall_bind_iff _ ends, reads_iff, rest_iff, ← bounds]
        simp [read]
    · have memory : info.type ≠ 2 := by
        intro eq
        exact typed (by simp [isDescriptorType, eq])
      have socket : info.type ≠ 1 := by
        intro eq
        exact typed (by simp [isDescriptorType, eq])
      simp only [typed, Bool.false_and, Bool.false_eq_true, if_false, Nat.add_zero] at small ⊢
      obtain ⟨⟨rest, ends⟩, rest_iff⟩ :=
        ih fdIndex (show i + 1 + infos.length ≤ count by omega) small
      simp only [if_neg memory, if_neg socket]
      refine ⟨⟨_, by simp [ends]; rfl⟩, ?_⟩
      rw [forall_bind_iff _ ends, rest_iff]
      simp [read]

/-! ## When everything is within its bounds -/

theorem attachmentInfoReads_within (c : Connection) (count : Nat) :
    ∀ access ∈ attachmentInfoReads count, c.Within count access := by
  intro access read
  obtain ⟨i, small, rfl⟩ := List.mem_map.mp read
  exact List.mem_range.mp small

theorem attachmentFileDescriptorCount_le (infos : List AttachmentInfo) :
    attachmentFileDescriptorCount infos ≤ infos.length :=
  List.countP_le_length

theorem attachmentFileDescriptorCount_take_le (infos : List AttachmentInfo) (count : Nat) :
    attachmentFileDescriptorCount (infos.take count) ≤ attachmentFileDescriptorCount infos :=
  (List.take_sublist count infos).countP_le

/-- The checks at the start are passed. -/
structure Connection.Arrived (c : Connection) : Prop where
  header : sizeofMessageInfo ≤ c.readBufferSize
  enough : (MessageInfo.decode c.readBuffer.1).messageLength ≤ c.readBufferSize
  inBuffer : sizeofMessageInfo +
    (MessageInfo.decode c.readBuffer.1).attachmentCount * sizeofAttachmentInfo ≤ messageMaxSize

theorem Connection.Arrived.few {c : Connection} (arrived : c.Arrived) :
    attachmentFileDescriptorCount c.attachmentInfos ≤
        (MessageInfo.decode c.readBuffer.1).attachmentCount ∧
      (MessageInfo.decode c.readBuffer.1).attachmentCount ≤ 169 := by
  have inBuffer := arrived.inBuffer
  constructor
  · rw [← attachmentInfos_length c]
    exact attachmentFileDescriptorCount_le c.attachmentInfos
  · generalize (MessageInfo.decode c.readBuffer.1).attachmentCount = count at inBuffer ⊢
    simp only [sizeofMessageInfo, sizeofAttachmentInfo, messageMaxSize] at inBuffer
    omega

/-- Behind the checks. -/
theorem processMessageAccesses_of_arrived {c : Connection}
    (mapped : Fd → Nat → Option (List UInt8)) (arrived : c.Arrived) :
    c.processMessageAccesses mapped =
      c.deliverAccesses mapped (MessageInfo.decode c.readBuffer.1) := by
  unfold Connection.processMessageAccesses
  rw [if_neg (Nat.not_lt.mpr arrived.header), if_neg (Nat.not_lt.mpr arrived.enough),
    if_neg (Nat.not_lt.mpr arrived.inBuffer)]

/-- The message is delivered if its body can be had and is long enough. -/
theorem deliverAccesses_spec {c : Connection} (mapped : Fd → Nat → Option (List UInt8))
    (info : MessageInfo) {attachmentCount : Nat}
    (count : attachmentCount =
      if info.isMessageBodyOutOfLine then info.attachmentCount - 1 else info.attachmentCount)
    {attachments : List Attachment}
    (ends : (c.takeAttachmentsAccesses 0 (c.attachmentInfos.take attachmentCount) 0).result =
      .ok attachments) :
    (∀ stop, (c.messageBodyAccesses mapped info attachmentCount).result = .error stop →
        (c.deliverAccesses mapped info).result = .error stop) ∧
      ∀ body, (c.messageBodyAccesses mapped info attachmentCount).result = .ok body →
        (body.length < info.bodySize → (c.deliverAccesses mapped info).result = .error .faults) ∧
        (info.bodySize ≤ body.length →
          (∃ delivered, (c.deliverAccesses mapped info).result = .ok delivered) ∧
          (c.deliverAccesses mapped info).accesses =
            attachmentInfoReads info.attachmentCount ++
              ((c.takeAttachmentsAccesses 0 (c.attachmentInfos.take attachmentCount) 0).accesses ++
                (c.messageBodyAccesses mapped info attachmentCount).accesses)) := by
  unfold Connection.deliverAccesses
  dsimp only
  rw [← count, bind_of_ok _ (reads_result _), bind_of_ok _ ends]
  refine ⟨?_, ?_⟩
  · intro stop failed
    rw [bind_of_error _ failed]
  · intro body found
    rw [bind_of_ok _ found]
    refine ⟨?_, ?_⟩
    · intro short
      rw [if_pos short]
      rfl
    · intro long
      rw [if_neg (Nat.not_lt.mpr long)]
      exact ⟨⟨_, rfl⟩, by simp⟩

theorem processesSafely_of_error {c : Connection} {mapped : Fd → Nat → Option (List UInt8)}
    {stop : Stop} (ends : (c.processMessageAccesses mapped).result = .error stop) :
    c.ProcessesSafely mapped ↔ stop ≠ .faults := by
  rw [Connection.ProcessesSafely, ends]
  cases stop <;> simp

theorem processesSafely_of_ok {c : Connection} {mapped : Fd → Nat → Option (List UInt8)}
    {delivered : MessageDecoder × Option Connection}
    (ends : (c.processMessageAccesses mapped).result = .ok delivered) :
    c.ProcessesSafely mapped ↔
      (MessageInfo.decode c.readBuffer.1).unboundedLength ≤ c.readBufferSize ∧
        ∀ access ∈ (c.processMessageAccesses mapped).accesses,
          c.Within (MessageInfo.decode c.readBuffer.1).attachmentCount access := by
  rw [Connection.ProcessesSafely, ends]

theorem processesSafely_inline {c : Connection} {mapped : Fd → Nat → Option (List UInt8)}
    (within : c.readBufferSize ≤ messageMaxSize) (arrived : c.Arrived)
    (inline : (MessageInfo.decode c.readBuffer.1).isMessageBodyOutOfLine = false) :
    c.ProcessesSafely mapped ↔
      (MessageInfo.decode c.readBuffer.1).unboundedLength ≤ c.readBufferSize ∧
        attachmentFileDescriptorCount c.attachmentInfos ≤ c.fileDescriptorsSize := by
  obtain ⟨few, fewer⟩ := arrived.few
  have whole : c.attachmentInfos.take (MessageInfo.decode c.readBuffer.1).attachmentCount =
      c.attachmentInfos :=
    List.take_of_length_le (attachmentInfos_length c).le
  obtain ⟨⟨attachments, ends⟩, bounds⟩ := takeAttachmentsAccesses_spec c c.attachmentInfos 0
    (show 0 + c.attachmentInfos.length ≤ (MessageInfo.decode c.readBuffer.1).attachmentCount by
      rw [attachmentInfos_length, Nat.zero_add])
    (by rw [attachmentMaxAmount]; omega)
  have run := processMessageAccesses_of_arrived mapped arrived
  have unbounded : (MessageInfo.decode c.readBuffer.1).unboundedLength =
      sizeofMessageInfo +
        (MessageInfo.decode c.readBuffer.1).attachmentCount * sizeofAttachmentInfo +
        (MessageInfo.decode c.readBuffer.1).bodySize := by
    rw [MessageInfo.unboundedLength, inline]
    rfl
  obtain ⟨-, delivers⟩ := deliverAccesses_spec mapped (MessageInfo.decode c.readBuffer.1)
    (by rw [inline]; rfl) (whole ▸ ends)
  have body : (c.messageBodyAccesses mapped (MessageInfo.decode c.readBuffer.1)
      (MessageInfo.decode c.readBuffer.1).attachmentCount) = pure (c.readBuffer.1.drop
        (sizeofMessageInfo +
          (MessageInfo.decode c.readBuffer.1).attachmentCount * sizeofAttachmentInfo)) := by
    rw [Connection.messageBodyAccesses, inline]
    rfl
  rw [body, whole, ← run] at delivers
  obtain ⟨short, long⟩ := delivers _ (pure_result _)
  have size := c.readBuffer.2
  have inBuffer := arrived.inBuffer
  rw [List.length_drop, size] at short long
  by_cases fits : (MessageInfo.decode c.readBuffer.1).bodySize ≤ messageMaxSize - (sizeofMessageInfo +
      (MessageInfo.decode c.readBuffer.1).attachmentCount * sizeofAttachmentInfo)
  · obtain ⟨⟨delivered, delivery⟩, accesses⟩ := long fits
    rw [processesSafely_of_ok delivery, accesses]
    rw [List.forall_mem_append, List.forall_mem_append, bounds]
    constructor
    · rintro ⟨le, -, descriptors, -⟩
      exact ⟨le, by omega⟩
    · rintro ⟨le, descriptors⟩
      exact ⟨le, attachmentInfoReads_within c _, fun _ => by omega, by simp⟩
  · rw [processesSafely_of_error (short (by omega))]
    simp only [ne_eq, not_true, false_iff, not_and]
    intro
    omega

/-- The mapping of an out-of-line body that succeeds. -/
theorem oolMessageBodyAccesses_mapped {c : Connection} {mapped : Fd → Nat → Option (List UInt8)}
    {infos : List AttachmentInfo} {attachmentCount : Nat} (bodySize : Nat) {last : AttachmentInfo}
    {fd : Fd} {memory : List UInt8} (found : infos[attachmentCount]? = some last)
    (present : last.isNull = false)
    (descriptor : c.descriptorAt (subT (attachmentFileDescriptorCount infos) 1) = some fd)
    (maps : mapped fd last.size = some memory) :
    c.oolMessageBodyAccesses mapped infos attachmentCount bodySize =
      ⟨[.attachmentInfo attachmentCount,
        .fileDescriptors (subT (attachmentFileDescriptorCount infos) 1),
        .outOfLineBody bodySize last.size], .ok memory⟩ := by
  unfold Connection.oolMessageBodyAccesses
  generalize subT (attachmentFileDescriptorCount infos) 1 = fdIndex at descriptor ⊢
  dsimp only
  rw [found, descriptor, orFaults_some, orFaults_some, bind_of_ok _ (reads_result _),
    bind_of_ok _ (lift_result _)]
  simp only [present, Bool.false_eq_true, if_false]
  rw [bind_of_ok _ (reads_result _), bind_of_ok _ (lift_result _)]
  simp only [maps]
  rw [bind_of_ok _ (reads_result _)]
  rfl

/-- The length of a message whose body is out of line does not wrap within the buffer. -/
theorem Connection.Arrived.unboundedLength_le {c : Connection} (arrived : c.Arrived)
    (outOfLine : (MessageInfo.decode c.readBuffer.1).isMessageBodyOutOfLine = true) :
    (MessageInfo.decode c.readBuffer.1).unboundedLength ≤ c.readBufferSize := by
  have inBuffer := arrived.inBuffer
  have enough := arrived.enough
  rw [MessageInfo.messageLength, outOfLine] at enough
  rw [MessageInfo.unboundedLength, outOfLine]
  generalize sizeofMessageInfo +
    (MessageInfo.decode c.readBuffer.1).attachmentCount * sizeofAttachmentInfo = infosEnd
    at inBuffer enough ⊢
  simp only [if_true, Nat.add_zero] at enough ⊢
  rw [messageMaxSize] at inBuffer
  rwa [sizeT_of_lt (by omega)] at enough

/-- The ways in which the mapping fails. -/
theorem oolMessageBody_missing {c : Connection} {mapped : Fd → Nat → Option (List UInt8)}
    {infos : List AttachmentInfo} {attachmentCount : Nat}
    (missing : infos[attachmentCount]? = none) :
    c.oolMessageBody mapped infos attachmentCount = .error .faults := by
  rw [Connection.oolMessageBody, missing]
  rfl

theorem oolMessageBody_null {c : Connection} {mapped : Fd → Nat → Option (List UInt8)}
    {infos : List AttachmentInfo} {attachmentCount : Nat} {last : AttachmentInfo}
    (found : infos[attachmentCount]? = some last) (null : last.isNull = true) :
    c.oolMessageBody mapped infos attachmentCount = .error .rejects := by
  rw [Connection.oolMessageBody, found, orFaults_some, ok_bind, if_pos null]
  rfl

theorem oolMessageBody_unmapped {c : Connection} {mapped : Fd → Nat → Option (List UInt8)}
    {infos : List AttachmentInfo} {attachmentCount : Nat} {last : AttachmentInfo}
    (found : infos[attachmentCount]? = some last) (present : last.isNull = false) {fdIndex : Nat}
    (index : subT (attachmentFileDescriptorCount infos) 1 = fdIndex) :
    (c.descriptorAt fdIndex = none →
      c.oolMessageBody mapped infos attachmentCount = .error .faults) ∧
    ∀ fd, c.descriptorAt fdIndex = some fd → mapped fd last.size = none →
      c.oolMessageBody mapped infos attachmentCount = .error .rejects := by
  rw [Connection.oolMessageBody, found, orFaults_some, ok_bind, index]
  simp only [present, Bool.false_eq_true, if_false]
  constructor
  · intro outside
    rw [outside]
    rfl
  · intro fd descriptor unmapped
    rw [descriptor, orFaults_some, ok_bind, unmapped]
    rfl

theorem processesSafely_outOfLine {c : Connection} {mapped : Fd → Nat → Option (List UInt8)}
    (maps : ∀ fd size memory, mapped fd size = some memory → memory.length = size)
    (arrived : c.Arrived)
    (outOfLine : (MessageInfo.decode c.readBuffer.1).isMessageBodyOutOfLine = true) :
    c.ProcessesSafely mapped ↔ c.OutOfLineConsistent mapped := by
  obtain ⟨few, fewer⟩ := arrived.few
  have run := processMessageAccesses_of_arrived mapped arrived
  have fits := arrived.unboundedLength_le outOfLine
  have length := attachmentInfos_length c
  rw [Connection.OutOfLineConsistent]
  generalize infos_eq : c.attachmentInfos = infos at few length ⊢
  generalize info_eq : MessageInfo.decode c.readBuffer.1 = info at few fewer run fits length outOfLine ⊢
  have fewBefore := attachmentFileDescriptorCount_take_le infos (info.attachmentCount - 1)
  obtain ⟨⟨attachments, ends⟩, bounds⟩ := takeAttachmentsAccesses_spec c
    (infos.take (info.attachmentCount - 1)) 0
    (show 0 + (infos.take (info.attachmentCount - 1)).length ≤ info.attachmentCount by
      rw [List.length_take]; omega)
    (by rw [attachmentMaxAmount]; omega)
  have body : c.messageBodyAccesses mapped info (info.attachmentCount - 1) =
      c.oolMessageBodyAccesses mapped infos (info.attachmentCount - 1) info.bodySize := by
    rw [Connection.messageBodyAccesses, outOfLine, infos_eq]
    rfl
  obtain ⟨fails, delivers⟩ := deliverAccesses_spec mapped info
    (show info.attachmentCount - 1 = _ by rw [outOfLine]; rfl) (infos_eq ▸ ends)
  rw [body, ← run] at fails delivers
  rw [infos_eq] at delivers
  have result := oolMessageBodyAccesses_result c mapped infos (info.attachmentCount - 1)
    info.bodySize
  by_cases nothing : info.attachmentCount = 0
  · have empty : infos = [] := List.length_eq_zero_iff.mp (length.trans nothing)
    have missing : infos[info.attachmentCount - 1]? = none := by rw [empty]; rfl
    rw [processesSafely_of_error (fails _ (result.trans (oolMessageBody_missing missing)))]
    simp [empty]
  obtain ⟨last, found⟩ : ∃ last, infos[info.attachmentCount - 1]? = some last :=
    ⟨_, List.getElem?_eq_getElem (by omega)⟩
  have lastIs : infos.getLast? = some last := by rw [List.getLast?_eq_getElem?, length, found]
  cases null : last.isNull with
  | true =>
    rw [processesSafely_of_error (fails _ (result.trans (oolMessageBody_null found null)))]
    simp [lastIs, null]
  | false =>
    have unmapped (fdIndex : Nat)
        (index : subT (attachmentFileDescriptorCount infos) 1 = fdIndex) :=
      @oolMessageBody_unmapped c mapped infos _ last found null fdIndex index
    by_cases without : attachmentFileDescriptorCount infos = 0
    · have outside : c.descriptorAt (subT (attachmentFileDescriptorCount infos) 1) = none := by
        rw [without, subT_of_lt (by decide) (by decide)]
        exact if_neg (by decide)
      rw [processesSafely_of_error (fails _ (result.trans ((unmapped _ rfl).1 outside)))]
      simp [lastIs, null, without]
    · have index : subT (attachmentFileDescriptorCount infos) 1 =
          attachmentFileDescriptorCount infos - 1 := subT_of_le (by omega) (by omega)
      have small : attachmentFileDescriptorCount infos - 1 < attachmentMaxAmount := by
        rw [attachmentMaxAmount]
        omega
      obtain ⟨fd, descriptor⟩ := descriptorAt_some c small
      cases mapping : mapped fd last.size with
      | none =>
        rw [processesSafely_of_error
          (fails _ (result.trans ((unmapped _ index).2 fd descriptor mapping)))]
        simp only [lastIs, null, without, descriptor, Option.some.injEq, exists_eq_left', ne_eq,
          not_false_eq_true, true_implies, true_and, reduceCtorEq, true_iff]
        rintro _ memory rfl succeeds
        rw [mapping] at succeeds
        cases succeeds
      | some memory =>
        have size := maps fd last.size memory mapping
        have access := oolMessageBodyAccesses_mapped info.bodySize found null
          (index ▸ descriptor) mapping
        obtain ⟨short, long⟩ := delivers memory (by rw [access])
        have consistent : (∃ last, infos.getLast? = some last ∧ (last.isNull = false →
            attachmentFileDescriptorCount infos ≠ 0 ∧ ∀ fd memory,
              c.descriptorAt (attachmentFileDescriptorCount infos - 1) = some fd →
              mapped fd last.size = some memory →
                attachmentFileDescriptorCount infos ≤ c.fileDescriptorsSize ∧
                  info.bodySize ≤ last.size)) ↔
            attachmentFileDescriptorCount infos ≤ c.fileDescriptorsSize ∧
              info.bodySize ≤ last.size := by
          simp only [lastIs, null, without, descriptor, Option.some.injEq, exists_eq_left', ne_eq,
            not_false_eq_true, true_implies, true_and]
          exact ⟨fun all => all fd memory rfl mapping, fun both _ _ _ _ => both⟩
        rw [consistent]
        by_cases enough : info.bodySize ≤ memory.length
        · obtain ⟨⟨delivered, delivery⟩, accesses⟩ := long enough
          rw [processesSafely_of_ok delivery, accesses, access, info_eq, index,
            List.forall_mem_append, List.forall_mem_append, bounds]
          simp only [List.forall_mem_cons, Connection.Within]
          constructor
          · rintro ⟨-, -, descriptors, -, last_read, body_read, -⟩
            omega
          · rintro ⟨descriptors, body_read⟩
            exact ⟨fits, attachmentInfoReads_within c _, fun _ => by omega, by omega, by omega,
              body_read, by simp⟩
        · rw [processesSafely_of_error (short (by omega))]
          simp only [ne_eq, not_true, false_iff, not_and]
          intro
          omega

/-- **Untrusted bytes.** Whatever the buffer holds, `processMessage` returns false or keeps
within its bounds exactly if the header is consistent with what came along. -/
theorem reads_within_iff {mapped : Fd → Nat → Option (List UInt8)} {c : Connection}
    (maps : ∀ fd size memory, mapped fd size = some memory → memory.length = size)
    (within : c.readBufferSize ≤ messageMaxSize) :
    c.ProcessesSafely mapped ↔ c.Consistent mapped := by
  by_cases header : sizeofMessageInfo ≤ c.readBufferSize
  swap
  · have waits : (c.processMessageAccesses mapped).result = .error .waits := by
      rw [Connection.processMessageAccesses, if_pos (Nat.lt_of_not_le header)]
      rfl
    rw [processesSafely_of_error waits, Connection.Consistent]
    simp [header]
  by_cases enough : (MessageInfo.decode c.readBuffer.1).messageLength ≤ c.readBufferSize
  swap
  · have waits : (c.processMessageAccesses mapped).result = .error .waits := by
      rw [Connection.processMessageAccesses, if_neg (Nat.not_lt.mpr header),
        if_pos (Nat.lt_of_not_le enough)]
      rfl
    rw [processesSafely_of_error waits, Connection.Consistent]
    simp [enough]
  have no_wrap : (MessageInfo.decode c.readBuffer.1).unboundedLength ≤ c.readBufferSize ↔
      (MessageInfo.decode c.readBuffer.1).unboundedLength < 2 ^ 64 := by
    have length : (MessageInfo.decode c.readBuffer.1).messageLength =
      sizeT (MessageInfo.decode c.readBuffer.1).unboundedLength := rfl
    rw [length] at enough
    generalize (MessageInfo.decode c.readBuffer.1).unboundedLength = unbounded at enough ⊢
    rw [messageMaxSize] at within
    constructor
    · omega
    · intro fits
      rwa [sizeT_of_lt fits] at enough
  rw [Connection.Consistent, ← no_wrap]
  simp only [header, enough, true_implies]
  by_cases inBuffer : sizeofMessageInfo +
      (MessageInfo.decode c.readBuffer.1).attachmentCount * sizeofAttachmentInfo ≤ messageMaxSize
  · have arrived : c.Arrived := ⟨header, enough, inBuffer⟩
    cases outOfLine : (MessageInfo.decode c.readBuffer.1).isMessageBodyOutOfLine with
    | false =>
      rw [processesSafely_inline within arrived outOfLine]
      simp
    | true =>
      rw [processesSafely_outOfLine maps arrived outOfLine]
      simp [arrived.unboundedLength_le outOfLine]
  · have faults : (c.processMessageAccesses mapped).result = .error .faults := by
      rw [Connection.processMessageAccesses, if_neg (Nat.not_lt.mpr header),
        if_neg (Nat.not_lt.mpr enough), if_pos (Nat.lt_of_not_le inBuffer)]
      rfl
    rw [processesSafely_of_error faults]
    simp only [ne_eq, not_true, false_iff, not_and]
    intro short
    rw [MessageInfo.unboundedLength] at short
    omega

/-- The memory that is mapped holds zeroes. -/
def zeroMemory (_ : Fd) (size : Nat) : Option (List UInt8) := some (List.replicate size 0)

/-- A header at the front of an otherwise empty buffer. -/
def headerReceived (info : MessageInfo) (readBufferSize : Nat) : Connection where
  readBuffer := ⟨info.encode (fun _ => 0) ++ List.replicate 4072 0, by
    rw [List.length_append, MessageInfo.encode_length, List.length_replicate]
    rfl⟩
  readBufferSize := readBufferSize
  fileDescriptors := ⟨List.replicate (attachmentMaxAmount * sizeofInt) 0, List.length_replicate⟩
  fileDescriptorsSize := 0

theorem headerReceived_decode {info : MessageInfo} (sized : info.Sized) (readBufferSize : Nat) :
    MessageInfo.decode (headerReceived info readBufferSize).readBuffer.1 = info :=
  MessageInfo.decode_encode sized _ _

theorem reads_within_iff_headerless :
    (headerReceived ⟨0, 0, false⟩ 20).ProcessesSafely zeroMemory :=
  (reads_within_iff
    (by rintro fd size memory ⟨⟩; exact List.length_replicate)
    (by decide)).mpr fun header => absurd header (by decide)

/-- With a body of `2 ^ 64 - 8` bytes the length of the message is 16. -/
theorem wrapped_length_not_safe :
    ¬ (headerReceived ⟨2 ^ 64 - 8, 0, false⟩ 24).ProcessesSafely zeroMemory := by
  have decoded := @headerReceived_decode ⟨2 ^ 64 - 8, 0, false⟩ ⟨by decide, by decide⟩ 24
  have arrived : (headerReceived ⟨2 ^ 64 - 8, 0, false⟩ 24).Arrived :=
    ⟨by decide, by rw [decoded]; decide, by rw [decoded]; decide⟩
  rw [processesSafely_inline (by decide) arrived (by rw [decoded]), decoded]
  intro safe
  exact absurd safe.1 (by decide)

end NetRider.Ipc
