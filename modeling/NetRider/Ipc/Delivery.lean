import NetRider.Ipc.ConnectionUnix

/-!
# A message at the front of the buffers

What `processMessage` makes of a packet that `sendOutgoingMessage` produced, with anything
behind it: `processMessage_delivers` says that it is delivered as it was sent.
-/

namespace NetRider.Ipc

open NetRider.Lib

/-! ## `size_t` arithmetic -/

theorem sizeT_of_lt {n : Nat} (fits : n < 2 ^ 64) : sizeT n = n := Nat.mod_eq_of_lt fits

theorem subT_of_le {a b : Nat} (le : b ≤ a) (fits : a < 2 ^ 64) : subT a b = a - b := by
  have wraps : a + (2 ^ 64 - b) = a - b + 2 ^ 64 := by omega
  rw [subT, wraps, sizeT, Nat.add_mod_right, Nat.mod_eq_of_lt (by omega)]

theorem subT_of_lt {a b : Nat} (lt : a < b) (fits : b ≤ 2 ^ 64) : subT a b = a + (2 ^ 64 - b) :=
  sizeT_of_lt (by omega)

/-! ## Structures and their bytes -/

@[simp] theorem padding_length (junk : Nat → UInt8) (k n : Nat) : (padding junk k n).length = n := by
  simp [padding]

@[simp] theorem boolByte_ne_zero (b : Bool) : (boolByte b != 0) = b := by cases b <;> rfl

@[simp] theorem MessageInfo.encode_length (info : MessageInfo) (junk : Nat → UInt8) :
    (info.encode junk).length = sizeofMessageInfo := by
  simp [MessageInfo.encode, sizeofMessageInfo]

@[simp] theorem AttachmentInfo.encode_length (info : AttachmentInfo) (junk : Nat → UInt8) :
    (info.encode junk).length = sizeofAttachmentInfo := by
  simp [AttachmentInfo.encode, sizeofAttachmentInfo]

/-- The fields have values of their types. -/
def MessageInfo.Sized (info : MessageInfo) : Prop :=
  info.bodySize < 2 ^ 64 ∧ info.attachmentCount < 2 ^ 64

def AttachmentInfo.Sized (info : AttachmentInfo) : Prop := info.type < 2 ^ 32 ∧ info.size < 2 ^ 64

theorem MessageInfo.decode_encode {info : MessageInfo} (sized : info.Sized) (junk : Nat → UInt8)
    (rest : List UInt8) : MessageInfo.decode (info.encode junk ++ rest) = info := by
  obtain ⟨bodySize, attachmentCount, outOfLine⟩ := info
  have body : ofLe (toLe 8 bodySize) = bodySize := ofLe_toLe_of_lt sized.1
  have count : ofLe (toLe 8 attachmentCount) = attachmentCount := ofLe_toLe_of_lt sized.2
  simp [MessageInfo.decode, MessageInfo.encode, List.drop_append, body, count]

theorem AttachmentInfo.decode_encode {info : AttachmentInfo} (sized : info.Sized)
    (junk : Nat → UInt8) (rest : List UInt8) :
    AttachmentInfo.decode (info.encode junk ++ rest) = info := by
  obtain ⟨type, size, isNull⟩ := info
  have type_eq : ofLe (toLe 4 type) = type := ofLe_toLe_of_lt sized.1
  have size_eq : ofLe (toLe 8 size) = size := ofLe_toLe_of_lt sized.2
  have early (n : Nat) : (toLe 4 type).drop (n + 4) = [] := List.drop_of_length_le (by simp)
  simp [AttachmentInfo.decode, AttachmentInfo.encode, List.drop_append, type_eq, size_eq,
    early 4, early 12]

theorem encodeAttachmentInfos_length (infos : List AttachmentInfo) (junk : Nat → Nat → UInt8) :
    (encodeAttachmentInfos junk infos).length = infos.length * sizeofAttachmentInfo := by
  induction infos generalizing junk with
  | nil => simp [encodeAttachmentInfos]
  | cons info infos ih =>
    simp only [encodeAttachmentInfos, List.length_append, AttachmentInfo.encode_length, ih,
      List.length_cons, Nat.succ_mul]
    omega

theorem decodeAttachmentInfos_encode {infos : List AttachmentInfo}
    (sized : ∀ info ∈ infos, info.Sized) (junk : Nat → Nat → UInt8) (rest : List UInt8) :
    decodeAttachmentInfos infos.length (encodeAttachmentInfos junk infos ++ rest) = infos := by
  induction infos generalizing junk with
  | nil => rfl
  | cons info infos ih =>
    have size : (info.encode (junk 0)).length = sizeofAttachmentInfo := by simp
    have head := AttachmentInfo.decode_encode (sized info (by simp)) (junk 0)
      (encodeAttachmentInfos (fun i => junk (i + 1)) infos ++ rest)
    simp only [encodeAttachmentInfos, List.append_assoc, List.length_cons, decodeAttachmentInfos]
    rw [head, ← size, List.drop_left, ih fun i mem => sized i (by simp [mem])]

theorem Attachment.info_sized (a : Attachment) : a.info.Sized := by
  cases a with
  | uninitialized => simp [Attachment.info, AttachmentInfo.Sized]
  | socketType fd => simp [Attachment.info, AttachmentInfo.Sized]
  | mappedMemoryType fd size =>
    have := size.toNat_lt
    simp only [Attachment.info, AttachmentInfo.Sized]
    omega

/-! ## Attachments and their descriptors -/

theorem descriptorBytes_append (fds fds' : List Fd) :
    descriptorBytes (fds ++ fds') = descriptorBytes fds ++ descriptorBytes fds' := by
  simp [descriptorBytes]

theorem descriptorBytes_length (fds : List Fd) :
    (descriptorBytes fds).length = fds.length * sizeofInt := by
  induction fds with
  | nil => rfl
  | cons fd fds ih =>
    rw [show fd :: fds = [fd] ++ fds from rfl, descriptorBytes_append, List.length_append, ih]
    simp [descriptorBytes, Nat.succ_mul, Nat.add_comm]

/-- The descriptors present are `fds`, whatever lies behind them. -/
def Connection.HasDescriptors (c : Connection) (fds : List Fd) : Prop :=
  ∃ rest, c.fileDescriptors.1 = descriptorBytes fds ++ rest

theorem Connection.HasDescriptors.count_le {c : Connection} {fds : List Fd} (has : c.HasDescriptors fds) :
    fds.length ≤ attachmentMaxAmount := by
  obtain ⟨rest, holds⟩ := has
  have size := c.fileDescriptors.2
  rw [holds, List.length_append, descriptorBytes_length] at size
  simp only [sizeofInt] at size
  omega

theorem descriptorAt_eq {c : Connection} {pre post : List Fd} {fd : Fd}
    (has : c.HasDescriptors (pre ++ fd :: post)) : c.descriptorAt pre.length = some fd := by
  have within := has.count_le
  obtain ⟨rest, holds⟩ := has
  have bytes : c.fileDescriptors.1 =
      descriptorBytes pre ++ (toLe sizeofInt fd.toNat ++ (descriptorBytes post ++ rest)) := by
    rw [holds, descriptorBytes_append]
    simp [descriptorBytes]
  have word : (toLe sizeofInt fd.toNat).length = sizeofInt := by simp
  have value : ofLe (toLe sizeofInt fd.toNat) = fd.toNat := ofLe_toLe_of_lt fd.toNat_lt
  rw [Connection.descriptorAt, if_pos (by simp at within; omega), bytes, ← descriptorBytes_length,
    List.drop_left]
  nth_rewrite 1 [← word]
  rw [List.take_left, value]
  simp

theorem sentDescriptors_cons (a : Attachment) (as : List Attachment) :
    sentDescriptors (a :: as) =
      if a.fileDescriptor = noFd then sentDescriptors as
      else a.fileDescriptor :: sentDescriptors as := by
  by_cases h : a.fileDescriptor = noFd <;> simp [sentDescriptors, h]

/-- The loop gives every attachment its own descriptor. -/
theorem takeAttachments_info {c : Connection} {as : List Attachment} {pre post : List Fd}
    (typed : ∀ a ∈ as, a ≠ .uninitialized)
    (has : c.HasDescriptors (pre ++ (sentDescriptors as ++ post))) :
    c.takeAttachments (as.map Attachment.info) pre.length = some as := by
  induction as generalizing pre with
  | nil => rfl
  | cons a as ih =>
    have typed' : ∀ a ∈ as, a ≠ .uninitialized := fun a mem => typed a (by simp [mem])
    have next : ∃ pre', c.nextDescriptor (a.fileDescriptor == noFd) pre.length =
          some (a.fileDescriptor, pre'.length) ∧
        c.HasDescriptors (pre' ++ (sentDescriptors as ++ post)) := by
      rw [sentDescriptors_cons] at has
      by_cases null : a.fileDescriptor = noFd
      · rw [if_pos null] at has
        exact ⟨pre, by simp [Connection.nextDescriptor, null], has⟩
      · rw [if_neg null] at has
        have at_pre := descriptorAt_eq has
        refine ⟨pre ++ [a.fileDescriptor], ?_, by simpa using has⟩
        simp [Connection.nextDescriptor, null, at_pre]
    obtain ⟨pre', next, has⟩ := next
    have rest := ih typed' has
    cases a with
    | uninitialized => exact absurd rfl (typed _ (by simp))
    | socketType fd =>
      simp only [Attachment.fileDescriptor] at next
      simp [Connection.takeAttachments, Attachment.info, next, rest]
    | mappedMemoryType fd size =>
      simp only [Attachment.fileDescriptor] at next
      simp [Connection.takeAttachments, Attachment.info, next, rest]

theorem attachmentFileDescriptorCount_info {as : List Attachment}
    (typed : ∀ a ∈ as, a ≠ .uninitialized) :
    attachmentFileDescriptorCount (as.map Attachment.info) = (sentDescriptors as).length := by
  induction as with
  | nil => rfl
  | cons a as ih =>
    have ih := ih fun a mem => typed a (by simp [mem])
    simp only [attachmentFileDescriptorCount, List.map_cons, List.countP_cons] at ih ⊢
    rw [ih, sentDescriptors_cons]
    cases a with
    | uninitialized => exact absurd rfl (typed _ (by simp))
    | socketType fd =>
      by_cases h : fd = noFd <;> simp [Attachment.info, Attachment.fileDescriptor, isDescriptorType, h]
    | mappedMemoryType fd size =>
      by_cases h : fd = noFd <;> simp [Attachment.info, Attachment.fileDescriptor, isDescriptorType, h]

/-! ## One message at the front of the buffers -/

/-- A message `sendOutgoingMessage` accepted, with what it handed to `sendmsg`. -/
structure Sent where
  env : Environment
  encoder : MessageEncoder
  packet : Packet
  accepted : sendOutgoingMessage env encoder = some packet

/-- The bytes and descriptors of these messages are present, and no others. -/
structure Connection.Holds (c : Connection) (sent : List Sent) : Prop where
  bytes : ∃ rest, c.readBuffer.1 = (sent.flatMap fun m => m.packet.bytes) ++ rest
  bytesSize : c.readBufferSize = (sent.flatMap fun m => m.packet.bytes).length
  descriptors : c.HasDescriptors (sent.flatMap fun m => m.packet.descriptors)
  descriptorsSize : c.fileDescriptorsSize = (sent.flatMap fun m => m.packet.descriptors).length

/-- Mapping a received shared memory object shows what was written to it. -/
def Maps (mapped : Fd → Nat → Option (List UInt8)) (m : Sent) : Prop :=
  ∀ fd bytes, m.packet.sharedMemory = some (fd, bytes) → mapped fd bytes.length = some bytes

theorem sendOutgoingMessage_cases {env : Environment} {encoder : MessageEncoder} {p : Packet}
    (accepted : sendOutgoingMessage env encoder = some p) :
    encoder.attachments.length ≤ 254 ∧
    ((encoder.isOutOfLine = false ∧
        p = packet env ⟨encoder.buffer.length, encoder.attachments.length, false⟩
          encoder.attachments encoder.buffer none) ∨
      (encoder.isOutOfLine = true ∧ ∃ fd : Fd, fd ≠ noFd ∧
        p = packet env ⟨encoder.buffer.length, encoder.attachments.length + 1, true⟩
          (encoder.attachments ++ [.mappedMemoryType fd (UInt64.ofNat encoder.buffer.length)]) []
          (some (fd, encoder.buffer)))) := by
  by_cases many : encoder.attachments.length > attachmentMaxAmount - 1
  · simp [sendOutgoingMessage, many] at accepted
  · refine ⟨by simpa [attachmentMaxAmount] using many, ?_⟩
    simp only [sendOutgoingMessage, if_neg many] at accepted
    cases outOfLine : encoder.isOutOfLine with
    | false => exact .inl ⟨rfl, by simpa [outOfLine] using accepted.symm⟩
    | true =>
      cases created : env.sharedMemory with
      | none => simp [outOfLine, created] at accepted
      | some fd => exact .inr ⟨rfl, fd.1, fd.2, by simpa [outOfLine, created] using accepted.symm⟩

theorem packet_length (env : Environment) (info : MessageInfo) (as : List Attachment)
    (body : List UInt8) (memory : Option (Fd × List UInt8)) :
    (packet env info as body memory).bytes.length =
      sizeofMessageInfo + as.length * sizeofAttachmentInfo + body.length := by
  simp [packet, encodeAttachmentInfos_length]
  omega

/-- What the first reads of `processMessage` find when a packet is in front. -/
structure Connection.Front (c : Connection) (info : MessageInfo) (as : List Attachment)
    (body rest : List UInt8) : Prop where
  enough : info.messageLength ≤ c.readBufferSize
  header : sizeofMessageInfo ≤ c.readBufferSize
  within : sizeofMessageInfo + info.attachmentCount * sizeofAttachmentInfo ≤ messageMaxSize
  decoded : MessageInfo.decode c.readBuffer.1 = info
  infos : decodeAttachmentInfos info.attachmentCount (c.readBuffer.1.drop sizeofMessageInfo) =
    as.map Attachment.info
  behind : c.readBuffer.1.drop (sizeofMessageInfo + info.attachmentCount * sizeofAttachmentInfo) =
    body ++ rest

theorem front_of_packet {c : Connection} {env : Environment} {info : MessageInfo}
    {as : List Attachment} {body rest : List UInt8} {memory : Option (Fd × List UInt8)}
    (sized : info.Sized) (count : info.attachmentCount = as.length)
    (bytes : c.readBuffer.1 = (packet env info as body memory).bytes ++ rest)
    (size : (packet env info as body memory).bytes.length ≤ c.readBufferSize)
    (length : info.messageLength = (packet env info as body memory).bytes.length) :
    c.Front info as body rest := by
  have split : c.readBuffer.1 = info.encode env.junk ++
      (encodeAttachmentInfos env.junkInfos (as.map Attachment.info) ++ (body ++ rest)) := by
    rw [bytes]
    simp [packet]
  have infosSize := encodeAttachmentInfos_length (as.map Attachment.info) env.junkInfos
  have headSize := MessageInfo.encode_length info env.junk
  have total := c.readBuffer.2
  rw [packet_length] at size length
  rw [split] at total
  rw [List.length_map] at infosSize
  simp only [List.length_append, infosSize, headSize] at total
  refine ⟨by omega, by omega, by rw [count]; omega, ?_, ?_, ?_⟩
  · rw [split, MessageInfo.decode_encode sized]
  · rw [split, ← headSize, List.drop_left, count, ← List.length_map (f := Attachment.info)]
    refine decodeAttachmentInfos_encode (fun i mem => ?_) _ _
    obtain ⟨a, -, rfl⟩ := List.mem_map.mp mem
    exact a.info_sized
  · rw [split, count, ← List.drop_drop, ← infosSize]
    nth_rewrite 1 [← headSize]
    rw [List.drop_left, List.drop_left]

theorem processMessage_inline {c : Connection} {mapped : Fd → Nat → Option (List UInt8)}
    {as : List Attachment} {body rest : List UInt8} {post : List Fd}
    (front : c.Front ⟨body.length, as.length, false⟩ as body rest)
    (typed : ∀ a ∈ as, a ≠ .uninitialized)
    (has : c.HasDescriptors (sentDescriptors as ++ post)) :
    c.processMessage mapped = .ok (⟨body, as.reverse⟩,
      (c.shiftBytes (MessageInfo.mk body.length as.length false).messageLength).bind
        (·.shiftDescriptors (sentDescriptors as).length)) := by
  obtain ⟨enough, header, within, decoded, infos, behind⟩ := front
  have attachments : c.takeAttachments (as.map Attachment.info) [].length = some as :=
    takeAttachments_info typed has
  have count := attachmentFileDescriptorCount_info typed
  have whole : (as.map Attachment.info).take as.length = as.map Attachment.info :=
    List.take_of_length_le (by simp)
  simp only [List.length_nil] at attachments
  simp [Connection.processMessage, Nat.not_lt.mpr header, decoded, Nat.not_lt.mpr enough,
    Nat.not_lt.mpr within, infos, whole, attachments, behind, count]

theorem processMessage_outOfLine {c : Connection} {mapped : Fd → Nat → Option (List UInt8)}
    {as : List Attachment} {body rest : List UInt8} {post : List Fd} {fd : Fd}
    (front : c.Front ⟨body.length, as.length + 1, true⟩
      (as ++ [.mappedMemoryType fd (UInt64.ofNat body.length)]) [] rest)
    (typed : ∀ a ∈ as, a ≠ .uninitialized) (real : fd ≠ noFd)
    (fits : body.length < 2 ^ 64) (maps : mapped fd body.length = some body)
    (has : c.HasDescriptors (sentDescriptors as ++ fd :: post)) :
    c.processMessage mapped = .ok (⟨body, as.reverse⟩,
      (c.shiftBytes (MessageInfo.mk body.length (as.length + 1) true).messageLength).bind
        (·.shiftDescriptors ((sentDescriptors as).length + 1))) := by
  obtain ⟨enough, header, within, decoded, infos, -⟩ := front
  have attachments : c.takeAttachments (as.map Attachment.info) [].length = some as :=
    takeAttachments_info typed has
  have ool : Attachment.info (.mappedMemoryType fd (UInt64.ofNat body.length)) =
      ⟨2, body.length, false⟩ := by
    have size : (UInt64.ofNat body.length).toNat = body.length :=
      UInt64.toNat_ofNat_of_lt' fits
    simp [Attachment.info, real, size]
  rw [List.map_append, List.map_singleton, ool] at infos
  have count : attachmentFileDescriptorCount (as.map Attachment.info ++ [⟨2, body.length, false⟩]) =
      (sentDescriptors as).length + 1 := by
    rw [← attachmentFileDescriptorCount_info typed]
    simp [attachmentFileDescriptorCount, isDescriptorType]
  have last := descriptorAt_eq has
  have few := has.count_le
  have index : subT ((sentDescriptors as).length + 1) 1 = (sentDescriptors as).length := by
    simp only [List.length_append, List.length_cons, attachmentMaxAmount] at few
    exact subT_of_le (by omega) (by omega)
  have body_eq : c.oolMessageBody mapped (as.map Attachment.info ++ [⟨2, body.length, false⟩])
      as.length = .ok body := by
    simp [Connection.oolMessageBody, count, index, last, maps]
  simp only [List.length_nil] at attachments
  simp [Connection.processMessage, Nat.not_lt.mpr header, decoded, Nat.not_lt.mpr enough,
    Nat.not_lt.mpr within, infos, attachments, count, body_eq]

theorem front_of_holds {c : Connection} {m : Sent} {rest : List Sent} {info : MessageInfo}
    {as : List Attachment} {body : List UInt8} {memory : Option (Fd × List UInt8)}
    (holds : c.Holds (m :: rest)) (sent : m.packet = packet m.env info as body memory)
    (sized : info.Sized) (count : info.attachmentCount = as.length)
    (inline : (if info.isMessageBodyOutOfLine then 0 else info.bodySize) = body.length) :
    info.messageLength = m.packet.bytes.length ∧ ∃ behind, c.Front info as body behind := by
  obtain ⟨⟨after, bytes⟩, bytesSize, -, -⟩ := holds
  simp only [List.flatMap_cons, List.append_assoc, List.length_append] at bytes bytesSize
  have capacity := c.readBuffer.2
  rw [bytes, List.length_append, messageMaxSize] at capacity
  have length : info.messageLength = m.packet.bytes.length := by
    rw [MessageInfo.messageLength, inline, count, ← packet_length m.env info as body memory, ← sent]
    exact sizeT_of_lt (by omega)
  rw [sent] at bytes bytesSize length ⊢
  exact ⟨length, _, front_of_packet sized count bytes (by omega) length⟩

/-- **The message in front is delivered as it was sent.** -/
theorem processMessage_delivers {c : Connection} {mapped : Fd → Nat → Option (List UInt8)}
    {m : Sent} {rest : List Sent} (holds : c.Holds (m :: rest)) (maps : Maps mapped m) :
    c.processMessage mapped = .ok (⟨m.encoder.buffer, m.encoder.attachments.reverse⟩,
      (c.shiftBytes m.packet.bytes.length).bind
        (·.shiftDescriptors m.packet.descriptors.length)) := by
  have fits := m.encoder.fits
  have has := holds.descriptors
  rw [List.flatMap_cons] at has
  obtain ⟨few, ⟨-, sent⟩ | ⟨-, fd, real, sent⟩⟩ := sendOutgoingMessage_cases m.accepted
  · obtain ⟨length, behind, front⟩ := front_of_holds holds sent
      ⟨by simp only; omega, by simp only; omega⟩ rfl rfl
    rw [sent] at has
    rw [processMessage_inline front m.encoder.typed has, length, sent]
    rfl
  · obtain ⟨length, behind, front⟩ := front_of_holds holds sent
      ⟨by simp only; omega, by simp only; omega⟩ (by simp) rfl
    have descriptors : m.packet.descriptors = sentDescriptors m.encoder.attachments ++ [fd] := by
      simp [sent, packet, sentDescriptors, Attachment.fileDescriptor, real]
    rw [descriptors, List.append_assoc, List.singleton_append] at has
    rw [processMessage_outOfLine front m.encoder.typed real (by omega) (maps fd _ (by rw [sent]; rfl))
      has, length, descriptors]
    simp

end NetRider.Ipc
