import NetRider.Ipc.Delivery

/-!
# Messages survive the wire

All the messages in the buffers of a connection, and one packet on its way into them.

* `shift_holds_iff`: behind a delivered message the others are left, unless descriptors of
  theirs stand behind descriptors of this one;
* `packet_fits_iff`: when a packet fits the peer's buffer at all.
-/

namespace NetRider.Ipc

open NetRider.Lib

/-! ## What is left behind it -/

theorem shiftBytes_holds {c : Connection} {m : Sent} {rest : List Sent}
    (holds : c.Holds (m :: rest)) :
    ∃ c', c.shiftBytes m.packet.bytes.length = some c' ∧
      (∃ junk, c'.readBuffer.1 = (rest.flatMap fun m => m.packet.bytes) ++ junk) ∧
      c'.readBufferSize = (rest.flatMap fun m => m.packet.bytes).length ∧
      c'.fileDescriptors = c.fileDescriptors ∧ c'.fileDescriptorsSize = c.fileDescriptorsSize := by
  obtain ⟨⟨junk, bytes⟩, bytesSize, -, -⟩ := holds
  simp only [List.flatMap_cons, List.length_append] at bytes bytesSize
  unfold Connection.shiftBytes
  by_cases more : c.readBufferSize > m.packet.bytes.length
  · obtain ⟨moved, run, front⟩ := Block.moveToFront_spec bytes
    have left : c.readBufferSize - m.packet.bytes.length =
        (rest.flatMap fun m => m.packet.bytes).length := by omega
    rw [if_pos more, left, run]
    exact ⟨_, rfl, front, rfl, rfl, rfl⟩
  · rw [if_neg more]
    have none_left : rest.flatMap (fun m => m.packet.bytes) = [] :=
      List.length_eq_zero_iff.mp (by omega)
    exact ⟨_, rfl, ⟨c.readBuffer.1, by simp [none_left]⟩, by simp [none_left], rfl, rfl⟩

/-- With descriptors of its own in front of others, a message leaves the wrong number. -/
theorem shiftDescriptors_wrong {c c' : Connection} {k r : Nat} (own : k ≠ 0) (others : r ≠ 0)
    (few : k + r ≤ attachmentMaxAmount) (size : c.fileDescriptorsSize = k + r)
    (shifted : c.shiftDescriptors k = some c') : c'.fileDescriptorsSize ≠ r := by
  have more : c.fileDescriptorsSize > k := by omega
  simp only [Connection.shiftDescriptors, own, ne_eq, not_false_eq_true, if_true, if_pos more]
    at shifted
  obtain ⟨moved, -, result⟩ := Option.bind_eq_some_iff.mp shifted
  cases result
  simp only [attachmentMaxAmount] at few
  simp only [sizeofInt, size, sizeT_of_lt (show k * 4 < 2 ^ 64 by omega)]
  rcases Nat.lt_or_ge (k + r) (k * 4) with less | enough
  · rw [subT_of_lt less (by omega)]
    omega
  · rw [subT_of_le enough (by omega)]
    omega

/-- The message has an attachment that is not null, or its body becomes one. -/
def MessageEncoder.carriesDescriptor (encoder : MessageEncoder) : Bool :=
  encoder.isOutOfLine || encoder.attachments.any (·.fileDescriptor != noFd)

theorem carriesDescriptor_iff (m : Sent) :
    m.encoder.carriesDescriptor = true ↔ m.packet.descriptors ≠ [] := by
  obtain ⟨-, ⟨inline, sent⟩ | ⟨outOfLine, fd, real, sent⟩⟩ := sendOutgoingMessage_cases m.accepted
  · simp [MessageEncoder.carriesDescriptor, inline, sent, packet, sentDescriptors]
  · simp [MessageEncoder.carriesDescriptor, outOfLine, sent, packet, sentDescriptors,
      Attachment.fileDescriptor, real]

theorem shift_holds_iff {c : Connection} {m : Sent} {rest : List Sent}
    (holds : c.Holds (m :: rest)) :
    (∃ c', (c.shiftBytes m.packet.bytes.length).bind
        (·.shiftDescriptors m.packet.descriptors.length) = some c' ∧ c'.Holds rest) ↔
      (m.encoder.carriesDescriptor = true → ∀ r ∈ rest, r.encoder.carriesDescriptor = false) := by
  obtain ⟨c₁, shifted, bytes, bytesSize, same, sameSize⟩ := shiftBytes_holds holds
  obtain ⟨-, -, has, size⟩ := holds
  have few := has.count_le
  simp only [List.flatMap_cons, List.length_append] at has size few
  rw [shifted, Option.bind_some]
  have none_carries : (∀ r ∈ rest, r.encoder.carriesDescriptor = false) ↔
      rest.flatMap (fun m => m.packet.descriptors) = [] := by
    simp only [← Bool.not_eq_true, carriesDescriptor_iff, ne_eq, not_not, List.flatMap_eq_nil_iff]
  rw [none_carries, carriesDescriptor_iff]
  constructor
  · rintro ⟨c', moved, holds'⟩ own
    by_contra others
    exact shiftDescriptors_wrong (mt List.length_eq_zero_iff.mp own)
      (mt List.length_eq_zero_iff.mp others) few (sameSize.trans size) moved holds'.descriptorsSize
  · intro alone
    by_cases own : m.packet.descriptors = []
    · refine ⟨c₁, by simp [Connection.shiftDescriptors, own], bytes, bytesSize, ?_, ?_⟩
      · simpa [Connection.HasDescriptors, same, own] using has
      · rw [sameSize, size, own, List.length_nil, Nat.zero_add]
    · have none_left := alone own
      have at_most : ¬ c₁.fileDescriptorsSize > m.packet.descriptors.length := by
        rw [sameSize, size, none_left, List.length_nil]
        omega
      refine ⟨{ c₁ with fileDescriptorsSize := 0 }, ?_, bytes, bytesSize, ?_, ?_⟩
      · simp [Connection.shiftDescriptors, own, at_most]
      · exact ⟨c₁.fileDescriptors.1, by simp [none_left, descriptorBytes]⟩
      · simp [none_left]

/-! ## All messages in the buffers -/

/-- The attachments as a client decodes them, one `removeAttachment` after the other. -/
def MessageDecoder.decodeOrder : Nat → MessageDecoder → List Attachment
  | 0, _ => []
  | n + 1, d =>
    match d.removeAttachment with
    | none => []
    | some (attachment, d) => attachment :: d.decodeOrder n

theorem decodeOrder_reverse (body : List UInt8) (as : List Attachment) :
    (MessageDecoder.mk body as.reverse).decodeOrder as.length = as := by
  induction as with
  | nil => rfl
  | cons a as ih => simp [MessageDecoder.decodeOrder, MessageDecoder.removeAttachment, ih]

/-- Repeated calls deliver these messages as they were sent and then wait, with the
messages not yet delivered left in the buffers after each call. -/
def Drains (mapped : Fd → Nat → Option (List UInt8)) : List Sent → Connection → Prop
  | [], c => c.processMessage mapped = .error .waits
  | m :: rest, c => ∃ decoder c', c.processMessage mapped = .ok (decoder, some c') ∧
      decoder.body = m.encoder.buffer ∧
      decoder.decodeOrder decoder.attachments.length = m.encoder.attachments ∧
      c'.Holds rest ∧ Drains mapped rest c'

theorem drains_cons_iff {mapped : Fd → Nat → Option (List UInt8)} {m : Sent} {rest : List Sent}
    {c : Connection} (holds : c.Holds (m :: rest)) (maps : Maps mapped m) :
    Drains mapped (m :: rest) c ↔ ∃ c', (c.shiftBytes m.packet.bytes.length).bind
      (·.shiftDescriptors m.packet.descriptors.length) = some c' ∧ c'.Holds rest ∧
        Drains mapped rest c' := by
  simp only [Drains, processMessage_delivers holds maps, Except.ok.injEq, Prod.mk.injEq]
  constructor
  · rintro ⟨-, c', ⟨rfl, shifted⟩, -, -, drained⟩
    exact ⟨c', shifted, drained⟩
  · rintro ⟨c', shifted, drained⟩
    refine ⟨_, c', ⟨rfl, shifted⟩, rfl, ?_, drained⟩
    rw [List.length_reverse, decodeOrder_reverse]

theorem drains_nil {mapped : Fd → Nat → Option (List UInt8)} {c : Connection} (holds : c.Holds []) :
    Drains mapped [] c := by
  have size : c.readBufferSize = 0 := holds.bytesSize
  simp [Drains, Connection.processMessage, size, sizeofMessageInfo]

/-- A message of one byte with one socket, or a null one for `-1`. -/
def socketMessage (fd : Fd) : Sent where
  env := ⟨none, fun _ => 0, fun _ _ => 0⟩
  encoder := ⟨[1], [.socketType fd], by simp, by simp⟩
  packet := packet ⟨none, fun _ => 0, fun _ _ => 0⟩ ⟨1, 1, false⟩ [.socketType fd] [1] none
  accepted := rfl

/-- A connection that has received these messages and nothing else. -/
def loaded (sent : List Sent)
    (bytesFit : (sent.flatMap fun m => m.packet.bytes).length ≤ messageMaxSize)
    (descriptorsFit : (sent.flatMap fun m => m.packet.descriptors).length ≤ attachmentMaxAmount) :
    Connection where
  readBuffer := ⟨(sent.flatMap fun m => m.packet.bytes) ++
    List.replicate (messageMaxSize - (sent.flatMap fun m => m.packet.bytes).length) 0, by
      rw [List.length_append, List.length_replicate]
      omega⟩
  readBufferSize := (sent.flatMap fun m => m.packet.bytes).length
  fileDescriptors := ⟨descriptorBytes (sent.flatMap fun m => m.packet.descriptors) ++
    List.replicate (attachmentMaxAmount * sizeofInt -
      (descriptorBytes (sent.flatMap fun m => m.packet.descriptors)).length) 0, by
      have := Nat.mul_le_mul_right sizeofInt descriptorsFit
      rw [List.length_append, List.length_replicate, descriptorBytes_length]
      omega⟩
  fileDescriptorsSize := (sent.flatMap fun m => m.packet.descriptors).length

theorem loaded_holds {sent : List Sent} (bytesFit descriptorsFit) :
    (loaded sent bytesFit descriptorsFit).Holds sent :=
  ⟨⟨_, rfl⟩, rfl, ⟨_, rfl⟩, rfl⟩

/-- **Framing.** The messages in the buffers are all delivered as they were sent, with the
rest in place after each call, exactly when at most one of them carries descriptors. -/
theorem framing_delivers_iff {mapped : Fd → Nat → Option (List UInt8)} {sent : List Sent}
    {c : Connection} (holds : c.Holds sent) (maps : ∀ m ∈ sent, Maps mapped m) :
    Drains mapped sent c ↔ sent.countP (·.encoder.carriesDescriptor) ≤ 1 := by
  induction sent generalizing c with
  | nil => simp [drains_nil holds]
  | cons m rest ih =>
    have ih := fun (c : Connection) (holds : c.Holds rest) => ih holds fun r mem => maps r (by simp [mem])
    have shift := shift_holds_iff holds
    rw [drains_cons_iff holds (maps m (by simp))]
    have step : (∃ c', (c.shiftBytes m.packet.bytes.length).bind
        (·.shiftDescriptors m.packet.descriptors.length) = some c' ∧ c'.Holds rest ∧
          Drains mapped rest c') ↔
        (m.encoder.carriesDescriptor = true → ∀ r ∈ rest, r.encoder.carriesDescriptor = false) ∧
          rest.countP (·.encoder.carriesDescriptor) ≤ 1 := by
      rw [← shift]
      constructor
      · rintro ⟨c', shifted, holds', drains⟩
        exact ⟨⟨c', shifted, holds'⟩, (ih c' holds').mp drains⟩
      · rintro ⟨⟨c', shifted, holds'⟩, few⟩
        exact ⟨c', shifted, holds', (ih c' holds').mpr few⟩
    rw [step, List.countP_cons]
    have none_iff : (∀ r ∈ rest, r.encoder.carriesDescriptor = false) ↔
        rest.countP (·.encoder.carriesDescriptor) = 0 := by
      simp [List.countP_eq_zero]
    rw [none_iff]
    generalize rest.countP (·.encoder.carriesDescriptor) = n
    cases m.encoder.carriesDescriptor with
    | false => simp
    | true => simp only [true_implies, if_true]; omega

theorem framing_delivers_a_socket :
    Drains (fun _ _ => none) [socketMessage 7, socketMessage noFd]
      (loaded [socketMessage 7, socketMessage noFd] (by decide) (by decide)) :=
  (framing_delivers_iff (loaded_holds _ _)
    (by simp [Maps, socketMessage, packet])).mpr (by decide)

/-- Two messages with one socket each: the first call loses the second one's. -/
theorem framing_loses_a_socket :
    ¬ Drains (fun _ _ => none) [socketMessage 7, socketMessage 8]
      (loaded [socketMessage 7, socketMessage 8] (by decide) (by decide)) := by
  intro drains
  have holds : (loaded [socketMessage 7, socketMessage 8] (by decide) (by decide)).Holds
    [socketMessage 7, socketMessage 8] := loaded_holds _ _
  obtain ⟨c', shifted, left, -⟩ :=
    (drains_cons_iff holds (by simp [Maps, socketMessage, packet])).mp drains
  exact absurd ((shift_holds_iff holds).mp ⟨c', shifted, left⟩ (by decide) (socketMessage 8)
    (by simp)) (by decide)

/-! ## One packet, one `recvmsg` -/

/-- The packet fits the peer's empty buffer, arrives whole, and is not waited for. -/
def ReceivedWhole (mapped : Fd → Nat → Option (List UInt8)) (c : Connection) (p : Packet) : Prop :=
  p.bytes.length ≤ messageMaxSize ∧
  ∃ c', c.receive p = some c' ∧ c'.readBuffer.1.take c'.readBufferSize = p.bytes ∧
    c'.processMessage mapped ≠ .error .waits

theorem isOutOfLine_iff {encoder : MessageEncoder} (few : encoder.attachments.length ≤ 254) :
    encoder.isOutOfLine = true ↔
      4096 < 24 + encoder.attachments.length * 24 + encoder.buffer.length ∧
        encoder.buffer.length ≠ 0 := by
  have fits := encoder.fits
  have small : sizeofMessageInfo + encoder.attachments.length * sizeofAttachmentInfo +
      encoder.buffer.length < 2 ^ 64 := by
    simp only [sizeofMessageInfo, sizeofAttachmentInfo]
    omega
  rw [MessageEncoder.isOutOfLine, sizeT_of_lt small]
  simp [sizeofMessageInfo, sizeofAttachmentInfo, messageMaxSize]

/-- The out-of-line switch makes room for the body and adds one `AttachmentInfo`. -/
theorem packet_fits_iff (m : Sent) :
    m.packet.bytes.length ≤ messageMaxSize ↔
      m.encoder.attachments.length ≤ 168 ∨
        (m.encoder.attachments.length = 169 ∧ m.encoder.buffer.length ≤ 16) := by
  obtain ⟨few, ⟨inline, sent⟩ | ⟨outOfLine, fd, -, sent⟩⟩ := sendOutgoingMessage_cases m.accepted
  · have inline := mt (isOutOfLine_iff few).mpr (by simp [inline])
    rw [sent, packet_length]
    simp only [sizeofMessageInfo, sizeofAttachmentInfo, messageMaxSize]
    omega
  · have outOfLine := (isOutOfLine_iff few).mp outOfLine
    rw [sent, packet_length]
    simp only [sizeofMessageInfo, sizeofAttachmentInfo, messageMaxSize, List.length_append,
      List.length_singleton, List.length_nil]
    omega

theorem descriptors_length_le (m : Sent) : m.packet.descriptors.length ≤ attachmentMaxAmount := by
  have filtered (as : List Attachment) : (sentDescriptors as).length ≤ as.length :=
    (List.length_filter_le _ _).trans (by simp)
  obtain ⟨few, ⟨-, sent⟩ | ⟨-, fd, -, sent⟩⟩ := sendOutgoingMessage_cases m.accepted
  · rw [sent]
    exact (filtered _).trans (few.trans (by decide))
  · rw [sent]
    refine (filtered _).trans ?_
    rw [List.length_append, List.length_singleton]
    exact Nat.succ_le_succ few

/-- An empty connection that receives a packet that fits holds it and nothing else. -/
theorem receive_holds {c : Connection} {m : Sent} (empty : c.Holds [])
    (fits : m.packet.bytes.length ≤ messageMaxSize) :
    ∃ c', c.receive m.packet = some c' ∧ c'.Holds [m] := by
  have noBytes : c.readBufferSize = 0 := empty.bytesSize
  have noDescriptors : c.fileDescriptorsSize = 0 := empty.descriptorsSize
  have few := Nat.mul_le_mul_right sizeofInt (descriptors_length_le m)
  rw [← descriptorBytes_length] at few
  have whole : m.packet.bytes.take messageMaxSize = m.packet.bytes := List.take_of_length_le fits
  obtain ⟨readBuffer, wrote, bytes⟩ := Block.write_front (b := c.readBuffer) fits
  obtain ⟨fileDescriptors, wroteFds, fds⟩ := Block.write_front (b := c.fileDescriptors) few
  refine ⟨⟨readBuffer, m.packet.bytes.length, fileDescriptors, m.packet.descriptors.length⟩, ?_,
    ?_, ?_, ?_, ?_⟩
  · simp [Connection.receive, noBytes, noDescriptors, whole, wrote, wroteFds]
  · simpa using bytes
  · simp
  · simpa [Connection.HasDescriptors] using fds
  · simp

theorem oolMessageBody_ne_waits {c : Connection} {mapped : Fd → Nat → Option (List UInt8)}
    {infos : List AttachmentInfo} {attachmentCount : Nat} :
    c.oolMessageBody mapped infos attachmentCount ≠ .error .waits := by
  unfold Connection.oolMessageBody
  cases infos[attachmentCount]? with
  | none => simp [orFaults]
  | some info =>
    cases null : info.isNull with
    | true => simp [null]
    | false =>
      cases c.descriptorAt (subT (attachmentFileDescriptorCount infos) 1) with
      | none => simp [null, orFaults]
      | some fd => cases found : mapped fd info.size <;> simp [null, found]

/-- `processMessage` waits only when the length the header announces has not arrived. -/
theorem processMessage_ne_waits {c : Connection} {mapped : Fd → Nat → Option (List UInt8)}
    (header : sizeofMessageInfo ≤ c.readBufferSize)
    (enough : (MessageInfo.decode c.readBuffer.1).messageLength ≤ c.readBufferSize) :
    c.processMessage mapped ≠ .error .waits := by
  simp only [Connection.processMessage, if_neg (Nat.not_lt.mpr header),
    if_neg (Nat.not_lt.mpr enough)]
  generalize MessageInfo.decode c.readBuffer.1 = info
  generalize decodeAttachmentInfos info.attachmentCount _ = infos
  by_cases beyond : messageMaxSize < sizeofMessageInfo + info.attachmentCount * sizeofAttachmentInfo
  · simp [beyond]
  generalize (if info.isMessageBodyOutOfLine = true then info.attachmentCount - 1
    else info.attachmentCount) = count
  cases c.takeAttachments (infos.take count) 0 with
  | none => simp [beyond, orFaults]
  | some attachments =>
    cases info.isMessageBodyOutOfLine with
    | false => simp [beyond]; split <;> simp
    | true =>
      cases ool : c.oolMessageBody mapped infos count with
      | error stop =>
        simp [beyond]
        rintro rfl
        exact oolMessageBody_ne_waits ool
      | ok body => simp [beyond]; split <;> simp

theorem holds_ne_waits {c : Connection} {mapped : Fd → Nat → Option (List UInt8)} {m : Sent}
    {rest : List Sent} (holds : c.Holds (m :: rest)) : c.processMessage mapped ≠ .error .waits := by
  have fits := m.encoder.fits
  obtain ⟨few, ⟨-, sent⟩ | ⟨-, fd, -, sent⟩⟩ := sendOutgoingMessage_cases m.accepted
  · obtain ⟨-, behind, front⟩ := front_of_holds holds sent
      ⟨by simp only; omega, by simp only; omega⟩ rfl rfl
    exact processMessage_ne_waits front.header (front.decoded ▸ front.enough)
  · obtain ⟨-, behind, front⟩ := front_of_holds holds sent
      ⟨by simp only; omega, by simp only; omega⟩ (by simp) rfl
    exact processMessage_ne_waits front.header (front.decoded ▸ front.enough)

/-- **Packet size.** A packet fits the peer's buffer, arrives whole and is not waited for
exactly up to 168 attachments, or with 169 and a body of at most 16 bytes. -/
theorem received_whole_iff {mapped : Fd → Nat → Option (List UInt8)} {c : Connection} (m : Sent)
    (empty : c.Holds []) :
    ReceivedWhole mapped c m.packet ↔
      m.encoder.attachments.length ≤ 168 ∨
        (m.encoder.attachments.length = 169 ∧ m.encoder.buffer.length ≤ 16) := by
  rw [← packet_fits_iff m]
  refine ⟨And.left, fun fits => ⟨fits, ?_⟩⟩
  obtain ⟨c', received, holds⟩ := receive_holds empty fits
  refine ⟨c', received, ?_, holds_ne_waits holds⟩
  obtain ⟨rest, bytes⟩ := holds.bytes
  simp [bytes, holds.bytesSize]

theorem received_whole_one_socket :
    ReceivedWhole (fun _ _ => none) (loaded [] (by decide) (by decide)) (socketMessage 7).packet :=
  (received_whole_iff (socketMessage 7) (loaded_holds _ _)).mpr (.inl (by decide))

/-- 170 null sockets and a byte, which goes to shared memory without making the packet fit. -/
def manySocketsEncoder : MessageEncoder where
  buffer := [1]
  attachments := List.replicate 170 (.socketType noFd)
  fits := by simp
  typed a mem := by
    rw [List.eq_of_mem_replicate mem]
    simp

def manySockets : Sent where
  env := ⟨some ⟨3, by decide⟩, fun _ => 0, fun _ _ => 0⟩
  encoder := manySocketsEncoder
  packet := packet ⟨some ⟨3, by decide⟩, fun _ => 0, fun _ _ => 0⟩ ⟨1, 171, true⟩
    (manySocketsEncoder.attachments ++ [.mappedMemoryType 3 1]) [] (some (3, [1]))
  accepted := by
    have count : manySocketsEncoder.attachments.length = 170 := List.length_replicate
    have outOfLine : manySocketsEncoder.isOutOfLine = true :=
      (isOutOfLine_iff (by rw [count]; decide)).mpr ⟨by rw [count]; decide, by decide⟩
    simp [sendOutgoingMessage, count, outOfLine, attachmentMaxAmount]
    rfl

theorem many_sockets_not_received_whole :
    ¬ ReceivedWhole (fun _ _ => none) (loaded [] (by decide) (by decide)) manySockets.packet := by
  intro received
  have few := (packet_fits_iff manySockets).mp received.1
  simp only [manySockets, manySocketsEncoder, List.length_replicate] at few
  omega

end NetRider.Ipc
