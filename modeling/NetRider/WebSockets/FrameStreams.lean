import NetRider.WebSockets.WebSocketFrame

/-!
# Frames at the front of a stream

What `parseFrame` makes of the bytes that have arrived does not change when more arrive, unless it
waits for them.
-/

namespace NetRider.WebSockets

namespace WebSocketFrame

theorem readPayloadLength_append {payloadLength : Nat} {p more : List UInt8}
    (known : readPayloadLength payloadLength p ≠ .error .frameIncomplete) :
    readPayloadLength payloadLength (p ++ more) =
      match readPayloadLength payloadLength p with
      | .ok (length, rest) => .ok (length, rest ++ more)
      | .error result => .error result := by
  unfold readPayloadLength at known ⊢
  by_cases extended : payloadLength > maxPayloadLengthWithoutExtendedLengthField
  · simp only [extended, if_true] at known ⊢
    generalize (if payloadLength = payloadLengthWithTwoByteExtendedLengthField then 2 else 8) = size
      at known ⊢
    by_cases short : p.length < size
    · simp only [short, if_true] at known
      exact absurd rfl known
    · have long : size ≤ p.length := not_lt.mp short
      have still : ¬ (p ++ more).length < size := by
        rw [List.length_append]
        omega
      simp only [short, still, if_false, List.take_append_of_le_length long,
        List.drop_append_of_le_length long]
      split_ifs <;> rfl
  · simp only [extended, if_false]

/-- What is behind the length, or why there is none. -/
theorem readPayloadLength_cases (payloadLength : Nat) (p : List UInt8) :
    (∃ length rest, readPayloadLength payloadLength p = .ok (length, rest) ∧ rest <:+ p) ∨
      readPayloadLength payloadLength p = .error .frameIncomplete ∨
      ∃ error, readPayloadLength payloadLength p = .error (.frameError error) := by
  unfold readPayloadLength
  by_cases extended : payloadLength > maxPayloadLengthWithoutExtendedLengthField
  · simp only [extended, if_true]
    generalize (if payloadLength = payloadLengthWithTwoByteExtendedLengthField then 2 else 8) = size
    split_ifs
    · exact .inr (.inl rfl)
    · exact .inr (.inr ⟨_, rfl⟩)
    · exact .inr (.inr ⟨_, rfl⟩)
    · exact .inl ⟨_, _, rfl, List.drop_suffix _ _⟩
  · exact .inl ⟨_, _, if_neg extended, List.suffix_refl _⟩

/-- `parseFrame` behind the length. -/
def parseBody (data : List UInt8) (firstByte : UInt8) (masked : Prop) [Decidable masked]
    (payloadLength : Nat) (p : List UInt8) : List UInt8 × ParseFrameResult :=
  let maskingKeyLength := if masked then maskingKeyWidthInBytes else 0
  if payloadLength > maxPayloadLength ∨ payloadLength + maskingKeyLength > sizeMax then
    (data, .frameError (lengthError payloadLength))
  else if p.length < maskingKeyLength + payloadLength then (data, .frameIncomplete)
  else
    let payloadStart := data.length - p.length + maskingKeyLength
    let payload := (p.drop maskingKeyLength).take payloadLength
    let payload := if masked then applyMask (p.take maskingKeyWidthInBytes) payload else payload
    let frame :=
      { opCode := firstByte &&& opCodeMask
        final := firstByte &&& finalBit ≠ 0
        compress := firstByte &&& compressBit ≠ 0
        reserved2 := firstByte &&& reserved2Bit ≠ 0
        reserved3 := firstByte &&& reserved3Bit ≠ 0
        masked, payload }
    (data.take payloadStart ++ payload ++ p.drop (maskingKeyLength + payloadLength),
      .frameOK frame (payloadStart + payloadLength))

theorem parseFrame_cons (firstByte secondByte : UInt8) (p : List UInt8) :
    parseFrame (firstByte :: secondByte :: p) =
      match readPayloadLength (secondByte &&& payloadLengthMask).toNat p with
      | .error result => (firstByte :: secondByte :: p, result)
      | .ok (payloadLength, rest) => parseBody (firstByte :: secondByte :: p) firstByte
          (secondByte &&& maskBit ≠ 0) payloadLength rest := rfl

section

variable {data p more : List UInt8} {firstByte : UInt8} {masked : Prop} [Decidable masked]
  {payloadLength : Nat}

theorem payload_length {k : Nat} (enough : k + payloadLength ≤ p.length) :
    (let payload := (p.drop k).take payloadLength
      if masked then applyMask (p.take maskingKeyWidthInBytes) payload else payload).length =
      payloadLength := by
  have size : ((p.drop k).take payloadLength).length = payloadLength := by
    rw [List.length_take, List.length_drop]
    omega
  simp only
  split_ifs
  · rw [applyMask_length, size]
  · exact size

theorem parseBody_append (behind : p.length ≤ data.length)
    (known : (parseBody data firstByte masked payloadLength p).2 ≠ .frameIncomplete) :
    parseBody (data ++ more) firstByte masked payloadLength (p ++ more) =
      ((parseBody data firstByte masked payloadLength p).1 ++ more,
        (parseBody data firstByte masked payloadLength p).2) := by
  unfold parseBody at known ⊢
  simp only at known ⊢
  by_cases large : payloadLength > maxPayloadLength ∨
      payloadLength + (if masked then maskingKeyWidthInBytes else 0) > sizeMax
  · simp only [large, if_true]
  · simp only [large, if_false] at known ⊢
    by_cases short : p.length < (if masked then maskingKeyWidthInBytes else 0) + payloadLength
    · simp only [short, if_true] at known
      exact absurd rfl known
    · have enough := not_lt.mp short
      have still : ¬ (p ++ more).length <
          (if masked then maskingKeyWidthInBytes else 0) + payloadLength := by
        rw [List.length_append]
        omega
      have start : (data ++ more).length - (p ++ more).length = data.length - p.length := by
        rw [List.length_append, List.length_append]
        omega
      have key : masked → (p ++ more).take maskingKeyWidthInBytes =
          p.take maskingKeyWidthInBytes := by
        intro isMasked
        rw [if_pos isMasked] at enough
        exact List.take_append_of_le_length (by omega)
      have payload : ((p ++ more).drop (if masked then maskingKeyWidthInBytes else 0)).take
          payloadLength = (p.drop (if masked then maskingKeyWidthInBytes else 0)).take
          payloadLength := by
        rw [List.drop_append_of_le_length (by omega), List.take_append_of_le_length]
        rw [List.length_drop]
        omega
      have front : (data ++ more).take (data.length - p.length +
          if masked then maskingKeyWidthInBytes else 0) = data.take (data.length - p.length +
          if masked then maskingKeyWidthInBytes else 0) :=
        List.take_append_of_le_length (by omega)
      have rest : (p ++ more).drop ((if masked then maskingKeyWidthInBytes else 0) +
          payloadLength) = p.drop ((if masked then maskingKeyWidthInBytes else 0) +
          payloadLength) ++ more := List.drop_append_of_le_length enough
      simp only [short, still, if_false, start, payload, front, rest]
      by_cases isMasked : masked
      · simp only [isMasked, if_true, key isMasked, List.append_assoc]
      · simp only [isMasked, if_false, List.append_assoc]

/-- A frame that is there as a whole is at least two bytes, and nothing behind it changes. -/
theorem parseBody_ok {frame : WebSocketFrame} {frameEnd : Nat} {left : List UInt8}
    (behind : p.length + 2 ≤ data.length) (suffix : data.drop (data.length - p.length) = p)
    (ok : parseBody data firstByte masked payloadLength p = (left, .frameOK frame frameEnd)) :
    2 ≤ frameEnd ∧ frameEnd ≤ data.length ∧ left.drop frameEnd = data.drop frameEnd := by
  unfold parseBody at ok
  simp only at ok
  by_cases large : payloadLength > maxPayloadLength ∨
      payloadLength + (if masked then maskingKeyWidthInBytes else 0) > sizeMax
  · simp [large] at ok
  · simp only [large, if_false] at ok
    by_cases short : p.length < (if masked then maskingKeyWidthInBytes else 0) + payloadLength
    · simp [short] at ok
    · have enough := not_lt.mp short
      have size := @payload_length p masked _ payloadLength _ enough
      simp only [short, if_false, Prod.mk.injEq, ParseFrameResult.frameOK.injEq] at ok
      obtain ⟨rfl, -, rfl⟩ := ok
      refine ⟨by omega, by omega, ?_⟩
      have behindStart : ∀ n, data.drop (data.length - p.length + n) = p.drop n := by
        intro n
        rw [← List.drop_drop, suffix]
      rw [List.drop_left']
      · rw [Nat.add_assoc, behindStart]
      · simp only at size
        rw [List.length_append, List.length_take, size]
        omega

end

theorem parseFrame_ok {data : List UInt8} {frame : WebSocketFrame} {frameEnd : Nat}
    {left : List UInt8} (ok : parseFrame data = (left, .frameOK frame frameEnd)) :
    2 ≤ frameEnd ∧ frameEnd ≤ data.length ∧ left.drop frameEnd = data.drop frameEnd := by
  cases data with
  | nil => cases ok
  | cons firstByte data =>
  cases data with
  | nil => cases ok
  | cons secondByte p =>
    rw [parseFrame_cons] at ok
    obtain ⟨payloadLength, rest, read, suffix⟩ | read | ⟨error, read⟩ :=
      readPayloadLength_cases (secondByte &&& payloadLengthMask).toNat p
    · rw [read] at ok
      have shorter := suffix.length_le
      have whole : rest <:+ firstByte :: secondByte :: p :=
        suffix.trans ((List.suffix_cons _ _).trans (List.suffix_cons _ _))
      have behind : rest.length + 2 ≤ (firstByte :: secondByte :: p).length := by
        rw [List.length_cons, List.length_cons]
        omega
      exact parseBody_ok behind (List.suffix_iff_eq_drop.mp whole).symm ok
    · rw [read] at ok
      cases ok
    · rw [read] at ok
      cases ok

/-- What is complete at the front of the data stays so when more data comes. -/
theorem parseFrame_append {data more : List UInt8}
    (known : (parseFrame data).2 ≠ .frameIncomplete) :
    parseFrame (data ++ more) = ((parseFrame data).1 ++ more, (parseFrame data).2) := by
  cases data with
  | nil => exact absurd rfl known
  | cons firstByte data =>
  cases data with
  | nil => exact absurd rfl known
  | cons secondByte p =>
    rw [parseFrame_cons] at known
    rw [List.cons_append, List.cons_append, parseFrame_cons, parseFrame_cons]
    have complete : readPayloadLength (secondByte &&& payloadLengthMask).toNat p ≠
        .error .frameIncomplete := by
      intro incomplete
      rw [incomplete] at known
      exact known rfl
    rw [readPayloadLength_append complete]
    obtain ⟨payloadLength, rest, read, suffix⟩ | read | ⟨error, read⟩ :=
      readPayloadLength_cases (secondByte &&& payloadLengthMask).toNat p
    · rw [read] at known ⊢
      have shorter : rest.length ≤ (firstByte :: secondByte :: p).length :=
        Nat.le_add_right_of_le (Nat.le_add_right_of_le suffix.length_le)
      exact parseBody_append shorter known
    · exact absurd read complete
    · rw [read]
      rfl

end WebSocketFrame

end NetRider.WebSockets
