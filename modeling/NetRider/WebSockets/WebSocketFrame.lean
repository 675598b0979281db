import Mathlib
import NetRider.Lib.Bytes

/-!
# WebSocket frames

`makeFrameData` writes a frame and `parseFrame` reads one from the front of what has arrived. The
bytes behind the pointers `data` and `p` are lists, `frameEnd` is a position from the front.
-/

namespace NetRider.WebSockets

open NetRider.Lib

structure WebSocketFrame where
  opCode : UInt8
  final : Bool
  compress : Bool
  reserved2 : Bool
  reserved3 : Bool
  masked : Bool
  payload : List UInt8
  deriving DecidableEq, Repr

inductive ParseFrameResult
  | frameOK (frame : WebSocketFrame) (frameEnd : Nat)
  | frameIncomplete
  | frameError (errorString : String)
  deriving DecidableEq, Repr

namespace WebSocketFrame

def finalBit : UInt8 := 0x80
def compressBit : UInt8 := 0x40
def reserved2Bit : UInt8 := 0x20
def reserved3Bit : UInt8 := 0x10
def opCodeMask : UInt8 := 0xF
def maskBit : UInt8 := 0x80
def payloadLengthMask : UInt8 := 0x7F
def maxPayloadLengthWithoutExtendedLengthField : Nat := 125
def payloadLengthWithTwoByteExtendedLengthField : Nat := 126
def payloadLengthWithEightByteExtendedLengthField : Nat := 127
def maskingKeyWidthInBytes : Nat := 4
def maxPayloadLength : Nat := 0x7FFFFFFFFFFFFFFF
def sizeMax : Nat := 0xFFFFFFFFFFFFFFFF

def minimalLengthError : String := "The minimal number of bytes MUST be used to encode the length"

def lengthError (payloadLength : Nat) : String :=
  "WebSocket frame length too large: " ++ toString payloadLength ++ " bytes"

/-- The loop over the payload, in both directions. -/
def applyMask (maskingKey payload : List UInt8) : List UInt8 :=
  payload.mapIdx fun i byte => byte ^^^ maskingKey.getD (i % maskingKeyWidthInBytes) 0

/-- The loop over the bytes of an extended length. -/
def extendedPayloadLength (bytes : List UInt8) : Nat :=
  bytes.foldl (fun length byte => (length <<< 8) ||| byte.toNat) 0

/-- The part of `parseFrame` that reads the length: with the bytes behind it. -/
def readPayloadLength (payloadLength : Nat) (p : List UInt8) :
    Except ParseFrameResult (Nat × List UInt8) :=
  if payloadLength > maxPayloadLengthWithoutExtendedLengthField then
    let size := if payloadLength = payloadLengthWithTwoByteExtendedLengthField then 2 else 8
    if p.length < size then .error .frameIncomplete
    else
      let payloadLength := extendedPayloadLength (p.take size)
      if size = 2 ∧ payloadLength ≤ maxPayloadLengthWithoutExtendedLengthField then
        .error (.frameError minimalLengthError)
      else if size = 8 ∧ payloadLength ≤ 0xFFFF then .error (.frameError minimalLengthError)
      else .ok (payloadLength, p.drop size)
  else .ok (payloadLength, p)

/-- With the buffer that is left: the payload of a masked frame is unmasked in place. -/
def parseFrame (data : List UInt8) : List UInt8 × ParseFrameResult :=
  match data with
  | firstByte :: secondByte :: p =>
    let masked := secondByte &&& maskBit ≠ 0
    match readPayloadLength (secondByte &&& payloadLengthMask).toNat p with
    | .error result => (data, result)
    | .ok (payloadLength, p) =>
      let maskingKeyLength := if masked then maskingKeyWidthInBytes else 0
      if payloadLength > maxPayloadLength ∨ payloadLength + maskingKeyLength > sizeMax then
        (data, .frameError (lengthError payloadLength))
      else if p.length < maskingKeyLength + payloadLength then (data, .frameIncomplete)
      else
        let payloadStart := data.length - p.length + maskingKeyLength
        let payload := (p.drop maskingKeyLength).take payloadLength
        let payload := if masked then applyMask (p.take maskingKeyWidthInBytes) payload else payload
        let frame :=
          { opCode := firstByte &&& opCodeMask
            final := firstByte &&& finalBit ≠ 0
            compress := firstByte &&& compressBit ≠ 0
            reserved2 := firstByte &&& reserved2Bit ≠ 0
            reserved3 := firstByte &&& reserved3Bit ≠ 0
            masked, payload }
        (data.take payloadStart ++ payload ++ p.drop (maskingKeyLength + payloadLength),
          .frameOK frame (payloadStart + payloadLength))
  | _ => (data, .frameIncomplete)

/-- `maskingKey` is what `cryptographicallyRandomValues` gives. -/
def appendFramePayload (frame : WebSocketFrame) (maskingKey frameData : List UInt8) : List UInt8 :=
  if frame.masked then frameData ++ maskingKey ++ applyMask maskingKey frame.payload
  else frameData ++ frame.payload

/-- The code's vector holds less than 2^32 bytes; it crashes instead of building more. -/
def makeFrameData (frame : WebSocketFrame) (maskingKey : List UInt8) : List UInt8 :=
  let payloadLength := frame.payload.length
  let firstByte := (if frame.final then finalBit else 0) ||| (if frame.compress then compressBit else 0)
    ||| frame.opCode
  let secondByte := if frame.masked then maskBit else 0
  let frameData :=
    if payloadLength ≤ maxPayloadLengthWithoutExtendedLengthField then
      [firstByte, secondByte ||| UInt8.ofNat payloadLength]
    else if payloadLength ≤ 0xFFFF then
      [firstByte, secondByte ||| UInt8.ofNat payloadLengthWithTwoByteExtendedLengthField,
        UInt8.ofNat ((payloadLength &&& 0xFF00) >>> 8), UInt8.ofNat (payloadLength &&& 0xFF)]
    else
      firstByte :: (secondByte ||| UInt8.ofNat payloadLengthWithEightByteExtendedLengthField) ::
        (toLe 8 payloadLength).reverse
  appendFramePayload frame maskingKey frameData

/-! ## What is written -/

/-- The low seven bits of the second byte. -/
def lengthField (payloadLength : Nat) : Nat :=
  if payloadLength ≤ maxPayloadLengthWithoutExtendedLengthField then payloadLength
  else if payloadLength ≤ 0xFFFF then payloadLengthWithTwoByteExtendedLengthField
  else payloadLengthWithEightByteExtendedLengthField

/-- The bytes of the length that follow. -/
def extendedLength (payloadLength : Nat) : List UInt8 :=
  if payloadLength ≤ maxPayloadLengthWithoutExtendedLengthField then []
  else if payloadLength ≤ 0xFFFF then (toLe 2 payloadLength).reverse
  else (toLe 8 payloadLength).reverse

def firstByte (frame : WebSocketFrame) : UInt8 :=
  (if frame.final then finalBit else 0) ||| (if frame.compress then compressBit else 0) |||
    frame.opCode

def secondByte (frame : WebSocketFrame) : UInt8 :=
  (if frame.masked then maskBit else 0) ||| UInt8.ofNat (lengthField frame.payload.length)

/-- What follows the length. -/
def body (frame : WebSocketFrame) (maskingKey : List UInt8) : List UInt8 :=
  if frame.masked then maskingKey ++ applyMask maskingKey frame.payload else frame.payload

variable {frame : WebSocketFrame} {maskingKey : List UInt8}

theorem two_bytes (payloadLength : Nat) :
    [UInt8.ofNat ((payloadLength &&& 0xFF00) >>> 8), UInt8.ofNat (payloadLength &&& 0xFF)] =
      (toLe 2 payloadLength).reverse := by
  have low : payloadLength &&& 0xFF = payloadLength % 256 := Nat.and_two_pow_sub_one_eq_mod _ 8
  have high : (payloadLength &&& 0xFF00) >>> 8 = payloadLength / 256 % 256 := by
    rw [Nat.shiftRight_and_distrib, Nat.shiftRight_eq_div_pow]
    exact Nat.and_two_pow_sub_one_eq_mod _ 8
  have modulo : ∀ n, UInt8.ofNat (n % 256) = UInt8.ofNat n := fun n =>
    UInt8.toNat_inj.mp (by rw [UInt8.toNat_ofNat', UInt8.toNat_ofNat', Nat.mod_mod])
  rw [low, high, modulo, modulo]
  rfl

theorem makeFrameData_eq (frame : WebSocketFrame) (maskingKey : List UInt8) :
    makeFrameData frame maskingKey = firstByte frame :: secondByte frame ::
      (extendedLength frame.payload.length ++ body frame maskingKey) := by
  have written : makeFrameData frame maskingKey = appendFramePayload frame maskingKey
      (firstByte frame :: secondByte frame :: extendedLength frame.payload.length) := by
    unfold makeFrameData secondByte lengthField extendedLength firstByte
    dsimp only
    by_cases short : frame.payload.length ≤ maxPayloadLengthWithoutExtendedLengthField
    · rw [if_pos short, if_pos short, if_pos short]
    rw [if_neg short, if_neg short, if_neg short]
    by_cases two : frame.payload.length ≤ 0xFFFF
    · rw [if_pos two, if_pos two, if_pos two, ← two_bytes]
    · rw [if_neg two, if_neg two, if_neg two]
  rw [written, appendFramePayload, body]
  split_ifs <;> simp

/-! ## What is read -/

theorem applyMask_applyMask (maskingKey payload : List UInt8) :
    applyMask maskingKey (applyMask maskingKey payload) = payload := by
  rw [applyMask, applyMask]
  apply List.ext_getElem
  · simp
  · intro i _ _
    simp

theorem applyMask_length (maskingKey payload : List UInt8) :
    (applyMask maskingKey payload).length = payload.length := by
  simp [applyMask]

theorem extendedPayloadLength_reverse (bytes : List UInt8) :
    extendedPayloadLength bytes.reverse = ofLe bytes := by
  rw [extendedPayloadLength, List.foldl_reverse]
  induction bytes with
  | nil => rfl
  | cons byte bytes ih =>
    rw [List.foldr_cons, ih, ofLe, ← Nat.shiftLeft_add_eq_or_of_lt byte.toNat_lt, Nat.shiftLeft_eq]
    omega

theorem lengthField_lt (payloadLength : Nat) : lengthField payloadLength < 128 := by
  unfold lengthField maxPayloadLengthWithoutExtendedLengthField
    payloadLengthWithTwoByteExtendedLengthField payloadLengthWithEightByteExtendedLengthField
  split_ifs <;> omega

theorem extendedPayloadLength_toLe {n payloadLength : Nat} (fits : payloadLength < 256 ^ n)
    (rest : List UInt8) :
    extendedPayloadLength (((toLe n payloadLength).reverse ++ rest).take n) = payloadLength := by
  have size : (toLe n payloadLength).reverse.length = n := by simp
  rw [List.take_left' size, extendedPayloadLength_reverse, ofLe_toLe_of_lt fits]

theorem eight_ne_two :
    payloadLengthWithEightByteExtendedLengthField ≠ payloadLengthWithTwoByteExtendedLengthField := by
  decide

/-- The length that is read is the one that was written. -/
theorem readPayloadLength_extended {payloadLength : Nat} (fits : payloadLength ≤ maxPayloadLength)
    (rest : List UInt8) :
    readPayloadLength (lengthField payloadLength) (extendedLength payloadLength ++ rest) =
      .ok (payloadLength, rest) := by
  unfold readPayloadLength lengthField extendedLength
  by_cases short : payloadLength ≤ maxPayloadLengthWithoutExtendedLengthField
  · rw [if_pos short, if_neg (not_lt.mpr short), if_pos short]
    rfl
  rw [if_neg short, if_neg short]
  by_cases two : payloadLength ≤ 0xFFFF
  · rw [if_pos two, if_pos two, if_pos (by decide), if_pos rfl]
    have size : (toLe 2 payloadLength).reverse.length = 2 := by simp
    have bound : payloadLength < 256 ^ 2 := by omega
    have read := extendedPayloadLength_toLe bound rest
    have whole : ¬ ((toLe 2 payloadLength).reverse ++ rest).length < 2 := by
      rw [List.length_append, size]
      omega
    dsimp only
    rw [if_neg whole, read, if_neg (fun both => short both.2), if_neg (fun both => by omega),
      List.drop_left' size]
  · rw [if_neg two, if_neg two, if_pos (by decide), if_neg eight_ne_two]
    have size : (toLe 8 payloadLength).reverse.length = 8 := by simp
    have bound : payloadLength < 256 ^ 8 := lt_of_le_of_lt fits (by decide)
    have read := extendedPayloadLength_toLe bound rest
    have whole : ¬ ((toLe 8 payloadLength).reverse ++ rest).length < 8 := by
      rw [List.length_append, size]
      omega
    dsimp only
    rw [if_neg whole, read, if_neg (fun both => by omega), if_neg (fun both => two both.2),
      List.drop_left' size]

/-- With the length not there as a whole. -/
theorem readPayloadLength_prefix {payloadLength : Nat} {bytes : List UInt8}
    (missing : bytes.length < (extendedLength payloadLength).length) :
    readPayloadLength (lengthField payloadLength) bytes = .error .frameIncomplete := by
  unfold readPayloadLength lengthField
  unfold extendedLength at missing
  by_cases short : payloadLength ≤ maxPayloadLengthWithoutExtendedLengthField
  · rw [if_pos short] at missing
    cases missing
  rw [if_neg short] at missing ⊢
  by_cases two : payloadLength ≤ 0xFFFF
  · rw [if_pos two] at missing ⊢
    rw [if_pos (by decide), if_pos rfl]
    exact if_pos (by simpa using missing)
  · rw [if_neg two] at missing ⊢
    rw [if_pos (by decide), if_neg eight_ne_two]
    exact if_pos (by simpa using missing)

/-! ## The first two bytes -/

theorem secondByte_masked (frame : WebSocketFrame) :
    (secondByte frame &&& maskBit ≠ 0) ↔ frame.masked = true := by
  have small := lengthField_lt frame.payload.length
  rw [secondByte]
  generalize lengthField frame.payload.length = n at small
  generalize frame.masked = masked
  revert masked n
  decide

theorem secondByte_length (frame : WebSocketFrame) :
    (secondByte frame &&& payloadLengthMask).toNat = lengthField frame.payload.length := by
  have small := lengthField_lt frame.payload.length
  rw [secondByte]
  generalize lengthField frame.payload.length = n at small
  generalize frame.masked = masked
  revert masked n
  decide

theorem firstByte_bits (frame : WebSocketFrame) (fits : frame.opCode < 16) :
    firstByte frame &&& opCodeMask = frame.opCode ∧
      decide (firstByte frame &&& finalBit ≠ 0) = frame.final ∧
      decide (firstByte frame &&& compressBit ≠ 0) = frame.compress ∧
      decide (firstByte frame &&& reserved2Bit ≠ 0) = false ∧
      decide (firstByte frame &&& reserved3Bit ≠ 0) = false := by
  have all : ∀ final compress : Bool, ∀ n < 16,
      let byte := (if final then finalBit else 0) ||| (if compress then compressBit else 0) |||
        UInt8.ofNat n
      byte &&& opCodeMask = UInt8.ofNat n ∧ decide (byte &&& finalBit ≠ 0) = final ∧
        decide (byte &&& compressBit ≠ 0) = compress ∧ decide (byte &&& reserved2Bit ≠ 0) = false ∧
        decide (byte &&& reserved3Bit ≠ 0) = false := by
    decide
  have bits := all frame.final frame.compress frame.opCode.toNat fits
  rwa [UInt8.ofNat_toNat] at bits

/-! ## Round trip -/

theorem body_length (frame : WebSocketFrame) {maskingKey : List UInt8}
    (width : maskingKey.length = maskingKeyWidthInBytes) :
    (body frame maskingKey).length =
      (if frame.masked then maskingKeyWidthInBytes else 0) + frame.payload.length := by
  unfold body
  split_ifs
  · rw [List.length_append, applyMask_length, width]
  · rw [Nat.zero_add]

/-- The key and the payload at the front of what follows the length. -/
theorem body_payload (frame : WebSocketFrame) {maskingKey : List UInt8}
    (width : maskingKey.length = maskingKeyWidthInBytes) (rest : List UInt8) :
    let p := body frame maskingKey ++ rest
    let payload := (p.drop (if frame.masked then maskingKeyWidthInBytes else 0)).take
      frame.payload.length
    (if frame.masked then applyMask (p.take maskingKeyWidthInBytes) payload else payload) =
      frame.payload := by
  unfold body
  dsimp only
  split_ifs
  · rw [List.append_assoc, List.drop_left' width, List.take_left' width,
      List.take_left' (applyMask_length ..), applyMask_applyMask]
  · rw [List.drop_zero, List.take_left' rfl]

/-- What `parseFrame` returns for a frame. -/
def parsed (frame : WebSocketFrame) : WebSocketFrame :=
  { frame with reserved2 := false, reserved3 := false }

/-- `parseFrame` behind the length. -/
theorem parseFrame_read {p p' : List UInt8} {payloadLength : Nat} (frame : WebSocketFrame)
    (read : readPayloadLength (lengthField frame.payload.length) p = .ok (payloadLength, p'))
    (bound : payloadLength ≤ maxPayloadLength) :
    let data := firstByte frame :: secondByte frame :: p
    let maskingKeyLength := if frame.masked then maskingKeyWidthInBytes else 0
    let payloadStart := data.length - p'.length + maskingKeyLength
    let payload := (p'.drop maskingKeyLength).take payloadLength
    let payload :=
      if frame.masked then applyMask (p'.take maskingKeyWidthInBytes) payload else payload
    parseFrame data =
      if p'.length < maskingKeyLength + payloadLength then (data, .frameIncomplete)
      else
        (data.take payloadStart ++ payload ++ p'.drop (maskingKeyLength + payloadLength),
          .frameOK
            { opCode := firstByte frame &&& opCodeMask
              final := firstByte frame &&& finalBit ≠ 0
              compress := firstByte frame &&& compressBit ≠ 0
              reserved2 := firstByte frame &&& reserved2Bit ≠ 0
              reserved3 := firstByte frame &&& reserved3Bit ≠ 0
              masked := frame.masked, payload }
            (payloadStart + payloadLength)) := by
  have fits : ¬ (payloadLength > maxPayloadLength ∨
      payloadLength + (if frame.masked then maskingKeyWidthInBytes else 0) > sizeMax) := by
    unfold maxPayloadLength sizeMax maskingKeyWidthInBytes at *
    split_ifs <;> omega
  simp only [parseFrame, secondByte_length, read, secondByte_masked]
  rw [if_neg fits]
  simp only [Bool.decide_eq_true]

theorem makeFrameData_length (frame : WebSocketFrame) (maskingKey : List UInt8) :
    (makeFrameData frame maskingKey).length =
      2 + (extendedLength frame.payload.length).length + (body frame maskingKey).length := by
  rw [makeFrameData_eq, List.length_cons, List.length_cons, List.length_append]
  omega

theorem parseFrame_whole (fits : frame.opCode < 16) (bound : frame.payload.length ≤ maxPayloadLength)
    (width : maskingKey.length = maskingKeyWidthInBytes) (rest : List UInt8) :
    ∃ data, parseFrame (makeFrameData frame maskingKey ++ rest) =
      (data, .frameOK (parsed frame) (makeFrameData frame maskingKey).length) ∧
      data.drop (makeFrameData frame maskingKey).length = rest := by
  obtain ⟨opCode, final, compress, reserved2, reserved3⟩ := firstByte_bits frame fits
  have size := body_length frame width
  have whole := makeFrameData_length frame maskingKey
  have payload := body_payload frame width rest
  have read := readPayloadLength_extended bound (body frame maskingKey ++ rest)
  have parse := parseFrame_read frame read bound
  have enough : ¬ (body frame maskingKey ++ rest).length <
      (if frame.masked then maskingKeyWidthInBytes else 0) + frame.payload.length := by
    rw [List.length_append, size]
    omega
  have behind : (body frame maskingKey ++ rest).drop
      ((if frame.masked then maskingKeyWidthInBytes else 0) + frame.payload.length) = rest :=
    List.drop_left' size
  dsimp only at parse payload
  rw [if_neg enough, payload, behind] at parse
  rw [makeFrameData_eq, List.cons_append, List.cons_append, List.append_assoc, parse,
    ← makeFrameData_eq]
  have start : (firstByte frame :: secondByte frame :: (extendedLength frame.payload.length ++
        (body frame maskingKey ++ rest))).length - (body frame maskingKey ++ rest).length =
      2 + (extendedLength frame.payload.length).length := by
    simp only [List.length_cons, List.length_append]
    omega
  have frameEnd : 2 + (extendedLength frame.payload.length).length +
      (if frame.masked then maskingKeyWidthInBytes else 0) + frame.payload.length =
      (makeFrameData frame maskingKey).length := by
    rw [whole, size, ← add_assoc]
  rw [start, opCode, final, compress, reserved2, reserved3, frameEnd]
  refine ⟨_, rfl, ?_⟩
  apply List.drop_left'
  rw [List.length_append, List.length_take, List.length_cons, List.length_cons, List.length_append,
    List.length_append]
  omega

theorem parseFrame_prefix (bound : frame.payload.length ≤ maxPayloadLength)
    (width : maskingKey.length = maskingKeyWidthInBytes) {front missing : List UInt8}
    (split : makeFrameData frame maskingKey = front ++ missing) (some_ : missing ≠ []) :
    parseFrame front = (front, .frameIncomplete) := by
  rw [makeFrameData_eq] at split
  have less : 0 < missing.length := List.length_pos_iff.mpr some_
  cases front with
  | nil => rfl
  | cons first front =>
  cases front with
  | nil => rfl
  | cons second p =>
    obtain ⟨rfl, split'⟩ := List.cons.inj split
    obtain ⟨rfl, rest⟩ := List.cons.inj split'
    change _ = p ++ missing at rest
    by_cases short : p.length < (extendedLength frame.payload.length).length
    · -- the length itself is not there
      have read := readPayloadLength_prefix short
      simp only [parseFrame, secondByte_length, read]
    · obtain ⟨p', rfl⟩ : extendedLength frame.payload.length <+: p := by
        refine List.prefix_of_prefix_length_le ⟨_, rest⟩ ⟨missing, rfl⟩ (not_lt.mp short)
      rw [List.append_assoc] at rest
      have part := List.append_cancel_left rest
      have size := congrArg List.length part
      rw [body_length frame width, List.length_append] at size
      have parse := parseFrame_read frame (readPayloadLength_extended bound p') bound
      dsimp only at parse
      rw [parse, if_pos (by omega)]

/-- **WebSocket frames.** Whatever follows it, a frame is read as it was written, up to its end;
and as long as a byte of it is missing nothing is read and nothing is changed. -/
theorem parseFrame_makeFrameData (frame : WebSocketFrame) (maskingKey : List UInt8)
    (fits : frame.opCode < 16) (bound : frame.payload.length < 2 ^ 63)
    (width : maskingKey.length = maskingKeyWidthInBytes) :
    (∀ rest, ∃ data, parseFrame (makeFrameData frame maskingKey ++ rest) =
      (data, .frameOK (parsed frame) (makeFrameData frame maskingKey).length) ∧
      data.drop (makeFrameData frame maskingKey).length = rest) ∧
    ∀ front missing, makeFrameData frame maskingKey = front ++ missing → missing ≠ [] →
      parseFrame front = (front, .frameIncomplete) := by
  have bound' : frame.payload.length ≤ maxPayloadLength := by
    unfold maxPayloadLength
    omega
  exact ⟨parseFrame_whole fits bound' width,
    fun _ _ split some_ => parseFrame_prefix bound' width split some_⟩

/-- The masked text `Hi`. -/
theorem parseFrame_makeFrameData_text :
    ∃ data, parseFrame (makeFrameData ⟨1, true, false, false, false, true, [0x48, 0x69]⟩ [1, 2, 3, 4] ++ [7]) =
      (data, .frameOK ⟨1, true, false, false, false, true, [0x48, 0x69]⟩ 8) ∧ data.drop 8 = [7] :=
  (parseFrame_makeFrameData ⟨1, true, false, false, false, true, [0x48, 0x69]⟩ [1, 2, 3, 4]
    (by decide) (by decide) rfl).1 [7]

end WebSocketFrame

end NetRider.WebSockets
