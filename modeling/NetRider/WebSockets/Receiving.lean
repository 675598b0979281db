import NetRider.WebSockets.FrameStreams
import NetRider.WebSockets.WebSocketChannel

/-!
# Receiving is independent of the pieces

What the frames in a stream of bytes say (`conversation`), and that a channel tells its client that,
however the bytes arrive and whenever it is suspended. A live channel owes the rest of the
conversation from its buffer on (`future`); a channel that has ended owes `didClose` at most.
-/

namespace NetRider.WebSockets

open NetRider.Lib WebSocketChannel

/-! ## What a stream of frames says -/

/-- What follows from a frame: the end of the conversation, or the message that is under way. -/
inductive Answer
  | ends (events : List Event)
  | goesOn (events : List Event) (underway : Option (UInt8 × List UInt8))

namespace Answer

variable (fromUTF8 : List UInt8 → Text)

def failed (reason : String) : List Event :=
  [.didReceiveMessageError reason, .didClose false closeEventCodeAbnormalClosure none]

def message (opCode : UInt8) (data : List UInt8) : Answer :=
  if opCode = opCodeText then
    match decodeText fromUTF8 data with
    | none => .ends (failed "Could not decode a text frame as UTF-8.")
    | some text => .goesOn [.didReceiveMessage text] none
  else .goesOn [.didReceiveBinaryData data] none

def ofFrame (underway : Option (UInt8 × List UInt8)) (frame : WebSocketFrame) : Answer :=
  if frame.opCode = opCodeContinuation then
    match underway with
    | none => .ends (failed "Received unexpected continuation frame.")
    | some (opCode, data) =>
      if frame.final then message fromUTF8 opCode (data ++ frame.payload)
      else .goesOn [] (some (opCode, data ++ frame.payload))
  else if frame.opCode = opCodeText ∨ frame.opCode = opCodeBinary then
    if frame.final then message fromUTF8 frame.opCode frame.payload
    else .goesOn [] (some (frame.opCode, frame.payload))
  else if frame.opCode = opCodeClose then
    match closeStatus fromUTF8 frame.payload with
    | .error reason => .ends (failed reason)
    | .ok (code, reason) =>
      .ends [.sendFrame opCodeClose [], .didStartClosingHandshake, .didClose true code reason]
  else if frame.opCode = opCodePing then .goesOn [.sendFrame opCodePong frame.payload] underway
  else .goesOn [] underway

end Answer

section

variable (fromUTF8 : List UInt8 → Text)

/-- The events for the bytes, with the message that is under way before them. -/
def conversation (underway : Option (UInt8 × List UInt8)) (bytes : List UInt8) : List Event :=
  match _ok : WebSocketFrame.parseFrame bytes with
  | (_, .frameIncomplete) => []
  | (_, .frameError reason) => Answer.failed reason
  | (_, .frameOK frame frameEnd) =>
    match frameViolation underway.isSome frame with
    | some reason => Answer.failed reason
    | none =>
      match Answer.ofFrame fromUTF8 underway frame with
      | .ends events => events
      | .goesOn events underway => events ++ conversation underway (bytes.drop frameEnd)
termination_by bytes.length
decreasing_by
  have bounds := WebSocketFrame.parseFrame_ok _ok
  rw [List.length_drop]
  omega

variable {fromUTF8} {underway : Option (UInt8 × List UInt8)} {bytes left : List UInt8}

theorem conversation_incomplete
    (parsed : WebSocketFrame.parseFrame bytes = (left, .frameIncomplete)) :
    conversation fromUTF8 underway bytes = [] := by
  rw [conversation]
  split <;> simp_all

theorem conversation_error {reason : String}
    (parsed : WebSocketFrame.parseFrame bytes = (left, .frameError reason)) :
    conversation fromUTF8 underway bytes = Answer.failed reason := by
  rw [conversation]
  split <;> simp_all

theorem conversation_ok {frame : WebSocketFrame} {frameEnd : Nat}
    (parsed : WebSocketFrame.parseFrame bytes = (left, .frameOK frame frameEnd)) :
    conversation fromUTF8 underway bytes =
      match frameViolation underway.isSome frame with
      | some reason => Answer.failed reason
      | none =>
        match Answer.ofFrame fromUTF8 underway frame with
        | .ends events => events
        | .goesOn events underway =>
          events ++ conversation fromUTF8 underway (bytes.drop frameEnd) := by
  rw [conversation]
  split <;> simp_all

end

/-! ## The state of the channel -/

namespace WebSocketChannel

def underway (c : WebSocketChannel) : Option (UInt8 × List UInt8) :=
  if c.hasContinuousFrame then some (c.continuousFrameOpCode, c.continuousFrameData) else none

/-- Frames are still looked at. -/
structure Live (c : WebSocketChannel) : Prop where
  client : c.client = true
  closed : c.closed = false
  closing : c.closing = false
  keeps : c.shouldDiscardReceivedData = false
  handshake : c.receivedClosingHandshake = false
  status : c.closeEventCode = closeEventCodeAbnormalClosure ∧ c.closeEventReason = none
  continuous : if c.hasContinuousFrame then
      c.continuousFrameOpCode = opCodeText ∨ c.continuousFrameOpCode = opCodeBinary
    else c.continuousFrameData = []

/-- The socket is closed; the client may still have to be told. -/
structure Ended (c : WebSocketChannel) (toCome : List Event) : Prop where
  closed : c.closed = true
  why : c.client = true → c.shouldDiscardReceivedData = true ∨ c.receivedClosingHandshake = true
  toCome : toCome = if c.client then
    [.didClose c.receivedClosingHandshake c.closeEventCode c.closeEventReason] else []

variable {fromUTF8 : List UInt8 → Text} {suspends : Nat → Bool} {c : WebSocketChannel}

/-- A live channel stays so when bytes come or go, and whatever is said and when it is resumed. -/
theorem Live.changed {buffer : List UInt8} {suspended resumeTimer : Bool} {log : List Event}
    (live : Live c) : Live { c with buffer, suspended, resumeTimer, log } :=
  ⟨live.client, live.closed, live.closing, live.keeps, live.handshake, live.status,
    live.continuous⟩

theorem Ended.changed {toCome : List Event} {buffer : List UInt8} {suspended resumeTimer : Bool}
    (ended : Ended c toCome) : Ended { c with buffer, suspended, resumeTimer } toCome :=
  ⟨ended.closed, ended.why, ended.toCome⟩

/-- After the frame whose answer this is, with these bytes left. -/
def Follows (c : WebSocketChannel) (left : List UInt8) (c' : WebSocketChannel) : Answer → Prop
  | .ends events => ∃ toCome, Ended c' toCome ∧ c'.log ++ toCome = c.log ++ events ∧
      (c'.client = true → c'.suspended = true)
  | .goesOn events underway => Live c' ∧ c'.log = c.log ++ events ∧ c'.underway = underway ∧
      c'.buffer = left

theorem didCloseSocketStream_ended
    (why : c.shouldDiscardReceivedData = true ∨ c.receivedClosingHandshake = true)
    (client : c.client = true) :
    ∃ toCome, Ended (didCloseSocketStream c) toCome ∧
      (didCloseSocketStream c).log ++ toCome =
        c.log ++ [.didClose c.receivedClosingHandshake c.closeEventCode c.closeEventReason] ∧
      ((didCloseSocketStream c).client = true → (didCloseSocketStream c).suspended = true) := by
  unfold didCloseSocketStream
  cases suspended : c.suspended with
  | true =>
    refine ⟨_, ⟨?_, ?_, rfl⟩, ?_, ?_⟩
    · simp [client]
    · simp [client, why]
    · simp [client]
    · simp [client]
  | false =>
    refine ⟨_, ⟨?_, ?_, rfl⟩, ?_, ?_⟩
    · simp [client]
    · simp [client]
    · simp [client]
    · simp [client]

theorem fail_follows {left : List UInt8} {reason : String} (client : c.client = true)
    (closed : c.closed = false) (handshake : c.receivedClosingHandshake = false)
    (status : c.closeEventCode = closeEventCodeAbnormalClosure ∧ c.closeEventReason = none) :
    Follows c left (fail suspends reason c) (.ends (Answer.failed reason)) := by
  obtain ⟨toCome, ended, log, told⟩ := didCloseSocketStream_ended
    (c := notify suspends (.didReceiveMessageError reason) { c with
      shouldDiscardReceivedData := true
      buffer := []
      hasContinuousFrame := false
      continuousFrameData := [] }) (.inl rfl) client
  have made : fail suspends reason c = didCloseSocketStream
      (notify suspends (.didReceiveMessageError reason) { c with
        shouldDiscardReceivedData := true
        buffer := []
        hasContinuousFrame := false
        continuousFrameData := [] }) := by
    unfold fail
    simp [notify, closed]
  rw [made]
  refine ⟨toCome, ended, log.trans ?_, told⟩
  simp [notify, Answer.failed, handshake, status]

theorem Live.fail_follows {left : List UInt8} {reason : String} (live : Live c) :
    Follows c left (fail suspends reason c) (.ends (Answer.failed reason)) :=
  WebSocketChannel.fail_follows live.client live.closed live.handshake live.status

theorem Live.notify {event : Event} (live : Live c) : Live (notify suspends event c) :=
  live.changed

theorem Live.skipBuffer {len : Nat} (live : Live c) : Live (skipBuffer len c) := live.changed

/-- A message that is there as a whole, with nothing under way behind it. -/
theorem message_follows {opCode : UInt8} {data : List UInt8} (live : Live c)
    (last : c.hasContinuousFrame = false)
    (known : opCode = opCodeText ∨ opCode = opCodeBinary) :
    Follows c c.buffer (if opCode = opCodeText then receiveText fromUTF8 suspends data c
      else if opCode = opCodeBinary then WebSocketChannel.notify suspends
        (.didReceiveBinaryData data) c else c) (Answer.message fromUTF8 opCode data) := by
  unfold Answer.message
  by_cases text : opCode = opCodeText
  · simp only [text, if_true]
    unfold receiveText
    cases decodeText fromUTF8 data with
    | none => exact live.fail_follows
    | some message =>
      refine ⟨live.notify, rfl, ?_, rfl⟩
      simp [underway, WebSocketChannel.notify, last]
  · rw [if_neg text, if_neg text, if_pos (known.resolve_left text)]
    refine ⟨live.notify, rfl, ?_, rfl⟩
    simp [underway, WebSocketChannel.notify, last]

theorem underway_of_violation {frame : WebSocketFrame}
    (fine : frameViolation c.hasContinuousFrame frame = none)
    (data : frame.opCode = opCodeText ∨ frame.opCode = opCodeBinary) :
    c.hasContinuousFrame = false := by
  have starts : frame.opCode ≠ opCodeContinuation ∧ isControlOpCode frame.opCode = false := by
    rcases data with text | binary
    · rw [text]
      decide
    · rw [binary]
      decide
  by_contra already
  unfold frameViolation at fine
  simp only [Bool.not_eq_false] at already
  rw [already] at fine
  simp only [starts.1, starts.2, ne_eq, not_false_eq_true, decide_true, Bool.and_true,
    Bool.not_false, if_true] at fine
  split_ifs at fine

theorem startContinuousFrame_follows {frame : WebSocketFrame} {frameEnd : Nat} (live : Live c)
    (first : c.hasContinuousFrame = false)
    (known : frame.opCode = opCodeText ∨ frame.opCode = opCodeBinary) :
    Follows c (c.buffer.drop frameEnd) (startContinuousFrame frame frameEnd c)
      (.goesOn [] (some (frame.opCode, frame.payload))) := by
  have empty : c.continuousFrameData = [] := by
    have continuous := live.continuous
    rw [first] at continuous
    exact continuous
  refine ⟨⟨live.client, live.closed, live.closing, live.keeps, live.handshake, live.status, ?_⟩,
    (List.append_nil _).symm, ?_, rfl⟩
  · exact known
  · simp [startContinuousFrame, WebSocketChannel.skipBuffer, underway, empty]

theorem processContinuationFrame_follows {frame : WebSocketFrame} {frameEnd : Nat} (live : Live c)
    (isContinuation : frame.opCode = opCodeContinuation) :
    Follows c (c.buffer.drop frameEnd) (processContinuationFrame fromUTF8 suspends frame frameEnd c)
      (Answer.ofFrame fromUTF8 c.underway frame) := by
  unfold processContinuationFrame Answer.ofFrame
  rw [if_pos isContinuation, underway]
  have continuous := live.continuous
  cases started : c.hasContinuousFrame with
  | false => exact live.fail_follows
  | true =>
    rw [started, if_pos rfl] at continuous
    simp only [Bool.not_true, Bool.false_eq_true, if_false, if_true]
    by_cases final : frame.final = true
    · simp only [final, if_true]
      have rest : Live (WebSocketChannel.skipBuffer frameEnd
          { c with continuousFrameData := [], hasContinuousFrame := false }) :=
        ⟨live.client, live.closed, live.closing, live.keeps, live.handshake, live.status, rfl⟩
      exact @message_follows fromUTF8 suspends _ _ (c.continuousFrameData ++ frame.payload) rest rfl
        continuous
    · simp only [final, Bool.false_eq_true, if_false]
      refine ⟨⟨live.client, live.closed, live.closing, live.keeps, live.handshake, live.status, ?_⟩,
        (List.append_nil _).symm, ?_, rfl⟩
      · simp [WebSocketChannel.skipBuffer, continuous]
      · simp [WebSocketChannel.skipBuffer, underway]

theorem processCloseFrame_follows {frame : WebSocketFrame} {frameEnd : Nat} (live : Live c) :
    Follows c (c.buffer.drop frameEnd) (processCloseFrame fromUTF8 suspends frame frameEnd c)
      (match closeStatus fromUTF8 frame.payload with
        | .error reason => .ends (Answer.failed reason)
        | .ok (code, reason) => .ends
          [.sendFrame opCodeClose [], .didStartClosingHandshake, .didClose true code reason]) := by
  unfold processCloseFrame
  cases closeStatus fromUTF8 frame.payload with
  | error reason =>
    exact @fail_follows suspends { c with closeEventCode := closeEventCodeAbnormalClosure }
      (c.buffer.drop frameEnd) reason live.client live.closed live.handshake ⟨rfl, live.status.2⟩
  | ok said =>
    obtain ⟨code, reason⟩ := said
    obtain ⟨toCome, ended, log, told⟩ := @didCloseSocketStream_ended
      (startClosingHandshake suspends { WebSocketChannel.skipBuffer frameEnd { c with
        closeEventCode := code, closeEventReason := reason } with
        receivedClosingHandshake := true })
      (by simp [startClosingHandshake, WebSocketChannel.skipBuffer, live.closing, live.client,
        WebSocketChannel.sendFrame, WebSocketChannel.notify])
      (by simp [startClosingHandshake, WebSocketChannel.skipBuffer, live.closing, live.client,
        WebSocketChannel.sendFrame, WebSocketChannel.notify])
    have closing : (startClosingHandshake suspends { WebSocketChannel.skipBuffer frameEnd { c with
        closeEventCode := code, closeEventReason := reason } with
        receivedClosingHandshake := true }).closing = true := by
      simp [startClosingHandshake, WebSocketChannel.skipBuffer, live.closing, live.client,
        WebSocketChannel.sendFrame, WebSocketChannel.notify]
    simp only [closing, if_true]
    refine ⟨toCome, ended, log.trans ?_, told⟩
    simp [startClosingHandshake, WebSocketChannel.skipBuffer, live.closing, live.client,
      WebSocketChannel.sendFrame, WebSocketChannel.notify]

theorem processOpCode_follows {frame : WebSocketFrame} {frameEnd : Nat} (live : Live c)
    (fine : frameViolation c.hasContinuousFrame frame = none) :
    Follows c (c.buffer.drop frameEnd) (processOpCode fromUTF8 suspends frame frameEnd c)
      (Answer.ofFrame fromUTF8 c.underway frame) := by
  unfold processOpCode
  by_cases continuation : frame.opCode = opCodeContinuation
  · rw [if_pos continuation]
    exact processContinuationFrame_follows live continuation
  unfold Answer.ofFrame
  rw [if_neg continuation, if_neg continuation]
  by_cases text : frame.opCode = opCodeText
  · have first := underway_of_violation fine (.inl text)
    rw [if_pos text, if_pos (Or.inl text), processTextFrame]
    by_cases final : frame.final = true
    · rw [if_pos final, if_pos final, text]
      exact @message_follows fromUTF8 suspends (WebSocketChannel.skipBuffer frameEnd c) opCodeText
        frame.payload live.skipBuffer first (.inl rfl)
    · rw [if_neg final, if_neg final]
      exact startContinuousFrame_follows live first (.inl text)
  by_cases binary : frame.opCode = opCodeBinary
  · have first := underway_of_violation fine (.inr binary)
    rw [if_neg text, if_pos binary, if_pos (Or.inr binary), processBinaryFrame]
    by_cases final : frame.final = true
    · rw [if_pos final, if_pos final, binary]
      exact @message_follows fromUTF8 suspends (WebSocketChannel.skipBuffer frameEnd c) opCodeBinary
        frame.payload live.skipBuffer first (.inr rfl)
    · rw [if_neg final, if_neg final]
      exact startContinuousFrame_follows live first (.inr binary)
  rw [if_neg text, if_neg binary, if_neg (not_or.mpr ⟨text, binary⟩)]
  by_cases close : frame.opCode = opCodeClose
  · rw [if_pos close, if_pos close]
    exact processCloseFrame_follows live
  rw [if_neg close, if_neg close]
  by_cases ping : frame.opCode = opCodePing
  · rw [if_pos ping, if_pos ping]
    exact ⟨live.changed, rfl, rfl, rfl⟩
  · rw [if_neg ping, if_neg ping]
    exact ⟨live.skipBuffer, (List.append_nil _).symm, rfl, rfl⟩

/-! ## Rounds -/

/-- The rest of the conversation of a live channel, when this much more arrives. -/
def future (fromUTF8 : List UInt8 → Text) (c : WebSocketChannel) (more : List UInt8) :
    List Event :=
  conversation fromUTF8 c.underway (c.buffer ++ more)

/-- Where a live channel can be after some rounds: still live and, unless it is suspended, with no
whole frame left; or ended, with the client told unless it is suspended. -/
inductive Reaches (fromUTF8 : List UInt8 → Text) (c c' : WebSocketChannel) : Prop
  | live (live : Live c')
    (same : ∀ more, c'.log ++ future fromUTF8 c' more = c.log ++ future fromUTF8 c more)
    (waits : c'.suspended = false → future fromUTF8 c' [] = [])
  | ended (toCome : List Event) (ended : Ended c' toCome)
    (same : ∀ more, c'.log ++ toCome = c.log ++ future fromUTF8 c more)
    (told : c'.client = true → c'.suspended = true)

theorem future_incomplete {left : List UInt8}
    (parsed : WebSocketFrame.parseFrame c.buffer = (left, .frameIncomplete)) :
    future fromUTF8 c [] = [] := by
  rw [future, List.append_nil]
  exact conversation_incomplete parsed

theorem future_empty (empty : c.buffer = []) : future fromUTF8 c [] = [] := by
  apply @future_incomplete _ _ []
  rw [empty]
  rfl

/-- What one round makes of a live channel. -/
inductive Round (fromUTF8 : List UInt8 → Text) (c c' : WebSocketChannel) (goes : Bool) : Prop
  | waits (same : c' = c) (stops : goes = false) (partly : future fromUTF8 c [] = [])
  | ended (toCome : List Event) (ended : Ended c' toCome)
    (same : ∀ more, c'.log ++ toCome = c.log ++ future fromUTF8 c more)
    (told : c'.client = true → c'.suspended = true)
  | live (live : Live c')
    (same : ∀ more, c'.log ++ future fromUTF8 c' more = c.log ++ future fromUTF8 c more)
    (shorter : c'.buffer.length < c.buffer.length) (goes : goes = !c'.buffer.isEmpty)

theorem isSome_underway : c.underway.isSome = c.hasContinuousFrame := by
  unfold underway
  cases c.hasContinuousFrame <;> rfl

theorem processFrame_round (live : Live c) :
    Round fromUTF8 c (processFrame fromUTF8 suspends c).1 (processFrame fromUTF8 suspends c).2 := by
  have stays : ∀ more, (WebSocketFrame.parseFrame c.buffer).2 ≠ .frameIncomplete → _ :=
    fun more known => @WebSocketFrame.parseFrame_append c.buffer more known
  unfold processFrame
  cases parsed : WebSocketFrame.parseFrame c.buffer with | mk left result =>
  rw [parsed] at stays
  cases result with
  | frameIncomplete => exact .waits rfl rfl (future_incomplete parsed)
  | frameError errorString =>
    obtain ⟨toCome, ended, log, told⟩ :=
      @Live.fail_follows suspends c c.buffer errorString live
    refine .ended toCome ended ?_ told
    intro more
    have broken := stays more ParseFrameResult.noConfusion
    rw [log, future, conversation_error broken]
  | frameOK frame frameEnd =>
    obtain ⟨atLeast, atMost, behind⟩ := WebSocketFrame.parseFrame_ok parsed
    have tells : ∀ more, future fromUTF8 c more = _ :=
      fun more => conversation_ok (stays more ParseFrameResult.noConfusion)
    have rest : ∀ more, (c.buffer ++ more).drop frameEnd = left.drop frameEnd ++ more := by
      intro more
      rw [List.drop_append_of_le_length atMost, behind]
    simp only [isSome_underway, rest] at tells
    have read : Live { c with buffer := left } := live.changed
    simp only
    cases fine : frameViolation c.hasContinuousFrame frame with
    | some reason =>
      rw [fine] at tells
      obtain ⟨toCome, ended, log, told⟩ :=
        @Live.fail_follows suspends { c with buffer := left } left reason read
      refine .ended toCome ended ?_ told
      intro more
      rw [log, tells]
    | none =>
      rw [fine] at tells
      have follows := @processOpCode_follows fromUTF8 suspends _ frame frameEnd read fine
      have sameUnderway : ({ c with buffer := left } : WebSocketChannel).underway = c.underway := rfl
      rw [sameUnderway] at follows
      cases answer : Answer.ofFrame fromUTF8 c.underway frame with
      | ends events =>
        rw [answer] at tells follows
        obtain ⟨toCome, ended, log, told⟩ := follows
        refine .ended toCome ended ?_ told
        intro more
        rw [log, tells]
      | goesOn events next =>
        rw [answer] at tells follows
        obtain ⟨live', log, sameNext, buffer⟩ := follows
        refine .live live' ?_ ?_ rfl
        · intro more
          rw [log, tells, future, sameNext, buffer, List.append_assoc]
        · rw [buffer]
          simp only
          rw [behind, List.length_drop]
          omega

/-- Rounds change nothing when the client is gone or the channel suspended. -/
theorem processBuffers_stops {fuel : Nat} (stops : c.client = true → c.suspended = true) :
    processBuffers fromUTF8 suspends fuel c = c := by
  cases fuel with
  | zero => rfl
  | succ fuel =>
    unfold processBuffers
    cases client : c.client with
    | false => simp
    | true => simp [stops client]

theorem processBuffers_reaches {fuel : Nat} (live : Live c) (enough : c.buffer.length ≤ fuel) :
    Reaches fromUTF8 c (processBuffers fromUTF8 suspends fuel c) := by
  induction fuel generalizing c with
  | zero =>
    have empty : c.buffer = [] := List.length_eq_zero_iff.mp (Nat.le_zero.mp enough)
    exact .live live (fun _ => rfl) fun _ => future_empty empty
  | succ fuel ih =>
    unfold processBuffers
    by_cases ready : (!c.suspended && c.client && !c.buffer.isEmpty) = true
    · rw [if_pos ready]
      have frame : processBuffer fromUTF8 suspends c = processFrame fromUTF8 suspends c := by
        simp [processBuffer, live.keeps, live.handshake]
      rw [frame]
      have round := @processFrame_round fromUTF8 suspends c live
      generalize processFrame fromUTF8 suspends c = result at round
      obtain ⟨c', goes⟩ := result
      simp only at round ⊢
      cases round with
      | waits same stops partly =>
        subst same stops
        exact .live live (fun _ => rfl) fun _ => partly
      | ended toCome ended same told =>
        have still : (if goes = true then processBuffers fromUTF8 suspends fuel c' else c') = c' := by
          split_ifs
          · exact processBuffers_stops told
          · rfl
        rw [still]
        exact .ended toCome ended same told
      | live live' same shorter goes =>
        subst goes
        cases empty : c'.buffer.isEmpty with
        | true =>
          exact .live live' same fun _ => future_empty (List.isEmpty_iff.mp empty)
        | false =>
          simp only [Bool.not_false, if_true]
          cases ih live' (by omega) with
          | live live'' more waits =>
            exact .live live'' (fun later => (more later).trans (same later)) waits
          | ended toCome ended more told =>
            exact .ended toCome ended (fun later => (more later).trans (same later)) told
    · rw [if_neg ready]
      refine .live live (fun _ => rfl) fun awake => future_empty ?_
      simpa [awake, live.client] using ready

/-! ## Runs -/

/-- What holds after these bytes have arrived, whatever arrives later. -/
inductive Invariant (fromUTF8 : List UInt8 → Text) (c : WebSocketChannel) (bytes : List UInt8) :
    Prop
  | live (live : Live c)
    (agrees : ∀ more, conversation fromUTF8 none (bytes ++ more) = c.log ++ future fromUTF8 c more)
    (waits : c.suspended = false → c.resumeTimer = false → future fromUTF8 c [] = [])
  | ended (toCome : List Event) (ended : Ended c toCome)
    (agrees : ∀ more, conversation fromUTF8 none (bytes ++ more) = c.log ++ toCome)
    (told : c.suspended = false → c.resumeTimer = false → c.client = false)

theorem invariant_connected : Invariant fromUTF8 connected [] :=
  .live ⟨rfl, rfl, rfl, rfl, rfl, ⟨rfl, rfl⟩, rfl⟩ (fun _ => rfl) fun _ _ => future_empty rfl

/-- After the rounds on a live channel that has these bytes. -/
theorem invariant_processAll {bytes : List UInt8} (live : Live c)
    (agrees : ∀ more, conversation fromUTF8 none (bytes ++ more) =
      c.log ++ future fromUTF8 c more) :
    Invariant fromUTF8 (processAll fromUTF8 suspends c) bytes ∧
      ((processAll fromUTF8 suspends c).closed = true →
        (processAll fromUTF8 suspends c).client = true →
        (processAll fromUTF8 suspends c).suspended = true) := by
  have reaches := @processBuffers_reaches fromUTF8 suspends c _ live (Nat.le_refl _)
  change Reaches fromUTF8 c (processAll fromUTF8 suspends c) at reaches
  cases reaches with
  | live live' same waits =>
    refine ⟨.live live' (fun more => (agrees more).trans (same more).symm)
      fun awake _ => waits awake, ?_⟩
    intro closed
    exact absurd (live'.closed.symm.trans closed) Bool.false_ne_true
  | ended toCome ended same told =>
    refine ⟨.ended toCome ended (fun more => (agrees more).trans (same more).symm) ?_,
      fun _ => told⟩
    intro awake _
    by_contra client
    rw [Bool.not_eq_false] at client
    exact Bool.false_ne_true (awake.symm.trans (told client))

/-- The timer finds nothing to do on a channel that has ended but to tell the client. -/
theorem processAll_ended {toCome : List Event} (ended : Ended c toCome) :
    Ended (processAll fromUTF8 suspends c) toCome ∧
      (processAll fromUTF8 suspends c).log = c.log := by
  unfold processAll
  cases length : c.buffer.length with
  | zero => exact ⟨ended, rfl⟩
  | succ fuel =>
    unfold processBuffers
    split_ifs with ready
    · have client : c.client = true := by
        simp only [Bool.and_eq_true] at ready
        exact ready.1.2
      by_cases keeps : c.shouldDiscardReceivedData = true
      · rw [processBuffer, if_pos keeps]
        exact ⟨ended, rfl⟩
      · rw [processBuffer, if_neg keeps, if_pos ((ended.why client).resolve_left keeps)]
        exact ⟨ended.changed, rfl⟩
    · exact ⟨ended, rfl⟩

theorem receive_invariant {bytes data : List UInt8} (inv : Invariant fromUTF8 c bytes)
    (opened : c.closed ≠ true) :
    Invariant fromUTF8 (didReceiveSocketStreamData fromUTF8 suspends data c) (bytes ++ data) := by
  cases inv with
  | ended toCome ended => exact absurd ended.closed opened
  | live live agrees waits =>
    have reads : ¬ (!c.client || c.shouldDiscardReceivedData) = true := by
      simp [live.client, live.keeps]
    rw [didReceiveSocketStreamData, if_neg reads]
    refine (invariant_processAll live.changed ?_).1
    intro more
    rw [List.append_assoc, agrees, future, future, List.append_assoc]
    rfl

/-- A closed channel is not changed by what arrives. -/
theorem closed_invariant {bytes data : List UInt8} (inv : Invariant fromUTF8 c bytes)
    (closed : c.closed = true) : Invariant fromUTF8 c (bytes ++ data) := by
  cases inv with
  | live live => exact absurd closed (by simp [live.closed])
  | ended toCome ended agrees told =>
    exact .ended toCome ended (fun more => by rw [List.append_assoc]; exact agrees _) told

theorem suspend_invariant {bytes : List UInt8} (inv : Invariant fromUTF8 c bytes) :
    Invariant fromUTF8 { c with suspended := true } bytes := by
  cases inv with
  | live live agrees _ => exact .live live.changed agrees fun awake => by cases awake
  | ended toCome ended agrees _ =>
    exact .ended toCome ended.changed agrees fun awake => by cases awake

theorem resume_invariant {bytes : List UInt8} (inv : Invariant fromUTF8 c bytes) :
    Invariant fromUTF8 (resume c) bytes := by
  unfold resume
  cases inv with
  | live live agrees waits =>
    simp only
    split_ifs with starts
    · exact .live live.changed agrees fun _ idle => by cases idle
    · refine .live live.changed agrees fun _ _ => future_empty ?_
      simpa [live.client, live.closed] using starts
  | ended toCome ended agrees told =>
    simp only
    split_ifs with starts
    · exact .ended toCome ended.changed agrees fun _ idle => by cases idle
    · refine .ended toCome ended.changed agrees fun _ _ => ?_
      simpa [ended.closed] using starts

/-- The last turn of the timer, on a channel that has ended. -/
theorem close_invariant {bytes : List UInt8} {toCome : List Event} (ended : Ended c toCome)
    (agrees : ∀ more, conversation fromUTF8 none (bytes ++ more) = c.log ++ toCome) :
    Invariant fromUTF8 (if !c.suspended && c.client && c.closed then didCloseSocketStream c else c)
      bytes := by
  split_ifs with closes
  · simp only [Bool.and_eq_true, Bool.not_eq_true'] at closes
    obtain ⟨events, closed, said, left⟩ :=
      didCloseSocketStream_ended (ended.why closes.1.2) closes.1.2
    have owed := ended.toCome
    rw [closes.1.2, if_pos rfl] at owed
    refine .ended events closed (fun more => ?_) ?_
    · rw [said, ← owed]
      exact agrees more
    · intro awake _
      by_contra client
      rw [Bool.not_eq_false] at client
      exact Bool.false_ne_true (awake.symm.trans (left client))
  · refine .ended toCome ended agrees ?_
    intro awake _
    by_contra client
    rw [Bool.not_eq_false] at client
    exact closes (by simp [awake, client, ended.closed])

theorem timer_invariant {bytes : List UInt8} (inv : Invariant fromUTF8 c bytes) :
    Invariant fromUTF8 (resumeTimerFired fromUTF8 suspends c) bytes := by
  unfold resumeTimerFired
  cases inv with
  | live live agrees waits =>
    obtain ⟨done, told⟩ := @invariant_processAll fromUTF8 suspends { c with resumeTimer := false }
      bytes live.changed agrees
    generalize processAll fromUTF8 suspends { c with resumeTimer := false } = d at done told
    simp only
    split_ifs with closes
    · simp only [Bool.and_eq_true, Bool.not_eq_true'] at closes
      have suspended := told closes.2 closes.1.2
      exact absurd (closes.1.1.symm.trans suspended) Bool.false_ne_true
    · exact done
  | ended toCome ended agrees told =>
    obtain ⟨still, log⟩ := @processAll_ended fromUTF8 suspends { c with resumeTimer := false }
      toCome ended.changed
    generalize processAll fromUTF8 suspends { c with resumeTimer := false } = d at still log
    simp only at log
    refine close_invariant still fun more => ?_
    rw [log]
    exact agrees more

theorem step_invariant {bytes : List UInt8} {a : Action} {c' : WebSocketChannel}
    (inv : Invariant fromUTF8 c bytes) (stepped : step fromUTF8 suspends c a = some c') :
    Invariant fromUTF8 c' (bytes ++ arrived [a]) := by
  cases a with
  | receive data =>
    simp only [step] at stepped
    simp only [arrived, List.append_nil]
    split_ifs at stepped with empty closed
    · cases stepped
      exact closed_invariant inv closed
    · cases stepped
      exact receive_invariant inv closed
  | suspend =>
    cases stepped
    simp only [arrived, List.append_nil]
    exact suspend_invariant inv
  | resume =>
    cases stepped
    simp only [arrived, List.append_nil]
    exact resume_invariant inv
  | timer =>
    simp only [step] at stepped
    split_ifs at stepped with pending
    cases stepped
    simp only [arrived, List.append_nil]
    exact timer_invariant inv

theorem arrived_cons (a : Action) (as : List Action) :
    arrived (a :: as) = arrived [a] ++ arrived as := by
  cases a with
  | receive data => rw [arrived, arrived, arrived, List.append_nil]
  | _ => rfl

theorem run_invariant {bytes : List UInt8} {as : List Action} {c' : WebSocketChannel}
    (inv : Invariant fromUTF8 c bytes) (h : run (step fromUTF8 suspends) c as = some c') :
    Invariant fromUTF8 c' (bytes ++ arrived as) := by
  induction as generalizing c bytes with
  | nil =>
    cases h
    rwa [arrived, List.append_nil]
  | cons a as ih =>
    simp only [run] at h
    cases stepped : step fromUTF8 suspends c a with
    | none => simp [stepped] at h
    | some next =>
      simp only [stepped] at h
      rw [arrived_cons, ← List.append_assoc]
      exact ih (step_invariant inv stepped) h

/-- **Receiving does not depend on the pieces.** However the bytes are cut and whenever the channel
is suspended and resumed, what the client is told and what is sent is a prefix of what the frames
in the bytes say, whatever bytes follow; and it is all of that once the channel is not suspended
and the timer has fired. -/
theorem receiving_independent {as : List Action} {c' : WebSocketChannel}
    (h : run (step fromUTF8 suspends) connected as = some c') :
    (∀ more, c'.log <+: conversation fromUTF8 none (arrived as ++ more)) ∧
      (c'.suspended = false → c'.resumeTimer = false →
        c'.log = conversation fromUTF8 none (arrived as)) := by
  have inv := run_invariant (@invariant_connected fromUTF8) h
  rw [List.nil_append] at inv
  cases inv with
  | live live agrees waits =>
    refine ⟨fun more => ⟨_, (agrees more).symm⟩, fun awake idle => ?_⟩
    have whole := agrees []
    rw [List.append_nil, waits awake idle, List.append_nil] at whole
    exact whole.symm
  | ended toCome ended agrees told =>
    refine ⟨fun more => ⟨_, (agrees more).symm⟩, fun awake idle => ?_⟩
    have whole := agrees []
    rw [List.append_nil, ended.toCome, told awake idle, if_neg Bool.false_ne_true,
      List.append_nil] at whole
    exact whole.symm

/-- A text frame in three pieces, then a ping with the start of a frame behind it. -/
theorem receiving_independent_split :
    conversation (fun bytes => some (bytes.map UInt8.toUInt16)) none
        [0x81, 2, 0x48, 0x69, 0x89, 1, 7, 0x82] =
      [.didReceiveMessage [0x48, 0x69], .sendFrame opCodePong [7]] := by
  have ran : run (step (fun bytes => some (bytes.map UInt8.toUInt16)) fun n => n == 0) connected
      [.receive [0x81], .receive [2, 0x48], .receive [0x69], .receive [0x89, 1, 7, 0x82], .resume,
        .timer] =
      some { connected with
        buffer := [0x82]
        log := [.didReceiveMessage [0x48, 0x69], .sendFrame opCodePong [7]] } := rfl
  exact ((receiving_independent ran).2 rfl rfl).symm

end WebSocketChannel

end NetRider.WebSockets
