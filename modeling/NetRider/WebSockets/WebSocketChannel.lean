import NetRider.WebSockets.WebSocketFrame
import NetRider.Lib.Run

/-!
# Receiving on a WebSocket channel

`WebSocketChannel` once the handshake is done, without the deflate extension, while nothing is
sent or closed from this side.

* The handle takes every frame it is given, and `disconnect` calls `didCloseSocketStream` at once;
  nothing arrives after it. The document, the client and the handle are there or not together.
* In each of its callbacks the client may call `suspend`.
-/

namespace NetRider.WebSockets

open NetRider.Lib

/-- A `String`, null for `none`. -/
abbrev Text := Option (List UInt16)

/-- What the client is told, and the frames that are sent. -/
inductive Event
  | didReceiveMessage (message : List UInt16)
  | didReceiveBinaryData (data : List UInt8)
  /-- With the reason, which goes to the console. -/
  | didReceiveMessageError (reason : String)
  | didStartClosingHandshake
  | didClose (closingHandshakeComplete : Bool) (code : Nat) (reason : Text)
  | sendFrame (opCode : UInt8) (payload : List UInt8)
  deriving DecidableEq

def opCodeContinuation : UInt8 := 0x0
def opCodeText : UInt8 := 0x1
def opCodeBinary : UInt8 := 0x2
def opCodeClose : UInt8 := 0x8
def opCodePing : UInt8 := 0x9
def opCodePong : UInt8 := 0xA

def isNonControlOpCode (opCode : UInt8) : Bool :=
  opCode = opCodeContinuation ∨ opCode = opCodeText ∨ opCode = opCodeBinary

def isControlOpCode (opCode : UInt8) : Bool :=
  opCode = opCodeClose ∨ opCode = opCodePing ∨ opCode = opCodePong

def isReservedOpCode (opCode : UInt8) : Bool := !isNonControlOpCode opCode && !isControlOpCode opCode

def closeEventCodeNoStatusRcvd : Nat := 1005
def closeEventCodeAbnormalClosure : Nat := 1006
def closeEventCodeTLSHandshake : Nat := 1015

structure WebSocketChannel where
  buffer : List UInt8
  client : Bool
  suspended : Bool
  resumeTimer : Bool
  closing : Bool
  receivedClosingHandshake : Bool
  closed : Bool
  shouldDiscardReceivedData : Bool
  hasContinuousFrame : Bool
  continuousFrameOpCode : UInt8
  continuousFrameData : List UInt8
  closeEventCode : Nat
  closeEventReason : Text
  log : List Event

namespace WebSocketChannel

def connected : WebSocketChannel where
  buffer := []
  client := true
  suspended := false
  resumeTimer := false
  closing := false
  receivedClosingHandshake := false
  closed := false
  shouldDiscardReceivedData := false
  hasContinuousFrame := false
  continuousFrameOpCode := opCodeContinuation
  continuousFrameData := []
  closeEventCode := closeEventCodeAbnormalClosure
  closeEventReason := none
  log := []

-- `String::fromUTF8`, null for bytes that are not UTF-8, and whether the client suspends the
-- channel when it is told something after so many events
variable (fromUTF8 : List UInt8 → Text) (suspends : Nat → Bool)

def notify (event : Event) (c : WebSocketChannel) : WebSocketChannel :=
  { c with log := c.log ++ [event], suspended := c.suspended || suspends c.log.length }

def sendFrame (opCode : UInt8) (payload : List UInt8) (c : WebSocketChannel) : WebSocketChannel :=
  { c with log := c.log ++ [.sendFrame opCode payload] }

def skipBuffer (len : Nat) (c : WebSocketChannel) : WebSocketChannel :=
  { c with buffer := c.buffer.drop len }

def didCloseSocketStream (c : WebSocketChannel) : WebSocketChannel :=
  let c := { c with closed := true }
  if !c.client || c.suspended then c
  else { c with
    client := false
    log := c.log ++ [.didClose c.receivedClosingHandshake c.closeEventCode c.closeEventReason] }

def fail (reason : String) (c : WebSocketChannel) : WebSocketChannel :=
  let c := { c with
    shouldDiscardReceivedData := true
    buffer := []
    hasContinuousFrame := false
    continuousFrameData := [] }
  let c := notify suspends (.didReceiveMessageError reason) c
  if c.closed then c else didCloseSocketStream c

/-- The answer to the other side's close frame: it has no body. -/
def startClosingHandshake (c : WebSocketChannel) : WebSocketChannel :=
  if c.closing then c
  else
    let c := { sendFrame opCodeClose [] c with closing := true }
    if c.client then notify suspends .didStartClosingHandshake c else c

/-- The checks of `processFrame` before it looks at what the frame is. -/
def frameViolation (hasContinuousFrame : Bool) (frame : WebSocketFrame) : Option String :=
  if frame.compress then some "Compressed bit must be 0 if no negotiated deflate-frame extension"
  else if isReservedOpCode frame.opCode then
    some ("Unrecognized frame opcode: " ++ toString frame.opCode.toNat)
  else if frame.reserved2 || frame.reserved3 then
    some ("One or more reserved bits are on: reserved2 = " ++
      toString (if frame.reserved2 then 1 else 0) ++ ", reserved3 = " ++
      toString (if frame.reserved3 then 1 else 0))
  else if frame.masked then some "A server must not mask any frames that it sends to the client."
  else if isControlOpCode frame.opCode && !frame.final then
    some ("Received fragmented control frame: opcode = " ++ toString frame.opCode.toNat)
  else if isControlOpCode frame.opCode && frame.payload.length > 125 then
    some ("Received control frame having too long payload: " ++ toString frame.payload.length ++
      " bytes")
  else if hasContinuousFrame && frame.opCode ≠ opCodeContinuation &&
      !isControlOpCode frame.opCode then
    some "Received new data frame but previous continuous frame is unfinished."
  else none

def decodeText (data : List UInt8) : Text := if data = [] then some [] else fromUTF8 data

def receiveText (data : List UInt8) (c : WebSocketChannel) : WebSocketChannel :=
  match decodeText fromUTF8 data with
  | none => fail suspends "Could not decode a text frame as UTF-8." c
  | some message => notify suspends (.didReceiveMessage message) c

def processContinuationFrame (frame : WebSocketFrame) (frameEnd : Nat) (c : WebSocketChannel) :
    WebSocketChannel :=
  if !c.hasContinuousFrame then fail suspends "Received unexpected continuation frame." c
  else
    let data := c.continuousFrameData ++ frame.payload
    let c := skipBuffer frameEnd { c with continuousFrameData := data }
    if frame.final then
      let c := { c with continuousFrameData := [], hasContinuousFrame := false }
      if c.continuousFrameOpCode = opCodeText then receiveText fromUTF8 suspends data c
      else if c.continuousFrameOpCode = opCodeBinary then
        notify suspends (.didReceiveBinaryData data) c
      else c
    else c

/-- A text frame or a binary frame that is not the last of its message. -/
def startContinuousFrame (frame : WebSocketFrame) (frameEnd : Nat) (c : WebSocketChannel) :
    WebSocketChannel :=
  skipBuffer frameEnd { c with
    hasContinuousFrame := true
    continuousFrameOpCode := frame.opCode
    continuousFrameData := c.continuousFrameData ++ frame.payload }

def processTextFrame (frame : WebSocketFrame) (frameEnd : Nat) (c : WebSocketChannel) :
    WebSocketChannel :=
  if frame.final then receiveText fromUTF8 suspends frame.payload (skipBuffer frameEnd c)
  else startContinuousFrame frame frameEnd c

def processBinaryFrame (frame : WebSocketFrame) (frameEnd : Nat) (c : WebSocketChannel) :
    WebSocketChannel :=
  if frame.final then notify suspends (.didReceiveBinaryData frame.payload) (skipBuffer frameEnd c)
  else startContinuousFrame frame frameEnd c

/-- What a close frame says, or why it is broken. -/
def closeStatus (payload : List UInt8) : Except String (Nat × Text) :=
  match payload with
  | [] => .ok (closeEventCodeNoStatusRcvd, some [])
  | [_] => .error "Received a broken close frame containing an invalid size body."
  | highByte :: lowByte :: reason =>
    let code := highByte.toNat <<< 8 ||| lowByte.toNat
    if code = closeEventCodeNoStatusRcvd ∨ code = closeEventCodeAbnormalClosure ∨
        code = closeEventCodeTLSHandshake then
      .error "Received a broken close frame containing a reserved status code."
    else .ok (code, if reason = [] then some [] else fromUTF8 reason)

def processCloseFrame (frame : WebSocketFrame) (frameEnd : Nat) (c : WebSocketChannel) :
    WebSocketChannel :=
  match closeStatus fromUTF8 frame.payload with
  | .error reason =>
    fail suspends reason { c with closeEventCode := closeEventCodeAbnormalClosure }
  | .ok (code, reason) =>
    let c := skipBuffer frameEnd { c with closeEventCode := code, closeEventReason := reason }
    let c := startClosingHandshake suspends { c with receivedClosingHandshake := true }
    -- the queue is empty, so it is closed and the handle with it
    if c.closing then didCloseSocketStream c else c

/-- The switch. -/
def processOpCode (frame : WebSocketFrame) (frameEnd : Nat) (c : WebSocketChannel) :
    WebSocketChannel :=
  if frame.opCode = opCodeContinuation then
    processContinuationFrame fromUTF8 suspends frame frameEnd c
  else if frame.opCode = opCodeText then processTextFrame fromUTF8 suspends frame frameEnd c
  else if frame.opCode = opCodeBinary then processBinaryFrame suspends frame frameEnd c
  else if frame.opCode = opCodeClose then processCloseFrame fromUTF8 suspends frame frameEnd c
  else if frame.opCode = opCodePing then
    sendFrame opCodePong frame.payload (skipBuffer frameEnd c)
  else skipBuffer frameEnd c

/-- With whether there may be another frame. The code returns false after `fail`, which leaves
the buffer empty. -/
def processFrame (c : WebSocketChannel) : WebSocketChannel × Bool :=
  match WebSocketFrame.parseFrame c.buffer with
  | (_, .frameIncomplete) => (c, false)
  | (_, .frameError errorString) => (fail suspends errorString c, false)
  | (data, .frameOK frame frameEnd) =>
    match frameViolation c.hasContinuousFrame frame with
    | some reason => (fail suspends reason { c with buffer := data }, false)
    | none =>
      let c := processOpCode fromUTF8 suspends frame frameEnd { c with buffer := data }
      (c, !c.buffer.isEmpty)

def processBuffer (c : WebSocketChannel) : WebSocketChannel × Bool :=
  if c.shouldDiscardReceivedData then (c, false)
  else if c.receivedClosingHandshake then (skipBuffer c.buffer.length c, false)
  else processFrame fromUTF8 suspends c

/-- `while (!m_suspended && m_client && !m_buffer.isEmpty()) if (!processBuffer()) break;`, for
`fuel` rounds. -/
def processBuffers : Nat → WebSocketChannel → WebSocketChannel
  | 0, c => c
  | fuel + 1, c =>
    if !c.suspended && c.client && !c.buffer.isEmpty then
      let (c, more) := processBuffer fromUTF8 suspends c
      if more then processBuffers fuel c else c
    else c

/-- Each round takes at least a byte. -/
def processAll (c : WebSocketChannel) : WebSocketChannel :=
  processBuffers fromUTF8 suspends c.buffer.length c

def didReceiveSocketStreamData (data : List UInt8) (c : WebSocketChannel) : WebSocketChannel :=
  if !c.client || c.shouldDiscardReceivedData then c
  else processAll fromUTF8 suspends { c with buffer := c.buffer ++ data }

def resume (c : WebSocketChannel) : WebSocketChannel :=
  let c := { c with suspended := false }
  if (!c.buffer.isEmpty || c.closed) && c.client then { c with resumeTimer := true } else c

def resumeTimerFired (c : WebSocketChannel) : WebSocketChannel :=
  let c := processAll fromUTF8 suspends { c with resumeTimer := false }
  if !c.suspended && c.client && c.closed then didCloseSocketStream c else c

inductive Action
  | receive (data : List UInt8)
  | suspend
  | resume
  | timer

/-- A socket that is closed is not read any more. -/
def step (c : WebSocketChannel) : Action → Option WebSocketChannel
  | .receive data =>
    if data = [] then none
    else if c.closed then some c
    else some (didReceiveSocketStreamData fromUTF8 suspends data c)
  | .suspend => some { c with suspended := true }
  | .resume => some (resume c)
  | .timer => if c.resumeTimer then some (resumeTimerFired fromUTF8 suspends c) else none

/-- The bytes from the other side. -/
def arrived : List Action → List UInt8
  | [] => []
  | .receive data :: as => data ++ arrived as
  | _ :: as => arrived as

end WebSocketChannel

end NetRider.WebSockets
