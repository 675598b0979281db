import Mathlib

/-!
# The LZW decoder of GIF images

`GIFLZWContext` turns the data blocks of a frame, which `GIFFrameContext::decode` feeds to it, into
rows. Every access to a table is checked against the size of the table, and what no run of the code
can go on from is a fault. Integers are natural numbers where the code keeps them so; the rows that
are reported are computed in 32 bits.
-/

namespace NetRider.Gif

def MAX_LZW_BITS : Nat := 12
def MAX_BYTES : Nat := 4097

/-- What the decoder looks at of a frame whose header and data size are defined. -/
structure GIFFrameContext where
  width : Nat
  height : Nat
  datasize : Nat
  progressiveDisplay : Bool
  interlaced : Bool

/-- The arguments of `haveDecodedRow`. -/
structure Report where
  rowBuffer : List UInt8
  rowNumber : Int
  repeatCount : Int
  writeTransparentPixels : Bool
deriving DecidableEq

/-- The answer of `haveDecodedRow` to a report, after the earlier ones. -/
abbrev Client := List Report → Report → Bool

/-- The decoder. A table holds what a function gives on the indices below its size. Three histories
go along that the code does not keep: the rows handed to `outputRow`, what was reported, and
`codesize` and `bits` at every turn of the loop over the codes. -/
structure GIFLZWContext where
  stackp : Nat
  codesize : Nat
  codemask : Nat
  clearCode : Nat
  /-- Index of the next available slot in the dictionary. -/
  avail : Nat
  /-- There is no old code where the code has -1. -/
  oldcode : Option Nat
  firstchar : UInt8
  /-- Number of unread bits in `datum`. -/
  bits : Nat
  datum : Nat
  /-- Interlace pass, 1 to 4 if interlaced. -/
  ipass : Nat
  irow : Nat
  rowPosition : Nat
  rowsRemaining : Nat
  prefixes : Nat → UInt16
  suffix : Nat → UInt8
  stack : Nat → UInt8
  rowBuffer : Nat → UInt8
  rows : List (List UInt8)
  reports : List Report
  turns : List (Nat × Nat)

inductive Fault
  | outOfBounds
  | diverges
deriving DecidableEq

/-- A part of `doLZW` goes on, returns from the whole function, or cannot go on. -/
inductive Progress (α : Type)
  | goesOn (value : α)
  | returned (result : Bool) (context : GIFLZWContext)
  | fault (fault : Fault)

namespace Progress

variable {α β : Type}

def bind : Progress α → (α → Progress β) → Progress β
  | goesOn value, next => next value
  | returned result context, _ => returned result context
  | fault f, _ => fault f

instance : Monad Progress where
  pure := goesOn
  bind := bind

@[simp] theorem pure_bind (value : α) (next : α → Progress β) : (goesOn value >>= next) = next value :=
  rfl

@[simp] theorem returned_bind (result : Bool) (c : GIFLZWContext) (next : α → Progress β) :
    (returned result c >>= next) = returned result c := rfl

@[simp] theorem fault_bind (f : Fault) (next : α → Progress β) : (fault f >>= next) = fault f := rfl

end Progress

open Progress

/-- An access to a table of `size` entries. -/
def inTable (index size : Nat) : Progress Unit :=
  if index < size then goesOn () else fault .outOfBounds

/-! ## Rows -/

/-- The conversion to `int`. -/
def toInt (n : Int) : Int := Int.bmod n (2 ^ 32)

/-- The conversion to `unsigned`. -/
def toUnsigned (n : Int) : Int := n % 2 ^ 32

/-- `rowDup` and `rowShift` of a pass. -/
def rowDupShift : Nat → Int × Int
  | 1 => (7, 3)
  | 2 => (3, 1)
  | 3 => (1, 0)
  | _ => (0, 0)

/-- The rows `drowStart` to `drowEnd` that `outputRow` fills. -/
def drows (frame : GIFFrameContext) (ipass irow : Nat) : Int × Int :=
  let drowStart := toInt irow
  let drowEnd := toInt irow
  if frame.progressiveDisplay && frame.interlaced && ipass < 4 then
    let rowDup := (rowDupShift ipass).1
    let rowShift := (rowDupShift ipass).2
    let drowStart := toInt (toUnsigned (drowStart - rowShift))
    let drowEnd := toInt (toUnsigned (drowStart + rowDup))
    let drowEnd :=
      if toUnsigned (frame.height - 1 - drowEnd) ≤ rowShift then toInt (frame.height - 1)
      else drowEnd
    let drowStart := if drowStart < 0 then 0 else drowStart
    let drowEnd := if toUnsigned drowEnd ≥ frame.height then toInt (frame.height - 1) else drowEnd
    (drowStart, drowEnd)
  else (drowStart, drowEnd)

/-- One turn of the loop that looks for the next row: the pass and the row. -/
def nextInPass (height : Nat) : Nat → Nat → Nat × Nat
  | 1, irow => if irow + 8 ≥ height then (2, 4) else (1, irow + 8)
  | 2, irow => if irow + 8 ≥ height then (3, 2) else (2, irow + 8)
  | 3, irow => if irow + 4 ≥ height then (4, 1) else (3, irow + 4)
  | 4, irow => if irow + 2 ≥ height then (5, 0) else (4, irow + 2)
  | ipass, irow => (ipass, irow)

/-- The loop; it goes on for ever where a turn changes nothing. -/
def nextRow (height : Nat) : Nat → Nat → Nat → Progress (Nat × Nat)
  | 0, _, _ => fault .diverges
  | turns + 1, ipass, irow =>
    let next := nextInPass height ipass irow
    if next.2 > height - 1 then nextRow height turns next.1 next.2 else goesOn next

variable (frame : GIFFrameContext) (client : Client)

/-- `outputRow`, with its answer. A turn that is not the last one ends a pass, and there are four
of them. -/
def outputRow (c : GIFLZWContext) : Progress (Bool × GIFLZWContext) :=
  let (drowStart, drowEnd) := drows frame c.ipass c.irow
  if toUnsigned drowStart ≥ frame.height then goesOn (true, c)
  else
    let report : Report :=
      { rowBuffer := (List.range frame.width).map c.rowBuffer
        rowNumber := drowStart
        repeatCount := drowEnd - drowStart + 1
        writeTransparentPixels := frame.progressiveDisplay && frame.interlaced && c.ipass > 1 }
    let accepted := client c.reports report
    let c := { c with reports := c.reports ++ [report] }
    if !accepted then goesOn (false, c)
    else if !frame.interlaced then goesOn (true, { c with irow := c.irow + 1 })
    else do
      let (ipass, irow) ← nextRow frame.height 5 c.ipass c.irow
      goesOn (true, { c with ipass := ipass, irow := irow })

/-- `OUTPUT_ROW` -/
def outputFullRow (c : GIFLZWContext) : Progress GIFLZWContext := do
  let row := (List.range frame.width).map c.rowBuffer
  let (accepted, c) ← outputRow frame client { c with rows := c.rows ++ [row] }
  if !accepted then returned false c
  else
    let c := { c with rowsRemaining := c.rowsRemaining - 1, rowPosition := 0 }
    if c.rowsRemaining = 0 then returned true c else goesOn c

/-- Writes a pixel, and hands the row on when it is full. -/
def putPixel (c : GIFLZWContext) (pixel : UInt8) : Progress GIFLZWContext := do
  inTable c.rowPosition frame.width
  let c := { c with
    rowBuffer := Function.update c.rowBuffer c.rowPosition pixel
    rowPosition := c.rowPosition + 1 }
  if c.rowPosition = frame.width then outputFullRow frame client c else goesOn c

/-! ## Codes -/

def push (c : GIFLZWContext) (pixel : UInt8) : Progress GIFLZWContext := do
  inTable c.stackp MAX_BYTES
  goesOn { c with stack := Function.update c.stack c.stackp pixel, stackp := c.stackp + 1 }

/-- The loop that follows the prefixes of a code and stacks its characters; it is left with the
code of the first character. -/
def followPrefixes (c : GIFLZWContext) (code : Nat) : Progress (GIFLZWContext × Nat) :=
  if code ≥ c.clearCode then
    if code ≥ MAX_BYTES ∨ code = (c.prefixes code).toNat then returned false c
    else if c.stackp < MAX_BYTES then
      let c' := { c with
        stack := Function.update c.stack c.stackp (c.suffix code)
        stackp := c.stackp + 1 }
      if c'.stackp = MAX_BYTES then returned false c'
      else followPrefixes c' (c.prefixes code).toNat
    else fault .outOfBounds
  else goesOn (c, code)
termination_by MAX_BYTES - c.stackp

/-- Defines a new code of the old one and a character. -/
def define (c : GIFLZWContext) (oldcode : Nat) : Progress GIFLZWContext :=
  if c.avail < 4096 then do
    inTable c.avail MAX_BYTES
    let c := { c with
      prefixes := Function.update c.prefixes c.avail (UInt16.ofNat oldcode)
      suffix := Function.update c.suffix c.avail c.firstchar
      avail := c.avail + 1 }
    if c.avail &&& c.codemask = 0 ∧ c.avail < 4096 then
      goesOn { c with codesize := c.codesize + 1, codemask := c.codemask + c.avail }
    else goesOn c
  else goesOn c

/-- The loop that copies the stack to the row. -/
def copyStack : Nat → GIFLZWContext → Progress GIFLZWContext
  | 0, _ => fault .outOfBounds
  | stackp + 1, c => do
    inTable stackp MAX_BYTES
    let c ← putPixel frame client { c with stackp := stackp } (c.stack stackp)
    if stackp > 0 then copyStack stackp c else goesOn c

/-- A code that is not defined yet stands for the old one and a character more. -/
def pushUndefined (c : GIFLZWContext) (oldcode code : Nat) : Progress (GIFLZWContext × Nat) :=
  if code ≥ c.avail then do
    let c ← push c c.firstchar
    if c.stackp = MAX_BYTES then returned false c else goesOn (c, oldcode)
  else goesOn (c, code)

/-- What the decoder does with a code behind the old one. -/
def decodeCode (c : GIFLZWContext) (oldcode code : Nat) : Progress GIFLZWContext := do
  let incode := code
  let (c, code) ← pushUndefined c oldcode code
  let (c, code) ← followPrefixes c code
  inTable code MAX_BYTES
  let c := { c with firstchar := c.suffix code }
  let c ← push c c.firstchar
  let c ← define c oldcode
  let c := { c with oldcode := some incode }
  copyStack frame client c.stackp c

/-- One turn of the loop over the codes in `datum`. -/
def processCode (c : GIFLZWContext) (code : Nat) : Progress GIFLZWContext :=
  if code = c.clearCode then
    let codesize := frame.datasize + 1
    goesOn { c with
      codesize := codesize
      codemask := 1 <<< codesize - 1
      avail := c.clearCode + 2
      oldcode := none }
  else if code = c.clearCode + 1 then returned (c.rowsRemaining = 0) c
  else
    match c.oldcode with
    | none => do
      inTable code MAX_BYTES
      let pixel := c.suffix code
      -- `firstchar` and `oldcode` are set behind the row
      let c ← putPixel frame client c pixel
      goesOn { c with firstchar := UInt8.ofNat code, oldcode := some code }
    | some oldcode => decodeCode frame client c oldcode code

/-- The loop over the codes in `datum`. -/
def readCodes (c : GIFLZWContext) : Nat → Progress GIFLZWContext
  | 0 => fault .diverges
  | turns + 1 =>
    let c := { c with turns := c.turns ++ [(c.codesize, c.bits)] }
    if c.bits ≥ c.codesize then do
      let code := c.datum &&& c.codemask
      let c ← processCode frame client
        { c with datum := c.datum >>> c.codesize, bits := c.bits - c.codesize } code
      readCodes c turns
    else goesOn c

/-- Feeds a byte into `datum`. Each turn of the loop over the codes takes at least a bit. -/
def feedByte (c : GIFLZWContext) (byte : UInt8) : Progress GIFLZWContext :=
  let c := { c with datum := c.datum + byte.toNat <<< c.bits, bits := c.bits + 8 }
  readCodes frame client c (c.bits + 1)

def feedBytes (c : GIFLZWContext) : List UInt8 → Progress GIFLZWContext
  | [] => goesOn c
  | byte :: bytes => do
    let c ← feedByte frame client c byte
    feedBytes c bytes

/-- `doLZW`: its answer and the decoder behind it. -/
def doLZW (c : GIFLZWContext) (block : List UInt8) : Except Fault (Bool × GIFLZWContext) :=
  if c.rowPosition = frame.width then .ok (true, c)
  else
    match feedBytes frame client c block with
    | goesOn c => .ok (true, c)
    | returned result c => .ok (result, c)
    | fault f => .error f

/-- `prepareToDecode` of a new decoder, with the first content of the prefix table and of the
stack and the row. -/
def prepareToDecode (prefixes : Nat → UInt16) (stack rowBuffer : Nat → UInt8) :
    Option GIFLZWContext :=
  if frame.datasize ≥ MAX_LZW_BITS then none
  else
    let clearCode := 1 <<< frame.datasize
    if clearCode ≥ MAX_BYTES then none
    else
      let codesize := frame.datasize + 1
      some {
        stackp := 0
        codesize := codesize
        codemask := 1 <<< codesize - 1
        clearCode := clearCode
        avail := clearCode + 2
        oldcode := none
        firstchar := 0
        bits := 0
        datum := 0
        ipass := if frame.interlaced then 1 else 0
        irow := 0
        rowPosition := 0
        rowsRemaining := frame.height
        prefixes := prefixes
        suffix := fun i => if i < clearCode then UInt8.ofNat i else 0
        stack := stack
        rowBuffer := rowBuffer
        rows := []
        reports := []
        turns := [] }

/-! ## Frames -/

structure GIFLZWBlock where
  blockPosition : Nat
  blockSize : Nat

/-- What a block holds, if the data reaches that far. -/
def GIFLZWBlock.content (block : GIFLZWBlock) (data : List UInt8) : Option (List UInt8) :=
  if block.blockPosition + block.blockSize > data.length then none
  else some ((data.drop block.blockPosition).take block.blockSize)

/-- The loop of `decode` over the blocks from the current one on. -/
def decodeBlocks (c : GIFLZWContext) (currentLzwBlock : Nat) :
    List (Option (List UInt8)) → Except Fault (Bool × Nat × GIFLZWContext)
  | [] => .ok (true, currentLzwBlock, c)
  | content :: contents =>
    -- `hasRemainingRows`
    if c.rowsRemaining = 0 then .ok (true, currentLzwBlock, c)
    else
      match content with
      | none => .ok (false, currentLzwBlock, c)
      | some block =>
        match doLZW frame client c block with
        | .error f => .error f
        | .ok (false, c) => .ok (false, currentLzwBlock, c)
        | .ok (true, c) => decodeBlocks c (currentLzwBlock + 1) contents

/-- A frame with the state of its decoding. -/
structure GIFFrame extends GIFFrameContext where
  lzwContext : Option GIFLZWContext
  lzwBlocks : List GIFLZWBlock
  currentLzwBlock : Nat
  isComplete : Bool
  isHeaderDefined : Bool
  isDataSizeDefined : Bool

/-- What a call of `decode` ends with: its answer, `frameDecoded`, the frame, and the decoder as it
is before the cleanup. -/
structure Decoded where
  success : Bool
  frameDecoded : Bool
  frame : GIFFrame
  decoder : Option GIFLZWContext

/-- `decode` with the decoder that there is. -/
def GIFFrame.decodeFrom (g : GIFFrame) (client : Client) (data : List UInt8) (c : GIFLZWContext)
    (currentLzwBlock : Nat) : Except Fault Decoded :=
  match decodeBlocks g.toGIFFrameContext client c currentLzwBlock
      ((g.lzwBlocks.drop currentLzwBlock).map (·.content data)) with
  | .error f => .error f
  | .ok (success, currentLzwBlock, c) =>
    let cleanup := success && g.isComplete
    .ok {
      success := success
      frameDecoded := cleanup
      frame := { g with
        lzwContext := if cleanup then none else some c
        currentLzwBlock := currentLzwBlock }
      decoder := some c }

/-- `GIFFrameContext::decode`, with the first content of the tables of a new decoder. -/
def GIFFrame.decode (g : GIFFrame) (client : Client) (prefixes : Nat → UInt16)
    (stack rowBuffer : Nat → UInt8) (data : List UInt8) : Except Fault Decoded :=
  match g.lzwContext with
  | some c => g.decodeFrom client data c g.currentLzwBlock
  | none =>
    if !g.isDataSizeDefined || !g.isHeaderDefined then
      .ok { success := true, frameDecoded := false, frame := g, decoder := none }
    else
      match prepareToDecode g.toGIFFrameContext prefixes stack rowBuffer with
      | none => .ok { success := false, frameDecoded := false, frame := g, decoder := none }
      | some c => g.decodeFrom client data c 0

end NetRider.Gif
