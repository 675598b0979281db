import NetRider.Lib.PopulationCount

/-!
# BitVector

A vector of bits in one word, whose highest bit says so, or in words behind a pointer. An index at
or beyond `numWords()` is a fault, as is the use of a word for a pointer. Pointers have 64 bits;
`unsigned` and the loops that count with it have 32.
-/

namespace NetRider.Wtf.BitVectors

open NetRider.Lib.PopulationCount

abbrev Word := BitVec 64

inductive Fault
  | wild
  | outside
  | endless
deriving DecidableEq

/-! ## Words -/

def bitsInPointer : Nat := 64

def maxInlineBits : Nat := bitsInPointer - 1

/-- The bit that marks an inline vector. -/
def tag : Word := 1#64 <<< maxInlineBits

def makeInlineBits (bits : Word) : Word := bits ||| tag

def cleanseInlineBits (bits : Word) : Word := bits &&& ~~~tag

def byteCount (bitCount : Nat) : Nat := (bitCount + 7) / 8

/-- `WTF::bitCount(unsigned)`. -/
def bitCount32 (bits : BitVec 32) : Nat :=
  let bits := bits - ((bits >>> 1) &&& 0x55555555#32)
  let bits := (bits &&& 0x33333333#32) + ((bits >>> 2) &&& 0x33333333#32)
  ((((bits + (bits >>> 4)) &&& 0xF0F0F0F#32) * 0x1010101#32) >>> 24).toNat

def bitCount64 (bits : Word) : Nat :=
  bitCount32 (bits.setWidth 32) + bitCount32 ((bits >>> 32).setWidth 32)

/-- `intHash(uint64_t)`. -/
def intHash (key : Word) : BitVec 32 :=
  let key := key + ~~~(key <<< 32)
  let key := key ^^^ (key >>> 22)
  let key := key + ~~~(key <<< 13)
  let key := key ^^^ (key >>> 8)
  let key := key + (key <<< 3)
  let key := key ^^^ (key >>> 15)
  let key := key + ~~~(key <<< 27)
  let key := key ^^^ (key >>> 31)
  key.setWidth 32

/-! ## OutOfLineBits -/

structure OutOfLineBits where
  numBits : Nat
  words : List Word

namespace OutOfLineBits

def numWords (o : OutOfLineBits) : Nat := (o.numBits + bitsInPointer - 1) / bitsInPointer

/-- The number of bits `create` allocates. `~(bitsInPointer() - 1)` is computed with unsigned, and
has no bits above the 32nd. -/
def created (numBits : Nat) : Nat := ((numBits + bitsInPointer - 1) % 2 ^ 64) &&& 0xFFFFFFC0

end OutOfLineBits

/-! ## BitVector -/

/-- `m_bitsOrPointer`. -/
inductive BitVector
  | word (bits : Word)
  | pointer (o : OutOfLineBits)

namespace BitVector

def empty : BitVector := word (makeInlineBits 0)

def isInline : BitVector → Bool
  | word w => w >>> maxInlineBits ≠ 0#64
  | pointer _ => false

def isEmptyOrDeletedValue : BitVector → Bool
  | word w => w ≤ 1#64
  | pointer _ => false

def outOfLineBits : BitVector → Except Fault OutOfLineBits
  | word _ => .error .wild
  | pointer o => .ok o

variable (v other : BitVector)

def size : Except Fault Nat :=
  if v.isInline then .ok maxInlineBits
  else do
    let o ← v.outOfLineBits
    return o.numBits

/-- `bits()[k]`. -/
def loadWord (k : Nat) : Except Fault Word :=
  match v with
  | word w => if v.isInline then if k = 0 then .ok w else .error .outside else .error .wild
  | pointer o =>
    match o.words[k]? with
    | some w => .ok w
    | none => .error .outside

/-- `bits()[k]` is changed. -/
def modifyWord (k : Nat) (f : Word → Word) : Except Fault BitVector :=
  match v with
  | word w => if v.isInline then if k = 0 then .ok (word (f w)) else .error .outside
    else .error .wild
  | pointer o =>
    match o.words[k]? with
    | some w => .ok (pointer { o with words := o.words.set k (f w) })
    | none => .error .outside

def quickGet (bit : Nat) : Except Fault Bool := do
  let w ← v.loadWord (bit / bitsInPointer)
  return w &&& (1#64 <<< (bit &&& bitsInPointer - 1)) ≠ 0#64

def quickSet (bit : Nat) : Except Fault BitVector :=
  v.modifyWord (bit / bitsInPointer) (· ||| (1#64 <<< (bit &&& bitsInPointer - 1)))

def quickClear (bit : Nat) : Except Fault BitVector :=
  v.modifyWord (bit / bitsInPointer) (· &&& ~~~(1#64 <<< (bit &&& bitsInPointer - 1)))

def resizeOutOfLine (numBits : Nat) : Except Fault BitVector :=
  let new : OutOfLineBits := ⟨OutOfLineBits.created numBits, []⟩
  match v with
  | word w =>
    if v.isInline then
      -- The first word is stored, and the others are set to zero.
      if new.numWords = 0 then .error .outside
      else
        let first := w &&& ~~~(1#64 <<< maxInlineBits)
        .ok (pointer { new with words := first :: List.replicate (new.numWords - 1) 0 })
    else .error .wild
  | pointer o =>
    if o.numBits < numBits then
      if new.numWords < o.numWords then .error .outside
      else
        let added := List.replicate (new.numWords - o.numWords) 0
        .ok (pointer { new with words := o.words.take o.numWords ++ added })
    else if o.numWords < new.numWords then .error .outside
    else .ok (pointer { new with words := o.words.take new.numWords })

def ensureSize (numBits : Nat) : Except Fault BitVector := do
  if numBits ≤ (← v.size) then return v
  else v.resizeOutOfLine numBits

def get (bit : Nat) : Except Fault Bool := do
  if (← v.size) ≤ bit then return false
  else v.quickGet bit

def set (bit : Nat) : Except Fault BitVector := do
  let v ← v.ensureSize ((bit + 1) % 2 ^ 64)
  v.quickSet bit

def clear (bit : Nat) : Except Fault BitVector := do
  if (← v.size) ≤ bit then return v
  else v.quickClear bit

def clearAll : Except Fault BitVector :=
  if v.isInline then .ok (word (makeInlineBits 0))
  else do
    let o ← v.outOfLineBits
    return pointer { o with words := List.replicate o.words.length 0 }

def setSlow : Except Fault BitVector :=
  if other.isInline || other.isEmptyOrDeletedValue then .ok other
  else do
    let o ← other.outOfLineBits
    let new : OutOfLineBits := ⟨OutOfLineBits.created o.numBits, []⟩
    let copied := byteCount o.numBits / 8
    if copied = new.numWords then return pointer { new with words := o.words.take copied }
    else .error .outside

/-- `operator=`. -/
def assign : Except Fault BitVector :=
  if v.isInline && other.isInline then .ok other else setSlow other

/-- `for (unsigned i = n; i--;) a[i] = f(a[i], b[i])`. -/
def wordLoop (f : Word → Word → Word) (b : List Word) : Nat → List Word → Except Fault (List Word)
  | 0, a => .ok a
  | i + 1, a =>
    match a[i]?, b[i]? with
    | some x, some y => wordLoop f b i (a.set i (f x y))
    | _, _ => .error .outside

/-- `for (unsigned i = ..; i < n; ++i) a[i] = 0`, with fuel. -/
def clearLoop (n : Nat) : Nat → Nat → List Word → Except Fault (List Word)
  | 0, i, a => if i < n then .error .endless else .ok a
  | fuel + 1, i, a =>
    if i < n then
      if i < a.length then clearLoop n fuel ((i + 1) % 2 ^ 32) (a.set i 0) else .error .outside
    else .ok a

def mergeSlow : Except Fault BitVector :=
  match other.isInline, other with
  | true, word w => v.modifyWord 0 (· ||| cleanseInlineBits w)
  | _, _ => do
    let v ← v.ensureSize (← other.size)
    let a ← v.outOfLineBits
    let b ← other.outOfLineBits
    let words ← wordLoop (· ||| ·) b.words (a.numWords % 2 ^ 32) a.words
    return pointer { a with words := words }

def merge : Except Fault BitVector :=
  match v.isInline && other.isInline, v, other with
  | true, word w, word w' => .ok (word (w ||| w'))
  | _, _, _ => v.mergeSlow other

def filterSlow : Except Fault BitVector :=
  match other.isInline, other with
  | true, word w => v.modifyWord 0 (· &&& cleanseInlineBits w)
  | _, _ =>
    match v.isInline, v with
    | true, word w => do
      let w' ← other.loadWord 0
      return word ((w &&& w') ||| (1#64 <<< maxInlineBits))
    | _, _ => do
      let a ← v.outOfLineBits
      let b ← other.outOfLineBits
      let words ← wordLoop (· &&& ·) b.words (min a.numWords b.numWords % 2 ^ 32) a.words
      let words ← clearLoop a.numWords (a.numWords + 1) (b.numWords % 2 ^ 32) words
      return pointer { a with words := words }

def filter : Except Fault BitVector :=
  match v.isInline && other.isInline, v, other with
  | true, word w, word w' => .ok (word (w &&& w'))
  | _, _, _ => v.filterSlow other

def excludeSlow : Except Fault BitVector :=
  match other.isInline, other with
  | true, word w => v.modifyWord 0 (· &&& ~~~cleanseInlineBits w)
  | _, _ =>
    match v.isInline, v with
    | true, word w => do
      let w' ← other.loadWord 0
      return word ((w &&& ~~~w') ||| (1#64 <<< maxInlineBits))
    | _, _ => do
      let a ← v.outOfLineBits
      let b ← other.outOfLineBits
      let words ← wordLoop (fun x y => x &&& ~~~y) b.words
        (min a.numWords b.numWords % 2 ^ 32) a.words
      return pointer { a with words := words }

def exclude : Except Fault BitVector :=
  match v.isInline && other.isInline, v, other with
  | true, word w, word w' => .ok (word ((w &&& ~~~w') ||| (1#64 <<< maxInlineBits)))
  | _, _, _ => v.excludeSlow other

/-- `for (unsigned i = n; i--;)`, with a result that starts from `zero`. -/
def foldLoop {β : Type} (f : β → Word → β) (words : List Word) : Nat → β → Except Fault β
  | 0, result => .ok result
  | i + 1, result =>
    match words[i]? with
    | some w => foldLoop f words i (f result w)
    | none => .error .outside

def bitCount : Except Fault Nat :=
  match v.isInline, v with
  | true, word w => .ok (bitCount64 (cleanseInlineBits w))
  | _, _ => do
    let o ← v.outOfLineBits
    foldLoop (fun result w => result + bitCount64 w) o.words (o.numWords % 2 ^ 32) 0

/-- `for (unsigned i = n; i--;)` over the bits of both. -/
def equalsLoop : Nat → Except Fault Bool
  | 0 => .ok true
  | i + 1 => do
    if (← v.get i) ≠ (← other.get i) then return false
    else equalsLoop i

/-- `operator==`. -/
def equals : Except Fault Bool :=
  match v.isInline && other.isInline, v, other with
  | true, word w, word w' => .ok (w == w')
  | _, _, _ => do
    let n := max (← v.size) (← other.size)
    equalsLoop v other (n % 2 ^ 32)

def hash : Except Fault (BitVec 32) :=
  match v.isInline, v with
  | true, word w => .ok (intHash (cleanseInlineBits w))
  | _, _ => do
    let o ← v.outOfLineBits
    let value ← foldLoop (· ^^^ ·) o.words (o.numWords % 2 ^ 32) 0#64
    return intHash value

end BitVector

end NetRider.Wtf.BitVectors
