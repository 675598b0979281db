import NetRider.Wtf.Strings

/-!
# Base64

The encoder computes the length of its output first and fills what it has not written with equals
signs. The decoder writes the values of the characters into its output and joins them there, four
to three, from the front.
-/

namespace NetRider.Wtf

inductive Base64EncodePolicy
  | doNotInsertLFs
  | insertLFs
  | urlPolicy
  deriving DecidableEq, Repr

inductive Base64DecodePolicy
  | failOnInvalidCharacterOrExcessPadding
  | failOnInvalidCharacter
  | ignoreWhitespace
  | ignoreInvalidCharacters
  deriving DecidableEq, Repr

namespace Base64

/-- `-1`. -/
def nonAlphabet : UInt8 := 0xFF

def base64EncMap : List UInt8 :=
  [0x41, 0x42, 0x43, 0x44, 0x45, 0x46, 0x47, 0x48,
    0x49, 0x4A, 0x4B, 0x4C, 0x4D, 0x4E, 0x4F, 0x50,
    0x51, 0x52, 0x53, 0x54, 0x55, 0x56, 0x57, 0x58,
    0x59, 0x5A, 0x61, 0x62, 0x63, 0x64, 0x65, 0x66,
    0x67, 0x68, 0x69, 0x6A, 0x6B, 0x6C, 0x6D, 0x6E,
    0x6F, 0x70, 0x71, 0x72, 0x73, 0x74, 0x75, 0x76,
    0x77, 0x78, 0x79, 0x7A, 0x30, 0x31, 0x32, 0x33,
    0x34, 0x35, 0x36, 0x37, 0x38, 0x39, 0x2B, 0x2F]

def base64URLEncMap : List UInt8 :=
  [0x41, 0x42, 0x43, 0x44, 0x45, 0x46, 0x47, 0x48,
    0x49, 0x4A, 0x4B, 0x4C, 0x4D, 0x4E, 0x4F, 0x50,
    0x51, 0x52, 0x53, 0x54, 0x55, 0x56, 0x57, 0x58,
    0x59, 0x5A, 0x61, 0x62, 0x63, 0x64, 0x65, 0x66,
    0x67, 0x68, 0x69, 0x6A, 0x6B, 0x6C, 0x6D, 0x6E,
    0x6F, 0x70, 0x71, 0x72, 0x73, 0x74, 0x75, 0x76,
    0x77, 0x78, 0x79, 0x7A, 0x30, 0x31, 0x32, 0x33,
    0x34, 0x35, 0x36, 0x37, 0x38, 0x39, 0x2D, 0x5F]

/-- The first entries of both maps to decode with, for what is neither a letter nor a digit. -/
def nonAlphabets (n : Nat) : List UInt8 := List.replicate n nonAlphabet

def digitValues : List UInt8 := [0x34, 0x35, 0x36, 0x37, 0x38, 0x39, 0x3A, 0x3B, 0x3C, 0x3D]

def upperValues : List UInt8 :=
  [0x00, 0x01, 0x02, 0x03, 0x04, 0x05, 0x06, 0x07, 0x08, 0x09, 0x0A, 0x0B, 0x0C, 0x0D, 0x0E, 0x0F,
    0x10, 0x11, 0x12, 0x13, 0x14, 0x15, 0x16, 0x17, 0x18, 0x19]

def lowerValues : List UInt8 :=
  [0x1A, 0x1B, 0x1C, 0x1D, 0x1E, 0x1F, 0x20, 0x21, 0x22, 0x23, 0x24, 0x25, 0x26, 0x27, 0x28, 0x29,
    0x2A, 0x2B, 0x2C, 0x2D, 0x2E, 0x2F, 0x30, 0x31, 0x32, 0x33]

def base64DecMap : List UInt8 :=
  nonAlphabets 43 ++ [0x3E] ++ nonAlphabets 3 ++ [0x3F] ++ digitValues ++ nonAlphabets 7 ++
    upperValues ++ nonAlphabets 6 ++ lowerValues ++ nonAlphabets 5

def base64URLDecMap : List UInt8 :=
  nonAlphabets 45 ++ [0x3E] ++ nonAlphabets 2 ++ digitValues ++ nonAlphabets 7 ++
    upperValues ++ nonAlphabets 4 ++ [0x3F] ++ nonAlphabets 1 ++ lowerValues ++ nonAlphabets 5

/-! ## Encoding -/

/-- What is left of a number in an `int`. -/
def wrapInt (n : Int) : Int := (n + 2 ^ 31) % 2 ^ 32 - 2 ^ 31

/-- The six bits that the `i`-th character of a group stands for. -/
def sextet0 (a : UInt8) : UInt8 := (a >>> 2) &&& 0o77
def sextet1 (a b : UInt8) : UInt8 := ((b >>> 4) &&& (0o17 : UInt8)) ||| ((a <<< 4) &&& (0o77 : UInt8))
def sextet2 (b c : UInt8) : UInt8 := ((c >>> 6) &&& (0o3 : UInt8)) ||| ((b <<< 2) &&& (0o77 : UInt8))
def sextet3 (c : UInt8) : UInt8 := c &&& 0o77

def encode (encodeMap : List UInt8) (sextet : UInt8) : UInt8 := encodeMap.getD sextet.toNat 0

def lineFeed (insert : Bool) : List UInt8 := if insert then [0x0A] else []

/-- The characters that are written; `count` is an `int`. -/
def encodeGroups (encodeMap : List UInt8) (insertLFs : Bool) (count : Int) :
    List UInt8 → List UInt8
  | a :: b :: c :: data =>
    lineFeed (insertLFs && count ≠ 0 && count % 76 = 0) ++
      [encode encodeMap (sextet0 a), encode encodeMap (sextet1 a b),
        encode encodeMap (sextet2 b c), encode encodeMap (sextet3 c)] ++
      encodeGroups encodeMap insertLFs (if insertLFs then wrapInt (count + 4) else count) data
  | [a, b] =>
    lineFeed (insertLFs && count > 0 && count % 76 = 0) ++
      [encode encodeMap (sextet0 a), encode encodeMap (sextet1 a b),
        encode encodeMap ((b <<< 2) &&& 0o77)]
  | [a] =>
    lineFeed (insertLFs && count > 0 && count % 76 = 0) ++
      [encode encodeMap (sextet0 a), encode encodeMap ((a <<< 4) &&& 0o77)]
  | [] => []

/-- `UINT_MAX / 77 * 76 / 4 * 3 - 2`. -/
def maxInputBufferSize : Nat := (2 ^ 32 - 1) / 77 * 76 / 4 * 3 - 2

/-- The output; nothing if it is written behind its end. -/
def base64EncodeInternal (data : List UInt8) (policy : Base64EncodePolicy)
    (encodeMap : List UInt8) : Option (List UInt8) :=
  if data.length = 0 then some []
  else if data.length > maxInputBufferSize then some []
  else
    let outLength := (data.length + 2) / 3 * 4
    let insertLFs := policy = .insertLFs && outLength > 76
    let outLength := if insertLFs then outLength + (outLength - 1) / 76 else outLength
    let out := encodeGroups encodeMap insertLFs 0 data
    if out.length > outLength then none
    else if policy = .urlPolicy then some out
    else some (out ++ List.replicate (outLength - out.length) 0x3D)

def base64Encode (data : List UInt8) (policy : Base64EncodePolicy) : Option (List UInt8) :=
  base64EncodeInternal data policy base64EncMap

def base64URLEncode (data : List UInt8) : Option (List UInt8) :=
  base64EncodeInternal data .urlPolicy base64URLEncMap

/-! ## Decoding -/

/-- Why there is no output: `false` is returned, or a vector is indexed behind its end. -/
inductive DecodeFailure
  | rejected
  | overflowed
  deriving DecidableEq, Repr

variable (icu : Icu)

/-- The loop over the characters: how many equals signs there are, and the values of the others. -/
def scan (policy : Base64DecodePolicy) (decodeMap : List UInt8) (length : Nat) :
    Nat → List UInt8 → List Nat → Option (Nat × List UInt8)
  | equalsSignCount, decoded, [] => some (equalsSignCount, decoded)
  | equalsSignCount, decoded, ch :: data =>
    if ch = 0x3D then
      if policy = .failOnInvalidCharacterOrExcessPadding ∧
          (length % 4 ≠ 0 ∨ equalsSignCount + 1 > 2) then none
      else scan policy decodeMap length (equalsSignCount + 1) decoded data
    else
      let decodedCharacter := if ch < 128 then decodeMap.getD ch nonAlphabet else nonAlphabet
      if decodedCharacter ≠ nonAlphabet then
        if equalsSignCount ≠ 0 then none
        else scan policy decodeMap length equalsSignCount (decoded ++ [decodedCharacter]) data
      else if policy = .failOnInvalidCharacterOrExcessPadding ∨ policy = .failOnInvalidCharacter ∨
          policy = .ignoreWhitespace ∧ ¬ isSpaceOrNewline icu (UInt16.ofNat ch) then none
      else scan policy decodeMap length equalsSignCount decoded data

def join0 (a b : UInt8) : UInt8 := (a <<< 2) ||| ((b >>> 4) &&& 0o3)
def join1 (b c : UInt8) : UInt8 := (b <<< 4) ||| ((c >>> 2) &&& 0o17)
def join2 (c d : UInt8) : UInt8 := (c <<< 6) ||| (d &&& 0o77)

def read (out : List UInt8) (i : Nat) : Except DecodeFailure UInt8 :=
  match out[i]? with
  | some b => .ok b
  | none => .error .overflowed

def write (out : List UInt8) (i : Nat) (b : UInt8) : Except DecodeFailure (List UInt8) :=
  if i < out.length then .ok (out.set i b) else .error .overflowed

/-- `out[didx] = join(out[i], out[i + 1])`. -/
def joinAt (join : UInt8 → UInt8 → UInt8) (out : List UInt8) (didx i : Nat) :
    Except DecodeFailure (List UInt8) :=
  match read out i, read out (i + 1) with
  | .ok a, .ok b => write out didx (join a b)
  | _, _ => .error .overflowed

/-- One turn of the loop that joins. -/
def joinGroup (out : List UInt8) (sidx didx : Nat) : Except DecodeFailure (List UInt8) := do
  let out ← joinAt join0 out didx sidx
  let out ← joinAt join1 out (didx + 1) (sidx + 1)
  joinAt join2 out (didx + 2) (sidx + 2)

/-- The loop that joins, for `fuel` turns at most. -/
def joinLoop (outLength : Nat) : Nat → List UInt8 → Nat → Nat →
    Except DecodeFailure (List UInt8 × Nat × Nat)
  | 0, out, sidx, didx => .ok (out, sidx, didx)
  | fuel + 1, out, sidx, didx =>
    if didx < outLength - 2 then do
      let out ← joinGroup out sidx didx
      joinLoop outLength fuel out (sidx + 4) (didx + 3)
    else .ok (out, sidx, didx)

/-- `if (didx < outLength) out[didx] = join(out[i], out[i + 1])`. -/
def joinWithin (outLength : Nat) (join : UInt8 → UInt8 → UInt8) (out : List UInt8) (didx i : Nat) :
    Except DecodeFailure (List UInt8) :=
  if didx < outLength then joinAt join out didx i else .ok out

/-- What follows the loop. -/
def joinRest (outLength : Nat) (out : List UInt8) (sidx didx : Nat) :
    Except DecodeFailure (List UInt8) := do
  let out ← joinWithin outLength join0 out didx sidx
  let out ← joinWithin outLength join1 out (didx + 1) (sidx + 1)
  return if outLength < out.length then out.take outLength else out

/-- From the values in front of `out` on. -/
def joinAll (outLength : Nat) (out : List UInt8) : Except DecodeFailure (List UInt8) := do
  let state ← if outLength > 1 then joinLoop outLength outLength out 0 0 else .ok (out, 0, 0)
  joinRest outLength state.1 state.2.1 state.2.2

/-- `outLength -= (outLength + 3) / 4`, with `unsigned`. -/
def joinedLength (outLength : Nat) : Nat := outLength - (outLength + 3) % 2 ^ 32 / 4

/-- The characters are the values of `unsigned ch`; behind the values `out` has what it had. -/
def base64DecodeInternal (policy : Base64DecodePolicy) (decodeMap : List UInt8)
    (data : List Nat) : Except DecodeFailure (List UInt8) :=
  if data.length = 0 then .ok []
  else
    match scan icu policy decodeMap data.length 0 [] data with
    | none => .error .rejected
    | some (equalsSignCount, decoded) =>
      if decoded.length = 0 then if equalsSignCount = 0 then .ok [] else .error .rejected
      else if decoded.length % 4 = 1 then .error .rejected
      else if joinedLength decoded.length = 0 then .error .rejected
      else
        joinAll (joinedLength decoded.length)
          (decoded ++ List.replicate (data.length - decoded.length) 0)

/-- A string, or a vector of `char`, which is signed. -/
inductive Characters
  | string (data : List UInt16)
  | vector (data : List UInt8)

/-- The characters as `unsigned`. -/
def Characters.codes : Characters → List Nat
  | string data => data.map UInt16.toNat
  | vector data => data.map fun c => if c < 0x80 then c.toNat else 2 ^ 32 - 256 + c.toNat

/-- Whether a vector is longer than `UINT_MAX`. -/
def Characters.pathological : Characters → Bool
  | string _ => false
  | vector data => data.length > 2 ^ 32 - 1

def base64Decode (data : Characters) (policy : Base64DecodePolicy) :
    Except DecodeFailure (List UInt8) :=
  if data.pathological then .error .rejected
  else base64DecodeInternal icu policy base64DecMap data.codes

def base64URLDecode (data : Characters) : Except DecodeFailure (List UInt8) :=
  if data.pathological then .error .rejected
  else base64DecodeInternal icu .failOnInvalidCharacter base64URLDecMap data.codes

end Base64

end NetRider.Wtf
