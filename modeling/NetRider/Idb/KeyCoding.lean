import Mathlib.Data.List.Basic
import NetRider.Lib.Bytes

/-!
# IndexedDB keys and their encoding

`IDBKey`, and the part of `IDBLevelDBCoding` that writes keys and compares them written.

* A `String` is the list of its UTF-16 code units; the null string is the empty one.
* A `const char*` is the list of the bytes from there up to the `limit` of its buffer. Where
  the code adds to a pointer before it looks at the limit, the limit's address is an argument.
* An `int64_t` that the code asserts is not negative is a natural number on its way in.
-/

namespace NetRider.Idb

open NetRider.Lib

/-! ## Doubles -/

/-- A `double`, by its IEEE 754 bit pattern. -/
structure Double where
  bits : UInt64
  deriving DecidableEq

namespace Double

def magnitude (d : Double) : Nat := d.bits.toNat % 2 ^ 63

def isNaN (d : Double) : Prop := 0x7FF0000000000000 < d.magnitude

instance (d : Double) : Decidable d.isNaN := inferInstanceAs (Decidable (_ < _))

def negativeZero : Double := ⟨0x8000000000000000⟩

/-- Patterns other than NaN, numbered in the order of the numbers they stand for. -/
def rank (d : Double) : Int :=
  if d.bits.toNat < 2 ^ 63 then d.magnitude else -d.magnitude

/-- `d < e`. -/
def lt (d e : Double) : Prop := ¬ d.isNaN ∧ ¬ e.isNaN ∧ d.rank < e.rank

instance (d e : Double) : Decidable (d.lt e) := inferInstanceAs (Decidable (_ ∧ _ ∧ _))

end Double

/-! ## Keys -/

inductive IDBKey
  | invalid
  | array (keys : List IDBKey)
  | string (value : List UInt16)
  | date (value : Double)
  | number (value : Double)

/-- `IDBKey::Type`. -/
inductive KeyType
  | maxType | invalidType | arrayType | stringType | dateType | numberType | minType

def KeyType.code : KeyType → Int
  | .maxType => -1
  | .invalidType => 0
  | .arrayType => 1
  | .stringType => 2
  | .dateType => 3
  | .numberType => 4
  | .minType => 5

def compareTypes (a b : KeyType) : Int := b.code - a.code

/-- Code units, then lengths. -/
def codePointCompare : List UInt16 → List UInt16 → Int
  | [], [] => 0
  | [], _ :: _ => -1
  | _ :: _, [] => 1
  | a :: s, b :: t => if a = b then codePointCompare s t else if b < a then 1 else -1

def compareDoubles (d e : Double) : Int :=
  if d.lt e then -1 else if e.lt d then 1 else 0

namespace IDBKey

def type : IDBKey → KeyType
  | invalid => .invalidType
  | array _ => .arrayType
  | string _ => .stringType
  | date _ => .dateType
  | number _ => .numberType

mutual

def isValid : IDBKey → Bool
  | invalid => false
  | array keys => allValid keys
  | _ => true

def allValid : List IDBKey → Bool
  | [] => true
  | key :: keys => isValid key && allValid keys

end

mutual

def compare (key other : IDBKey) : Int :=
  if key.type.code ≠ other.type.code then
    if key.type.code > other.type.code then -1 else 1
  else match key, other with
    | array keys, array others => compareArrays keys others
    | string s, string t => -codePointCompare t s
    | date d, date e => compareDoubles d e
    | number d, number e => compareDoubles d e
    | _, _ => 0

def compareArrays : List IDBKey → List IDBKey → Int
  | [], [] => 0
  | [], _ :: _ => -1
  | _ :: _, [] => 1
  | key :: keys, other :: others =>
    let result := compare key other
    if result ≠ 0 then result else compareArrays keys others

end

end IDBKey

/-! ## Encoding -/

def IDBKeyNullTypeByte : UInt8 := 0
def IDBKeyStringTypeByte : UInt8 := 1
def IDBKeyDateTypeByte : UInt8 := 2
def IDBKeyNumberTypeByte : UInt8 := 3
def IDBKeyArrayTypeByte : UInt8 := 4
def IDBKeyMinKeyTypeByte : UInt8 := 5

def maxIDBKey : List UInt8 := [IDBKeyNullTypeByte]

def minIDBKey : List UInt8 := [IDBKeyMinKeyTypeByte]

def encodeIntLoop : Nat → Nat → List UInt8
  | 0, _ => []
  | rounds + 1, n =>
    UInt8.ofNat n :: if n >>> 8 ≠ 0 then encodeIntLoop rounds (n >>> 8) else []

/-- A `uint64_t` is zero after eight rounds. -/
def encodeInt (n : Nat) : List UInt8 := encodeIntLoop 8 n

def encodeVarIntLoop : Nat → Nat → List UInt8
  | 0, _ => []
  | rounds + 1, n =>
    if n >>> 7 ≠ 0 then UInt8.ofNat (n &&& 0x7f ||| 0x80) :: encodeVarIntLoop rounds (n >>> 7)
    else [UInt8.ofNat (n &&& 0x7f)]

/-- A `uint64_t` is zero after ten rounds. -/
def encodeVarInt (n : Nat) : List UInt8 := encodeVarIntLoop 10 n

/-- UTF-16BE. -/
def encodeString (s : List UInt16) : List UInt8 :=
  s.flatMap fun c => [UInt8.ofNat (c.toNat >>> 8), UInt8.ofNat c.toNat]

def encodeStringWithLength (s : List UInt16) : List UInt8 :=
  encodeVarInt s.length ++ encodeString s

def encodeDouble (d : Double) : List UInt8 := toLe 8 d.bits.toNat

mutual

def encodeIDBKey : IDBKey → List UInt8
  | .invalid => [IDBKeyNullTypeByte]
  | .array keys => IDBKeyArrayTypeByte :: encodeVarInt keys.length ++ encodeElements keys
  | .string s => IDBKeyStringTypeByte :: encodeStringWithLength s
  | .date d => IDBKeyDateTypeByte :: encodeDouble d
  | .number d => IDBKeyNumberTypeByte :: encodeDouble d

def encodeElements : List IDBKey → List UInt8
  | [] => []
  | key :: keys => encodeIDBKey key ++ encodeElements keys

end

/-! ## Decoding -/

/-- A decoder returns a null pointer or clears `ok`, or what it does is undefined: it shifts
by 64 or more, or reads outside its buffer. -/
inductive Fault
  | notOk
  | undefined
  deriving DecidableEq

abbrev Decoded (α : Type) := Except Fault α

/-- Two cursors moved before either is looked at. -/
def both {α β : Type} : Decoded α → Decoded β → Decoded (α × β)
  | .ok a, .ok b => .ok (a, b)
  | .error .undefined, _ => .error .undefined
  | _, .error .undefined => .error .undefined
  | _, _ => .error .notOk

def int64 (n : Int) : Int := n.bmod (2 ^ 64)

/-- The bytes at a cursor lie in the address space, below the limit. -/
structure Placed (limit : Nat) (p : List UInt8) : Prop where
  fits : p.length ≤ limit
  small : limit < 2 ^ 64

/-- `p + offset > limit`, with the address of `p` plus `offset` reduced to 64 bits. -/
def beyond (limit : Nat) (p : List UInt8) (offset : Int) : Prop :=
  (limit : Int) < (limit - p.length + offset) % 2 ^ 64

instance (limit : Nat) (p : List UInt8) (offset : Int) : Decidable (beyond limit p offset) :=
  inferInstanceAs (Decidable (_ < _))

/-- The `size` bytes at a cursor and the cursor behind them. -/
def readBytes (p : List UInt8) (size : Nat) : Decoded (List UInt8 × List UInt8) :=
  if size ≤ p.length then .ok (p.take size, p.drop size) else .error .undefined

def decodeByte : List UInt8 → Decoded (UInt8 × List UInt8)
  | [] => .error .notOk
  | c :: p => .ok (c, p)

def decodeInt (bytes : List UInt8) : Int := int64 (ofLe bytes)

def decodeVarIntLoop (shift foundInt : Nat) : List UInt8 → Decoded (Int × List UInt8)
  | [] => .error .notOk
  | c :: p =>
    if shift < 64 then
      let foundInt := foundInt ||| ((c.toNat &&& 0x7f) <<< shift) % 2 ^ 64
      if c.toNat &&& 0x80 ≠ 0 then decodeVarIntLoop (shift + 7) foundInt p
      else .ok (int64 foundInt, p)
    else .error .undefined

def decodeVarInt (p : List UInt8) : Decoded (Int × List UInt8) := decodeVarIntLoop 0 0 p

def decodeString : List UInt8 → List UInt16
  | high :: low :: bytes => UInt16.ofNat (256 * high.toNat + low.toNat) :: decodeString bytes
  | _ => []

def decodeStringWithLength (limit : Nat) (p : List UInt8) :
    Decoded (List UInt16 × List UInt8) := do
  let (len, p) ← decodeVarInt p
  if len < 0 ∨ beyond limit p (len * 2) then .error .notOk
  else
    let (bytes, p) ← readBytes p (len * 2).toNat
    .ok (decodeString bytes, p)

def decodeDouble (limit : Nat) (p : List UInt8) : Decoded (Double × List UInt8) :=
  if beyond limit p 8 then .error .notOk
  else do
    let (bytes, p) ← readBytes p 8
    .ok (⟨UInt64.ofNat (ofLe bytes)⟩, p)

/-! ## Comparing encoded keys -/

def compareInts (a b : Int) : Int :=
  let diff := int64 (a - b)
  if diff < 0 then -1 else if diff > 0 then 1 else 0

def memcmp : List UInt8 → List UInt8 → Int
  | a :: s, b :: t => if a = b then memcmp s t else if a < b then -1 else 1
  | _, _ => 0

/-- The result of a comparison, and the cursors behind what was compared. -/
abbrev Compared := Int × List UInt8 × List UInt8

def compareEncodedStringsWithLength (limitP limitQ : Nat) (p q : List UInt8) :
    Decoded Compared := do
  let ((lenP, startP), (lenQ, startQ)) ← both (decodeVarInt p) (decodeVarInt q)
  if lenP < 0 ∨ lenQ < 0 then .error .notOk
  else if beyond limitP startP (lenP * 2) ∨ beyond limitQ startQ (lenQ * 2) then .error .notOk
  else
    let (bytesP, p) ← readBytes startP (lenP * 2).toNat
    let (bytesQ, q) ← readBytes startQ (lenQ * 2).toNat
    let lmin := (if lenP < lenQ then lenP else lenQ).toNat
    let x := memcmp (bytesP.take (lmin * 2)) (bytesQ.take (lmin * 2))
    if x ≠ 0 then .ok (x, p, q)
    else if lenP = lenQ then .ok (0, p, q)
    else .ok (if lenP > lenQ then 1 else -1, p, q)

def keyTypeByteToKeyType (type : UInt8) : KeyType :=
  if type = IDBKeyNullTypeByte then .invalidType
  else if type = IDBKeyArrayTypeByte then .arrayType
  else if type = IDBKeyStringTypeByte then .stringType
  else if type = IDBKeyDateTypeByte then .dateType
  else if type = IDBKeyNumberTypeByte then .numberType
  else if type = IDBKeyMinKeyTypeByte then .minType
  else .invalidType

section

variable (limitA limitB : Nat)

mutual

/-- Every call reads a byte, so a fuel above the number of bytes left is never used up. -/
def compareEncodedCursors : Nat → List UInt8 → List UInt8 → Decoded Compared
  | fuel + 1, typeA :: ptrA, typeB :: ptrB =>
    let x := compareTypes (keyTypeByteToKeyType typeA) (keyTypeByteToKeyType typeB)
    if x ≠ 0 then .ok (x, ptrA, ptrB)
    else if typeA = IDBKeyNullTypeByte ∨ typeA = IDBKeyMinKeyTypeByte then .ok (0, ptrA, ptrB)
    else if typeA = IDBKeyArrayTypeByte then do
      let ((lengthA, ptrA), (lengthB, ptrB)) ← both (decodeVarInt ptrA) (decodeVarInt ptrB)
      if lengthA < 0 ∨ lengthB < 0 then .error .notOk
      else
        let (result, ptrA, ptrB) ← compareElements fuel (min lengthA lengthB).toNat ptrA ptrB
        if result ≠ 0 then .ok (result, ptrA, ptrB)
        else if lengthA < lengthB then .ok (-1, ptrA, ptrB)
        else if lengthA > lengthB then .ok (1, ptrA, ptrB)
        else .ok (0, ptrA, ptrB)
    else if typeA = IDBKeyStringTypeByte then
      compareEncodedStringsWithLength limitA limitB ptrA ptrB
    else if typeA = IDBKeyDateTypeByte ∨ typeA = IDBKeyNumberTypeByte then do
      let ((d, ptrA), (e, ptrB)) ← both (decodeDouble limitA ptrA) (decodeDouble limitB ptrB)
      .ok (compareDoubles d e, ptrA, ptrB)
    else .ok (0, ptrA, ptrB)
  | _, _, _ => .error .undefined

def compareElements : Nat → Nat → List UInt8 → List UInt8 → Decoded Compared
  | _, 0, ptrA, ptrB => .ok (0, ptrA, ptrB)
  | fuel + 1, n + 1, ptrA, ptrB => do
    let (result, ptrA, ptrB) ← compareEncodedCursors fuel ptrA ptrB
    if result ≠ 0 then .ok (result, ptrA, ptrB) else compareElements fuel n ptrA ptrB
  | 0, _ + 1, _, _ => .error .undefined

end

/-- The overload on two cursors. -/
def compareEncodedIDBKeysAt (ptrA ptrB : List UInt8) : Decoded Compared :=
  compareEncodedCursors limitA limitB (ptrA.length + 1) ptrA ptrB

/-- The overload on two vectors, which end at the addresses `limitA` and `limitB`. -/
def compareEncodedIDBKeys (keyA keyB : List UInt8) : Decoded Int := do
  let (result, _, _) ← compareEncodedIDBKeysAt limitA limitB keyA keyB
  .ok result

end

end NetRider.Idb
