import NetRider.Idb.KeyCoding

/-!
# LevelDB keys

The fifteen kinds of keys that `IDBLevelDBCoding` writes to LevelDB, and the comparator that
orders them. Every key starts with a `KeyPrefix`; metadata keys have a type byte behind it.
-/

namespace NetRider.Idb

open NetRider.Lib

/-! ## Prefixes -/

structure KeyPrefix where
  databaseId : Int
  objectStoreId : Int
  indexId : Int
  deriving DecidableEq

namespace KeyPrefix

/-- `KeyPrefix::Type`. -/
inductive PrefixType
  | globalMetaData | databaseMetaData | objectStoreData | existsEntry | indexData | invalidType
  deriving DecidableEq

def minimumIndexId : Nat := 30

def kMaxDatabaseId : Nat := 2 ^ 63 - 1

def kMaxObjectStoreId : Nat := 2 ^ 63 - 1

def kMaxIndexId : Nat := 2 ^ 31 - 1

def isValidDatabaseId (databaseId : Nat) : Prop := 0 < databaseId ∧ databaseId < kMaxDatabaseId

def isValidObjectStoreId (objectStoreId : Nat) : Prop :=
  0 < objectStoreId ∧ objectStoreId < kMaxObjectStoreId

def isValidIndexId (indexId : Nat) : Prop := minimumIndexId ≤ indexId ∧ indexId < kMaxIndexId

def objectStoreDataIndexId : Nat := 1

def existsEntryIndexId : Nat := 2

def decode (limit : Nat) : List UInt8 → Decoded (KeyPrefix × List UInt8)
  | [] => .error .notOk
  | firstByte :: start =>
    let databaseIdBytes := (firstByte.toNat >>> 5 &&& 0x7) + 1
    let objectStoreIdBytes := (firstByte.toNat >>> 2 &&& 0x7) + 1
    let indexIdBytes := (firstByte.toNat &&& 0x3) + 1
    if beyond limit start ↑(databaseIdBytes + objectStoreIdBytes + indexIdBytes) then .error .notOk
    else do
      let (databaseId, start) ← readBytes start databaseIdBytes
      let (objectStoreId, start) ← readBytes start objectStoreIdBytes
      let (indexId, start) ← readBytes start indexIdBytes
      .ok (⟨decodeInt databaseId, decodeInt objectStoreId, decodeInt indexId⟩, start)

def encodeEmpty : List UInt8 := List.replicate 4 0

def encodeInternal (databaseId objectStoreId indexId : Nat) : List UInt8 :=
  let databaseIdString := encodeInt databaseId
  let objectStoreIdString := encodeInt objectStoreId
  let indexIdString := encodeInt indexId
  let firstByte := (databaseIdString.length - 1) <<< (3 + 2) |||
    (objectStoreIdString.length - 1) <<< 2 ||| (indexIdString.length - 1)
  UInt8.ofNat firstByte :: databaseIdString ++ objectStoreIdString ++ indexIdString

def compare (key other : KeyPrefix) : Int :=
  if key.databaseId ≠ other.databaseId then compareInts key.databaseId other.databaseId
  else if key.objectStoreId ≠ other.objectStoreId then
    compareInts key.objectStoreId other.objectStoreId
  else if key.indexId ≠ other.indexId then compareInts key.indexId other.indexId
  else 0

def type (key : KeyPrefix) : PrefixType :=
  if key.databaseId = 0 then .globalMetaData
  else if key.objectStoreId = 0 then .databaseMetaData
  else if key.indexId = objectStoreDataIndexId then .objectStoreData
  else if key.indexId = existsEntryIndexId then .existsEntry
  else if key.indexId ≥ minimumIndexId then .indexData
  else .invalidType

end KeyPrefix

/-! ## Type bytes -/

def SchemaVersionTypeByte : UInt8 := 0
def MaxDatabaseIdTypeByte : UInt8 := 1
def DataVersionTypeByte : UInt8 := 2
def MaxSimpleGlobalMetaDataTypeByte : UInt8 := 3
def DatabaseFreeListTypeByte : UInt8 := 100
def DatabaseNameTypeByte : UInt8 := 201

def ObjectStoreMetaDataTypeByte : UInt8 := 50
def IndexMetaDataTypeByte : UInt8 := 100
def ObjectStoreFreeListTypeByte : UInt8 := 150
def IndexFreeListTypeByte : UInt8 := 151
def ObjectStoreNamesTypeByte : UInt8 := 200
def IndexNamesKeyTypeByte : UInt8 := 201

/-- `DatabaseMetaDataKey::MetaDataType`, without the marker `MaxSimpleMetaDataType`. -/
inductive MetaDataType
  | originName | databaseName | userVersion | maxObjectStoreId | userIntVersion
  deriving DecidableEq

def MetaDataType.toByte : MetaDataType → UInt8
  | .originName => 0
  | .databaseName => 1
  | .userVersion => 2
  | .maxObjectStoreId => 3
  | .userIntVersion => 4

def MaxSimpleMetaDataType : UInt8 := 5

/-! ## Keys of the whole database -/

def SchemaVersionKey.encode : List UInt8 := KeyPrefix.encodeEmpty ++ [SchemaVersionTypeByte]

def MaxDatabaseIdKey.encode : List UInt8 := KeyPrefix.encodeEmpty ++ [MaxDatabaseIdTypeByte]

def DataVersionKey.encode : List UInt8 := KeyPrefix.encodeEmpty ++ [DataVersionTypeByte]

/-- The prefix and the type byte of a metadata key. -/
def decodeTyped (limit : Nat) (start : List UInt8) : Decoded (List UInt8) := do
  let (_, p) ← KeyPrefix.decode limit start
  if p = [] then .error .notOk
  else
    let (_, p) ← decodeByte p
    .ok p

/-- `if (p == limit) return 0`. -/
def notAtLimit (p : List UInt8) : Decoded Unit := if p = [] then .error .notOk else .ok ()

structure DatabaseFreeListKey where
  databaseId : Int

namespace DatabaseFreeListKey

def decode (limit : Nat) (start : List UInt8) : Decoded DatabaseFreeListKey := do
  let p ← decodeTyped limit start
  notAtLimit p
  let (databaseId, _) ← decodeVarInt p
  .ok ⟨databaseId⟩

def encode (databaseId : Nat) : List UInt8 :=
  KeyPrefix.encodeEmpty ++ [DatabaseFreeListTypeByte] ++ encodeVarInt databaseId

def compare (key other : DatabaseFreeListKey) : Int := compareInts key.databaseId other.databaseId

end DatabaseFreeListKey

structure DatabaseNameKey where
  origin : List UInt16
  databaseName : List UInt16

namespace DatabaseNameKey

def decode (limit : Nat) (start : List UInt8) : Decoded DatabaseNameKey := do
  let p ← decodeTyped limit start
  notAtLimit p
  let (origin, p) ← decodeStringWithLength limit p
  let (databaseName, _) ← decodeStringWithLength limit p
  .ok ⟨origin, databaseName⟩

def encode (origin databaseName : List UInt16) : List UInt8 :=
  KeyPrefix.encodeEmpty ++ [DatabaseNameTypeByte] ++ encodeStringWithLength origin ++
    encodeStringWithLength databaseName

def compare (key other : DatabaseNameKey) : Int :=
  let x := codePointCompare key.origin other.origin
  if x ≠ 0 then x else codePointCompare key.databaseName other.databaseName

end DatabaseNameKey

/-! ## Keys of one database -/

def DatabaseMetaDataKey.encode (databaseId : Nat) (metaDataType : MetaDataType) : List UInt8 :=
  KeyPrefix.encodeInternal databaseId 0 0 ++ [metaDataType.toByte]

structure ObjectStoreMetaDataKey where
  objectStoreId : Int
  metaDataType : UInt8

namespace ObjectStoreMetaDataKey

def decode (limit : Nat) (start : List UInt8) : Decoded ObjectStoreMetaDataKey := do
  let p ← decodeTyped limit start
  notAtLimit p
  let (objectStoreId, p) ← decodeVarInt p
  notAtLimit p
  let (metaDataType, _) ← decodeByte p
  .ok ⟨objectStoreId, metaDataType⟩

def encode (databaseId objectStoreId : Nat) (metaDataType : UInt8) : List UInt8 :=
  KeyPrefix.encodeInternal databaseId 0 0 ++ [ObjectStoreMetaDataTypeByte] ++
    encodeVarInt objectStoreId ++ [metaDataType]

/-- Unlike `IndexMetaDataKey.compare`, reduced to a sign. -/
def compare (key other : ObjectStoreMetaDataKey) : Int :=
  let x := compareInts key.objectStoreId other.objectStoreId
  if x ≠ 0 then x
  else
    let result : Int := key.metaDataType.toNat - other.metaDataType.toNat
    if result < 0 then -1 else if result > 0 then 1 else result

end ObjectStoreMetaDataKey

structure IndexMetaDataKey where
  objectStoreId : Int
  indexId : Int
  metaDataType : UInt8

namespace IndexMetaDataKey

def decode (limit : Nat) (start : List UInt8) : Decoded IndexMetaDataKey := do
  let p ← decodeTyped limit start
  notAtLimit p
  let (objectStoreId, p) ← decodeVarInt p
  let (indexId, p) ← decodeVarInt p
  notAtLimit p
  let (metaDataType, _) ← decodeByte p
  .ok ⟨objectStoreId, indexId, metaDataType⟩

def encode (databaseId objectStoreId indexId : Nat) (metaDataType : UInt8) : List UInt8 :=
  KeyPrefix.encodeInternal databaseId 0 0 ++ [IndexMetaDataTypeByte] ++
    encodeVarInt objectStoreId ++ encodeVarInt indexId ++ [metaDataType]

def compare (key other : IndexMetaDataKey) : Int :=
  let x := compareInts key.objectStoreId other.objectStoreId
  if x ≠ 0 then x
  else
    let x := compareInts key.indexId other.indexId
    if x ≠ 0 then x else (key.metaDataType.toNat : Int) - other.metaDataType.toNat

end IndexMetaDataKey

structure ObjectStoreFreeListKey where
  objectStoreId : Int

namespace ObjectStoreFreeListKey

def decode (limit : Nat) (start : List UInt8) : Decoded ObjectStoreFreeListKey := do
  let p ← decodeTyped limit start
  notAtLimit p
  let (objectStoreId, _) ← decodeVarInt p
  .ok ⟨objectStoreId⟩

def encode (databaseId objectStoreId : Nat) : List UInt8 :=
  KeyPrefix.encodeInternal databaseId 0 0 ++ [ObjectStoreFreeListTypeByte] ++
    encodeVarInt objectStoreId

def compare (key other : ObjectStoreFreeListKey) : Int :=
  compareInts key.objectStoreId other.objectStoreId

end ObjectStoreFreeListKey

structure IndexFreeListKey where
  objectStoreId : Int
  indexId : Int

namespace IndexFreeListKey

def decode (limit : Nat) (start : List UInt8) : Decoded IndexFreeListKey := do
  let p ← decodeTyped limit start
  notAtLimit p
  let (objectStoreId, p) ← decodeVarInt p
  let (indexId, _) ← decodeVarInt p
  .ok ⟨objectStoreId, indexId⟩

def encode (databaseId objectStoreId indexId : Nat) : List UInt8 :=
  KeyPrefix.encodeInternal databaseId 0 0 ++ [IndexFreeListTypeByte] ++
    encodeVarInt objectStoreId ++ encodeVarInt indexId

def compare (key other : IndexFreeListKey) : Int :=
  let x := compareInts key.objectStoreId other.objectStoreId
  if x ≠ 0 then x else compareInts key.indexId other.indexId

end IndexFreeListKey

structure ObjectStoreNamesKey where
  objectStoreName : List UInt16

namespace ObjectStoreNamesKey

/-- The only decoder that does not look for the limit behind the type byte. -/
def decode (limit : Nat) (start : List UInt8) : Decoded ObjectStoreNamesKey := do
  let p ← decodeTyped limit start
  let (objectStoreName, _) ← decodeStringWithLength limit p
  .ok ⟨objectStoreName⟩

def encode (databaseId : Nat) (objectStoreName : List UInt16) : List UInt8 :=
  KeyPrefix.encodeInternal databaseId 0 0 ++ [ObjectStoreNamesTypeByte] ++
    encodeStringWithLength objectStoreName

def compare (key other : ObjectStoreNamesKey) : Int :=
  codePointCompare key.objectStoreName other.objectStoreName

end ObjectStoreNamesKey

structure IndexNamesKey where
  objectStoreId : Int
  indexName : List UInt16

namespace IndexNamesKey

def decode (limit : Nat) (start : List UInt8) : Decoded IndexNamesKey := do
  let p ← decodeTyped limit start
  notAtLimit p
  let (objectStoreId, p) ← decodeVarInt p
  let (indexName, _) ← decodeStringWithLength limit p
  .ok ⟨objectStoreId, indexName⟩

def encode (databaseId objectStoreId : Nat) (indexName : List UInt16) : List UInt8 :=
  KeyPrefix.encodeInternal databaseId 0 0 ++ [IndexNamesKeyTypeByte] ++
    encodeVarInt objectStoreId ++ encodeStringWithLength indexName

def compare (key other : IndexNamesKey) : Int :=
  let x := compareInts key.objectStoreId other.objectStoreId
  if x ≠ 0 then x else codePointCompare key.indexName other.indexName

end IndexNamesKey

/-! ## Keys of records -/

def ObjectStoreDataKey.encode (databaseId objectStoreId : Nat) (encodedUserKey : List UInt8) :
    List UInt8 :=
  KeyPrefix.encodeInternal databaseId objectStoreId KeyPrefix.objectStoreDataIndexId ++
    encodedUserKey

def ExistsEntryKey.encode (databaseId objectStoreId : Nat) (encodedKey : List UInt8) :
    List UInt8 :=
  KeyPrefix.encodeInternal databaseId objectStoreId KeyPrefix.existsEntryIndexId ++ encodedKey

def IndexDataKey.encode (databaseId objectStoreId indexId : Nat)
    (encodedUserKey encodedPrimaryKey : List UInt8) (sequenceNumber : Nat) : List UInt8 :=
  KeyPrefix.encodeInternal databaseId objectStoreId indexId ++ encodedUserKey ++
    encodeVarInt sequenceNumber ++ encodedPrimaryKey

/-! ## All keys -/

/-- What record keys hold in place of a user or primary key. -/
inductive EncodedKey
  | min
  | max
  | key (key : IDBKey)

/-- Keys behind the empty prefix. -/
inductive GlobalKey
  | schemaVersion
  | maxDatabaseId
  | dataVersion
  | databaseFreeList (databaseId : Nat)
  | databaseName (origin databaseName : List UInt16)

/-- Metadata keys behind the prefix of a database. -/
inductive DatabaseKey
  | metaData (metaDataType : MetaDataType)
  | objectStoreMetaData (objectStoreId : Nat) (metaDataType : UInt8)
  | indexMetaData (objectStoreId indexId : Nat) (metaDataType : UInt8)
  | objectStoreFreeList (objectStoreId : Nat)
  | indexFreeList (objectStoreId indexId : Nat)
  | objectStoreNames (objectStoreName : List UInt16)
  | indexNames (objectStoreId : Nat) (indexName : List UInt16)

inductive LevelDBKey
  | global (key : GlobalKey)
  | database (databaseId : Nat) (key : DatabaseKey)
  | objectStoreData (databaseId objectStoreId : Nat) (userKey : EncodedKey)
  | existsEntry (databaseId objectStoreId : Nat) (userKey : EncodedKey)
  | indexData (databaseId objectStoreId indexId : Nat) (userKey primaryKey : EncodedKey)
      (sequenceNumber : Nat)

def EncodedKey.bytes : EncodedKey → List UInt8
  | .min => minIDBKey
  | .max => maxIDBKey
  | .key k => encodeIDBKey k

def GlobalKey.encode : GlobalKey → List UInt8
  | .schemaVersion => SchemaVersionKey.encode
  | .maxDatabaseId => MaxDatabaseIdKey.encode
  | .dataVersion => DataVersionKey.encode
  | .databaseFreeList databaseId => DatabaseFreeListKey.encode databaseId
  | .databaseName origin name => DatabaseNameKey.encode origin name

def DatabaseKey.encode (databaseId : Nat) : DatabaseKey → List UInt8
  | .metaData metaDataType => DatabaseMetaDataKey.encode databaseId metaDataType
  | .objectStoreMetaData objectStoreId metaDataType =>
    ObjectStoreMetaDataKey.encode databaseId objectStoreId metaDataType
  | .indexMetaData objectStoreId indexId metaDataType =>
    IndexMetaDataKey.encode databaseId objectStoreId indexId metaDataType
  | .objectStoreFreeList objectStoreId => ObjectStoreFreeListKey.encode databaseId objectStoreId
  | .indexFreeList objectStoreId indexId => IndexFreeListKey.encode databaseId objectStoreId indexId
  | .objectStoreNames objectStoreName => ObjectStoreNamesKey.encode databaseId objectStoreName
  | .indexNames objectStoreId indexName => IndexNamesKey.encode databaseId objectStoreId indexName

def LevelDBKey.encode : LevelDBKey → List UInt8
  | .global key => key.encode
  | .database databaseId key => key.encode databaseId
  | .objectStoreData databaseId objectStoreId userKey =>
    ObjectStoreDataKey.encode databaseId objectStoreId userKey.bytes
  | .existsEntry databaseId objectStoreId userKey =>
    ExistsEntryKey.encode databaseId objectStoreId userKey.bytes
  | .indexData databaseId objectStoreId indexId userKey primaryKey sequenceNumber =>
    IndexDataKey.encode databaseId objectStoreId indexId userKey.bytes primaryKey.bytes sequenceNumber

/-! ## The comparator -/

/-- Bytes in memory that end at the address `limit`. -/
structure LevelDBSlice where
  limit : Nat
  bytes : List UInt8
  placed : Placed limit bytes

/-- `compare<KeyType>`. -/
def compareDecoded {K : Type} (decode : Nat → List UInt8 → Decoded K) (compare : K → K → Int)
    (a b : LevelDBSlice) : Decoded Int := do
  let keyA ← decode a.limit a.bytes
  let keyB ← decode b.limit b.bytes
  .ok (compare keyA keyB)

/-- `compare<ExistsEntryKey>` and `compare<ObjectStoreDataKey>`. -/
def compareUserKeys (a b : LevelDBSlice) : Decoded Int := do
  let (_, ptrA) ← KeyPrefix.decode a.limit a.bytes
  let (_, ptrB) ← KeyPrefix.decode b.limit b.bytes
  let (result, _, _) ← compareEncodedIDBKeysAt a.limit b.limit ptrA ptrB
  .ok result

/-- An optional sequence number. -/
def decodeSequenceNumber (p : List UInt8) : Decoded (Int × List UInt8) :=
  if p = [] then .ok (-1, []) else decodeVarInt p

/-- `compare<IndexDataKey>`. -/
def compareIndexData (a b : LevelDBSlice) (ignoreDuplicates : Bool) : Decoded Int := do
  let (_, ptrA) ← KeyPrefix.decode a.limit a.bytes
  let (_, ptrB) ← KeyPrefix.decode b.limit b.bytes
  let (result, ptrA, ptrB) ← compareEncodedIDBKeysAt a.limit b.limit ptrA ptrB
  if result ≠ 0 then .ok result
  else if ignoreDuplicates then .ok 0
  else match both (decodeSequenceNumber ptrA) (decodeSequenceNumber ptrB) with
    | .error .notOk => .ok 0
    | .error .undefined => .error .undefined
    | .ok ((sequenceNumberA, ptrA), (sequenceNumberB, ptrB)) =>
      if ptrA = [] ∧ ptrB = [] then .ok 0
      else if ptrA = [] then .ok (-1)
      else if ptrB = [] then .ok 1
      else do
        let (result, _, _) ← compareEncodedIDBKeysAt a.limit b.limit ptrA ptrB
        if result ≠ 0 then .ok result
        else .ok (compareInts sequenceNumberA sequenceNumberB)

/-- The type bytes behind the prefixes, read without a look at the limit. -/
def typeBytes : List UInt8 → List UInt8 → Decoded (UInt8 × UInt8)
  | typeByteA :: _, typeByteB :: _ => .ok (typeByteA, typeByteB)
  | _, _ => .error .undefined

def compareGlobalMetaData (a b : LevelDBSlice) (ptrA ptrB : List UInt8) : Decoded Int := do
  let (typeByteA, typeByteB) ← typeBytes ptrA ptrB
  let x : Int := typeByteA.toNat - typeByteB.toNat
  if x ≠ 0 then .ok x
  else if typeByteA < MaxSimpleGlobalMetaDataTypeByte then .ok 0
  else if typeByteA = DatabaseFreeListTypeByte then
    compareDecoded DatabaseFreeListKey.decode DatabaseFreeListKey.compare a b
  else if typeByteA = DatabaseNameTypeByte then
    compareDecoded DatabaseNameKey.decode DatabaseNameKey.compare a b
  else .error .notOk

def compareDatabaseMetaData (a b : LevelDBSlice) (ptrA ptrB : List UInt8) : Decoded Int := do
  let (typeByteA, typeByteB) ← typeBytes ptrA ptrB
  let x : Int := typeByteA.toNat - typeByteB.toNat
  if x ≠ 0 then .ok x
  else if typeByteA < MaxSimpleMetaDataType then .ok 0
  else if typeByteA = ObjectStoreMetaDataTypeByte then
    compareDecoded ObjectStoreMetaDataKey.decode ObjectStoreMetaDataKey.compare a b
  else if typeByteA = IndexMetaDataTypeByte then
    compareDecoded IndexMetaDataKey.decode IndexMetaDataKey.compare a b
  else if typeByteA = ObjectStoreFreeListTypeByte then
    compareDecoded ObjectStoreFreeListKey.decode ObjectStoreFreeListKey.compare a b
  else if typeByteA = IndexFreeListTypeByte then
    compareDecoded IndexFreeListKey.decode IndexFreeListKey.compare a b
  else if typeByteA = ObjectStoreNamesTypeByte then
    compareDecoded ObjectStoreNamesKey.decode ObjectStoreNamesKey.compare a b
  else if typeByteA = IndexNamesKeyTypeByte then
    compareDecoded IndexNamesKey.decode IndexNamesKey.compare a b
  else .error .notOk

/-- A key that stops behind its prefix is below the others. -/
def compareRecords (ptrA ptrB : List UInt8) (compareBehind : Decoded Int) : Decoded Int :=
  if ptrA = [] ∧ ptrB = [] then .ok 0
  else if ptrA = [] then .ok (-1)
  else if ptrB = [] then .ok 1
  else compareBehind

/-- The comparison of keys with equal prefixes. -/
def compareBehindPrefix (a b : LevelDBSlice) (ptrA ptrB : List UInt8) (indexKeys : Bool) :
    KeyPrefix.PrefixType → Decoded Int
  | .globalMetaData => compareGlobalMetaData a b ptrA ptrB
  | .databaseMetaData => compareDatabaseMetaData a b ptrA ptrB
  | .objectStoreData => compareRecords ptrA ptrB (compareUserKeys a b)
  | .existsEntry => compareRecords ptrA ptrB (compareUserKeys a b)
  | .indexData => compareRecords ptrA ptrB (compareIndexData a b indexKeys)
  | .invalidType => .error .notOk

/-- The comparator that reports `ok`. -/
def compareOk (a b : LevelDBSlice) (indexKeys : Bool) : Decoded Int := do
  let ((prefixA, ptrA), (prefixB, ptrB)) ←
    both (KeyPrefix.decode a.limit a.bytes) (KeyPrefix.decode b.limit b.bytes)
  let x := prefixA.compare prefixB
  if x ≠ 0 then .ok x
  else compareBehindPrefix a b ptrA ptrB indexKeys prefixA.type

/-- `IDBLevelDBCoding::compare`. -/
def compareSlices (a b : LevelDBSlice) (indexKeys : Bool) : Int :=
  match compareOk a b indexKeys with
  | .ok result => result
  | .error _ => 0

end NetRider.Idb
