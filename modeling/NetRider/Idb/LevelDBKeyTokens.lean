import NetRider.Idb.LevelDBKeyDecoding

/-!
# LevelDB keys as sequences of integers

The valid keys, and `tokens`, which spells every LevelDB key as a sequence of integers as it
spells the IndexedDB keys in it.
-/

namespace NetRider.Idb

open NetRider.Lib

/-! ## Validity -/

/-- Neither NaN nor -0. -/
def Double.Plain (d : Double) : Prop := ¬ d.isNaN ∧ d ≠ negativeZero

def EncodedKey.Valid : EncodedKey → Prop
  | .min => True
  | .max => True
  | .key k => k.Valid Double.Plain

/-- Ids in the body of a key may be any that are not negative. -/
def GlobalKey.Valid : GlobalKey → Prop
  | .databaseFreeList databaseId => databaseId < 2 ^ 63
  | .databaseName origin name => origin.length < 2 ^ 32 ∧ name.length < 2 ^ 32
  | _ => True

def DatabaseKey.Valid : DatabaseKey → Prop
  | .metaData _ => True
  | .objectStoreMetaData objectStoreId _ => objectStoreId < 2 ^ 63
  | .indexMetaData objectStoreId indexId _ => objectStoreId < 2 ^ 63 ∧ indexId < 2 ^ 63
  | .objectStoreFreeList objectStoreId => objectStoreId < 2 ^ 63
  | .indexFreeList objectStoreId indexId => objectStoreId < 2 ^ 63 ∧ indexId < 2 ^ 63
  | .objectStoreNames objectStoreName => objectStoreName.length < 2 ^ 32
  | .indexNames objectStoreId indexName => objectStoreId < 2 ^ 63 ∧ indexName.length < 2 ^ 32

/-- The ids in the prefix pass the checks of `KeyPrefix`. -/
def LevelDBKey.Valid : LevelDBKey → Prop
  | .global key => key.Valid
  | .database databaseId key => KeyPrefix.isValidDatabaseId databaseId ∧ key.Valid
  | .objectStoreData databaseId objectStoreId userKey =>
    KeyPrefix.isValidDatabaseId databaseId ∧ KeyPrefix.isValidObjectStoreId objectStoreId ∧
      userKey.Valid
  | .existsEntry databaseId objectStoreId userKey =>
    KeyPrefix.isValidDatabaseId databaseId ∧ KeyPrefix.isValidObjectStoreId objectStoreId ∧
      userKey.Valid
  | .indexData databaseId objectStoreId indexId userKey primaryKey sequenceNumber =>
    KeyPrefix.isValidDatabaseId databaseId ∧ KeyPrefix.isValidObjectStoreId objectStoreId ∧
      KeyPrefix.isValidIndexId indexId ∧ userKey.Valid ∧ primaryKey.Valid ∧ sequenceNumber < 2 ^ 63

/-! ## Their tokens -/

def EncodedKey.tokens : EncodedKey → List Int
  | .min => [typeToken .minType]
  | .max => [typeToken .invalidType]
  | .key k => Idb.tokens k

def GlobalKey.typeByte : GlobalKey → UInt8
  | .schemaVersion => SchemaVersionTypeByte
  | .maxDatabaseId => MaxDatabaseIdTypeByte
  | .dataVersion => DataVersionTypeByte
  | .databaseFreeList _ => DatabaseFreeListTypeByte
  | .databaseName _ _ => DatabaseNameTypeByte

def GlobalKey.fieldTokens : GlobalKey → List Int
  | .databaseFreeList databaseId => [(databaseId : Int)]
  | .databaseName origin name => stringTokens origin ++ stringTokens name
  | _ => []

def DatabaseKey.typeByte : DatabaseKey → UInt8
  | .metaData metaDataType => metaDataType.toByte
  | .objectStoreMetaData _ _ => ObjectStoreMetaDataTypeByte
  | .indexMetaData _ _ _ => IndexMetaDataTypeByte
  | .objectStoreFreeList _ => ObjectStoreFreeListTypeByte
  | .indexFreeList _ _ => IndexFreeListTypeByte
  | .objectStoreNames _ => ObjectStoreNamesTypeByte
  | .indexNames _ _ => IndexNamesKeyTypeByte

def DatabaseKey.fieldTokens : DatabaseKey → List Int
  | .metaData _ => []
  | .objectStoreMetaData objectStoreId metaDataType =>
    [(objectStoreId : Int)] ++ [(metaDataType.toNat : Int)]
  | .indexMetaData objectStoreId indexId metaDataType =>
    [(objectStoreId : Int)] ++ ([(indexId : Int)] ++ [(metaDataType.toNat : Int)])
  | .objectStoreFreeList objectStoreId => [(objectStoreId : Int)]
  | .indexFreeList objectStoreId indexId => [(objectStoreId : Int)] ++ [(indexId : Int)]
  | .objectStoreNames objectStoreName => stringTokens objectStoreName
  | .indexNames objectStoreId indexName => [(objectStoreId : Int)] ++ stringTokens indexName

namespace LevelDBKey

def databaseId : LevelDBKey → Nat
  | global _ => 0
  | database databaseId _ => databaseId
  | .objectStoreData databaseId _ _ => databaseId
  | .existsEntry databaseId _ _ => databaseId
  | .indexData databaseId _ _ _ _ _ => databaseId

def objectStoreId : LevelDBKey → Nat
  | global _ => 0
  | database _ _ => 0
  | objectStoreData _ objectStoreId _ => objectStoreId
  | existsEntry _ objectStoreId _ => objectStoreId
  | indexData _ objectStoreId _ _ _ _ => objectStoreId

def indexId : LevelDBKey → Nat
  | global _ => 0
  | database _ _ => 0
  | objectStoreData _ _ _ => KeyPrefix.objectStoreDataIndexId
  | existsEntry _ _ _ => KeyPrefix.existsEntryIndexId
  | indexData _ _ indexId _ _ _ => indexId

def bodyTokens : LevelDBKey → List Int
  | .global key => (key.typeByte.toNat : Int) :: key.fieldTokens
  | database _ key => (key.typeByte.toNat : Int) :: key.fieldTokens
  | objectStoreData _ _ userKey => userKey.tokens
  | existsEntry _ _ userKey => userKey.tokens
  | indexData _ _ _ userKey primaryKey sequenceNumber =>
    userKey.tokens ++ (primaryKey.tokens ++ [(sequenceNumber : Int)])

def tokens (key : LevelDBKey) : List Int :=
  [(key.databaseId : Int)] ++ ([(key.objectStoreId : Int)] ++
    ([(key.indexId : Int)] ++ key.bodyTokens))

end LevelDBKey

/-! ## Encoded keys -/

/-- Two comparisons in a row. -/
theorem decides_orElse {x y : Int} {s t u v : List Int} (first : Decides x s t)
    (second : Decides y u v) : Decides (if x ≠ 0 then x else y) (s ++ u) (t ++ v) := by
  split_ifs with differ
  · exact first.append_right differ u v
  · rw [first.eq_zero_iff.mp (not_not.mp differ)]
    exact second.append_left t

def EncodedKey.typeByte : EncodedKey → UInt8
  | .min => IDBKeyMinKeyTypeByte
  | .max => IDBKeyNullTypeByte
  | .key k => Idb.typeByte k

theorem EncodedKey.bytes_head (e : EncodedKey) : ∃ rest, e.bytes = e.typeByte :: rest := by
  cases e with
  | min | max => exact ⟨_, rfl⟩
  | key k => exact encodeIDBKey_head k

theorem EncodedKey.tokens_head (e : EncodedKey) :
    ∃ rest, e.tokens = typeToken (keyTypeByteToKeyType e.typeByte) :: rest := by
  cases e with
  | min | max => exact ⟨_, rfl⟩
  | key k =>
    obtain ⟨rest, head⟩ := Idb.tokens_head k
    exact ⟨rest, by rw [EncodedKey.tokens, head, typeByte, keyTypeByteToKeyType_typeByte]⟩

theorem IDBKey.Valid.code_bounds {payload : Double → Prop} {key : IDBKey}
    (valid : key.Valid payload) : 1 ≤ key.type.code ∧ key.type.code ≤ 4 := by
  cases valid <;> simp [IDBKey.type, KeyType.code]

section

variable {limitA limitB : Nat} {r r' : List UInt8}

theorem compareEncodedIDBKeysAt_finds {e f : EncodedKey} (he : e.Valid) (hf : f.Valid)
    (placedA : Placed limitA (e.bytes ++ r)) (placedB : Placed limitB (f.bytes ++ r')) :
    Finds (compareEncodedIDBKeysAt limitA limitB (e.bytes ++ r) (f.bytes ++ r'))
      e.tokens f.tokens r r' := by
  unfold compareEncodedIDBKeysAt
  by_cases differ :
      (keyTypeByteToKeyType e.typeByte).code ≠ (keyTypeByteToKeyType f.typeByte).code
  · obtain ⟨restA, hA⟩ := e.bytes_head
    obtain ⟨restB, hB⟩ := f.bytes_head
    obtain ⟨tailA, headA⟩ := e.tokens_head
    obtain ⟨tailB, headB⟩ := f.tokens_head
    rw [hA, hB, headA, headB]
    exact finds_of_types differ
  · have minCode : (keyTypeByteToKeyType EncodedKey.min.typeByte).code = 5 := rfl
    have maxCode : (keyTypeByteToKeyType EncodedKey.max.typeByte).code = 0 := rfl
    have keyCode (k : IDBKey) :
        (keyTypeByteToKeyType (EncodedKey.key k).typeByte).code = k.type.code := by
      rw [EncodedKey.typeByte, keyTypeByteToKeyType_typeByte]
    cases e with
    | key a =>
      have := IDBKey.Valid.code_bounds he
      cases f with
      | key b =>
        exact compareEncodedCursors_finds (fun d plain => plain.1) he hf
          (by simp [EncodedKey.bytes]; omega) placedA placedB
      | min | max => rw [keyCode] at differ; omega
    | min =>
      cases f with
      | key b =>
        have := IDBKey.Valid.code_bounds hf
        rw [keyCode] at differ
        omega
      | min => exact ⟨0, r, r', rfl, .same _, fun _ => ⟨rfl, rfl⟩⟩
      | max => omega
    | max =>
      cases f with
      | key b =>
        have := IDBKey.Valid.code_bounds hf
        rw [keyCode] at differ
        omega
      | min => omega
      | max => exact ⟨0, r, r', rfl, .same _, fun _ => ⟨rfl, rfl⟩⟩

end

end NetRider.Idb
