import NetRider.Idb.LevelDBKeyTokens

/-!
# The comparator compares tokens

`Comparator::compare` decodes both keys as far as it must. On encoded keys every branch of it
decides the lexicographic order of their tokens.
-/

namespace NetRider.Idb

open NetRider.Lib

section

variable {a b : LevelDBSlice}

theorem byte_decides (c d : UInt8) :
    Decides ((c.toNat : Int) - d.toNat) [(c.toNat : Int)] [(d.toNat : Int)] := by
  rcases lt_trichotomy c.toNat d.toNat with lt | eq | gt
  · exact .head_lt (by omega) (by omega)
  · rw [eq, Int.sub_self]
    exact .same _
  · exact .head_gt (by omega) (by omega)

theorem compareDecoded_eq {K : Type} {decode : Nat → List UInt8 → Decoded K}
    {compare : K → K → Int} {keyA keyB : K} (hA : decode a.limit a.bytes = .ok keyA)
    (hB : decode b.limit b.bytes = .ok keyB) :
    compareDecoded decode compare a b = .ok (compare keyA keyB) := by
  simp only [compareDecoded, hA, hB, bind, Except.bind]

theorem compareGlobalMetaData_decides {k k' : GlobalKey} {p q : List UInt8} (hk : k.Valid)
    (hk' : k'.Valid) (ha : a.bytes = k.encode) (hb : b.bytes = k'.encode) :
    ∃ x, compareGlobalMetaData a b (k.typeByte :: p) (k'.typeByte :: q) = .ok x ∧
      Decides x ((k.typeByte.toNat : Int) :: k.fieldTokens)
        ((k'.typeByte.toNat : Int) :: k'.fieldTokens) := by
  have placedA := a.placed
  have placedB := b.placed
  rw [ha] at placedA
  rw [hb] at placedB
  by_cases differ : (k.typeByte.toNat : Int) - k'.typeByte.toNat ≠ 0
  · exact ⟨_, if_pos differ, (byte_decides _ _).append_right differ k.fieldTokens k'.fieldTokens⟩
  have same : k.typeByte = k'.typeByte := by
    rw [← UInt8.toNat_inj]
    omega
  have skip : compareGlobalMetaData a b (k.typeByte :: p) (k'.typeByte :: q) =
      _ := if_neg differ
  rw [skip]
  cases k with
  | schemaVersion =>
    cases k' with
    | schemaVersion => exact ⟨0, rfl, .same _⟩
    | _ => exact absurd same (by simp only [GlobalKey.typeByte]; decide)
  | maxDatabaseId =>
    cases k' with
    | maxDatabaseId => exact ⟨0, rfl, .same _⟩
    | _ => exact absurd same (by simp only [GlobalKey.typeByte]; decide)
  | dataVersion =>
    cases k' with
    | dataVersion => exact ⟨0, rfl, .same _⟩
    | _ => exact absurd same (by simp only [GlobalKey.typeByte]; decide)
  | databaseFreeList m =>
    cases k' with
    | databaseFreeList n =>
      refine ⟨_, compareDecoded_eq (by rw [ha]; exact DatabaseFreeListKey.decode_encode hk placedA)
        (by rw [hb]; exact DatabaseFreeListKey.decode_encode hk' placedB), ?_⟩
      exact (compareInts_decides hk hk').cons _
    | _ => exact absurd same (by simp only [GlobalKey.typeByte]; decide)
  | databaseName o n =>
    cases k' with
    | databaseName o' n' =>
      refine ⟨_, compareDecoded_eq
        (by rw [ha]; exact DatabaseNameKey.decode_encode hk.1 hk.2 placedA)
        (by rw [hb]; exact DatabaseNameKey.decode_encode hk'.1 hk'.2 placedB), ?_⟩
      exact (decides_orElse (codePointCompare_decides o o') (codePointCompare_decides n n')).cons _
    | _ => exact absurd same (by simp only [GlobalKey.typeByte]; decide)

theorem byte_sign_decides (c d : UInt8) :
    Decides (let result : Int := c.toNat - d.toNat
      if result < 0 then -1 else if result > 0 then 1 else result)
      [(c.toNat : Int)] [(d.toNat : Int)] := by
  simp only
  split_ifs with lt gt
  · exact .head_lt (by decide) (by omega)
  · exact .head_gt (by decide) (by omega)
  · exact byte_decides c d

theorem simple_typeByte_lt (metaDataType : MetaDataType) :
    (DatabaseKey.metaData metaDataType).typeByte < MaxSimpleMetaDataType := by
  cases metaDataType <;> decide

theorem typeByte_eq_metaData {metaDataType : MetaDataType} {k : DatabaseKey}
    (same : (DatabaseKey.metaData metaDataType).typeByte = k.typeByte) :
    k = .metaData metaDataType := by
  cases k with
  | metaData other => cases metaDataType <;> cases other <;> first | rfl | exact absurd same (by decide)
  | _ => cases metaDataType <;> exact absurd same (by simp only [DatabaseKey.typeByte]; decide)

theorem compareDatabaseMetaData_decides {k k' : DatabaseKey} {databaseId : Nat} {p q : List UInt8}
    (small : databaseId < 2 ^ 63) (hk : k.Valid) (hk' : k'.Valid)
    (ha : a.bytes = k.encode databaseId) (hb : b.bytes = k'.encode databaseId) :
    ∃ x, compareDatabaseMetaData a b (k.typeByte :: p) (k'.typeByte :: q) = .ok x ∧
      Decides x ((k.typeByte.toNat : Int) :: k.fieldTokens)
        ((k'.typeByte.toNat : Int) :: k'.fieldTokens) := by
  have placedA := a.placed
  have placedB := b.placed
  rw [ha] at placedA
  rw [hb] at placedB
  by_cases differ : (k.typeByte.toNat : Int) - k'.typeByte.toNat ≠ 0
  · exact ⟨_, if_pos differ, (byte_decides _ _).append_right differ k.fieldTokens k'.fieldTokens⟩
  have same : k.typeByte = k'.typeByte := by
    rw [← UInt8.toNat_inj]
    omega
  have skip : compareDatabaseMetaData a b (k.typeByte :: p) (k'.typeByte :: q) =
      _ := if_neg differ
  rw [skip]
  cases k with
  | metaData t =>
    rw [typeByte_eq_metaData same]
    exact ⟨0, if_pos (simple_typeByte_lt t), .same _⟩
  | objectStoreMetaData o t =>
    cases k' with
    | objectStoreMetaData o' t' =>
      refine ⟨_, compareDecoded_eq
        (by rw [ha]; exact ObjectStoreMetaDataKey.decode_encode small hk placedA)
        (by rw [hb]; exact ObjectStoreMetaDataKey.decode_encode small hk' placedB), ?_⟩
      exact (decides_orElse (compareInts_decides hk hk') (byte_sign_decides t t')).cons _
    | metaData t => exact absurd (typeByte_eq_metaData same.symm) (by simp)
    | _ => exact absurd same (by simp only [DatabaseKey.typeByte]; decide)
  | indexMetaData o i t =>
    cases k' with
    | indexMetaData o' i' t' =>
      refine ⟨_, compareDecoded_eq
        (by rw [ha]; exact IndexMetaDataKey.decode_encode small hk.1 hk.2 placedA)
        (by rw [hb]; exact IndexMetaDataKey.decode_encode small hk'.1 hk'.2 placedB), ?_⟩
      exact (decides_orElse (compareInts_decides hk.1 hk'.1)
        (decides_orElse (compareInts_decides hk.2 hk'.2) (byte_decides t t'))).cons _
    | metaData t => exact absurd (typeByte_eq_metaData same.symm) (by simp)
    | _ => exact absurd same (by simp only [DatabaseKey.typeByte]; decide)
  | objectStoreFreeList o =>
    cases k' with
    | objectStoreFreeList o' =>
      refine ⟨_, compareDecoded_eq
        (by rw [ha]; exact ObjectStoreFreeListKey.decode_encode small hk placedA)
        (by rw [hb]; exact ObjectStoreFreeListKey.decode_encode small hk' placedB), ?_⟩
      exact (compareInts_decides hk hk').cons _
    | metaData t => exact absurd (typeByte_eq_metaData same.symm) (by simp)
    | _ => exact absurd same (by simp only [DatabaseKey.typeByte]; decide)
  | indexFreeList o i =>
    cases k' with
    | indexFreeList o' i' =>
      refine ⟨_, compareDecoded_eq
        (by rw [ha]; exact IndexFreeListKey.decode_encode small hk.1 hk.2 placedA)
        (by rw [hb]; exact IndexFreeListKey.decode_encode small hk'.1 hk'.2 placedB), ?_⟩
      exact (decides_orElse (compareInts_decides hk.1 hk'.1)
        (compareInts_decides hk.2 hk'.2)).cons _
    | metaData t => exact absurd (typeByte_eq_metaData same.symm) (by simp)
    | _ => exact absurd same (by simp only [DatabaseKey.typeByte]; decide)
  | objectStoreNames n =>
    cases k' with
    | objectStoreNames n' =>
      refine ⟨_, compareDecoded_eq
        (by rw [ha]; exact ObjectStoreNamesKey.decode_encode small hk placedA)
        (by rw [hb]; exact ObjectStoreNamesKey.decode_encode small hk' placedB), ?_⟩
      exact (codePointCompare_decides n n').cons _
    | metaData t => exact absurd (typeByte_eq_metaData same.symm) (by simp)
    | _ => exact absurd same (by simp only [DatabaseKey.typeByte]; decide)
  | indexNames o n =>
    cases k' with
    | indexNames o' n' =>
      refine ⟨_, compareDecoded_eq
        (by rw [ha]; exact IndexNamesKey.decode_encode small hk.1 hk.2 placedA)
        (by rw [hb]; exact IndexNamesKey.decode_encode small hk'.1 hk'.2 placedB), ?_⟩
      exact (decides_orElse (compareInts_decides hk.1 hk'.1) (codePointCompare_decides n n')).cons _
    | metaData t => exact absurd (typeByte_eq_metaData same.symm) (by simp)
    | _ => exact absurd same (by simp only [DatabaseKey.typeByte]; decide)

variable {databaseId objectStoreId indexId databaseId' objectStoreId' indexId' : Nat}

theorem EncodedKey.bytes_ne_nil (e : EncodedKey) : e.bytes ≠ [] := by
  obtain ⟨rest, head⟩ := e.bytes_head
  simp [head]

/-- The prefix of a slice is decoded, and what is behind it lies below the same limit. -/
theorem decode_slice {s : LevelDBSlice} {r : List UInt8}
    (fit : IdsFit databaseId objectStoreId indexId)
    (bytes : s.bytes = KeyPrefix.encodeInternal databaseId objectStoreId indexId ++ r) :
    KeyPrefix.decode s.limit s.bytes = .ok (⟨databaseId, objectStoreId, indexId⟩, r) ∧
      Placed s.limit r := by
  have placed := s.placed
  rw [bytes] at placed
  exact ⟨by rw [bytes]; exact decode_encodeInternal fit placed, placed.suffix⟩

theorem compareUserKeys_decides {e f : EncodedKey} (he : e.Valid) (hf : f.Valid)
    (fit : IdsFit databaseId objectStoreId indexId)
    (fit' : IdsFit databaseId' objectStoreId' indexId')
    (ha : a.bytes = KeyPrefix.encodeInternal databaseId objectStoreId indexId ++ e.bytes)
    (hb : b.bytes = KeyPrefix.encodeInternal databaseId' objectStoreId' indexId' ++ f.bytes) :
    ∃ x, compareUserKeys a b = .ok x ∧ Decides x e.tokens f.tokens := by
  rw [← List.append_nil e.bytes] at ha
  rw [← List.append_nil f.bytes] at hb
  obtain ⟨prefixA, placedA⟩ := decode_slice fit ha
  obtain ⟨prefixB, placedB⟩ := decode_slice fit' hb
  obtain ⟨x, p, q, outcome, decides, -⟩ := compareEncodedIDBKeysAt_finds he hf placedA placedB
  refine ⟨x, ?_, decides⟩
  simp only [compareUserKeys, prefixA, prefixB, outcome, bind, Except.bind]

theorem decodeSequenceNumber_encode {n : Nat} (small : n < 2 ^ 63) (r : List UInt8) :
    decodeSequenceNumber (encodeVarInt n ++ r) = .ok ((n : Int), r) := by
  have positive := encodeVarInt_length_pos n
  have more : encodeVarInt n ++ r ≠ [] := by
    intro empty
    rw [(List.append_eq_nil_iff.mp empty).1] at positive
    exact absurd positive (by decide)
  rw [decodeSequenceNumber, if_neg more, decodeVarInt_encodeVarInt small]

/-- The primary key is compared before the sequence number that stands in front of it. -/
theorem compareIndexData_decides {e f e' f' : EncodedKey} {m n : Nat} (he : e.Valid) (hf : f.Valid)
    (he' : e'.Valid) (hf' : f'.Valid) (hm : m < 2 ^ 63) (hn : n < 2 ^ 63)
    (fit : IdsFit databaseId objectStoreId indexId)
    (fit' : IdsFit databaseId' objectStoreId' indexId')
    (ha : a.bytes = KeyPrefix.encodeInternal databaseId objectStoreId indexId ++
      (e.bytes ++ (encodeVarInt m ++ e'.bytes)))
    (hb : b.bytes = KeyPrefix.encodeInternal databaseId' objectStoreId' indexId' ++
      (f.bytes ++ (encodeVarInt n ++ f'.bytes))) :
    ∃ x, compareIndexData a b false = .ok x ∧
      Decides x (e.tokens ++ (e'.tokens ++ [(m : Int)])) (f.tokens ++ (f'.tokens ++ [(n : Int)])) := by
  obtain ⟨prefixA, placedA⟩ := decode_slice fit ha
  obtain ⟨prefixB, placedB⟩ := decode_slice fit' hb
  obtain ⟨x, p, q, outcome, decides, rest⟩ := compareEncodedIDBKeysAt_finds he hf placedA placedB
  by_cases differ : x = 0
  · obtain ⟨rfl, rfl⟩ := rest differ
    have placedA' := placedA.suffix.suffix
    have placedB' := placedB.suffix.suffix
    rw [← List.append_nil e'.bytes] at placedA'
    rw [← List.append_nil f'.bytes] at placedB'
    obtain ⟨y, p, q, outcome', decides', -⟩ := compareEncodedIDBKeysAt_finds he' hf' placedA' placedB'
    simp only [List.append_nil] at outcome'
    refine ⟨if y ≠ 0 then y else compareInts m n, ?_, ?_⟩
    · simp only [compareIndexData, prefixA, prefixB, outcome, bind, Except.bind, differ, ne_eq,
        not_true_eq_false, if_false, decodeSequenceNumber_encode hm, decodeSequenceNumber_encode hn,
        both_ok, e'.bytes_ne_nil, f'.bytes_ne_nil, false_and, outcome', Bool.false_eq_true]
      split_ifs <;> rfl
    · rw [decides.eq_zero_iff.mp differ]
      exact (decides_orElse decides' (compareInts_decides hm hn)).append_left _
  · refine ⟨x, ?_, decides.append_right differ _ _⟩
    simp only [compareIndexData, prefixA, prefixB, outcome, bind, Except.bind, ne_eq, differ,
      not_false_eq_true, if_true]

theorem KeyPrefix.compare_decides (fit : IdsFit databaseId objectStoreId indexId)
    (fit' : IdsFit databaseId' objectStoreId' indexId') :
    Decides (KeyPrefix.compare ⟨databaseId, objectStoreId, indexId⟩
        ⟨databaseId', objectStoreId', indexId'⟩)
      ([(databaseId : Int)] ++ ([(objectStoreId : Int)] ++ [(indexId : Int)]))
      ([(databaseId' : Int)] ++ ([(objectStoreId' : Int)] ++ [(indexId' : Int)])) := by
  have first := compareInts_decides fit.databaseId fit'.databaseId
  have second := compareInts_decides fit.objectStoreId fit'.objectStoreId
  have third := compareInts_decides (fit.indexId.trans (by decide : 2 ^ 31 < 2 ^ 63))
    (fit'.indexId.trans (by decide))
  have nonzero {m n : Nat} (h : Decides (compareInts m n) [(m : Int)] [(n : Int)]) :
      compareInts m n ≠ 0 ↔ (m : Int) ≠ n := by
    rw [ne_eq, h.eq_zero_iff, List.cons.injEq]
    simp
  have chain : KeyPrefix.compare ⟨databaseId, objectStoreId, indexId⟩
      ⟨databaseId', objectStoreId', indexId'⟩ =
        if compareInts databaseId databaseId' ≠ 0 then compareInts databaseId databaseId'
        else if compareInts objectStoreId objectStoreId' ≠ 0 then
          compareInts objectStoreId objectStoreId'
        else compareInts indexId indexId' := by
    simp only [KeyPrefix.compare, nonzero first, nonzero second]
    split_ifs with hd ho hi
    · rfl
    · rfl
    · rfl
    · rw [eq_comm, third.eq_zero_iff, not_not.mp hi]
  rw [chain]
  exact decides_orElse first (decides_orElse second third)

theorem GlobalKey.encode_eq (k : GlobalKey) :
    ∃ r, k.encode = KeyPrefix.encodeInternal 0 0 0 ++ k.typeByte :: r := by
  cases k <;> rw [← encodeEmpty_eq]
  · exact ⟨[], rfl⟩
  · exact ⟨[], rfl⟩
  · exact ⟨[], rfl⟩
  · exact ⟨_, List.append_assoc ..⟩
  · exact ⟨_, (List.append_assoc ..).trans (List.append_assoc ..)⟩

theorem DatabaseKey.encode_eq (k : DatabaseKey) (databaseId : Nat) :
    ∃ r, k.encode databaseId = KeyPrefix.encodeInternal databaseId 0 0 ++ k.typeByte :: r := by
  cases k with
  | metaData t => exact ⟨[], rfl⟩
  | _ =>
    simp only [DatabaseKey.encode, ObjectStoreMetaDataKey.encode, IndexMetaDataKey.encode,
      ObjectStoreFreeListKey.encode, IndexFreeListKey.encode, ObjectStoreNamesKey.encode,
      IndexNamesKey.encode, List.append_assoc, List.cons_append, List.nil_append]
    exact ⟨_, rfl⟩

theorem LevelDBKey.encode_eq (k : LevelDBKey) :
    ∃ r, k.encode = KeyPrefix.encodeInternal k.databaseId k.objectStoreId k.indexId ++ r := by
  cases k with
  | global key => exact key.encode_eq.imp' _ fun _ h => h
  | database databaseId key => exact (key.encode_eq databaseId).imp' _ fun _ h => h
  | objectStoreData | existsEntry => exact ⟨_, rfl⟩
  | indexData => exact ⟨_, (List.append_assoc ..).trans (List.append_assoc ..)⟩

theorem LevelDBKey.Valid.idsFit {k : LevelDBKey} (valid : k.Valid) :
    IdsFit k.databaseId k.objectStoreId k.indexId := by
  have database {n : Nat} (h : KeyPrefix.isValidDatabaseId n) : n < 2 ^ 63 :=
    h.2.trans (by decide)
  have objectStore {n : Nat} (h : KeyPrefix.isValidObjectStoreId n) : n < 2 ^ 63 :=
    h.2.trans (by decide)
  have special : KeyPrefix.objectStoreDataIndexId < 2 ^ 31 ∧ KeyPrefix.existsEntryIndexId < 2 ^ 31 :=
    by decide
  cases k with
  | global key => exact idsFit_zero
  | database databaseId key => exact idsFit_database (database valid.1)
  | objectStoreData => exact ⟨database valid.1, objectStore valid.2.1, special.1⟩
  | existsEntry => exact ⟨database valid.1, objectStore valid.2.1, special.2⟩
  | indexData =>
    exact ⟨database valid.1, objectStore valid.2.1, valid.2.2.1.2.trans (by decide)⟩

theorem compareOk_eq {r r' : List UInt8} (fit : IdsFit databaseId objectStoreId indexId)
    (fit' : IdsFit databaseId' objectStoreId' indexId')
    (ha : a.bytes = KeyPrefix.encodeInternal databaseId objectStoreId indexId ++ r)
    (hb : b.bytes = KeyPrefix.encodeInternal databaseId' objectStoreId' indexId' ++ r') :
    compareOk a b false =
      let x := KeyPrefix.compare ⟨databaseId, objectStoreId, indexId⟩
        ⟨databaseId', objectStoreId', indexId'⟩
      if x ≠ 0 then .ok x
      else compareBehindPrefix a b r r' false
        (KeyPrefix.type ⟨databaseId, objectStoreId, indexId⟩) := by
  simp only [compareOk, (decode_slice fit ha).1, (decode_slice fit' hb).1, both_ok, bind,
    Except.bind]

def LevelDBKey.prefixType : LevelDBKey → KeyPrefix.PrefixType
  | .global _ => .globalMetaData
  | .database _ _ => .databaseMetaData
  | .objectStoreData _ _ _ => .objectStoreData
  | .existsEntry _ _ _ => .existsEntry
  | .indexData _ _ _ _ _ _ => .indexData

theorem LevelDBKey.Valid.prefixType_eq {k : LevelDBKey} (valid : k.Valid) :
    KeyPrefix.type ⟨k.databaseId, k.objectStoreId, k.indexId⟩ = k.prefixType := by
  cases k with
  | global key => rfl
  | database databaseId key =>
    have database : databaseId ≠ 0 := valid.1.1.ne'
    simp [KeyPrefix.type, prefixType, LevelDBKey.databaseId, LevelDBKey.objectStoreId, database]
  | objectStoreData databaseId objectStoreId userKey =>
    have database : databaseId ≠ 0 := valid.1.1.ne'
    have objectStore : objectStoreId ≠ 0 := valid.2.1.1.ne'
    simp [KeyPrefix.type, prefixType, LevelDBKey.databaseId, LevelDBKey.objectStoreId,
      LevelDBKey.indexId, database, objectStore]
  | existsEntry databaseId objectStoreId userKey =>
    have database : databaseId ≠ 0 := valid.1.1.ne'
    have objectStore : objectStoreId ≠ 0 := valid.2.1.1.ne'
    simp [KeyPrefix.type, prefixType, LevelDBKey.databaseId, LevelDBKey.objectStoreId,
      LevelDBKey.indexId, KeyPrefix.existsEntryIndexId, KeyPrefix.objectStoreDataIndexId, database,
      objectStore]
  | indexData databaseId objectStoreId indexId userKey primaryKey sequenceNumber =>
    have database : databaseId ≠ 0 := valid.1.1.ne'
    have objectStore : objectStoreId ≠ 0 := valid.2.1.1.ne'
    have index : 30 ≤ indexId := valid.2.2.1.1
    simp [KeyPrefix.type, prefixType, LevelDBKey.databaseId, LevelDBKey.objectStoreId,
      LevelDBKey.indexId, KeyPrefix.existsEntryIndexId, KeyPrefix.objectStoreDataIndexId,
      KeyPrefix.minimumIndexId, database, objectStore, index, show indexId ≠ 1 by omega]
    omega

theorem compareRecords_eq {r r' : List UInt8} {outcome : Decoded Int} (h : r ≠ []) (h' : r' ≠ []) :
    compareRecords r r' outcome = outcome := by
  simp [compareRecords, h, h']

/-- Keys of one prefix are of one kind, since the ids tell the kinds apart. -/
theorem compareBehindPrefix_decides {k k' : LevelDBKey} {r r' : List UInt8} (hk : k.Valid)
    (hk' : k'.Valid) (ha : a.bytes = k.encode) (hb : b.bytes = k'.encode)
    (hr : k.encode = KeyPrefix.encodeInternal k.databaseId k.objectStoreId k.indexId ++ r)
    (hr' : k'.encode = KeyPrefix.encodeInternal k'.databaseId k'.objectStoreId k'.indexId ++ r')
    (same : k.prefixType = k'.prefixType) (sameDatabase : k.databaseId = k'.databaseId) :
    ∃ x, compareBehindPrefix a b r r' false k.prefixType = .ok x ∧
      Decides x k.bodyTokens k'.bodyTokens := by
  have fit := hk.idsFit
  have fit' := hk'.idsFit
  cases k with
  | global key =>
    cases k' with
    | global key' =>
      obtain ⟨p, bytes⟩ := key.encode_eq
      obtain ⟨p', bytes'⟩ := key'.encode_eq
      obtain rfl : r = key.typeByte :: p := List.append_cancel_left (hr.symm.trans bytes)
      obtain rfl : r' = key'.typeByte :: p' := List.append_cancel_left (hr'.symm.trans bytes')
      exact compareGlobalMetaData_decides hk hk' ha hb
    | _ => exact absurd same (by simp [LevelDBKey.prefixType])
  | database databaseId key =>
    cases k' with
    | database databaseId' key' =>
      obtain rfl : databaseId = databaseId' := sameDatabase
      obtain ⟨p, bytes⟩ := key.encode_eq databaseId
      obtain ⟨p', bytes'⟩ := key'.encode_eq databaseId
      obtain rfl : r = key.typeByte :: p := List.append_cancel_left (hr.symm.trans bytes)
      obtain rfl : r' = key'.typeByte :: p' := List.append_cancel_left (hr'.symm.trans bytes')
      exact compareDatabaseMetaData_decides fit.databaseId hk.2 hk'.2 ha hb
    | _ => exact absurd same (by simp [LevelDBKey.prefixType])
  | objectStoreData databaseId objectStoreId userKey =>
    cases k' with
    | objectStoreData databaseId' objectStoreId' userKey' =>
      obtain rfl : r = userKey.bytes := List.append_cancel_left (hr.symm.trans rfl)
      obtain rfl : r' = userKey'.bytes := List.append_cancel_left (hr'.symm.trans rfl)
      rw [LevelDBKey.prefixType, compareBehindPrefix,
        compareRecords_eq userKey.bytes_ne_nil userKey'.bytes_ne_nil]
      exact compareUserKeys_decides hk.2.2 hk'.2.2 fit fit' ha hb
    | _ => exact absurd same (by simp [LevelDBKey.prefixType])
  | existsEntry databaseId objectStoreId userKey =>
    cases k' with
    | existsEntry databaseId' objectStoreId' userKey' =>
      obtain rfl : r = userKey.bytes := List.append_cancel_left (hr.symm.trans rfl)
      obtain rfl : r' = userKey'.bytes := List.append_cancel_left (hr'.symm.trans rfl)
      rw [LevelDBKey.prefixType, compareBehindPrefix,
        compareRecords_eq userKey.bytes_ne_nil userKey'.bytes_ne_nil]
      exact compareUserKeys_decides hk.2.2 hk'.2.2 fit fit' ha hb
    | _ => exact absurd same (by simp [LevelDBKey.prefixType])
  | indexData databaseId objectStoreId indexId userKey primaryKey sequenceNumber =>
    cases k' with
    | indexData databaseId' objectStoreId' indexId' userKey' primaryKey' sequenceNumber' =>
      simp only [LevelDBKey.encode, IndexDataKey.encode, List.append_assoc] at ha hb hr hr'
      obtain rfl := List.append_cancel_left hr
      obtain rfl := List.append_cancel_left hr'
      rw [LevelDBKey.prefixType, compareBehindPrefix, compareRecords_eq
        (by simp [userKey.bytes_ne_nil]) (by simp [userKey'.bytes_ne_nil])]
      exact compareIndexData_decides hk.2.2.2.1 hk'.2.2.2.1 hk.2.2.2.2.1 hk'.2.2.2.2.1
        hk.2.2.2.2.2 hk'.2.2.2.2.2 fit fit' ha hb
    | _ => exact absurd same (by simp [LevelDBKey.prefixType])

theorem compareOk_decides {k k' : LevelDBKey} (hk : k.Valid) (hk' : k'.Valid)
    (ha : a.bytes = k.encode) (hb : b.bytes = k'.encode) :
    ∃ x, compareOk a b false = .ok x ∧ Decides x k.tokens k'.tokens := by
  obtain ⟨r, hr⟩ := k.encode_eq
  obtain ⟨r', hr'⟩ := k'.encode_eq
  have ids := KeyPrefix.compare_decides hk.idsFit hk'.idsFit
  have tokens_eq (k : LevelDBKey) : k.tokens = ([(k.databaseId : Int)] ++
      ([(k.objectStoreId : Int)] ++ [(k.indexId : Int)])) ++ k.bodyTokens := by
    simp [LevelDBKey.tokens]
  rw [compareOk_eq hk.idsFit hk'.idsFit (ha.trans hr) (hb.trans hr'), tokens_eq, tokens_eq]
  simp only
  split_ifs with differ
  · exact ⟨_, rfl, ids.append_right differ _ _⟩
  · have same := ids.eq_zero_iff.mp (not_not.mp differ)
    have same' : k.databaseId = k'.databaseId ∧ k.objectStoreId = k'.objectStoreId ∧
        k.indexId = k'.indexId := by
      simpa using same
    have sameType : k.prefixType = k'.prefixType := by
      rw [← hk.prefixType_eq, ← hk'.prefixType_eq, same'.1, same'.2.1, same'.2.2]
    obtain ⟨x, outcome, decides⟩ := compareBehindPrefix_decides hk hk' ha hb hr hr' sameType same'.1
    exact ⟨x, by rw [hk.prefixType_eq]; exact outcome, by rw [same]; exact decides.append_left _⟩

end

end NetRider.Idb
