import NetRider.Idb.Comparator

/-!
# The keys at the ends of ranges

A scan runs from the first key of its group to the last one. The sentinels of `minIDBKey` and
`maxIDBKey` are below and above every key; the names of an origin end where U+0001 is appended to
it.
-/

namespace NetRider.Idb

open NetRider.Lib

def IndexDataKey.encodeMinKey (databaseId objectStoreId indexId : Nat) : List UInt8 :=
  IndexDataKey.encode databaseId objectStoreId indexId minIDBKey minIDBKey 0

def IndexDataKey.encodeMaxKey (databaseId objectStoreId indexId : Nat) : List UInt8 :=
  IndexDataKey.encode databaseId objectStoreId indexId maxIDBKey maxIDBKey (2 ^ 63 - 1)

def DatabaseNameKey.encodeMinKeyForOrigin (origin : List UInt16) : List UInt8 :=
  DatabaseNameKey.encode origin []

def DatabaseNameKey.encodeStopKeyForOrigin (origin : List UInt16) : List UInt8 :=
  DatabaseNameKey.encodeMinKeyForOrigin (origin ++ [1])

/-- The comparator finds `a` not above `b`. -/
def LevelDBSlice.NotAbove (a b : LevelDBSlice) : Prop := ∃ x ≤ 0, compareOk a b false = .ok x

def LevelDBSlice.Below (a b : LevelDBSlice) : Prop := ∃ x < 0, compareOk a b false = .ok x

theorem LevelDBSlice.Below.notAbove {a b : LevelDBSlice} (below : a.Below b) : a.NotAbove b := by
  obtain ⟨x, negative, outcome⟩ := below
  exact ⟨x, negative.le, outcome⟩

/-! ## Records of an index -/

/-- The ids of an index, as `KeyPrefix` checks them. -/
structure ValidIds (databaseId objectStoreId indexId : Nat) : Prop where
  databaseId : KeyPrefix.isValidDatabaseId databaseId
  objectStoreId : KeyPrefix.isValidObjectStoreId objectStoreId
  indexId : KeyPrefix.isValidIndexId indexId

section

variable {a b : LevelDBSlice} {databaseId objectStoreId indexId : Nat}

theorem ValidIds.fit (ids : ValidIds databaseId objectStoreId indexId) :
    IdsFit databaseId objectStoreId indexId :=
  ⟨ids.databaseId.2.trans (by decide), ids.objectStoreId.2.trans (by decide),
    ids.indexId.2.trans (by decide)⟩

theorem ValidIds.type_eq (ids : ValidIds databaseId objectStoreId indexId) :
    KeyPrefix.type ⟨databaseId, objectStoreId, indexId⟩ = .indexData := by
  have valid : (LevelDBKey.indexData databaseId objectStoreId indexId .min .min 0).Valid :=
    ⟨ids.databaseId, ids.objectStoreId, ids.indexId, trivial, trivial, by decide⟩
  exact valid.prefixType_eq

/-- User keys of two types are not decoded any further. -/
theorem below_of_types {e f : EncodedKey} {r r' : List UInt8}
    (ids : ValidIds databaseId objectStoreId indexId)
    (types : (keyTypeByteToKeyType f.typeByte).code < (keyTypeByteToKeyType e.typeByte).code)
    (ha : a.bytes = KeyPrefix.encodeInternal databaseId objectStoreId indexId ++ (e.bytes ++ r))
    (hb : b.bytes = KeyPrefix.encodeInternal databaseId objectStoreId indexId ++ (f.bytes ++ r')) :
    a.Below b := by
  have same : KeyPrefix.compare ⟨databaseId, objectStoreId, indexId⟩
      ⟨databaseId, objectStoreId, indexId⟩ = 0 := by simp [KeyPrefix.compare]
  obtain ⟨restA, headA⟩ := e.bytes_head
  obtain ⟨restB, headB⟩ := f.bytes_head
  obtain ⟨x, p, q, outcome, decides, -⟩ := @finds_of_types a.limit b.limit e.typeByte f.typeByte
    (restA ++ r) (restB ++ r') [] [] [] [] (e.bytes ++ r).length types.ne'
  have negative : x < 0 := by
    rw [decides.neg_iff, List.cons_lt_cons_iff]
    left
    unfold typeToken
    omega
  have user : compareEncodedIDBKeysAt a.limit b.limit (e.bytes ++ r) (f.bytes ++ r') =
      .ok (x, p, q) := by
    rw [headA, headB] at *
    exact outcome
  refine ⟨x, negative, ?_⟩
  rw [compareOk_eq ids.fit ids.fit ha hb]
  simp only [same, ne_eq, not_true_eq_false, if_false, ids.type_eq, compareBehindPrefix]
  rw [compareRecords_eq (by simp [headA]) (by simp [headB])]
  simp only [compareIndexData, (decode_slice ids.fit ha).1, (decode_slice ids.fit hb).1, user, bind,
    Except.bind, if_pos negative.ne]

theorem IndexDataKey.encode_eq (e f : EncodedKey) (n : Nat) :
    IndexDataKey.encode databaseId objectStoreId indexId e.bytes f.bytes n =
      KeyPrefix.encodeInternal databaseId objectStoreId indexId ++
        (e.bytes ++ (encodeVarInt n ++ f.bytes)) := by
  simp [IndexDataKey.encode]

theorem type_between {payload : Double → Prop} {user : IDBKey} (valid : user.Valid payload) :
    (keyTypeByteToKeyType (EncodedKey.key user).typeByte).code <
        (keyTypeByteToKeyType EncodedKey.min.typeByte).code ∧
      (keyTypeByteToKeyType EncodedKey.max.typeByte).code <
        (keyTypeByteToKeyType (EncodedKey.key user).typeByte).code := by
  have bounds := valid.code_bounds
  have low : (keyTypeByteToKeyType EncodedKey.min.typeByte).code = 5 := rfl
  have high : (keyTypeByteToKeyType EncodedKey.max.typeByte).code = 0 := rfl
  have own : (keyTypeByteToKeyType (EncodedKey.key user).typeByte).code = user.type.code := by
    rw [EncodedKey.typeByte, keyTypeByteToKeyType_typeByte]
  omega

/-- Keys with other ids are told apart by their prefixes. -/
theorem below_or_above_of_ids {d o i : Nat} {r r' : List UInt8} {c : LevelDBSlice}
    (fit : IdsFit databaseId objectStoreId indexId) (fit' : IdsFit d o i)
    (differ : (databaseId, objectStoreId, indexId) ≠ (d, o, i)) {r'' : List UInt8}
    (ha : a.bytes = KeyPrefix.encodeInternal databaseId objectStoreId indexId ++ r)
    (hb : b.bytes = KeyPrefix.encodeInternal databaseId objectStoreId indexId ++ r')
    (hc : c.bytes = KeyPrefix.encodeInternal d o i ++ r'') :
    c.Below a ∨ b.Below c := by
  have down := @KeyPrefix.compare_decides d o i databaseId objectStoreId indexId fit' fit
  have up := @KeyPrefix.compare_decides databaseId objectStoreId indexId d o i fit fit'
  have apart : ([(d : Int)] ++ ([(o : Int)] ++ [(i : Int)])) ≠
      [(databaseId : Int)] ++ ([(objectStoreId : Int)] ++ [(indexId : Int)]) := by
    intro same
    simp only [List.cons_append, List.nil_append, List.cons.injEq, Nat.cast_inj, and_true] at same
    obtain ⟨rfl, rfl, rfl⟩ := same
    exact differ rfl
  rcases lt_or_gt_of_ne apart with below | above
  · have negative := down.neg_iff.mpr below
    refine .inl ⟨_, negative, ?_⟩
    rw [compareOk_eq fit' fit hc ha]
    exact if_pos negative.ne
  · have negative := up.neg_iff.mpr above
    refine .inr ⟨_, negative, ?_⟩
    rw [compareOk_eq fit fit' hb hc]
    exact if_pos negative.ne

end

/-! ## Names of an origin -/

theorem not_stringTokens_append_lt (s : List UInt16) {u v : List Int} (least : ¬ u < v) :
    ¬ stringTokens s ++ u < 0 :: v := by
  cases s with
  | nil => simpa [stringTokens, List.cons_lt_cons_iff] using least
  | cons c s =>
    simp only [stringTokens, List.cons_append, List.cons_lt_cons_iff, not_or]
    omega

/-- Between an origin and the origin with U+0001 behind it, only U+0000 has a place. -/
theorem stringTokens_between_iff {origin other : List UInt16} (no_null : 0 ∉ other)
    (name : List UInt16) :
    ¬ stringTokens other ++ stringTokens name < stringTokens origin ++ stringTokens [] ∧
        stringTokens other ++ stringTokens name < stringTokens (origin ++ [1]) ++ stringTokens [] ↔
      other = origin := by
  have least : ¬ stringTokens name < [0] := by
    simpa using not_stringTokens_append_lt name (List.not_lt_nil [])
  induction origin generalizing other with
  | nil =>
    cases other with
    | nil => simp [stringTokens, List.cons_lt_cons_iff, least]
    | cons c other =>
      have positive : c.toNat ≠ 0 := by
        intro zero
        have null : c = 0 := UInt16.toNat_inj.mp zero
        simp [null] at no_null
      have behind := not_stringTokens_append_lt other least
      simp only [stringTokens, List.cons_append, List.nil_append, List.cons_lt_cons_iff, behind,
        and_false, or_false, reduceCtorEq, iff_false, UInt16.reduceToNat]
      omega
  | cons a origin ih =>
    cases other with
    | nil =>
      simp only [stringTokens, List.cons_append, List.cons_lt_cons_iff, reduceCtorEq, iff_false]
      omega
    | cons c other =>
      have again := @ih other (fun member => no_null (List.mem_cons_of_mem c member))
      simp only [List.cons_append, stringTokens, List.cons_lt_cons_iff, List.cons.injEq,
        ← again, ← UInt16.toNat_inj]
      rcases lt_trichotomy c.toNat a.toNat with below | same | above
      · simp [below, below.ne]
      · simp [same]
      · simp [above.ne', above.not_gt]

theorem databaseName_tokens (origin name : List UInt16) :
    (LevelDBKey.global (.databaseName origin name)).tokens =
      [0, 0, 0, (DatabaseNameTypeByte.toNat : Int)] ++
        (stringTokens origin ++ stringTokens name) := rfl

/-- The comparator puts names in the order of their tokens. -/
theorem databaseName_below_iff {origin other name second : List UInt16} {a b : LevelDBSlice}
    (short : origin.length < 2 ^ 32) (short' : other.length < 2 ^ 32)
    (fits : name.length < 2 ^ 32) (fits' : second.length < 2 ^ 32)
    (ha : a.bytes = DatabaseNameKey.encode origin name)
    (hb : b.bytes = DatabaseNameKey.encode other second) :
    (a.Below b ↔
      stringTokens origin ++ stringTokens name < stringTokens other ++ stringTokens second) ∧
    (a.NotAbove b ↔
      ¬ stringTokens other ++ stringTokens second < stringTokens origin ++ stringTokens name) := by
  have valid : (LevelDBKey.global (.databaseName origin name)).Valid := ⟨short, fits⟩
  have valid' : (LevelDBKey.global (.databaseName other second)).Valid := ⟨short', fits'⟩
  obtain ⟨x, outcome, decides⟩ := compareOk_decides valid valid' ha hb
  rw [databaseName_tokens, databaseName_tokens] at decides
  have negative := decides.neg_iff
  have nonpos := decides.nonpos_iff.trans not_lt.symm
  simp only [List.cons_append, List.nil_append, List.cons_lt_cons_self] at negative nonpos
  simp only [LevelDBSlice.Below, LevelDBSlice.NotAbove, outcome, Except.ok.injEq]
  constructor
  · rw [← negative]
    exact ⟨fun ⟨y, below, same⟩ => same ▸ below, fun below => ⟨x, below, rfl⟩⟩
  · rw [← nonpos]
    exact ⟨fun ⟨y, below, same⟩ => same ▸ below, fun below => ⟨x, below, rfl⟩⟩

/-! ## Ranges -/

/-- **The keys at the ends bracket exactly their group**: an index's records and no key of other
ids, an origin's names and no other origin's. -/
theorem range_keys_bracket :
    (∀ databaseId objectStoreId indexId : Nat, ValidIds databaseId objectStoreId indexId →
      ∀ low high : LevelDBSlice,
      low.bytes = IndexDataKey.encodeMinKey databaseId objectStoreId indexId →
      high.bytes = IndexDataKey.encodeMaxKey databaseId objectStoreId indexId →
      (∀ (user primary : IDBKey) (sequenceNumber : Nat), user.Valid (fun _ => True) →
        primary.Valid (fun _ => True) → sequenceNumber < 2 ^ 63 → ∀ key : LevelDBSlice,
        key.bytes = IndexDataKey.encode databaseId objectStoreId indexId (encodeIDBKey user)
          (encodeIDBKey primary) sequenceNumber →
        low.NotAbove key ∧ key.NotAbove high) ∧
      ∀ other : LevelDBKey, IdsFit other.databaseId other.objectStoreId other.indexId →
        (databaseId, objectStoreId, indexId) ≠
          (other.databaseId, other.objectStoreId, other.indexId) →
        ∀ key : LevelDBSlice, key.bytes = other.encode → key.Below low ∨ high.Below key) ∧
    ∀ origin other name : List UInt16, 0 ∉ origin → 0 ∉ other → origin.length + 1 < 2 ^ 32 →
      other.length < 2 ^ 32 → name.length < 2 ^ 32 → ∀ low stop key : LevelDBSlice,
      low.bytes = DatabaseNameKey.encodeMinKeyForOrigin origin →
      stop.bytes = DatabaseNameKey.encodeStopKeyForOrigin origin →
      key.bytes = DatabaseNameKey.encode other name →
      (low.NotAbove key ∧ key.Below stop ↔ other = origin) := by
  constructor
  · intro databaseId objectStoreId indexId ids low high lowest highest
    have low_eq := lowest.trans (IndexDataKey.encode_eq .min .min 0)
    have high_eq := highest.trans (IndexDataKey.encode_eq .max .max (2 ^ 63 - 1))
    constructor
    · intro user primary sequenceNumber valid _ _ key bytes
      have key_eq := bytes.trans (IndexDataKey.encode_eq (.key user) (.key primary) sequenceNumber)
      have types := type_between valid
      exact ⟨(below_of_types ids types.1 low_eq key_eq).notAbove,
        (below_of_types ids types.2 key_eq high_eq).notAbove⟩
    · intro other fit differ key bytes
      obtain ⟨r, behind⟩ := other.encode_eq
      exact below_or_above_of_ids ids.fit fit differ low_eq high_eq (bytes.trans behind)
  · intro origin other name _ no_null short short' fits low stop key lowest stops bytes
    have above := (databaseName_below_iff (by omega) short' (by decide) fits lowest bytes).2
    have below := (databaseName_below_iff short' (by simpa using short) fits (by decide) bytes
      stops).1
    rw [above, below]
    exact stringTokens_between_iff no_null name

/-- A record with an array for its user key, a name of another index, and two origins of which
one continues the other. -/
theorem range_keys_bracket_instance :
    let record := IndexDataKey.encode 1 1 30 (encodeIDBKey (.array [])) (encodeIDBKey (.string [])) 7
    ∃ low high key : LevelDBSlice, low.bytes = IndexDataKey.encodeMinKey 1 1 30 ∧
      high.bytes = IndexDataKey.encodeMaxKey 1 1 30 ∧ key.bytes = record ∧
      low.NotAbove key ∧ key.NotAbove high ∧
    ∃ other : LevelDBSlice, other.bytes = IndexDataKey.encodeMinKey 1 1 31 ∧
      (other.Below low ∨ high.Below other) ∧
    ∃ low stop key : LevelDBSlice, low.bytes = DatabaseNameKey.encodeMinKeyForOrigin [0x61] ∧
      stop.bytes = DatabaseNameKey.encodeStopKeyForOrigin [0x61] ∧
      key.bytes = DatabaseNameKey.encode [0x61, 0x62] [] ∧
      ¬ (low.NotAbove key ∧ key.Below stop) := by
  intro record
  have ids : ValidIds 1 1 30 :=
    ⟨by simp [KeyPrefix.isValidDatabaseId, KeyPrefix.kMaxDatabaseId],
      by simp [KeyPrefix.isValidObjectStoreId, KeyPrefix.kMaxObjectStoreId],
      by simp [KeyPrefix.isValidIndexId, KeyPrefix.minimumIndexId, KeyPrefix.kMaxIndexId]⟩
  let low : LevelDBSlice := ⟨4096, IndexDataKey.encodeMinKey 1 1 30, by decide, by decide⟩
  let high : LevelDBSlice := ⟨8192, IndexDataKey.encodeMaxKey 1 1 30, by decide, by decide⟩
  let key : LevelDBSlice := ⟨12288, record, by decide, by decide⟩
  let other : LevelDBSlice := ⟨16384, IndexDataKey.encodeMinKey 1 1 31, by decide, by decide⟩
  obtain ⟨inside, outside⟩ := range_keys_bracket.1 1 1 30 ids low high rfl rfl
  have bracket := inside (.array []) (.string []) 7 (.array _ (by decide) (by simp))
    (.string _ (by decide)) (by decide) key rfl
  refine ⟨low, high, key, rfl, rfl, rfl, bracket.1, bracket.2, other, rfl,
    outside (.indexData 1 1 31 .min .min 0) ⟨by decide, by decide, by decide⟩ (by decide) other rfl,
    ⟨4096, DatabaseNameKey.encodeMinKeyForOrigin [0x61], by decide, by decide⟩,
    ⟨8192, DatabaseNameKey.encodeStopKeyForOrigin [0x61], by decide, by decide⟩,
    ⟨12288, DatabaseNameKey.encode [0x61, 0x62] [], by decide, by decide⟩, rfl, rfl, rfl, ?_⟩
  rw [range_keys_bracket.2 [0x61] [0x61, 0x62] [] (by decide) (by decide) (by decide) (by decide)
    (by decide) _ _ _ rfl rfl rfl]
  decide

end NetRider.Idb
