import NetRider.Idb.Comparator

/-!
# The comparator is a total order

The comparator decides the sequences of tokens, so it inherits their lexicographic order; and
the tokens determine the bytes.
-/

namespace NetRider.Idb

open NetRider.Lib

/-! ## Equal tokens come from equal bytes -/

theorem Double.rank_injective {d e : Double} (hd : d.Plain) (he : e.Plain)
    (same : d.rank = e.rank) : d = e := by
  have nonzero {x : Double} (plain : x.Plain) : x.bits.toNat ≠ 2 ^ 63 := by
    intro zero
    refine plain.2 ?_
    cases x
    simp only [negativeZero, Double.mk.injEq]
    rw [← UInt64.toNat_inj]
    exact zero
  have hd := nonzero hd
  have he := nonzero he
  have bits : d.bits.toNat = e.bits.toNat := by
    have := d.bits.toNat_lt
    have := e.bits.toNat_lt
    unfold rank magnitude at same
    split_ifs at same <;> omega
  exact congrArg Double.mk (UInt64.toNat_inj.mp bits)

theorem stringTokens_injective {s t : List UInt16} {u v : List Int}
    (same : stringTokens s ++ u = stringTokens t ++ v) : s = t ∧ u = v := by
  induction s generalizing t with
  | nil =>
    cases t with
    | nil => exact ⟨rfl, by simpa [stringTokens] using same⟩
    | cons d t =>
      simp only [stringTokens, List.cons_append, List.cons.injEq] at same
      omega
  | cons c s ih =>
    cases t with
    | nil =>
      simp only [stringTokens, List.cons_append, List.cons.injEq] at same
      omega
    | cons d t =>
      simp only [stringTokens, List.cons_append, List.cons.injEq] at same
      obtain ⟨rfl, rfl⟩ := ih same.2
      have unit : c = d := by
        rw [← UInt16.toNat_inj]
        omega
      exact ⟨by rw [unit], rfl⟩

theorem elementTokens_injective {keys others : List IDBKey} {u v : List Int}
    (each : ∀ key ∈ keys, ∀ other ∈ others, ∀ u v, tokens key ++ u = tokens other ++ v →
      key = other ∧ u = v)
    (same : elementTokens keys ++ u = elementTokens others ++ v) : keys = others ∧ u = v := by
  induction keys generalizing others with
  | nil =>
    cases others with
    | nil => exact ⟨rfl, by simpa [elementTokens] using same⟩
    | cons other others =>
      obtain ⟨rest, head⟩ := tokens_head other
      simp only [elementTokens, head, List.cons_append, List.cons.injEq] at same
      exact absurd same.1 typeToken_pos.ne
  | cons key keys ih =>
    cases others with
    | nil =>
      obtain ⟨rest, head⟩ := tokens_head key
      simp only [elementTokens, head, List.cons_append, List.cons.injEq] at same
      exact absurd same.1 typeToken_pos.ne'
    | cons other others =>
      simp only [elementTokens, List.append_assoc] at same
      obtain ⟨rfl, rest⟩ := each key List.mem_cons_self other List.mem_cons_self _ _ same
      obtain ⟨rfl, rfl⟩ := ih (fun k member k' member' => each k (List.mem_cons_of_mem _ member) k'
        (List.mem_cons_of_mem _ member')) rest
      exact ⟨rfl, rfl⟩

theorem tokens_injective {a b : IDBKey} (ha : a.Valid Double.Plain) (hb : b.Valid Double.Plain)
    {u v : List Int} (same : tokens a ++ u = tokens b ++ v) : a = b ∧ u = v := by
  induction ha generalizing b u v with
  | array keys count each ih =>
    cases hb with
    | array others count' each' =>
      simp only [tokens, List.cons_append, List.cons.injEq, true_and] at same
      obtain ⟨rfl, rfl⟩ := elementTokens_injective
        (fun k member k' member' u v => ih k member (each' k' member')) same
      exact ⟨rfl, rfl⟩
    | _ => simp [tokens, typeToken, KeyType.code] at same
  | string s count =>
    cases hb with
    | string t count' =>
      simp only [tokens, List.cons_append, List.cons.injEq, true_and] at same
      obtain ⟨rfl, rfl⟩ := stringTokens_injective same
      exact ⟨rfl, rfl⟩
    | _ => simp [tokens, typeToken, KeyType.code] at same
  | date d allowed =>
    cases hb with
    | date e allowed' =>
      simp only [tokens, List.cons_append, List.nil_append, List.cons.injEq, true_and] at same
      rw [Double.rank_injective allowed allowed' same.1]
      exact ⟨rfl, same.2⟩
    | _ => simp [tokens, typeToken, KeyType.code] at same
  | number d allowed =>
    cases hb with
    | number e allowed' =>
      simp only [tokens, List.cons_append, List.nil_append, List.cons.injEq, true_and] at same
      rw [Double.rank_injective allowed allowed' same.1]
      exact ⟨rfl, same.2⟩
    | _ => simp [tokens, typeToken, KeyType.code] at same

theorem EncodedKey.tokens_injective {e f : EncodedKey} (he : e.Valid) (hf : f.Valid)
    {u v : List Int} (same : e.tokens ++ u = f.tokens ++ v) : e = f ∧ u = v := by
  cases e with
  | key a =>
    cases f with
    | key b =>
      obtain ⟨rfl, rfl⟩ := Idb.tokens_injective he hf same
      exact ⟨rfl, rfl⟩
    | _ => cases he <;> simp [EncodedKey.tokens, Idb.tokens, typeToken, KeyType.code] at same
  | _ =>
    cases f with
    | key b => cases hf <;> simp [EncodedKey.tokens, Idb.tokens, typeToken, KeyType.code] at same
    | _ => simp_all [EncodedKey.tokens, typeToken, KeyType.code]

theorem GlobalKey.eq_of_tokens {k k' : GlobalKey} (sameType : k.typeByte = k'.typeByte)
    (same : k.fieldTokens = k'.fieldTokens) : k = k' := by
  cases k with
  | databaseFreeList m =>
    cases k' with
    | databaseFreeList n => simpa [fieldTokens] using same
    | _ => exact absurd sameType (by simp only [GlobalKey.typeByte]; decide)
  | databaseName o n =>
    cases k' with
    | databaseName o' n' =>
      have strings : stringTokens o ++ stringTokens n = stringTokens o' ++ stringTokens n' := same
      obtain ⟨rfl, rest⟩ := stringTokens_injective strings
      rw [(stringTokens_injective (congrArg (· ++ []) rest)).1]
    | _ => exact absurd sameType (by simp only [GlobalKey.typeByte]; decide)
  | _ =>
    cases k' with
    | databaseFreeList | databaseName =>
      exact absurd sameType (by simp only [GlobalKey.typeByte]; decide)
    | _ => first | rfl | exact absurd sameType (by decide)

theorem DatabaseKey.eq_of_tokens {k k' : DatabaseKey} (sameType : k.typeByte = k'.typeByte)
    (same : k.fieldTokens = k'.fieldTokens) : k = k' := by
  have text {s t : List UInt16} (h : stringTokens s = stringTokens t) : s = t :=
    (stringTokens_injective (congrArg (· ++ []) h)).1
  cases k with
  | metaData t => exact (typeByte_eq_metaData sameType).symm
  | objectStoreMetaData o t =>
    cases k' with
    | objectStoreMetaData o' t' => simpa [fieldTokens, UInt8.toNat_inj] using same
    | metaData => exact absurd (typeByte_eq_metaData sameType.symm) (by simp)
    | _ => exact absurd sameType (by simp only [DatabaseKey.typeByte]; decide)
  | indexMetaData o i t =>
    cases k' with
    | indexMetaData o' i' t' => simpa [fieldTokens, UInt8.toNat_inj] using same
    | metaData => exact absurd (typeByte_eq_metaData sameType.symm) (by simp)
    | _ => exact absurd sameType (by simp only [DatabaseKey.typeByte]; decide)
  | objectStoreFreeList o =>
    cases k' with
    | objectStoreFreeList o' => simpa [fieldTokens] using same
    | metaData => exact absurd (typeByte_eq_metaData sameType.symm) (by simp)
    | _ => exact absurd sameType (by simp only [DatabaseKey.typeByte]; decide)
  | indexFreeList o i =>
    cases k' with
    | indexFreeList o' i' => simpa [fieldTokens] using same
    | metaData => exact absurd (typeByte_eq_metaData sameType.symm) (by simp)
    | _ => exact absurd sameType (by simp only [DatabaseKey.typeByte]; decide)
  | objectStoreNames n =>
    cases k' with
    | objectStoreNames n' => exact congrArg _ (text same)
    | metaData => exact absurd (typeByte_eq_metaData sameType.symm) (by simp)
    | _ => exact absurd sameType (by simp only [DatabaseKey.typeByte]; decide)
  | indexNames o n =>
    cases k' with
    | indexNames o' n' =>
      simp only [fieldTokens, List.cons_append, List.nil_append, List.cons.injEq,
        Nat.cast_inj] at same
      rw [same.1, text same.2]
    | metaData => exact absurd (typeByte_eq_metaData sameType.symm) (by simp)
    | _ => exact absurd sameType (by simp only [DatabaseKey.typeByte]; decide)

theorem LevelDBKey.eq_of_tokens {k k' : LevelDBKey} (hk : k.Valid) (hk' : k'.Valid)
    (same : k.tokens = k'.tokens) : k = k' := by
  simp only [tokens, List.cons_append, List.nil_append, List.cons.injEq, Nat.cast_inj] at same
  obtain ⟨sameDatabase, sameObjectStore, sameIndex, body⟩ := same
  have sameType : k.prefixType = k'.prefixType := by
    rw [← hk.prefixType_eq, ← hk'.prefixType_eq, sameDatabase, sameObjectStore, sameIndex]
  cases k with
  | global key =>
    cases k' with
    | global key' =>
      simp only [bodyTokens, List.cons.injEq, Nat.cast_inj, UInt8.toNat_inj] at body
      rw [GlobalKey.eq_of_tokens body.1 body.2]
    | _ => exact absurd sameType (by simp [prefixType])
  | database d key =>
    cases k' with
    | database d' key' =>
      obtain rfl : d = d' := sameDatabase
      simp only [bodyTokens, List.cons.injEq, Nat.cast_inj, UInt8.toNat_inj] at body
      rw [DatabaseKey.eq_of_tokens body.1 body.2]
    | _ => exact absurd sameType (by simp [prefixType])
  | objectStoreData d o e =>
    cases k' with
    | objectStoreData d' o' e' =>
      obtain rfl : d = d' := sameDatabase
      obtain rfl : o = o' := sameObjectStore
      rw [(EncodedKey.tokens_injective hk.2.2 hk'.2.2 (congrArg (· ++ []) body)).1]
    | _ => exact absurd sameType (by simp [prefixType])
  | existsEntry d o e =>
    cases k' with
    | existsEntry d' o' e' =>
      obtain rfl : d = d' := sameDatabase
      obtain rfl : o = o' := sameObjectStore
      rw [(EncodedKey.tokens_injective hk.2.2 hk'.2.2 (congrArg (· ++ []) body)).1]
    | _ => exact absurd sameType (by simp [prefixType])
  | indexData d o i e f n =>
    cases k' with
    | indexData d' o' i' e' f' n' =>
      obtain rfl : d = d' := sameDatabase
      obtain rfl : o = o' := sameObjectStore
      obtain rfl : i = i' := sameIndex
      obtain ⟨rfl, rest⟩ := EncodedKey.tokens_injective hk.2.2.2.1 hk'.2.2.2.1 body
      obtain ⟨rfl, rest⟩ := EncodedKey.tokens_injective hk.2.2.2.2.1 hk'.2.2.2.2.1 rest
      simpa using rest
    | _ => exact absurd sameType (by simp [prefixType])

/-! ## The total order -/

/-- A slice that holds one of the keys `IDBLevelDBCoding` writes. -/
def LevelDBSlice.IsKey (slice : LevelDBSlice) : Prop :=
  ∃ key : LevelDBKey, key.Valid ∧ slice.bytes = key.encode

/-- **The comparator is a total order** on encoded keys: it never fails, it is antisymmetric
and transitive, and it returns zero exactly on equal bytes. -/
theorem comparator_is_total_order {x y z : LevelDBSlice} (hx : x.IsKey) (hy : y.IsKey)
    (hz : z.IsKey) :
    compareOk x y false = .ok (compareSlices x y false) ∧
    (compareSlices x y false).sign = -(compareSlices y x false).sign ∧
    (compareSlices x y false ≤ 0 → compareSlices y z false ≤ 0 → compareSlices x z false ≤ 0) ∧
    (compareSlices x y false = 0 ↔ x.bytes = y.bytes) := by
  have decided {a b : LevelDBSlice} {k k' : LevelDBKey} (hk : k.Valid) (hk' : k'.Valid)
      (ha : a.bytes = k.encode) (hb : b.bytes = k'.encode) :
      compareOk a b false = .ok (compareSlices a b false) ∧
        Decides (compareSlices a b false) k.tokens k'.tokens := by
    obtain ⟨r, outcome, decides⟩ := compareOk_decides hk hk' ha hb
    have value : compareSlices a b false = r := by rw [compareSlices, outcome]
    rw [value]
    exact ⟨outcome, decides⟩
  obtain ⟨k, validX, bytesX⟩ := hx
  obtain ⟨l, validY, bytesY⟩ := hy
  obtain ⟨m, validZ, bytesZ⟩ := hz
  obtain ⟨outcome, xy⟩ := decided validX validY bytesX bytesY
  have yx := (decided validY validX bytesY bytesX).2
  have yz := (decided validY validZ bytesY bytesZ).2
  have xz := (decided validX validZ bytesX bytesZ).2
  refine ⟨outcome, xy.sign_swap yx, xy.nonpos_trans yz xz, ?_⟩
  constructor
  · intro zero
    rw [bytesX, bytesY, LevelDBKey.eq_of_tokens validX validY (xy.eq_zero_iff.mp zero)]
  · intro same
    exact (decided validX validX bytesX (same ▸ bytesX)).2.eq_zero_iff.mpr rfl

/-- A record of an index, below the last key of its index and above the name of a database. -/
theorem comparator_is_total_order_index_record :
    let record := LevelDBKey.indexData 1 1 30 (.key (.array [.string [0x61]]))
      (.key (.number ⟨0x3FF0000000000000⟩)) 0
    let last := LevelDBKey.indexData 1 1 30 .max .max (2 ^ 63 - 1)
    let name := LevelDBKey.global (.databaseName [0x6F] [0x64])
    ∃ x y z : LevelDBSlice,
      x.bytes = record.encode ∧ y.bytes = last.encode ∧ z.bytes = name.encode ∧
      compareSlices x y false = -1 ∧
      compareOk x y false = .ok (compareSlices x y false) ∧
      (compareSlices x y false).sign = -(compareSlices y x false).sign ∧
      (compareSlices x y false ≤ 0 → compareSlices y z false ≤ 0 → compareSlices x z false ≤ 0) ∧
      (compareSlices x y false = 0 ↔ x.bytes = y.bytes) := by
  intro record last name
  have user : (IDBKey.array [.string [0x61]]).Valid Double.Plain :=
    .array _ (by decide) (by simpa using IDBKey.Valid.string [0x61] (by decide))
  have primary : (IDBKey.number ⟨0x3FF0000000000000⟩).Valid Double.Plain :=
    .number _ ⟨by decide, by decide⟩
  have ids : KeyPrefix.isValidDatabaseId 1 ∧ KeyPrefix.isValidObjectStoreId 1 ∧
      KeyPrefix.isValidIndexId 30 := by
    simp [KeyPrefix.isValidDatabaseId, KeyPrefix.isValidObjectStoreId, KeyPrefix.isValidIndexId,
      KeyPrefix.kMaxDatabaseId, KeyPrefix.kMaxObjectStoreId, KeyPrefix.kMaxIndexId,
      KeyPrefix.minimumIndexId]
  have validRecord : record.Valid := ⟨ids.1, ids.2.1, ids.2.2, user, primary, by decide⟩
  have validLast : last.Valid := ⟨ids.1, ids.2.1, ids.2.2, trivial, trivial, by decide⟩
  have validName : name.Valid := ⟨by decide, by decide⟩
  let x : LevelDBSlice := ⟨4096, record.encode, by decide, by decide⟩
  let y : LevelDBSlice := ⟨8192, last.encode, by decide, by decide⟩
  let z : LevelDBSlice := ⟨12288, name.encode, by decide, by decide⟩
  exact ⟨x, y, z, rfl, rfl, rfl, by decide, comparator_is_total_order ⟨record, validRecord, rfl⟩
    ⟨last, validLast, rfl⟩ ⟨name, validName, rfl⟩⟩

end NetRider.Idb
