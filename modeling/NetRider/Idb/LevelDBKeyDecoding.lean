import NetRider.Idb.KeyOrder
import NetRider.Idb.LevelDBKeys

/-!
# LevelDB keys are decoded as they were encoded

A key is a prefix of three ids and what stands behind it. Each decoder is taken at an encoded
key inside a buffer, with anything behind the key.
-/

namespace NetRider.Idb

open NetRider.Lib

/-! ## Prefixes -/

theorem ofLe_encodeIntLoop {rounds n : Nat} (positive : 0 < rounds) (fits : n < 256 ^ rounds) :
    ofLe (encodeIntLoop rounds n) = n := by
  induction rounds generalizing n with
  | zero => omega
  | succ rounds ih =>
    have low : (UInt8.ofNat n).toNat = n % 256 := UInt8.toNat_ofNat'
    have fewer : n / 256 < 256 ^ rounds := by
      rw [Nat.div_lt_iff_lt_mul (by decide), ← pow_succ]
      exact fits
    rw [encodeIntLoop, show n >>> 8 = n / 256 from Nat.shiftRight_eq_div_pow n 8]
    by_cases more : n / 256 = 0
    · rw [if_neg (not_not.mpr more), ofLe, ofLe, low]
      omega
    · have again : 0 < rounds := by
        rcases Nat.eq_zero_or_pos rounds with rfl | h
        · simp at fewer; omega
        · exact h
      rw [if_pos more, ofLe, ih again fewer, low]
      omega

theorem encodeIntLoop_length_pos {rounds n : Nat} (positive : 0 < rounds) :
    0 < (encodeIntLoop rounds n).length := by
  cases rounds with
  | zero => omega
  | succ rounds => simp [encodeIntLoop]

theorem encodeIntLoop_length_le {rounds size n : Nat} (positive : 0 < size)
    (fits : n < 256 ^ size) : (encodeIntLoop rounds n).length ≤ size := by
  induction rounds generalizing n size with
  | zero => simp [encodeIntLoop]
  | succ rounds ih =>
    rw [encodeIntLoop, show n >>> 8 = n / 256 from Nat.shiftRight_eq_div_pow n 8, List.length_cons]
    split_ifs with more
    · obtain ⟨size, rfl⟩ : ∃ k, size = k + 1 := ⟨size - 1, by omega⟩
      have fewer : n / 256 < 256 ^ size := by
        rw [Nat.div_lt_iff_lt_mul (by decide), ← pow_succ]
        exact fits
      have again : 0 < size := by
        rcases Nat.eq_zero_or_pos size with rfl | h
        · simp at fewer; omega
        · exact h
      have := ih again fewer
      omega
    · simpa using Nat.succ_le_of_lt positive

theorem decodeInt_encodeInt {n : Nat} (small : n < 2 ^ 63) : decodeInt (encodeInt n) = n := by
  rw [decodeInt, encodeInt, ofLe_encodeIntLoop (by decide) (by omega), int64_of_lt small]

theorem encodeInt_length {n size : Nat} (positive : 0 < size) (fits : n < 256 ^ size) :
    1 ≤ (encodeInt n).length ∧ (encodeInt n).length ≤ size :=
  ⟨encodeIntLoop_length_pos (by decide), encodeIntLoop_length_le positive fits⟩

/-- The three lengths are read back from the first byte. -/
theorem firstByte_lengths : ∀ d < 8, ∀ o < 8, ∀ i < 4,
    let firstByte := UInt8.ofNat (d <<< (3 + 2) ||| o <<< 2 ||| i)
    firstByte.toNat >>> 5 &&& 0x7 = d ∧ firstByte.toNat >>> 2 &&& 0x7 = o ∧
      firstByte.toNat &&& 0x3 = i := by
  decide

/-- The ids of a key's prefix, as far as their encoding needs them. -/
structure IdsFit (databaseId objectStoreId indexId : Nat) : Prop where
  databaseId : databaseId < 2 ^ 63
  objectStoreId : objectStoreId < 2 ^ 63
  indexId : indexId < 2 ^ 31

theorem decode_encodeInternal {limit databaseId objectStoreId indexId : Nat} {r : List UInt8}
    (fit : IdsFit databaseId objectStoreId indexId)
    (placed : Placed limit (KeyPrefix.encodeInternal databaseId objectStoreId indexId ++ r)) :
    KeyPrefix.decode limit (KeyPrefix.encodeInternal databaseId objectStoreId indexId ++ r) =
      .ok (⟨databaseId, objectStoreId, indexId⟩, r) := by
  have small := fit.databaseId
  have small' := fit.objectStoreId
  have small'' := fit.indexId
  obtain ⟨some, few⟩ := encodeInt_length (n := databaseId) (show 0 < 8 by decide) (by omega)
  obtain ⟨some', few'⟩ := encodeInt_length (n := objectStoreId) (show 0 < 8 by decide) (by omega)
  obtain ⟨some'', few''⟩ := encodeInt_length (n := indexId) (show 0 < 4 by decide) (by omega)
  obtain ⟨first, second, third⟩ := firstByte_lengths ((encodeInt databaseId).length - 1) (by omega)
    ((encodeInt objectStoreId).length - 1) (by omega) ((encodeInt indexId).length - 1) (by omega)
  simp only [KeyPrefix.encodeInternal, List.cons_append, List.append_assoc] at placed ⊢
  have inside := placed.tail.not_beyond (show (encodeInt databaseId).length - 1 + 1 +
    ((encodeInt objectStoreId).length - 1 + 1) + ((encodeInt indexId).length - 1 + 1) ≤ _ by
      simp only [List.length_append]; omega)
  rw [KeyPrefix.decode]
  simp only [first, second, third, if_neg inside]
  rw [readBytes_append (by omega)]
  simp only [bind, Except.bind]
  rw [readBytes_append (by omega)]
  simp only
  rw [readBytes_append (by omega)]
  simp only [decodeInt_encodeInt small, decodeInt_encodeInt small',
    decodeInt_encodeInt (show indexId < 2 ^ 63 by omega)]

theorem encodeEmpty_eq : KeyPrefix.encodeEmpty = KeyPrefix.encodeInternal 0 0 0 := by
  decide

theorem compareInts_decides {a b : Nat} (ha : a < 2 ^ 63) (hb : b < 2 ^ 63) :
    Decides (compareInts a b) [(a : Int)] [(b : Int)] := by
  have exact_diff : int64 ((a : Int) - b) = a - b := by
    unfold int64
    rw [Int.bmod_def]
    omega
  simp only [compareInts, exact_diff]
  split_ifs with lt gt
  · exact .head_lt (by decide) (by omega)
  · exact .head_gt (by decide) (by omega)
  · rw [show (a : Int) = b by omega]
    exact .same _

/-! ## Decoders give back what was encoded -/

section

variable {limit databaseId objectStoreId indexId : Nat} {r : List UInt8}

theorem decodeTyped_encode {typeByte : UInt8} (fit : IdsFit databaseId objectStoreId indexId)
    (placed : Placed limit
      (KeyPrefix.encodeInternal databaseId objectStoreId indexId ++ typeByte :: r)) :
    decodeTyped limit (KeyPrefix.encodeInternal databaseId objectStoreId indexId ++ typeByte :: r) =
      .ok r := by
  simp [decodeTyped, decode_encodeInternal fit placed, bind, Except.bind, decodeByte]

theorem notAtLimit_encodeVarInt (n : Nat) : notAtLimit (encodeVarInt n ++ r) = .ok () := by
  have positive := encodeVarInt_length_pos n
  apply if_neg
  intro empty
  rw [List.append_eq_nil_iff.mp empty |>.1] at positive
  exact absurd positive (by decide)

theorem decodeString_encodeString (s : List UInt16) : decodeString (encodeString s) = s := by
  induction s with
  | nil => rfl
  | cons c s ih =>
    have unit : UInt16.ofNat (256 * (UInt8.ofNat (c.toNat >>> 8)).toNat +
        (UInt8.ofNat c.toNat).toNat) = c := by
      have := c.toNat_lt
      rw [← UInt16.toNat_inj, UInt16.toNat_ofNat', UInt8.toNat_ofNat', UInt8.toNat_ofNat',
        Nat.shiftRight_eq_div_pow]
      omega
    rw [encodeString_cons, decodeString, unit, ih]

theorem decodeStringWithLength_encode {s : List UInt16} (short : s.length < 2 ^ 32)
    (placed : Placed limit (encodeStringWithLength s ++ r)) :
    decodeStringWithLength limit (encodeStringWithLength s ++ r) = .ok (s, r) := by
  simp only [encodeStringWithLength, List.append_assoc] at placed ⊢
  have inside : ¬ beyond limit (encodeString s ++ r) ((s.length * 2 : Nat) : Int) :=
    placed.suffix.not_beyond (by simp [encodeString_length])
  have size : ((s.length : Int) * 2).toNat = (encodeString s).length := by
    rw [encodeString_length]; omega
  have accepted : ¬ ((s.length : Int) < 0 ∨ beyond limit (encodeString s ++ r) (s.length * 2)) := by
    push_cast at inside
    rintro (negative | far)
    · omega
    · exact inside far
  rw [decodeStringWithLength, decodeVarInt_encodeVarInt (by omega)]
  simp only [bind, Except.bind, if_neg accepted, readBytes_append size, decodeString_encodeString]

theorem idsFit_zero : IdsFit 0 0 0 := ⟨by decide, by decide, by decide⟩

theorem idsFit_database (small : databaseId < 2 ^ 63) : IdsFit databaseId 0 0 :=
  ⟨small, by decide, by decide⟩

theorem DatabaseFreeListKey.decode_encode (small : databaseId < 2 ^ 63)
    (placed : Placed limit (encode databaseId)) :
    decode limit (encode databaseId) = .ok ⟨databaseId⟩ := by
  rw [← List.append_nil (encode databaseId)] at placed ⊢
  simp only [encode, encodeEmpty_eq, List.append_assoc, List.cons_append,
    List.nil_append] at placed ⊢
  simp only [decode, decodeTyped_encode idsFit_zero placed, notAtLimit_encodeVarInt,
    decodeVarInt_encodeVarInt small, bind, Except.bind]

theorem DatabaseNameKey.decode_encode {origin name : List UInt16} (shortOrigin : origin.length < 2 ^ 32)
    (shortName : name.length < 2 ^ 32) (placed : Placed limit (encode origin name)) :
    decode limit (encode origin name) = .ok ⟨origin, name⟩ := by
  rw [← List.append_nil (encode origin name)] at placed ⊢
  simp only [encode, encodeEmpty_eq, List.append_assoc, List.cons_append,
    List.nil_append] at placed ⊢
  have more : notAtLimit (encodeStringWithLength origin ++ (encodeStringWithLength name ++ [])) =
      .ok () := by
    rw [encodeStringWithLength, List.append_assoc, notAtLimit_encodeVarInt]
  simp only [decode, decodeTyped_encode idsFit_zero placed, more,
    decodeStringWithLength_encode shortOrigin placed.suffix.tail,
    decodeStringWithLength_encode shortName placed.suffix.tail.suffix, bind, Except.bind]

theorem ObjectStoreMetaDataKey.decode_encode {metaDataType : UInt8} (small : databaseId < 2 ^ 63)
    (small' : objectStoreId < 2 ^ 63)
    (placed : Placed limit (encode databaseId objectStoreId metaDataType)) :
    decode limit (encode databaseId objectStoreId metaDataType) =
      .ok ⟨objectStoreId, metaDataType⟩ := by
  simp only [encode, List.append_assoc, List.cons_append, List.nil_append] at placed ⊢
  simp only [decode, decodeTyped_encode (idsFit_database small) placed, notAtLimit_encodeVarInt,
    decodeVarInt_encodeVarInt small', bind, Except.bind]
  rfl

theorem IndexMetaDataKey.decode_encode {metaDataType : UInt8} (small : databaseId < 2 ^ 63)
    (small' : objectStoreId < 2 ^ 63) (small'' : indexId < 2 ^ 63)
    (placed : Placed limit (encode databaseId objectStoreId indexId metaDataType)) :
    decode limit (encode databaseId objectStoreId indexId metaDataType) =
      .ok ⟨objectStoreId, indexId, metaDataType⟩ := by
  simp only [encode, List.append_assoc, List.cons_append, List.nil_append] at placed ⊢
  simp only [decode, decodeTyped_encode (idsFit_database small) placed, notAtLimit_encodeVarInt,
    decodeVarInt_encodeVarInt small', decodeVarInt_encodeVarInt small'', bind, Except.bind]
  rfl

theorem ObjectStoreFreeListKey.decode_encode (small : databaseId < 2 ^ 63)
    (small' : objectStoreId < 2 ^ 63) (placed : Placed limit (encode databaseId objectStoreId)) :
    decode limit (encode databaseId objectStoreId) = .ok ⟨objectStoreId⟩ := by
  rw [← List.append_nil (encode databaseId objectStoreId)] at placed ⊢
  simp only [encode, List.append_assoc, List.cons_append, List.nil_append] at placed ⊢
  simp only [decode, decodeTyped_encode (idsFit_database small) placed, notAtLimit_encodeVarInt,
    decodeVarInt_encodeVarInt small', bind, Except.bind]

theorem IndexFreeListKey.decode_encode (small : databaseId < 2 ^ 63)
    (small' : objectStoreId < 2 ^ 63) (small'' : indexId < 2 ^ 63)
    (placed : Placed limit (encode databaseId objectStoreId indexId)) :
    decode limit (encode databaseId objectStoreId indexId) = .ok ⟨objectStoreId, indexId⟩ := by
  rw [← List.append_nil (encode databaseId objectStoreId indexId)] at placed ⊢
  simp only [encode, List.append_assoc, List.cons_append, List.nil_append] at placed ⊢
  simp only [decode, decodeTyped_encode (idsFit_database small) placed, notAtLimit_encodeVarInt,
    decodeVarInt_encodeVarInt small', decodeVarInt_encodeVarInt small'', bind, Except.bind]

theorem ObjectStoreNamesKey.decode_encode {name : List UInt16} (small : databaseId < 2 ^ 63)
    (short : name.length < 2 ^ 32) (placed : Placed limit (encode databaseId name)) :
    decode limit (encode databaseId name) = .ok ⟨name⟩ := by
  rw [← List.append_nil (encode databaseId name)] at placed ⊢
  simp only [encode, List.append_assoc, List.cons_append, List.nil_append] at placed ⊢
  simp only [decode, decodeTyped_encode (idsFit_database small) placed,
    decodeStringWithLength_encode short placed.suffix.tail, bind, Except.bind]

theorem IndexNamesKey.decode_encode {name : List UInt16} (small : databaseId < 2 ^ 63)
    (small' : objectStoreId < 2 ^ 63) (short : name.length < 2 ^ 32)
    (placed : Placed limit (encode databaseId objectStoreId name)) :
    decode limit (encode databaseId objectStoreId name) = .ok ⟨objectStoreId, name⟩ := by
  rw [← List.append_nil (encode databaseId objectStoreId name)] at placed ⊢
  simp only [encode, List.append_assoc, List.cons_append, List.nil_append] at placed ⊢
  simp only [decode, decodeTyped_encode (idsFit_database small) placed, notAtLimit_encodeVarInt,
    decodeVarInt_encodeVarInt small',
    decodeStringWithLength_encode short placed.suffix.tail.suffix, bind, Except.bind]

end

end NetRider.Idb
