import Mathlib.Data.Nat.Bitwise
import Mathlib.Tactic.Ring
import NetRider.Idb.KeyCoding
import NetRider.Lib.Comparison

/-!
# Encoded keys compare as the keys do

Both comparators are measured against one yardstick: `tokens` spells a key as a sequence of
integers, self-delimiting, whose lexicographic order is the order of keys.
-/

namespace NetRider.Idb

open NetRider.Lib

/-! ## Keys the encoder accepts -/

/-- Valid keys whose numbers and dates satisfy `payload`. `String` and `Vector` count in
32 bits. -/
inductive IDBKey.Valid (payload : Double → Prop) : IDBKey → Prop
  | array (keys : List IDBKey) (count : keys.length < 2 ^ 32)
      (each : ∀ key ∈ keys, IDBKey.Valid payload key) : IDBKey.Valid payload (.array keys)
  | string (s : List UInt16) (count : s.length < 2 ^ 32) : IDBKey.Valid payload (.string s)
  | date (d : Double) (allowed : payload d) : IDBKey.Valid payload (.date d)
  | number (d : Double) (allowed : payload d) : IDBKey.Valid payload (.number d)

theorem allValid_eq_true {keys : List IDBKey} (each : ∀ key ∈ keys, key.isValid = true) :
    IDBKey.allValid keys = true := by
  induction keys with
  | nil => rfl
  | cons key keys ih =>
    have rest := ih fun k member => each k (List.mem_cons_of_mem key member)
    simp [IDBKey.allValid, each key List.mem_cons_self, rest]

theorem IDBKey.Valid.isValid_eq_true {payload : Double → Prop} {key : IDBKey}
    (valid : key.Valid payload) : key.isValid = true := by
  induction valid with
  | array keys count each ih => exact allValid_eq_true ih
  | string | date | number => rfl

/-! ## Integers of variable length -/

theorem int64_of_lt {n : Nat} (small : n < 2 ^ 63) : int64 n = n := by
  unfold int64
  rw [Int.bmod_def]
  omega

theorem or_shiftLeft {found shift group : Nat} (low : found < 2 ^ shift) :
    found ||| group <<< shift = found + group * 2 ^ shift := by
  rw [Nat.or_comm, ← Nat.shiftLeft_add_eq_or_of_lt low, Nat.shiftLeft_eq, Nat.add_comm]

theorem and_low (n : Nat) : n &&& 0x7f = n % 128 :=
  Nat.and_two_pow_sub_one_eq_mod n 7

theorem and_high_eq_zero_iff {n : Nat} (byte : n < 256) : n &&& 0x80 = 0 ↔ n < 128 := by
  rw [show (0x80 : Nat) = 2 ^ 7 from rfl, Nat.and_two_pow, Nat.testBit_eq_decide_div_mod_eq]
  by_cases low : n < 128 <;> simp [low] <;> omega

theorem group_toNat (n : Nat) : (UInt8.ofNat (n &&& 0x7f)).toNat = n % 128 := by
  rw [and_low, UInt8.toNat_ofNat']
  omega

theorem group_continued_toNat (n : Nat) :
    (UInt8.ofNat (n &&& 0x7f ||| 0x80)).toNat = n % 128 + 128 := by
  have or_eq : n % 128 ||| 0x80 = n % 128 + 1 * 2 ^ 7 :=
    @or_shiftLeft (n % 128) 7 1 (Nat.mod_lt n (by decide))
  rw [and_low, UInt8.toNat_ofNat', or_eq]
  omega

/-- One round of `decodeVarInt`: the low seven bits go in at `shift`. -/
theorem decodeVarIntLoop_cons {shift found : Nat} {c : UInt8} {p : List UInt8}
    (low : found < 2 ^ shift) (near : shift < 64)
    (small : c.toNat % 128 * 2 ^ shift < 2 ^ 64) :
    decodeVarIntLoop shift found (c :: p) =
      if c.toNat < 128 then .ok (int64 ↑(found + c.toNat % 128 * 2 ^ shift), p)
      else decodeVarIntLoop (shift + 7) (found + c.toNat % 128 * 2 ^ shift) p := by
  have collect : found ||| ((c.toNat % 128) <<< shift) % 2 ^ 64 =
      found + c.toNat % 128 * 2 ^ shift := by
    rw [Nat.mod_eq_of_lt (by rwa [Nat.shiftLeft_eq]), or_shiftLeft low]
  rw [decodeVarIntLoop, if_pos near]
  simp only [and_low, collect, ne_eq, and_high_eq_zero_iff c.toNat_lt, ite_not]

theorem decodeVarIntLoop_encode {rounds n shift found : Nat} (r : List UInt8)
    (enough : n < 2 ^ (7 * rounds)) (positive : 0 < rounds) (low : found < 2 ^ shift)
    (near : shift < 64) (small : found + n * 2 ^ shift < 2 ^ 63) :
    decodeVarIntLoop shift found (encodeVarIntLoop rounds n ++ r) =
      .ok (((found + n * 2 ^ shift : Nat) : Int), r) := by
  induction rounds generalizing n shift found with
  | zero => omega
  | succ rounds ih =>
    have power : 2 ^ (shift + 7) = 128 * 2 ^ shift := by rw [pow_add]; ring
    have step : found + n % 128 * 2 ^ shift + n / 128 * 2 ^ (shift + 7) = found + n * 2 ^ shift := by
      conv_rhs => rw [show n = n % 128 + n / 128 * 128 by omega]
      rw [power]; ring
    have bound : n % 128 * 2 ^ shift < 2 ^ 64 := by omega
    rw [encodeVarIntLoop, show n >>> 7 = n / 128 from Nat.shiftRight_eq_div_pow n 7]
    by_cases more : n / 128 = 0
    · rw [if_neg (not_not.mpr more), List.singleton_append,
        decodeVarIntLoop_cons low near (by rwa [group_toNat, Nat.mod_mod]),
        group_toNat, if_pos (Nat.mod_lt n (by decide)), Nat.mod_mod, int64_of_lt (by omega)]
      rw [show n % 128 = n by omega]
    · have group : (n % 128 + 128) % 128 = n % 128 := by omega
      have nearer : shift + 7 < 64 := by
        by_contra far
        have : 2 ^ 64 ≤ 2 ^ (shift + 7) := Nat.pow_le_pow_right (by decide) (by omega)
        have : 1 * 2 ^ (shift + 7) ≤ n / 128 * 2 ^ (shift + 7) :=
          Nat.mul_le_mul_right _ (by omega)
        omega
      have lower : n % 128 * 2 ^ shift ≤ 127 * 2 ^ shift := Nat.mul_le_mul_right _ (by omega)
      rw [if_pos more, List.cons_append,
        decodeVarIntLoop_cons low near (by rwa [group_continued_toNat, group]),
        group_continued_toNat, if_neg (by omega), group]
      have fewer : n / 128 < 2 ^ (7 * rounds) := by
        rw [Nat.div_lt_iff_lt_mul (by decide), show 128 = 2 ^ 7 from rfl, ← pow_add]
        exact enough
      have positive' : 0 < rounds := by
        rcases Nat.eq_zero_or_pos rounds with rfl | h
        · simp at fewer; omega
        · exact h
      rw [ih fewer positive' (by omega) nearer (by omega), step]

theorem decodeVarInt_encodeVarInt {n : Nat} (small : n < 2 ^ 63) (r : List UInt8) :
    decodeVarInt (encodeVarInt n ++ r) = .ok ((n : Int), r) := by
  have h := @decodeVarIntLoop_encode 10 n 0 0 r (by omega) (by decide) (by decide) (by decide)
    (by omega)
  simpa [decodeVarInt, encodeVarInt] using h

/-! ## Cursors -/

theorem Placed.suffix {limit : Nat} {p q : List UInt8} (placed : Placed limit (p ++ q)) :
    Placed limit q where
  fits := by have := placed.fits; simp at this; omega
  small := placed.small

theorem Placed.tail {limit : Nat} {c : UInt8} {p : List UInt8} (placed : Placed limit (c :: p)) :
    Placed limit p :=
  Placed.suffix (p := [c]) placed

theorem Placed.not_beyond {limit : Nat} {p : List UInt8} {size : Nat} (placed : Placed limit p)
    (inside : size ≤ p.length) : ¬ beyond limit p size := by
  have fits := placed.fits
  have small := placed.small
  unfold beyond
  rw [Int.emod_eq_of_lt (by omega) (by omega)]
  omega

theorem readBytes_append {bytes r : List UInt8} {size : Nat} (length : size = bytes.length) :
    readBytes (bytes ++ r) size = .ok (bytes, r) := by
  subst length
  simp [readBytes]

theorem both_ok {α β : Type} (a : α) (b : β) :
    both (.ok a : Decoded α) (.ok b : Decoded β) = .ok (a, b) := rfl

theorem decodeDouble_encodeDouble {limit : Nat} {d : Double} {r : List UInt8}
    (placed : Placed limit (encodeDouble d ++ r)) :
    decodeDouble limit (encodeDouble d ++ r) = .ok (d, r) := by
  have length : 8 = (encodeDouble d).length := by simp [encodeDouble]
  have inside : ¬ beyond limit (encodeDouble d ++ r) (8 : Nat) :=
    placed.not_beyond (by simp [encodeDouble])
  have value : UInt64.ofNat (ofLe (encodeDouble d)) = d.bits := by
    rw [encodeDouble, ofLe_toLe_of_lt d.bits.toNat_lt, UInt64.ofNat_toNat]
  rw [decodeDouble, if_neg (by exact_mod_cast inside), readBytes_append length]
  simp [bind, Except.bind, value]

/-! ## Strings -/

theorem encodeString_length (s : List UInt16) : (encodeString s).length = s.length * 2 := by
  induction s with
  | nil => rfl
  | cons c s ih => simp only [encodeString, List.flatMap_cons, List.length_append] at *; simp; omega

theorem encodeString_cons (c : UInt16) (s : List UInt16) :
    encodeString (c :: s) =
      UInt8.ofNat (c.toNat >>> 8) :: UInt8.ofNat c.toNat :: encodeString s := rfl

/-- Big-endian code units compare bytewise as they compare as numbers. -/
theorem memcmp_unit (c d : UInt16) (s t : List UInt8) :
    memcmp (UInt8.ofNat (c.toNat >>> 8) :: UInt8.ofNat c.toNat :: s)
        (UInt8.ofNat (d.toNat >>> 8) :: UInt8.ofNat d.toNat :: t) =
      if c = d then memcmp s t else if d < c then 1 else -1 := by
  have hc := c.toNat_lt
  have hd := d.toNat_lt
  have high (c : UInt16) : (UInt8.ofNat (c.toNat >>> 8)).toNat = c.toNat / 256 := by
    have := c.toNat_lt
    rw [UInt8.toNat_ofNat', Nat.shiftRight_eq_div_pow]
    omega
  simp only [memcmp, ← UInt8.toNat_inj, ← UInt16.toNat_inj, UInt8.lt_iff_toNat_lt,
    UInt16.lt_iff_toNat_lt, high, UInt8.toNat_ofNat']
  split_ifs <;> first | rfl | omega

theorem memcmp_encodeString (s t : List UInt16) :
    let lmin := min s.length t.length
    let x := memcmp ((encodeString s).take (lmin * 2)) ((encodeString t).take (lmin * 2))
    (if x ≠ 0 then x else if s.length = t.length then 0 else if s.length > t.length then 1 else -1) =
      codePointCompare s t := by
  induction s generalizing t with
  | nil => cases t <;> simp [memcmp, codePointCompare, encodeString]
  | cons c s ih =>
    cases t with
    | nil => simp [memcmp, codePointCompare, encodeString]
    | cons d t =>
      have size : min (c :: s).length (d :: t).length * 2 = min s.length t.length * 2 + 1 + 1 := by
        simp; omega
      simp only [size, encodeString_cons, List.take_succ_cons, memcmp_unit, codePointCompare, ← ih t]
      by_cases eq : c = d
      · simp [eq]
      · by_cases lt : d < c <;> simp [eq, lt]

theorem compareEncodedStrings_encode {limitP limitQ : Nat} {s t : List UInt16} {r r' : List UInt8}
    (hs : s.length < 2 ^ 32) (ht : t.length < 2 ^ 32)
    (placedP : Placed limitP (encodeStringWithLength s ++ r))
    (placedQ : Placed limitQ (encodeStringWithLength t ++ r')) :
    compareEncodedStringsWithLength limitP limitQ (encodeStringWithLength s ++ r)
        (encodeStringWithLength t ++ r') = .ok (codePointCompare s t, r, r') := by
  simp only [encodeStringWithLength, List.append_assoc] at placedP placedQ ⊢
  have insideP : ¬ beyond limitP (encodeString s ++ r) ((s.length * 2 : Nat) : Int) :=
    placedP.suffix.not_beyond (by simp [encodeString_length])
  have insideQ : ¬ beyond limitQ (encodeString t ++ r') ((t.length * 2 : Nat) : Int) :=
    placedQ.suffix.not_beyond (by simp [encodeString_length])
  rw [compareEncodedStringsWithLength, decodeVarInt_encodeVarInt (by omega),
    decodeVarInt_encodeVarInt (by omega), both_ok]
  push_cast at insideP insideQ
  have sizeP : ((s.length : Int) * 2).toNat = (encodeString s).length := by
    rw [encodeString_length]; omega
  have sizeQ : ((t.length : Int) * 2).toNat = (encodeString t).length := by
    rw [encodeString_length]; omega
  have lmin : (if (s.length : Int) < t.length then (s.length : Int) else t.length).toNat =
      min s.length t.length := by
    split_ifs <;> omega
  simp only [bind, Except.bind, readBytes_append sizeP, readBytes_append sizeQ, lmin, insideP,
    insideQ, or_self, if_false, Int.natCast_nonneg, not_lt.mpr]
  rw [← memcmp_encodeString s t]
  split_ifs <;> first | rfl | omega

/-! ## Tokens -/

/-- The order of types is opposite to that of their codes. -/
def typeToken (type : KeyType) : Int := 6 - type.code

/-- A terminator, 0, is below every token that can stand in its place. -/
def stringTokens : List UInt16 → List Int
  | [] => [0]
  | c :: s => (c.toNat + 1 : Int) :: stringTokens s

mutual

/-- A key as a sequence of integers that is no proper prefix of another key's. -/
def tokens : IDBKey → List Int
  | .invalid => [typeToken .invalidType]
  | .array keys => typeToken .arrayType :: elementTokens keys
  | .string s => typeToken .stringType :: stringTokens s
  | .date d => [typeToken .dateType, d.rank]
  | .number d => [typeToken .numberType, d.rank]

def elementTokens : List IDBKey → List Int
  | [] => [0]
  | key :: keys => tokens key ++ elementTokens keys

end

theorem tokens_head (key : IDBKey) : ∃ rest, tokens key = typeToken key.type :: rest := by
  cases key <;> exact ⟨_, rfl⟩

theorem typeToken_pos {type : KeyType} : 0 < typeToken type := by
  cases type <;> decide

theorem codePointCompare_decides (s t : List UInt16) :
    Decides (codePointCompare s t) (stringTokens s) (stringTokens t) := by
  induction s generalizing t with
  | nil =>
    cases t with
    | nil => exact .same _
    | cons d t =>
      rw [codePointCompare]
      exact .head_lt (by decide) (by omega)
  | cons c s ih =>
    cases t with
    | nil =>
      rw [codePointCompare]
      exact .head_gt (by decide) (by omega)
    | cons d t =>
      simp only [codePointCompare, UInt16.lt_iff_toNat_lt, ← UInt16.toNat_inj]
      split_ifs with eq lt
      · rw [UInt16.toNat_inj.mp eq]
        exact (ih t).cons _
      · exact .head_gt (by decide) (by omega)
      · exact .head_lt (by decide) (by omega)

theorem compareDoubles_decides {d e : Double} (hd : ¬ d.isNaN) (he : ¬ e.isNaN) :
    Decides (compareDoubles d e) [d.rank] [e.rank] := by
  simp only [compareDoubles, Double.lt, hd, he, not_false_iff, true_and]
  split_ifs with lt gt
  · exact .head_lt (by decide) lt
  · exact .head_gt (by decide) gt
  · rw [show d.rank = e.rank by omega]
    exact .same _

/-! ## `IDBKey::compare` -/

section

variable {payload : Double → Prop}

/-- Keys of different types differ at their first token. -/
theorem compare_types_decides {a b : IDBKey} (differ : a.type.code ≠ b.type.code) :
    Decides (a.compare b) (tokens a) (tokens b) := by
  obtain ⟨restA, hA⟩ := tokens_head a
  obtain ⟨restB, hB⟩ := tokens_head b
  rw [hA, hB]
  unfold IDBKey.compare typeToken
  rw [if_pos differ]
  split_ifs with gt
  · exact .head_lt (by decide) (by omega)
  · exact .head_gt (by decide) (by omega)

theorem compareArrays_decides {keys others : List IDBKey}
    (each : ∀ key ∈ keys, ∀ other, other.Valid payload →
      Decides (key.compare other) (tokens key) (tokens other))
    (valid : ∀ other ∈ others, other.Valid payload) :
    Decides (IDBKey.compareArrays keys others) (elementTokens keys) (elementTokens others) := by
  induction keys generalizing others with
  | nil =>
    cases others with
    | nil => exact .same _
    | cons other others =>
      obtain ⟨rest, head⟩ := tokens_head other
      simp only [IDBKey.compareArrays, elementTokens, head]
      exact .head_lt (by decide) typeToken_pos
  | cons key keys ih =>
    cases others with
    | nil =>
      obtain ⟨rest, head⟩ := tokens_head key
      simp only [IDBKey.compareArrays, elementTokens, head]
      exact .head_gt (by decide) typeToken_pos
    | cons other others =>
      have first := each key List.mem_cons_self other (valid other List.mem_cons_self)
      simp only [IDBKey.compareArrays, elementTokens]
      split_ifs with differ
      · exact first.append_right differ _ _
      · rw [first.eq_zero_iff.mp (not_not.mp differ)]
        exact (ih (fun k member => each k (List.mem_cons_of_mem _ member))
          fun k member => valid k (List.mem_cons_of_mem _ member)).append_left _

/-- The key comparator decides the tokens. -/
theorem compare_decides (regular : ∀ d, payload d → ¬ d.isNaN) {a b : IDBKey}
    (ha : a.Valid payload) (hb : b.Valid payload) :
    Decides (a.compare b) (tokens a) (tokens b) := by
  induction ha generalizing b with
  | array keys count each ih =>
    cases hb with
    | array others count' each' =>
      unfold IDBKey.compare
      exact (compareArrays_decides (fun k member _ valid => ih k member valid) each').cons _
    | string | date | number => exact compare_types_decides (by simp [IDBKey.type, KeyType.code])
  | string s count =>
    cases hb with
    | string t count' =>
      unfold IDBKey.compare
      exact (codePointCompare_decides t s).neg_swap.cons _
    | array | date | number => exact compare_types_decides (by simp [IDBKey.type, KeyType.code])
  | date d allowed =>
    cases hb with
    | date e allowed' =>
      unfold IDBKey.compare
      exact (compareDoubles_decides (regular d allowed) (regular e allowed')).cons _
    | array | string | number => exact compare_types_decides (by simp [IDBKey.type, KeyType.code])
  | number d allowed =>
    cases hb with
    | number e allowed' =>
      unfold IDBKey.compare
      exact (compareDoubles_decides (regular d allowed) (regular e allowed')).cons _
    | array | string | date => exact compare_types_decides (by simp [IDBKey.type, KeyType.code])

/-! ## `compareEncodedIDBKeys` -/

def typeByte : IDBKey → UInt8
  | .invalid => IDBKeyNullTypeByte
  | .array _ => IDBKeyArrayTypeByte
  | .string _ => IDBKeyStringTypeByte
  | .date _ => IDBKeyDateTypeByte
  | .number _ => IDBKeyNumberTypeByte

theorem encodeIDBKey_head (key : IDBKey) : ∃ rest, encodeIDBKey key = typeByte key :: rest := by
  cases key <;> exact ⟨_, rfl⟩

theorem keyTypeByteToKeyType_typeByte (key : IDBKey) :
    keyTypeByteToKeyType (typeByte key) = key.type := by
  cases key <;> rfl

theorem encodeVarInt_length_pos (n : Nat) : 0 < (encodeVarInt n).length := by
  unfold encodeVarInt encodeVarIntLoop
  split_ifs <;> simp

theorem encodeIDBKey_length_pos (key : IDBKey) : 0 < (encodeIDBKey key).length := by
  obtain ⟨rest, head⟩ := encodeIDBKey_head key
  simp [head]

/-- What a comparison of cursors finds: the order of the tokens, and if they are equal both
cursors behind the keys. -/
def Finds (outcome : Decoded Compared) (s t : List Int) (r r' : List UInt8) : Prop :=
  ∃ x p q, outcome = .ok (x, p, q) ∧ Decides x s t ∧ (x = 0 → p = r ∧ q = r')

variable {limitA limitB : Nat}

/-- Different type bytes settle the comparison. -/
theorem finds_of_types {typeA typeB : UInt8} {p q r r' : List UInt8} {s t : List Int} {fuel : Nat}
    (differ : (keyTypeByteToKeyType typeA).code ≠ (keyTypeByteToKeyType typeB).code) :
    Finds (compareEncodedCursors limitA limitB (fuel + 1) (typeA :: p) (typeB :: q))
      (typeToken (keyTypeByteToKeyType typeA) :: s) (typeToken (keyTypeByteToKeyType typeB) :: t)
      r r' := by
  have nonzero : compareTypes (keyTypeByteToKeyType typeA) (keyTypeByteToKeyType typeB) ≠ 0 := by
    unfold compareTypes
    omega
  have outcome : compareEncodedCursors limitA limitB (fuel + 1) (typeA :: p) (typeB :: q) =
      .ok (compareTypes (keyTypeByteToKeyType typeA) (keyTypeByteToKeyType typeB), p, q) := by
    rw [compareEncodedCursors]
    exact if_pos nonzero
  refine ⟨_, _, _, outcome, ?_, fun zero => absurd zero nonzero⟩
  unfold compareTypes typeToken
  rcases lt_or_gt_of_ne differ with lt | gt
  · exact .head_gt (by omega) (by omega)
  · exact .head_lt (by omega) (by omega)

theorem finds_of_key_types {a b : IDBKey} {r r' : List UInt8} {fuel : Nat} (fueled : 0 < fuel)
    (differ : a.type.code ≠ b.type.code) :
    Finds (compareEncodedCursors limitA limitB fuel (encodeIDBKey a ++ r) (encodeIDBKey b ++ r'))
      (tokens a) (tokens b) r r' := by
  obtain ⟨restA, hA⟩ := encodeIDBKey_head a
  obtain ⟨restB, hB⟩ := encodeIDBKey_head b
  obtain ⟨tailA, headA⟩ := tokens_head a
  obtain ⟨tailB, headB⟩ := tokens_head b
  obtain ⟨fuel, rfl⟩ : ∃ n, fuel = n + 1 := ⟨fuel - 1, by omega⟩
  rw [hA, hB, headA, headB, ← keyTypeByteToKeyType_typeByte a, ← keyTypeByteToKeyType_typeByte b]
  refine finds_of_types ?_
  rwa [keyTypeByteToKeyType_typeByte, keyTypeByteToKeyType_typeByte]

theorem Finds.cons {outcome : Decoded Compared} {s t : List Int} {r r' : List UInt8}
    (found : Finds outcome s t r r') (token : Int) :
    Finds outcome (token :: s) (token :: t) r r' := by
  obtain ⟨x, p, q, outcome, decides, rest⟩ := found
  exact ⟨x, p, q, outcome, decides.cons token, rest⟩

theorem finds_strings {s t : List UInt16} {r r' : List UInt8} {fuel : Nat} (fueled : 0 < fuel)
    (hs : s.length < 2 ^ 32) (ht : t.length < 2 ^ 32)
    (placedA : Placed limitA (encodeIDBKey (.string s) ++ r))
    (placedB : Placed limitB (encodeIDBKey (.string t) ++ r')) :
    Finds (compareEncodedCursors limitA limitB fuel (encodeIDBKey (.string s) ++ r)
      (encodeIDBKey (.string t) ++ r')) (tokens (.string s)) (tokens (.string t)) r r' := by
  obtain ⟨fuel, rfl⟩ : ∃ n, fuel = n + 1 := ⟨fuel - 1, by omega⟩
  have outcome := compareEncodedStrings_encode hs ht placedA.tail placedB.tail
  refine Finds.cons ⟨_, r, r', ?_, codePointCompare_decides s t, fun _ => ⟨rfl, rfl⟩⟩ _
  rw [← outcome]
  rfl

theorem finds_doubles {d e : Double} {r r' : List UInt8} {fuel : Nat} {type : UInt8}
    (fueled : 0 < fuel) (number : type = IDBKeyDateTypeByte ∨ type = IDBKeyNumberTypeByte)
    (hd : ¬ d.isNaN) (he : ¬ e.isNaN)
    (placedA : Placed limitA (type :: encodeDouble d ++ r))
    (placedB : Placed limitB (type :: encodeDouble e ++ r')) :
    Finds (compareEncodedCursors limitA limitB fuel (type :: encodeDouble d ++ r)
      (type :: encodeDouble e ++ r')) [d.rank] [e.rank] r r' := by
  obtain ⟨fuel, rfl⟩ : ∃ n, fuel = n + 1 := ⟨fuel - 1, by omega⟩
  have first := decodeDouble_encodeDouble placedA.tail
  have second := decodeDouble_encodeDouble placedB.tail
  refine ⟨_, r, r', ?_, compareDoubles_decides hd he, fun _ => ⟨rfl, rfl⟩⟩
  rcases number with rfl | rfl
  · rw [List.cons_append, List.cons_append, compareEncodedCursors]
    rw [first, second]
    rfl
  · rw [List.cons_append, List.cons_append, compareEncodedCursors]
    rw [first, second]
    rfl

/-- The result of comparing arrays whose common part compares as `x`. -/
def orLengths (x : Int) (lengthA lengthB : Nat) : Int :=
  if x ≠ 0 then x else if lengthA < lengthB then -1 else if lengthA > lengthB then 1 else 0

theorem compareElements_zero (fuel : Nat) (p q : List UInt8) :
    compareElements limitA limitB fuel 0 p q = .ok (0, p, q) := by
  cases fuel <;> rfl

theorem compareElements_finds {keys others : List IDBKey} {r r' : List UInt8} {fuel : Nat}
    (each : ∀ key ∈ keys, ∀ other, other.Valid payload → ∀ r r' fuel,
      (encodeIDBKey key).length ≤ fuel → Placed limitA (encodeIDBKey key ++ r) →
      Placed limitB (encodeIDBKey other ++ r') →
      Finds (compareEncodedCursors limitA limitB fuel (encodeIDBKey key ++ r)
        (encodeIDBKey other ++ r')) (tokens key) (tokens other) r r')
    (valid : ∀ other ∈ others, other.Valid payload)
    (fueled : (encodeElements keys).length < fuel)
    (placedA : Placed limitA (encodeElements keys ++ r))
    (placedB : Placed limitB (encodeElements others ++ r')) :
    ∃ x p q, compareElements limitA limitB fuel (min keys.length others.length)
        (encodeElements keys ++ r) (encodeElements others ++ r') = .ok (x, p, q) ∧
      Decides (orLengths x keys.length others.length) (elementTokens keys)
        (elementTokens others) ∧
      (orLengths x keys.length others.length = 0 → p = r ∧ q = r') := by
  induction keys generalizing others fuel with
  | nil =>
    refine ⟨0, encodeElements [] ++ r, encodeElements others ++ r',
      by simp [compareElements_zero], ?_⟩
    cases others with
    | nil => exact ⟨.same _, fun _ => ⟨rfl, rfl⟩⟩
    | cons other others =>
      obtain ⟨rest, head⟩ := tokens_head other
      simp only [orLengths, elementTokens, head]
      exact ⟨.head_lt (by simp) typeToken_pos, by simp⟩
  | cons key keys ih =>
    cases others with
    | nil =>
      obtain ⟨rest, head⟩ := tokens_head key
      refine ⟨0, encodeElements (key :: keys) ++ r, encodeElements [] ++ r',
        by simp [compareElements_zero], ?_⟩
      simp only [orLengths, elementTokens, head]
      exact ⟨.head_gt (by simp) typeToken_pos, by simp⟩
    | cons other others =>
      simp only [encodeElements, List.append_assoc, List.length_append] at placedA placedB fueled ⊢
      obtain ⟨fuel, rfl⟩ : ∃ n, fuel = n + 1 := ⟨fuel - 1, by omega⟩
      have positive := encodeIDBKey_length_pos key
      obtain ⟨x, p, q, outcome, decides, rest⟩ := each key List.mem_cons_self other
        (valid other List.mem_cons_self) _ _ fuel (by omega) placedA placedB
      have lengths (y : Int) : orLengths y (key :: keys).length (other :: others).length =
          orLengths y keys.length others.length := by
        simp [orLengths]
      have count : min (key :: keys).length (other :: others).length =
          min keys.length others.length + 1 := by simp
      rw [count, compareElements, outcome]
      simp only [bind, Except.bind, lengths, elementTokens]
      by_cases differ : x = 0
      · obtain ⟨rfl, rfl⟩ := rest differ
        obtain ⟨y, p, q, outcome, decides', rest⟩ := @ih others fuel
          (fun k member => each k (List.mem_cons_of_mem _ member))
          (fun k member => valid k (List.mem_cons_of_mem _ member)) (by omega)
          placedA.suffix placedB.suffix
        refine ⟨y, p, q, by simpa [differ] using outcome, ?_, rest⟩
        rw [decides.eq_zero_iff.mp differ]
        exact decides'.append_left _
      · have result : orLengths x keys.length others.length = x := if_pos differ
        refine ⟨x, p, q, by simp [differ], ?_, ?_⟩
        · rw [result]
          exact decides.append_right differ _ _
        · rw [result]
          exact fun zero => absurd zero differ

theorem finds_arrays {keys others : List IDBKey} {r r' : List UInt8} {fuel : Nat}
    (each : ∀ key ∈ keys, ∀ other, other.Valid payload → ∀ r r' fuel,
      (encodeIDBKey key).length ≤ fuel → Placed limitA (encodeIDBKey key ++ r) →
      Placed limitB (encodeIDBKey other ++ r') →
      Finds (compareEncodedCursors limitA limitB fuel (encodeIDBKey key ++ r)
        (encodeIDBKey other ++ r')) (tokens key) (tokens other) r r')
    (valid : ∀ other ∈ others, other.Valid payload)
    (countA : keys.length < 2 ^ 32) (countB : others.length < 2 ^ 32)
    (fueled : (encodeIDBKey (.array keys)).length ≤ fuel)
    (placedA : Placed limitA (encodeIDBKey (.array keys) ++ r))
    (placedB : Placed limitB (encodeIDBKey (.array others) ++ r')) :
    Finds (compareEncodedCursors limitA limitB fuel (encodeIDBKey (.array keys) ++ r)
      (encodeIDBKey (.array others) ++ r')) (tokens (.array keys)) (tokens (.array others)) r r' := by
  have positive := encodeVarInt_length_pos keys.length
  simp only [encodeIDBKey, List.cons_append, List.append_assoc, List.length_cons,
    List.length_append] at fueled placedA placedB ⊢
  obtain ⟨fuel, rfl⟩ : ∃ n, fuel = n + 1 := ⟨fuel - 1, by omega⟩
  obtain ⟨x, p, q, outcome, decides, rest⟩ := @compareElements_finds _ _ _ keys others r r' fuel
    each valid (by omega) placedA.tail.suffix placedB.tail.suffix
  refine Finds.cons ⟨orLengths x keys.length others.length, p, q, ?_, decides, rest⟩ _
  have count : (min (keys.length : Int) others.length).toNat = min keys.length others.length := by
    omega
  have same : compareTypes (keyTypeByteToKeyType IDBKeyArrayTypeByte)
      (keyTypeByteToKeyType IDBKeyArrayTypeByte) = 0 := rfl
  rw [compareEncodedCursors, if_neg (not_not.mpr same), if_neg (by decide), if_pos rfl,
    decodeVarInt_encodeVarInt (by omega), decodeVarInt_encodeVarInt (by omega), both_ok]
  simp only [bind, Except.bind, count, outcome]
  rw [if_neg (by omega)]
  unfold orLengths
  split_ifs <;> first | rfl | omega

/-- The byte comparator decides the tokens and stays in step. -/
theorem compareEncodedCursors_finds (regular : ∀ d, payload d → ¬ d.isNaN) {a b : IDBKey}
    (ha : a.Valid payload) (hb : b.Valid payload) {r r' : List UInt8} {fuel : Nat}
    (fueled : (encodeIDBKey a).length ≤ fuel) (placedA : Placed limitA (encodeIDBKey a ++ r))
    (placedB : Placed limitB (encodeIDBKey b ++ r')) :
    Finds (compareEncodedCursors limitA limitB fuel (encodeIDBKey a ++ r) (encodeIDBKey b ++ r'))
      (tokens a) (tokens b) r r' := by
  have positive := (encodeIDBKey_length_pos a).trans_le fueled
  induction ha generalizing b r r' fuel with
  | array keys count each ih =>
    cases hb with
    | array others count' each' =>
      refine finds_arrays ?_ each' count count' fueled placedA placedB
      intro key member other valid r r' fuel fueled placedA placedB
      exact ih key member valid fueled placedA placedB
        ((encodeIDBKey_length_pos key).trans_le fueled)
    | string | date | number =>
      exact finds_of_key_types positive (by simp [IDBKey.type, KeyType.code])
  | string s count =>
    cases hb with
    | string t count' => exact finds_strings positive count count' placedA placedB
    | array | date | number =>
      exact finds_of_key_types positive (by simp [IDBKey.type, KeyType.code])
  | date d allowed =>
    cases hb with
    | date e allowed' =>
      exact (finds_doubles positive (.inl rfl) (regular d allowed) (regular e allowed')
        placedA placedB).cons _
    | array | string | number =>
      exact finds_of_key_types positive (by simp [IDBKey.type, KeyType.code])
  | number d allowed =>
    cases hb with
    | number e allowed' =>
      exact (finds_doubles positive (.inr rfl) (regular d allowed) (regular e allowed')
        placedA placedB).cons _
    | array | string | date =>
      exact finds_of_key_types positive (by simp [IDBKey.type, KeyType.code])

end

/-! ## The order embedding -/

/-- **Encoded keys compare as the keys do**: for valid keys without NaN the byte comparator
succeeds, with the sign of `IDBKey::compare`. -/
theorem encoded_keys_in_key_order {a b : IDBKey} (ha : a.Valid fun d => ¬ d.isNaN)
    (hb : b.Valid fun d => ¬ d.isNaN) {limitA limitB : Nat}
    (placedA : Placed limitA (encodeIDBKey a)) (placedB : Placed limitB (encodeIDBKey b)) :
    ∃ x, compareEncodedIDBKeys limitA limitB (encodeIDBKey a) (encodeIDBKey b) = .ok x ∧
      x.sign = (a.compare b).sign := by
  have regular : ∀ d : Double, ¬ d.isNaN → ¬ d.isNaN := fun _ h => h
  obtain ⟨x, p, q, outcome, decides, -⟩ := @compareEncodedCursors_finds _ limitA limitB regular
    a b ha hb [] [] ((encodeIDBKey a).length + 1) (by omega) (by simpa using placedA)
    (by simpa using placedB)
  simp only [List.append_nil] at outcome
  refine ⟨x, ?_, decides.sign_unique (compare_decides regular ha hb)⟩
  simp [compareEncodedIDBKeys, compareEncodedIDBKeysAt, outcome, bind, Except.bind]

/-- `[[\uD800], 1]` is below `[[\uD800, "a"], -0]`, both as keys and encoded. -/
theorem encoded_keys_in_key_order_nested :
    let a := IDBKey.array [.array [.string [0xD800]], .number ⟨0x3FF0000000000000⟩]
    let b := IDBKey.array [.array [.string [0xD800], .string [0x61]], .number .negativeZero]
    a.compare b = -1 ∧
      ∃ x, compareEncodedIDBKeys 4096 8192 (encodeIDBKey a) (encodeIDBKey b) = .ok x ∧
        x.sign = (a.compare b).sign := by
  intro a b
  have text : (IDBKey.string [0xD800]).Valid fun d => ¬ d.isNaN := .string _ (by decide)
  have letter : (IDBKey.string [0x61]).Valid fun d => ¬ d.isNaN := .string _ (by decide)
  have one : (IDBKey.number ⟨0x3FF0000000000000⟩).Valid fun d => ¬ d.isNaN := .number _ (by decide)
  have zero : (IDBKey.number .negativeZero).Valid fun d => ¬ d.isNaN := .number _ (by decide)
  have short : (IDBKey.array [.string [0xD800]]).Valid fun d => ¬ d.isNaN :=
    .array _ (by decide) (by simp [text])
  have long : (IDBKey.array [.string [0xD800], .string [0x61]]).Valid fun d => ¬ d.isNaN :=
    .array _ (by decide) (by simp [text, letter])
  have ha : a.Valid fun d => ¬ d.isNaN := .array _ (by decide) (by simp [short, one])
  have hb : b.Valid fun d => ¬ d.isNaN := .array _ (by decide) (by simp [long, zero])
  exact ⟨by decide, encoded_keys_in_key_order ha hb ⟨by decide, by decide⟩ ⟨by decide, by decide⟩⟩

end NetRider.Idb
