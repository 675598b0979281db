import Mathlib.Data.List.Basic
import NetRider.Idb.LevelDBKeyDecoding

/-!
# Keys are decoded as they were encoded

`decodeIDBKey` builds the key that stands at a cursor, `extractEncodedIDBKey` only walks over it
and copies its bytes. Both stop where `encodeIDBKey` stopped writing.
-/

namespace NetRider.Idb

/-! ## The two walks -/

section

variable (limit : Nat)

mutual

/-- Every call reads a byte, so a fuel above the number of bytes left is never used up. -/
def decodeIDBKeyCursor : Nat → List UInt8 → Decoded (IDBKey × List UInt8)
  | _, [] => .error .notOk
  | 0, _ :: _ => .error .undefined
  | fuel + 1, type :: p =>
    if type = IDBKeyNullTypeByte then .ok (.invalid, p)
    else if type = IDBKeyArrayTypeByte then do
      let (length, p) ← decodeVarInt p
      if length < 0 then .error .notOk
      else
        let (array, p) ← decodeElements fuel length.toNat p
        .ok (.array array, p)
    else if type = IDBKeyStringTypeByte then do
      let (s, p) ← decodeStringWithLength limit p
      .ok (.string s, p)
    else if type = IDBKeyDateTypeByte then do
      let (d, p) ← decodeDouble limit p
      .ok (.date d, p)
    else if type = IDBKeyNumberTypeByte then do
      let (d, p) ← decodeDouble limit p
      .ok (.number d, p)
    else .error .notOk

def decodeElements : Nat → Nat → List UInt8 → Decoded (List IDBKey × List UInt8)
  | _, 0, p => .ok ([], p)
  | 0, _ + 1, _ => .error .undefined
  | fuel + 1, n + 1, p => do
    let (key, p) ← decodeIDBKeyCursor fuel p
    let (array, p) ← decodeElements fuel n p
    .ok (key :: array, p)

end

def decodeIDBKey (p : List UInt8) : Decoded (IDBKey × List UInt8) :=
  decodeIDBKeyCursor limit (p.length + 1) p

mutual

/-- The cursor behind a key. A type byte that is none of the known ones is skipped. -/
def extractCursor : Nat → List UInt8 → Decoded (List UInt8)
  | _, [] => .error .notOk
  | 0, _ :: _ => .error .undefined
  | fuel + 1, type :: p =>
    if type = IDBKeyNullTypeByte ∨ type = IDBKeyMinKeyTypeByte then .ok p
    else if type = IDBKeyArrayTypeByte then do
      let (length, p) ← decodeVarInt p
      if length < 0 then .error .notOk else extractElements fuel length.toNat p
    else if type = IDBKeyStringTypeByte then do
      let (length, p) ← decodeVarInt p
      if length < 0 ∨ beyond limit p (length * 2) then .error .notOk
      else
        let (_, p) ← readBytes p (length * 2).toNat
        .ok p
    else if type = IDBKeyDateTypeByte ∨ type = IDBKeyNumberTypeByte then
      if beyond limit p 8 then .error .notOk
      else do
        let (_, p) ← readBytes p 8
        .ok p
    else .ok p

def extractElements : Nat → Nat → List UInt8 → Decoded (List UInt8)
  | _, 0, p => .ok p
  | 0, _ + 1, _ => .error .undefined
  | fuel + 1, n + 1, p => do
    let p ← extractCursor fuel p
    extractElements fuel n p

end

/-- The bytes of the key, and the cursor behind them. -/
def extractEncodedIDBKey (start : List UInt8) : Decoded (List UInt8 × List UInt8) := do
  let p ← extractCursor limit (start.length + 1) start
  .ok (start.take (start.length - p.length), p)

end

/-! ## Decoding -/

section

variable {limit : Nat} {payload : Double → Prop} {r : List UInt8}

theorem decodeElements_encode {keys : List IDBKey} {fuel : Nat}
    (each : ∀ key ∈ keys, ∀ r fuel, (encodeIDBKey key).length ≤ fuel →
      Placed limit (encodeIDBKey key ++ r) →
      decodeIDBKeyCursor limit fuel (encodeIDBKey key ++ r) = .ok (key, r))
    (fueled : (encodeElements keys).length < fuel)
    (placed : Placed limit (encodeElements keys ++ r)) :
    decodeElements limit fuel keys.length (encodeElements keys ++ r) = .ok (keys, r) := by
  induction keys generalizing fuel with
  | nil => cases fuel <;> rfl
  | cons key keys ih =>
    simp only [encodeElements, List.append_assoc, List.length_append] at fueled placed ⊢
    obtain ⟨fuel, rfl⟩ : ∃ n, fuel = n + 1 := ⟨fuel - 1, by omega⟩
    have positive := encodeIDBKey_length_pos key
    have first := each key List.mem_cons_self _ fuel (by omega) placed
    have rest := @ih fuel (fun k member => each k (List.mem_cons_of_mem _ member)) (by omega)
      placed.suffix
    rw [List.length_cons, decodeElements]
    simp only [first, rest, bind, Except.bind]

theorem decodeIDBKeyCursor_encode {key : IDBKey} (valid : key.Valid payload) {fuel : Nat}
    (fueled : (encodeIDBKey key).length ≤ fuel) (placed : Placed limit (encodeIDBKey key ++ r)) :
    decodeIDBKeyCursor limit fuel (encodeIDBKey key ++ r) = .ok (key, r) := by
  have positive := encodeIDBKey_length_pos key
  obtain ⟨fuel, rfl⟩ : ∃ n, fuel = n + 1 := ⟨fuel - 1, by omega⟩
  induction valid generalizing r fuel with
  | array keys count each ih =>
    have nonempty := encodeVarInt_length_pos keys.length
    simp only [encodeIDBKey, List.cons_append, List.append_assoc, List.length_cons,
      List.length_append] at fueled placed ⊢
    have elements := @decodeElements_encode limit r keys fuel
      (fun key member r fuel fueled placed => by
        have positive := encodeIDBKey_length_pos key
        obtain ⟨fuel, rfl⟩ : ∃ n, fuel = n + 1 := ⟨fuel - 1, by omega⟩
        exact ih key member placed positive fuel fueled)
      (by omega) placed.tail.suffix
    rw [decodeIDBKeyCursor, if_neg (by decide), if_pos rfl, decodeVarInt_encodeVarInt (by omega)]
    simp only [bind, Except.bind, Int.toNat_natCast, elements]
    rw [if_neg (by omega)]
  | string s count =>
    simp only [encodeIDBKey, List.cons_append] at placed ⊢
    rw [decodeIDBKeyCursor, if_neg (by decide), if_neg (by decide), if_pos rfl,
      decodeStringWithLength_encode count placed.tail]
    rfl
  | date d =>
    simp only [encodeIDBKey, List.cons_append] at placed ⊢
    rw [decodeIDBKeyCursor, if_neg (by decide), if_neg (by decide), if_neg (by decide), if_pos rfl,
      decodeDouble_encodeDouble placed.tail]
    rfl
  | number d =>
    simp only [encodeIDBKey, List.cons_append] at placed ⊢
    rw [decodeIDBKeyCursor, if_neg (by decide), if_neg (by decide), if_neg (by decide),
      if_neg (by decide), if_pos rfl, decodeDouble_encodeDouble placed.tail]
    rfl

/-! ## Extracting -/

theorem extractElements_encode {keys : List IDBKey} {fuel : Nat}
    (each : ∀ key ∈ keys, ∀ r fuel, (encodeIDBKey key).length ≤ fuel →
      Placed limit (encodeIDBKey key ++ r) →
      extractCursor limit fuel (encodeIDBKey key ++ r) = .ok r)
    (fueled : (encodeElements keys).length < fuel)
    (placed : Placed limit (encodeElements keys ++ r)) :
    extractElements limit fuel keys.length (encodeElements keys ++ r) = .ok r := by
  induction keys generalizing fuel with
  | nil => cases fuel <;> rfl
  | cons key keys ih =>
    simp only [encodeElements, List.append_assoc, List.length_append] at fueled placed ⊢
    obtain ⟨fuel, rfl⟩ : ∃ n, fuel = n + 1 := ⟨fuel - 1, by omega⟩
    have positive := encodeIDBKey_length_pos key
    have first := each key List.mem_cons_self _ fuel (by omega) placed
    have rest := @ih fuel (fun k member => each k (List.mem_cons_of_mem _ member)) (by omega)
      placed.suffix
    rw [List.length_cons, extractElements]
    simp only [first, rest, bind, Except.bind]

theorem extractCursor_double {fuel : Nat} {type : UInt8} {d : Double}
    (number : type = IDBKeyDateTypeByte ∨ type = IDBKeyNumberTypeByte)
    (placed : Placed limit (encodeDouble d ++ r)) :
    extractCursor limit (fuel + 1) (type :: (encodeDouble d ++ r)) = .ok r := by
  have size : 8 = (encodeDouble d).length := by simp [encodeDouble]
  have inside : ¬ beyond limit (encodeDouble d ++ r) (8 : Nat) :=
    placed.not_beyond (by simp [encodeDouble])
  have known : ¬ (type = IDBKeyNullTypeByte ∨ type = IDBKeyMinKeyTypeByte) ∧
      type ≠ IDBKeyArrayTypeByte ∧ type ≠ IDBKeyStringTypeByte := by
    rcases number with rfl | rfl <;> decide
  rw [extractCursor, if_neg known.1, if_neg known.2.1, if_neg known.2.2, if_pos number,
    if_neg (by exact_mod_cast inside), readBytes_append size]
  rfl

theorem extractCursor_encode {key : IDBKey} (valid : key.Valid payload) {fuel : Nat}
    (fueled : (encodeIDBKey key).length ≤ fuel) (placed : Placed limit (encodeIDBKey key ++ r)) :
    extractCursor limit fuel (encodeIDBKey key ++ r) = .ok r := by
  have positive := encodeIDBKey_length_pos key
  obtain ⟨fuel, rfl⟩ : ∃ n, fuel = n + 1 := ⟨fuel - 1, by omega⟩
  induction valid generalizing r fuel with
  | array keys count each ih =>
    have nonempty := encodeVarInt_length_pos keys.length
    simp only [encodeIDBKey, List.cons_append, List.append_assoc, List.length_cons,
      List.length_append] at fueled placed ⊢
    have elements := @extractElements_encode limit r keys fuel
      (fun key member r fuel fueled placed => by
        have positive := encodeIDBKey_length_pos key
        obtain ⟨fuel, rfl⟩ : ∃ n, fuel = n + 1 := ⟨fuel - 1, by omega⟩
        exact ih key member placed positive fuel fueled)
      (by omega) placed.tail.suffix
    rw [extractCursor, if_neg (by decide), if_pos rfl, decodeVarInt_encodeVarInt (by omega)]
    simp only [bind, Except.bind, Int.toNat_natCast, elements]
    rw [if_neg (by omega)]
  | string s count =>
    simp only [encodeIDBKey, encodeStringWithLength, List.cons_append, List.append_assoc] at placed ⊢
    have size : ((s.length : Int) * 2).toNat = (encodeString s).length := by
      rw [encodeString_length]; omega
    have inside : ¬ beyond limit (encodeString s ++ r) ((s.length * 2 : Nat) : Int) :=
      placed.tail.suffix.not_beyond (by simp [encodeString_length])
    have accepted : ¬ ((s.length : Int) < 0 ∨
        beyond limit (encodeString s ++ r) (s.length * 2)) := by
      push_cast at inside
      exact not_or.mpr ⟨by omega, inside⟩
    rw [extractCursor, if_neg (by decide), if_neg (by decide), if_pos rfl,
      decodeVarInt_encodeVarInt (by omega)]
    simp only [bind, Except.bind, if_neg accepted, readBytes_append size]
  | date d =>
    simp only [encodeIDBKey, List.cons_append] at placed ⊢
    exact extractCursor_double (.inl rfl) placed.tail
  | number d =>
    simp only [encodeIDBKey, List.cons_append] at placed ⊢
    exact extractCursor_double (.inr rfl) placed.tail

end

/-! ## A prefix code -/

/-- **The encoding of keys is a prefix code**: whatever follows an encoded key, it is decoded to
the key, its own bytes are extracted, and both walks end behind it. -/
theorem encodeIDBKey_prefix_code {key : IDBKey} (valid : key.Valid fun _ => True) {limit : Nat}
    {r : List UInt8} (placed : Placed limit (encodeIDBKey key ++ r)) :
    decodeIDBKey limit (encodeIDBKey key ++ r) = .ok (key, r) ∧
      extractEncodedIDBKey limit (encodeIDBKey key ++ r) = .ok (encodeIDBKey key, r) := by
  have fueled : (encodeIDBKey key).length ≤ (encodeIDBKey key ++ r).length + 1 := by
    simp only [List.length_append]
    omega
  refine ⟨decodeIDBKeyCursor_encode valid fueled placed, ?_⟩
  rw [extractEncodedIDBKey, extractCursor_encode valid fueled placed]
  simp [bind, Except.bind]

/-- `[["a", NaN], -0]` with another key behind it. -/
theorem encodeIDBKey_prefix_code_nested :
    let key := IDBKey.array [.array [.string [0x61], .date ⟨0x7FF8000000000000⟩],
      .number .negativeZero]
    decodeIDBKey 4096 (encodeIDBKey key ++ encodeIDBKey (.string [])) =
        .ok (key, encodeIDBKey (.string [])) ∧
      extractEncodedIDBKey 4096 (encodeIDBKey key ++ encodeIDBKey (.string [])) =
        .ok (encodeIDBKey key, encodeIDBKey (.string [])) := by
  intro key
  have text : (IDBKey.string [0x61]).Valid fun _ => True := .string _ (by decide)
  have date : (IDBKey.date ⟨0x7FF8000000000000⟩).Valid fun _ => True := .date _ trivial
  have number : (IDBKey.number .negativeZero).Valid fun _ => True := .number _ trivial
  have inner : (IDBKey.array [.string [0x61], .date ⟨0x7FF8000000000000⟩]).Valid fun _ => True :=
    .array _ (by decide) (by simp [text, date])
  have valid : key.Valid fun _ => True := .array _ (by decide) (by simp [inner, number])
  exact encodeIDBKey_prefix_code valid ⟨by decide, by decide⟩

end NetRider.Idb
