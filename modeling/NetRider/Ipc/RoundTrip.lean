import Mathlib
import NetRider.Ipc.ArgumentCoders

/-!
# Arguments survive coding

`Codes enc dec v`: from any encoder, what `enc` appends is what `dec` reads as `v`, whatever
was encoded before and comes after. Coders are composed as the encoder composes them
(`Codes.andThen`), so every type follows from the fixed-length data it is made of.
-/

namespace NetRider.Ipc

open NetRider.Lib ArgumentDecoder

/-! ## Two ways to round -/

theorem and_high_mask {x k : Nat} (fits : x < 2 ^ 64) (small : k ≤ 64) :
    x &&& (2 ^ 64 - 2 ^ k) = x / 2 ^ k * 2 ^ k := by
  have mask : 2 ^ 64 - 2 ^ k = (2 ^ (64 - k) - 1) * 2 ^ k := by
    rw [Nat.sub_mul, ← Nat.pow_add, Nat.one_mul, Nat.sub_add_cancel small]
  apply Nat.eq_of_testBit_eq
  intro i
  rw [mask, Nat.testBit_and, Nat.testBit_mul_two_pow, Nat.testBit_mul_two_pow,
    Nat.testBit_two_pow_sub_one, Nat.testBit_div_two_pow]
  by_cases low : k ≤ i
  · by_cases high : i < 64
    · simp [low, show i - k < 64 - k by omega, Nat.sub_add_cancel low]
    · have zero : x.testBit i = false :=
        Nat.testBit_lt_two_pow (fits.trans_le (Nat.pow_le_pow_right (by decide) (by omega)))
      simp [zero, low, Nat.sub_add_cancel low]
  · simp [low]

/-- The alignments of arithmetic types. -/
def IsAlignment (a : Nat) : Prop := ∃ k ≤ 3, a = 2 ^ k

theorem IsAlignment.dvd_eight {a : Nat} (h : IsAlignment a) : a ∣ 8 := by
  obtain ⟨k, small, rfl⟩ := h
  exact Nat.pow_dvd_pow 2 small

theorem IsAlignment.pos {a : Nat} (h : IsAlignment a) : 0 < a := by
  obtain ⟨k, -, rfl⟩ := h
  exact Nat.two_pow_pos k

theorem Arithmetic.size_isAlignment (type : Arithmetic) : IsAlignment type.size := by
  cases type with
  | bool => exact ⟨0, by decide, rfl⟩
  | float => exact ⟨2, by decide, rfl⟩
  | double => exact ⟨3, by decide, rfl⟩
  | integer type =>
    cases type with
    | uint8 => exact ⟨0, by decide, rfl⟩
    | uint16 => exact ⟨1, by decide, rfl⟩
    | uint32 => exact ⟨2, by decide, rfl⟩
    | uint64 => exact ⟨3, by decide, rfl⟩
    | int32 => exact ⟨2, by decide, rfl⟩
    | int64 => exact ⟨3, by decide, rfl⟩

/-- Rounding the pointer is rounding the offset, in a block at a multiple of 8. -/
theorem roundUpPointer_eq {base n a : Nat} (alignment : IsAlignment a) (aligned : 8 ∣ base)
    (fits : base + n + 8 ≤ 2 ^ 64) : roundUpPointer (base + n) a = base + roundUpToAlignment n a := by
  obtain ⟨c, rfl⟩ := alignment.dvd_eight.trans aligned
  have le := Nat.le_of_dvd (by decide) alignment.dvd_eight
  have pos := alignment.pos
  have mask : 2 ^ 64 - 1 - (a - 1) = 2 ^ 64 - a := by omega
  have shifted : a * c + n + (a - 1) = n + a - 1 + a * c := by omega
  obtain ⟨k, small, rfl⟩ := alignment
  rw [roundUpPointer, mask, Nat.mod_eq_of_lt (by omega), and_high_mask (by omega) (by omega),
    shifted, Nat.add_mul_div_left _ _ pos, roundUpToAlignment, Nat.add_mul, Nat.mul_comm c,
    Nat.add_comm]

theorem le_roundUpToAlignment {n a : Nat} (pos : 0 < a) : n ≤ roundUpToAlignment n a := by
  have := Nat.div_add_mod (n + a - 1) a
  have := Nat.mod_lt (n + a - 1) pos
  have comm := Nat.mul_comm a ((n + a - 1) / a)
  unfold roundUpToAlignment
  omega

/-! ## Coding one value -/

def ArgumentDecoder.moveTo (d : ArgumentDecoder) (n : Nat) : ArgumentDecoder :=
  { d with bufferPos := d.base + n }

structure Codes {α : Type} (enc : ArgumentEncoder → ArgumentEncoder) (dec : Decode α) (v : α) :
    Prop where
  appends : ∀ e, ∃ segment, (enc e).buffer = e.buffer ++ segment
  reads : ∀ e (d : ArgumentDecoder) rest, d.data = (enc e).buffer ++ rest →
    dec (d.moveTo e.buffer.length) = (.ok v, d.moveTo (enc e).buffer.length)

/-- A check that holds wherever `enc` has written. -/
def Passes (enc : ArgumentEncoder → ArgumentEncoder) (check : Decode Unit) : Prop :=
  ∀ e (d : ArgumentDecoder) rest, d.data = (enc e).buffer ++ rest →
    check (d.moveTo e.buffer.length) = (.ok (), d.moveTo e.buffer.length)

theorem bind_ok {α β : Type} {x : Decode α} {f : α → Decode β} {d d' : ArgumentDecoder} {v : α}
    (h : x d = (.ok v, d')) : (x >>= f) d = f v d' := by
  simp only [bind, ExceptT.bind, ExceptT.mk, StateT.bind]
  rw [h]
  rfl

theorem Codes.done {α : Type} (v : α) : Codes id (pure v) v :=
  ⟨fun _ => ⟨[], by simp⟩, fun _ _ _ _ => rfl⟩

theorem Codes.andThen {α β : Type} {enc enc' : ArgumentEncoder → ArgumentEncoder} {dec : Decode α}
    {f : α → Decode β} {v : α} {w : β} (first : Codes enc dec v) (second : Codes enc' (f v) w) :
    Codes (fun e => enc' (enc e)) (dec >>= f) w where
  appends e := by
    obtain ⟨s, hs⟩ := first.appends e
    obtain ⟨s', hs'⟩ := second.appends (enc e)
    exact ⟨s ++ s', by rw [hs', hs, List.append_assoc]⟩
  reads e d rest data := by
    obtain ⟨s, hs⟩ := second.appends (enc e)
    have whole : d.data = (enc e).buffer ++ (s ++ rest) := by
      rw [data, hs, List.append_assoc]
    rw [bind_ok (first.reads e d _ whole), second.reads (enc e) d rest data]

theorem Codes.map {α β : Type} {enc : ArgumentEncoder → ArgumentEncoder} {dec : Decode α} {v : α}
    (g : α → β) (h : Codes enc dec v) : Codes enc (dec >>= fun v => pure (g v)) (g v) := by
  have mapped := Codes.andThen (f := fun v => pure (g v)) h (Codes.done (g v))
  exact mapped

theorem Codes.check {α : Type} {enc : ArgumentEncoder → ArgumentEncoder} {dec : Decode α} {v : α}
    {check : Decode Unit} (passes : Passes enc check) (h : Codes enc dec v) :
    Codes enc (check >>= fun _ => dec) v where
  appends := h.appends
  reads e d rest data := by rw [bind_ok (passes e d rest data), h.reads e d rest data]

/-! ## Fixed-length data -/

variable (fresh : Nat → Nat → UInt8)

theorem encodeFixedLengthData_buffer (e : ArgumentEncoder) (data : List UInt8) {a : Nat}
    (pos : 0 < a) :
    ∃ pad, (e.encodeFixedLengthData fresh data a).buffer = e.buffer ++ pad ++ data ∧
      (e.buffer ++ pad).length = roundUpToAlignment e.buffer.length a := by
  refine ⟨_, (List.append_assoc _ _ _).symm, ?_⟩
  have := le_roundUpToAlignment (n := e.buffer.length) pos
  simp only [List.length_append, List.length_map, List.length_range]
  omega

theorem largeEnough {d : ArgumentDecoder} {n a size : Nat} (alignment : IsAlignment a)
    (enough : roundUpToAlignment n a + size ≤ d.data.length) :
    roundUpPointer (d.base + n) a = d.base + roundUpToAlignment n a ∧
      alignedBufferIsLargeEnoughToContain (d.base + roundUpToAlignment n a) d.bufferEnd size =
        true := by
  have within := d.within
  have le := le_roundUpToAlignment (n := n) alignment.pos
  refine ⟨roundUpPointer_eq alignment d.aligned (by omega), ?_⟩
  rw [alignedBufferIsLargeEnoughToContain, bufferEnd, Bool.and_eq_true]
  exact ⟨decide_eq_true (by omega), decide_eq_true (by omega)⟩

theorem alignBufferPosition_ok {d : ArgumentDecoder} {n a size : Nat} (alignment : IsAlignment a)
    (enough : roundUpToAlignment n a + size ≤ d.data.length) :
    alignBufferPosition a size (d.moveTo n) = (.ok (), d.moveTo (roundUpToAlignment n a)) := by
  obtain ⟨rounded, large⟩ := largeEnough alignment enough
  rw [← rounded] at large
  have run : alignBufferPosition a size (d.moveTo n) =
      (.ok (), { d.moveTo n with bufferPos := roundUpPointer (d.base + n) a }) := if_pos large
  rw [run]
  simp only [moveTo, rounded]

theorem takeBytes_ok {d : ArgumentDecoder} {before bytes rest : List UInt8}
    (data : d.data = before ++ bytes ++ rest) :
    takeBytes bytes.length (d.moveTo before.length) =
      (.ok bytes, d.moveTo (before ++ bytes).length) := by
  simp [takeBytes, moveTo, data, Nat.add_assoc]

theorem Codes.fixedLength (data : List UInt8) {a : Nat} (alignment : IsAlignment a) :
    Codes (fun e => e.encodeFixedLengthData fresh data a) (decodeFixedLengthData data.length a)
      data where
  appends e := by
    obtain ⟨pad, buffer, -⟩ := encodeFixedLengthData_buffer fresh e data alignment.pos
    exact ⟨pad ++ data, by rw [buffer, List.append_assoc]⟩
  reads e d rest written := by
    obtain ⟨pad, buffer, padded⟩ := encodeFixedLengthData_buffer fresh e data alignment.pos
    rw [buffer] at written ⊢
    have enough : roundUpToAlignment e.buffer.length a + data.length ≤ d.data.length := by
      rw [written, ← padded]
      simp only [List.length_append]
      omega
    rw [decodeFixedLengthData, bind_ok (alignBufferPosition_ok alignment enough), ← padded,
      takeBytes_ok written]

theorem Passes.largeEnough {data : List UInt8} {count a : Nat} (alignment : IsAlignment a)
    (size : data.length = count * a) :
    Passes (fun e => e.encodeFixedLengthData fresh data a) (checkBufferIsLargeEnough a count) := by
  intro e d rest written
  obtain ⟨pad, buffer, padded⟩ := encodeFixedLengthData_buffer fresh e data alignment.pos
  rw [buffer] at written
  have within := d.within
  have enough : roundUpToAlignment e.buffer.length a + count * a ≤ d.data.length := by
    rw [written, ← padded, ← size]
    simp only [List.length_append]
    omega
  obtain ⟨rounded, large⟩ := Ipc.largeEnough alignment enough
  have few : count ≤ (2 ^ 64 - 1) / a := (Nat.le_div_iff_mul_le alignment.pos).mpr (by omega)
  rw [← rounded] at large
  exact if_pos ⟨few, large⟩

/-! ## Arithmetic values -/

theorem Arithmetic.bound_le (type : Arithmetic) : type.bound ≤ 256 ^ type.size := by
  cases type with
  | bool => decide
  | integer type => exact le_rfl
  | float => exact le_rfl
  | double => exact le_rfl

theorem readValue_toLe {type : Arithmetic} (v : Fin type.bound) :
    readValue type (toLe type.size v.val) = v := by
  have value : ofLe (toLe type.size v.val) = v.val :=
    ofLe_toLe_of_lt (v.isLt.trans_le type.bound_le)
  cases type with
  | bool =>
    rw [readValue, value]
    have := v.isLt
    simp only [Arithmetic.bound] at this
    split <;> ext <;> simp <;> omega
  | integer type => exact Fin.ext (by simp only [readValue, value]; exact Nat.mod_eq_of_lt v.isLt)
  | float => exact Fin.ext (by simp only [readValue, value]; exact Nat.mod_eq_of_lt v.isLt)
  | double => exact Fin.ext (by simp only [readValue, value]; exact Nat.mod_eq_of_lt v.isLt)

theorem Codes.arithmetic {type : Arithmetic} (v : Fin type.bound) :
    Codes (fun e => e.encodeArithmetic fresh type v.val) (decodeArithmetic type) v := by
  have fixed := Codes.fixedLength fresh (toLe type.size v.val) type.size_isAlignment
  rw [toLe_length] at fixed
  have mapped := fixed.map (readValue type)
  rw [readValue_toLe] at mapped
  exact mapped

theorem Codes.length (type : Arithmetic) {n : Nat} (fits : n < type.bound) :
    Codes (fun e => e.encodeArithmetic fresh type n) (decodeArithmetic type) ⟨n, fits⟩ :=
  Codes.arithmetic fresh ⟨n, fits⟩

theorem pieces_flatMap {α : Type} {f : α → List UInt8} {size : Nat}
    (sized : ∀ v, (f v).length = size) (vs : List α) :
    pieces size vs.length (vs.flatMap f) = vs.map f := by
  induction vs with
  | nil => rfl
  | cons v vs ih =>
    rw [List.length_cons, pieces, List.flatMap_cons, List.map_cons, ← sized v, List.take_left,
      List.drop_left, sized v, ih]

theorem flatMap_length {α : Type} {f : α → List UInt8} {size : Nat}
    (sized : ∀ v, (f v).length = size) (vs : List α) :
    (vs.flatMap f).length = vs.length * size := by
  induction vs with
  | nil => simp
  | cons v vs ih => rw [List.flatMap_cons, List.length_append, ih, sized, List.length_cons,
      Nat.succ_mul, Nat.add_comm]

/-! ## Byte arrays and strings -/

theorem Codes.byteArray {data : List UInt8} (fits : data.length < 2 ^ 64) :
    Codes (fun e => e.encodeVariableLengthByteArray fresh data) decodeVariableLengthByteArray
      data := by
  have size := Codes.length fresh (.integer .uint64) fits
  have bytes := Codes.fixedLength fresh data ⟨0, by decide, rfl⟩
  have both := size.andThen (f := fun size => decodeFixedLengthData size.val 1) bytes
  exact both

theorem passes_crashUnless {enc : ArgumentEncoder → ArgumentEncoder} {condition : Bool}
    (holds : condition = true) : Passes enc (crashUnless condition) := by
  intro e d rest written
  rw [crashUnless, if_pos holds]
  rfl

theorem Codes.latin1Text {characters : List UInt8} (short : characters.length ≤ maxStringLength 1) :
    Codes (fun e => e.encodeFixedLengthData fresh characters 1)
      (decodeStringText true characters.length) (.latin1 characters) := by
  have alignment : IsAlignment 1 := ⟨0, by decide, rfl⟩
  have fixed := Codes.fixedLength fresh characters alignment
  rw [← Nat.mul_one characters.length] at fixed
  exact (fixed.map WTFString.latin1).check (passes_crashUnless (by simpa using short)) |>.check
    (Passes.largeEnough fresh alignment (by simp))

theorem Codes.utf16Text {characters : List UInt16} (nonempty : characters ≠ [])
    (short : characters.length ≤ maxStringLength 2) :
    Codes (fun e => e.encodeFixedLengthData fresh (characters.flatMap fun c => toLe 2 c.toNat) 2)
      (decodeStringText false characters.length) (.utf16 characters) := by
  have alignment : IsAlignment 2 := ⟨1, by decide, rfl⟩
  have sized : ∀ c : UInt16, (toLe 2 c.toNat).length = 2 := by simp
  have fixed := Codes.fixedLength fresh (characters.flatMap fun c => toLe 2 c.toNat) alignment
  rw [flatMap_length sized] at fixed
  have text := fixed.map fun bytes => WTFString.utf16
    ((pieces 2 characters.length bytes).map fun piece => UInt16.ofNat (ofLe piece))
  have back : (characters.map fun c => toLe 2 c.toNat).map
      (fun piece => UInt16.ofNat (ofLe piece)) = characters := by
    rw [List.map_map]
    refine (List.map_congr_left fun c _ => ?_).trans (List.map_id characters)
    have value : ofLe (toLe 2 c.toNat) = c.toNat := ofLe_toLe_of_lt c.toNat_lt
    simp [value]
  rw [pieces_flatMap sized, back] at text
  have some_length : characters.length ≠ 0 := mt List.length_eq_zero_iff.mp nonempty
  simp only [decodeStringText, Bool.false_eq_true, if_false, if_neg some_length]
  exact (text.check (passes_crashUnless (by simpa using short))).check
    (Passes.largeEnough fresh alignment (flatMap_length sized characters))

theorem Codes.nullString :
    Codes (fun e => e.encodeString fresh .null) decodeString .null := by
  have length := Codes.length fresh (.integer .uint32) (n := nullLength) (by decide)
  have both := length.andThen (f := fun length => decodeStringRest length.val)
    (Codes.done WTFString.null)
  exact both

theorem Codes.textOfLength {n : Nat} (is8Bit : Fin Arithmetic.bool.bound) {s : WTFString}
    {enc : ArgumentEncoder → ArgumentEncoder} (short : n < nullLength)
    (text : Codes enc (decodeStringText (is8Bit.val != 0) n) s) :
    Codes (fun e => enc ((e.encodeArithmetic fresh (.integer .uint32) n).encodeArithmetic fresh
      .bool is8Bit.val)) decodeString s := by
  have length := Codes.length fresh (.integer .uint32) (short.trans (by decide))
  have flag := Codes.arithmetic fresh is8Bit
  have flagged := Codes.andThen (f := fun b : Fin Arithmetic.bool.bound =>
    decodeStringText (b.val != 0) n) flag text
  have rest : decodeStringRest n = decodeArithmetic .bool >>= fun is8Bit =>
      decodeStringText (is8Bit.val != 0) n := by
    unfold decodeStringRest
    rw [if_neg (Nat.ne_of_lt short)]
  rw [← rest] at flagged
  have both := length.andThen (f := fun length => decodeStringRest length.val) flagged
  exact both

theorem maxStringLength_lt (characterSize : Nat) : maxStringLength characterSize < nullLength :=
  (Nat.div_le_self _ _).trans_lt (by decide)

theorem Codes.string {s : WTFString} (wellFormed : s.WellFormed) :
    Codes (fun e => e.encodeString fresh s) decodeString s := by
  cases s with
  | null => exact Codes.nullString fresh
  | latin1 characters =>
    exact Codes.textOfLength fresh ⟨1, by decide⟩
      (wellFormed.trans_lt (maxStringLength_lt _)) (Codes.latin1Text fresh wellFormed)
  | utf16 characters =>
    exact Codes.textOfLength fresh ⟨0, by decide⟩
      (wellFormed.2.trans_lt (maxStringLength_lt _))
      (Codes.utf16Text fresh wellFormed.1 wellFormed.2)

theorem Codes.cString {s : Option (List UInt8)}
    (wellFormed : ∀ characters, s = some characters → characters.length ≤ maxCStringLength) :
    Codes (fun e => e.encodeCString fresh s) decodeCString s := by
  cases s with
  | none =>
    have length := Codes.length fresh (.integer .uint32) (n := nullLength) (by decide)
    have both := length.andThen (f := fun length => decodeCStringRest length.val)
      (Codes.done none)
    exact both
  | some characters =>
    have fits := wellFormed characters rfl
    have short : characters.length < nullLength := fits.trans_lt (by decide)
    have small : characters.length < 2 ^ 32 := short.trans (by decide)
    have alignment : IsAlignment 1 := ⟨0, by decide, rfl⟩
    have length := Codes.length fresh (.integer .uint32) small
    have bytes := (Codes.fixedLength fresh characters alignment).map some
    have checked := (bytes.check (passes_crashUnless (decide_eq_true fits))).check
      (Passes.largeEnough fresh alignment (Nat.mul_one _).symm)
    have rest : decodeCStringRest characters.length = (do
        checkBufferIsLargeEnough 1 characters.length
        crashUnless (characters.length ≤ maxCStringLength)
        let bytes ← decodeFixedLengthData characters.length 1
        pure (some bytes)) := by
      unfold decodeCStringRest
      rw [if_neg (Nat.ne_of_lt short)]
    rw [← rest] at checked
    have both := length.andThen (f := fun length => decodeCStringRest length.val) checked
    simp only [ArgumentEncoder.encodeCString, Nat.mod_eq_of_lt small, List.take_length]
    exact both

/-! ## Containers -/

theorem Codes.fixedSizeElements {element : Arithmetic} (vs : List (Fin element.bound)) :
    Codes (fun e => e.encodeFixedLengthData fresh (vs.flatMap fun v => toLe element.size v.val)
      element.size) (decodeFixedSizeElements element vs.length) vs := by
  have sized : ∀ v : Fin element.bound, (toLe element.size v.val).length = element.size := by simp
  have fixed := Codes.fixedLength fresh (vs.flatMap fun v => toLe element.size v.val)
    element.size_isAlignment
  rw [flatMap_length sized] at fixed
  have values := fixed.map fun bytes =>
    (pieces element.size vs.length bytes).map (readValue element)
  have back : (vs.map fun v => toLe element.size v.val).map (readValue element) = vs := by
    rw [List.map_map]
    exact (List.map_congr_left fun v _ => readValue_toLe v).trans (List.map_id vs)
  rw [pieces_flatMap sized, back] at values
  exact values.check (Passes.largeEnough fresh element.size_isAlignment (flatMap_length sized vs))

theorem Codes.elements {α : Type} {enc : α → ArgumentEncoder → ArgumentEncoder} {dec : Decode α}
    {vs : List α} (each : ∀ v ∈ vs, Codes (enc v) dec v) :
    Codes (fun e => vs.foldl (fun e v => enc v e) e) (decodeElements dec vs.length) vs := by
  induction vs with
  | nil => exact Codes.done []
  | cons v vs ih =>
    have tail := (ih fun w mem => each w (by simp [mem])).map (v :: ·)
    have both := (each v (by simp)).andThen (f := fun v => do
      let vs ← decodeElements dec vs.length
      pure (v :: vs)) tail
    exact both

theorem Codes.key {k : KeyTy} {v : k.Value} (wellFormed : k.WellFormed v) :
    Codes (fun e => e.encodeKey fresh k v) (decodeKey k) v := by
  cases k with
  | integer type => exact Codes.arithmetic fresh v
  | string => exact Codes.string fresh wellFormed

theorem Codes.addEntry {k : KeyTy} {α : Type} {hashMap : List (k.Value × α)} {entry : k.Value × α}
    (isNewEntry : ∀ other ∈ hashMap, k.same other.1 entry.1 = false) :
    Codes id (addEntry hashMap entry) (hashMap ++ [entry]) where
  appends e := ⟨[], by simp⟩
  reads e d rest written := by
    have none_same : (hashMap.any fun other => k.same other.1 entry.1) = false := by
      simpa using isNewEntry
    rw [ArgumentDecoder.addEntry, none_same]
    rfl

theorem Codes.entries {k : KeyTy} {α : Type} {enc : α → ArgumentEncoder → ArgumentEncoder}
    {dec : Decode α} {hashMap entries : List (k.Value × α)}
    (each : ∀ entry ∈ entries, k.WellFormed entry.1 ∧ Codes (enc entry.2) dec entry.2)
    (distinct : (hashMap ++ entries).Pairwise fun a b => k.same a.1 b.1 = false) :
    Codes (fun e => entries.foldl (fun e entry => enc entry.2 (e.encodeKey fresh k entry.1)) e)
      (decodeEntries dec entries.length hashMap) (hashMap ++ entries) := by
  induction entries generalizing hashMap with
  | nil => rw [List.append_nil]; exact Codes.done hashMap
  | cons entry entries ih =>
    obtain ⟨keyOk, value⟩ := each entry (by simp)
    have isNewEntry : ∀ other ∈ hashMap, k.same other.1 entry.1 = false := fun other mem =>
      (List.pairwise_append.mp distinct).2.2 other mem entry (by simp)
    rw [← List.singleton_append, ← List.append_assoc] at distinct ⊢
    have tail := ih (fun e mem => each e (by simp [mem])) distinct
    have added := (Codes.addEntry isNewEntry).andThen
      (f := fun hashMap => decodeEntries dec entries.length hashMap) tail
    have valued := value.andThen (f := fun value => do
      let hashMap ← ArgumentDecoder.addEntry hashMap (entry.1, value)
      decodeEntries dec entries.length hashMap) added
    have keyed := (Codes.key fresh keyOk).andThen (f := fun key => do
      let value ← dec
      let hashMap ← ArgumentDecoder.addEntry hashMap (key, value)
      decodeEntries dec entries.length hashMap) valued
    exact keyed

/-- Every well-formed value of every type survives. -/
theorem Codes.value (t : Ty) {v : t.Value} (wellFormed : t.WellFormed v) :
    Codes (ArgumentEncoder.encode fresh t v) (decode t) v := by
  induction t with
  | arithmetic type => exact Codes.arithmetic fresh v
  | byteArray => exact Codes.byteArray fresh wellFormed
  | string => exact Codes.string fresh wellFormed
  | cString => exact Codes.cString fresh wellFormed
  | pair first second ih ih' =>
    obtain ⟨v, w⟩ := v
    have both := (ih wellFormed.1).andThen (f := fun v => do
      let w ← decode second
      pure (v, w)) ((ih' wellFormed.2).map (v, ·))
    exact both
  | fixedSizeVector element =>
    have size := Codes.length fresh (.integer .uint64) (n := List.length v)
      (lt_trans wellFormed (by decide))
    have both := size.andThen (f := fun size => decodeFixedSizeElements element size.val)
      (Codes.fixedSizeElements fresh v)
    exact both
  | vector element ih =>
    have size := Codes.length fresh (.integer .uint64) (n := List.length v)
      (lt_trans wellFormed.1 (by decide))
    have both := size.andThen (f := fun size => decodeElements (decode element) size.val)
      (Codes.elements fun w mem => ih (wellFormed.2 w mem))
    exact both
  | hashMap key mapped ih =>
    have size := Codes.length fresh (.integer .uint64) (n := List.length v)
      (lt_trans wellFormed.1 (by decide))
    have each := wellFormed.2.2
    have distinct : (List.append [] v).Pairwise fun a b => key.same a.1 b.1 = false :=
      wellFormed.2.1
    have entries := Codes.entries fresh
      (fun entry mem => ⟨(each entry mem).2.1, ih (each entry mem).2.2⟩) distinct
    have both := size.andThen (f := fun size => decodeEntries (decode mapped) size.val []) entries
    exact both

/-! ## A whole message -/

/-- One argument of a message. -/
structure Argument where
  type : Ty
  value : type.Value
  wellFormed : type.WellFormed value

def encodeAll (arguments : List Argument) (e : ArgumentEncoder) : ArgumentEncoder :=
  arguments.foldl (fun e a => e.encode fresh a.type a.value) e

/-- Decoding these types in order succeeds with these values, never leaves the decoder
invalid, and ends at the end of the buffer. -/
def Decodes : List Argument → ArgumentDecoder → Prop
  | [], d => ¬ d.isInvalid ∧ d.bufferPos = d.bufferEnd
  | a :: as, d => ¬ d.isInvalid ∧ ∃ d', decode a.type d = (.ok a.value, d') ∧ Decodes as d'

theorem encodeAll_appends (arguments : List Argument) (e : ArgumentEncoder) :
    ∃ segment, (encodeAll fresh arguments e).buffer = e.buffer ++ segment := by
  induction arguments generalizing e with
  | nil => exact ⟨[], by simp [encodeAll]⟩
  | cons a as ih =>
    obtain ⟨s, hs⟩ := (Codes.value fresh a.type a.wellFormed).appends e
    obtain ⟨s', hs'⟩ := ih (e.encode fresh a.type a.value)
    exact ⟨s ++ s', hs'.trans (by rw [hs, List.append_assoc])⟩

theorem decodes_of_data {arguments : List Argument} {e : ArgumentEncoder} {d : ArgumentDecoder}
    (data : d.data = (encodeAll fresh arguments e).buffer) :
    Decodes arguments (d.moveTo e.buffer.length) := by
  have valid : ¬ (d.moveTo e.buffer.length).isInvalid := by
    obtain ⟨segment, appended⟩ := encodeAll_appends fresh arguments e
    simp only [isInvalid, bufferEnd, moveTo, data, appended, List.length_append]
    omega
  induction arguments generalizing e with
  | nil => exact ⟨valid, by simp only [bufferEnd, moveTo, data, encodeAll, List.foldl_nil]⟩
  | cons a as ih =>
    obtain ⟨segment, appended⟩ := encodeAll_appends fresh as (e.encode fresh a.type a.value)
    have whole : d.data = (e.encode fresh a.type a.value).buffer ++ segment := data.trans appended
    refine ⟨valid, _, (Codes.value fresh a.type a.wellFormed).reads e d segment whole, ih data ?_⟩
    simp only [isInvalid, bufferEnd, moveTo, whole, List.length_append]
    omega

theorem someStrings_wellFormed :
    (Ty.vector .string).WellFormed [.utf16 [0x3c0], .null] := by
  constructor
  · decide
  · intro s member
    rcases List.mem_cons.mp member with rfl | member
    · exact ⟨by decide, by decide⟩
    · obtain rfl := List.mem_singleton.mp member
      exact trivial

theorem someTable_wellFormed :
    (Ty.hashMap (.integer .uint16) (.fixedSizeVector .double)).WellFormed
      [(⟨5, by decide⟩, [⟨7, by decide⟩])] := by
  refine ⟨by decide, List.pairwise_singleton _ _, ?_⟩
  intro entry member
  obtain rfl := List.mem_singleton.mp member
  exact ⟨by decide, trivial, show 1 < 2 ^ 32 by decide⟩

theorem one_lt_bool : 1 < Arithmetic.bound .bool := by decide

theorem five_lt_uint16 : 5 < (Arithmetic.integer .uint16).bound := by decide

theorem seven_lt_double : 7 < Arithmetic.bound .double := by decide

/-- A flag, a vector of strings and a hash map to vectors. -/
def someArguments : List Argument :=
  [⟨.arithmetic .bool, ⟨1, one_lt_bool⟩, trivial⟩,
   ⟨.vector .string, [.utf16 [0x3c0], .null], someStrings_wellFormed⟩,
   ⟨.hashMap (.integer .uint16) (.fixedSizeVector .double),
    [(⟨5, five_lt_uint16⟩, [⟨7, seven_lt_double⟩])],
    someTable_wellFormed⟩]

end NetRider.Ipc
