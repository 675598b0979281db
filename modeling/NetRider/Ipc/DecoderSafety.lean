import NetRider.Ipc.RoundTrip

/-!
# Decoding what anyone may have sent

Nothing is assumed of the bytes in the buffer. `Reads x accepts`: from any position in the buffer
`x` yields a value that is accepted for the number of bytes it has taken, or marks the decoder
invalid and returns false, or crashes. Decoders compose (`Reads.bind`), as the coders do.
-/

namespace NetRider.Ipc

open NetRider.Lib ArgumentDecoder

/-! ## What is accepted -/

def WTFString.encodedSize : WTFString → Nat
  | .null => 4
  | .latin1 characters => 4 + 1 + characters.length
  | .utf16 characters => 4 + 1 + 2 * characters.length

def KeyTy.encodedSize : (k : KeyTy) → k.Value → Nat
  | .integer type, _ => type.size
  | .string, s => WTFString.encodedSize s

/-- The bytes a value takes in a buffer, without those skipped for the alignment. -/
def Ty.encodedSize : (t : Ty) → t.Value → Nat
  | .arithmetic type, _ => type.size
  | .byteArray, bytes => 8 + List.length bytes
  | .string, s => WTFString.encodedSize s
  | .cString, s => 4 + Option.elim s 0 List.length
  | .pair first second, v => first.encodedSize v.1 + second.encodedSize v.2
  | .fixedSizeVector element, vs => 8 + List.length vs * element.size
  | .vector element, vs => 8 + (List.map element.encodedSize vs).sum
  | .hashMap key mapped, entries =>
    8 + (List.map (fun entry => key.encodedSize entry.1 + mapped.encodedSize entry.2) entries).sum

/-- Well-formed, but for the keys that a hash table keeps for itself. -/
def Ty.Accepted : (t : Ty) → t.Value → Prop
  | .arithmetic _, _ => True
  | .byteArray, _ => True
  | .string, s => WTFString.WellFormed s
  | .cString, s => ∀ characters, s = some characters → characters.length ≤ maxCStringLength
  | .pair first second, v => first.Accepted v.1 ∧ second.Accepted v.2
  | .fixedSizeVector _, _ => True
  | .vector element, vs => Every element.Accepted vs
  | .hashMap key mapped, entries =>
    List.Pairwise (fun a b => key.same a.1 b.1 = false) entries ∧
      Every (fun entry => key.WellFormed entry.1 ∧ mapped.Accepted entry.2) entries

/-! ## Positions -/

/-- In the buffer, at its end or one behind. Rounding up a pointer there does not wrap. -/
structure ArgumentDecoder.Inside (d : ArgumentDecoder) : Prop where
  start : d.base ≤ d.bufferPos
  stop : d.bufferPos ≤ d.bufferEnd + 1
  below : d.bufferEnd + 8 < 2 ^ 64

def ArgumentDecoder.advance (d : ArgumentDecoder) (n : Nat) : ArgumentDecoder :=
  { d with bufferPos := d.bufferPos + n }

section

variable {d : ArgumentDecoder} {n : Nat}

theorem advance_advance {m : Nat} : (d.advance m).advance n = d.advance (m + n) := by
  simp only [ArgumentDecoder.advance, Nat.add_assoc]

theorem markInvalid_advance : (d.advance n).markInvalid = d.markInvalid := rfl

theorem ArgumentDecoder.Inside.advance (inside : d.Inside) (fits : d.bufferPos + n ≤ d.bufferEnd) :
    (d.advance n).Inside where
  start := Nat.le_add_right_of_le inside.start
  stop := Nat.le_succ_of_le fits
  below := inside.below

theorem ArgumentDecoder.Inside.markInvalid (inside : d.Inside) : d.markInvalid.Inside where
  start := Nat.le_succ_of_le (Nat.le_add_right _ _)
  stop := Nat.le_refl _
  below := inside.below

theorem isInvalid_markInvalid : d.markInvalid.isInvalid := Nat.lt_succ_self _

theorem markInvalid_of_isInvalid (inside : d.Inside) (invalid : d.isInvalid) :
    d.markInvalid = d := by
  have position : d.bufferPos = d.bufferEnd + 1 := Nat.le_antisymm inside.stop invalid
  rw [ArgumentDecoder.markInvalid, ← position]

/-- Rounding up never goes back. -/
theorem le_roundUpPointer {a : Nat} (alignment : IsAlignment a) (inside : d.Inside) :
    d.bufferPos ≤ roundUpPointer d.bufferPos a := by
  obtain ⟨n, position⟩ := Nat.exists_eq_add_of_le inside.start
  have fits : d.base + n + 8 ≤ 2 ^ 64 := by
    have := inside.stop
    have := inside.below
    omega
  rw [position, roundUpPointer_eq alignment d.aligned fits]
  exact Nat.add_le_add_left (le_roundUpToAlignment alignment.pos) _

end

/-! ## Reading -/

variable {α β : Type}

/-- How `x` ends, from the position of `d`. -/
inductive Outcome (x : Decode α) (d : ArgumentDecoder) (accepts : α → Nat → Prop) : Prop
  | value (n : Nat) (v : α) (result : x d = (.ok v, d.advance n))
    (fits : d.bufferPos + n ≤ d.bufferEnd) (accepted : accepts v n)
  | refused (result : x d = (.error .returnsFalse, d.markInvalid))
  | crashed (n : Nat) (result : x d = (.error .crashes, d.advance n))

def Reads (x : Decode α) (accepts : α → Nat → Prop) : Prop :=
  ∀ d : ArgumentDecoder, d.Inside → ¬ d.isInvalid → Outcome x d accepts

/-- Once the decoder is invalid, `x` returns false and leaves it so. -/
def Sticky (x : Decode α) : Prop :=
  ∀ d : ArgumentDecoder, d.Inside → d.isInvalid → x d = (.error .returnsFalse, d)

theorem bind_error {x : Decode α} {f : α → Decode β} {d d' : ArgumentDecoder} {failure : Failure}
    (h : x d = (.error failure, d')) : (x >>= f) d = (.error failure, d') := by
  simp only [bind, ExceptT.bind, ExceptT.mk, StateT.bind]
  rw [h]
  rfl

theorem Reads.pure {v : α} {accepts : α → Nat → Prop} (accepted : accepts v 0) :
    Reads (pure v) accepts :=
  fun _ _ valid => .value 0 v rfl (Nat.le_of_not_lt valid) accepted

theorem Reads.bind {x : Decode α} {f : α → Decode β} {first : α → Nat → Prop}
    {accepts : β → Nat → Prop} (reads : Reads x first)
    (next : ∀ v m, first v m → Reads (f v) fun w n => accepts w (m + n)) :
    Reads (x >>= f) accepts := by
  intro d inside valid
  cases reads d inside valid with
  | refused result => exact .refused (bind_error result)
  | crashed n result => exact .crashed n (bind_error result)
  | value m v result fits accepted =>
    cases next v m accepted _ (inside.advance fits) (Nat.not_lt.mpr fits) with
    | refused rest => exact .refused (by rw [bind_ok result, rest, markInvalid_advance])
    | crashed n rest => exact .crashed (m + n) (by rw [bind_ok result, rest, advance_advance])
    | value n w rest fits' accepted' =>
      refine .value (m + n) w (by rw [bind_ok result, rest, advance_advance]) ?_ accepted'
      rw [← Nat.add_assoc]
      exact fits'

theorem Reads.weaken {x : Decode α} {strong accepts : α → Nat → Prop} (reads : Reads x strong)
    (weaker : ∀ v n, strong v n → accepts v n) : Reads x accepts := by
  intro d inside valid
  cases reads d inside valid with
  | value n v result fits accepted => exact .value n v result fits (weaker v n accepted)
  | refused result => exact .refused result
  | crashed n result => exact .crashed n result

theorem Reads.map {x : Decode α} {g : α → β} {first : α → Nat → Prop} {accepts : β → Nat → Prop}
    (reads : Reads x first) (mapped : ∀ v n, first v n → accepts (g v) n) :
    Reads (x >>= fun v => Pure.pure (g v)) accepts :=
  reads.bind fun v m accepted => .pure (mapped v m accepted)

theorem Sticky.bind {x : Decode α} {f : α → Decode β} (sticky : Sticky x) : Sticky (x >>= f) :=
  fun d inside invalid => bind_error (sticky d inside invalid)

/-! ## Bytes and checks -/

section

variable {size alignment : Nat}

theorem alignBufferPosition_sticky (isAlignment : IsAlignment alignment) :
    Sticky (alignBufferPosition alignment size) := by
  intro d inside invalid
  have outside : ¬ roundUpPointer d.bufferPos alignment ≤ d.bufferEnd :=
    Nat.not_le.mpr (Nat.lt_of_lt_of_le invalid (le_roundUpPointer isAlignment inside))
  simp only [alignBufferPosition, alignedBufferIsLargeEnoughToContain, outside, decide_false,
    Bool.false_and, Bool.false_eq_true, if_false, markInvalid_of_isInvalid inside invalid]

/-- Bytes are copied from inside the buffer, all of them. -/
theorem decodeFixedLengthData_reads (isAlignment : IsAlignment alignment) :
    Reads (decodeFixedLengthData size alignment) fun bytes n =>
      bytes.length = size ∧ size ≤ n := by
  intro d inside valid
  have ahead := le_roundUpPointer isAlignment inside
  have start := inside.start
  obtain ⟨gap, position⟩ := Nat.exists_eq_add_of_le ahead
  by_cases large : alignedBufferIsLargeEnoughToContain (roundUpPointer d.bufferPos alignment)
      d.bufferEnd size = true
  · rw [position] at large
    have aligns : alignBufferPosition alignment size d = (.ok (), d.advance gap) := by
      simp only [alignBufferPosition, position, large, if_true]
      rfl
    have takes : takeBytes size (d.advance gap) =
        (.ok ((d.data.drop (d.bufferPos + gap - d.base)).take size), d.advance (gap + size)) := by
      rw [← advance_advance]
      rfl
    simp only [alignedBufferIsLargeEnoughToContain, Bool.and_eq_true, decide_eq_true_eq] at large
    have whole : d.bufferEnd = d.base + d.data.length := rfl
    refine .value (gap + size) _ ((bind_ok aligns).trans takes) (by omega) ⟨?_, by omega⟩
    rw [List.length_take, List.length_drop]
    omega
  · refine .refused (bind_error ?_)
    simp only [alignBufferPosition, large, Bool.false_eq_true, if_false]

theorem decodeFixedLengthData_sticky (isAlignment : IsAlignment alignment) :
    Sticky (decodeFixedLengthData size alignment) :=
  (alignBufferPosition_sticky isAlignment).bind

theorem checkBufferIsLargeEnough_reads {numElements : Nat} :
    Reads (checkBufferIsLargeEnough size numElements) fun _ _ => True := by
  intro d inside valid
  unfold checkBufferIsLargeEnough
  by_cases large : numElements ≤ (2 ^ 64 - 1) / size ∧ alignedBufferIsLargeEnoughToContain
      (roundUpPointer d.bufferPos size) d.bufferEnd (numElements * size) = true
  · exact .value 0 () (if_pos large) (Nat.le_of_not_lt valid) trivial
  · exact .refused (if_neg large)

theorem crashUnless_reads {condition : Bool} :
    Reads (crashUnless condition) fun _ _ => condition = true := by
  cases condition with
  | true => exact .pure rfl
  | false => exact fun d _ _ => .crashed 0 rfl

end

/-! ## The coders -/

theorem isAlignment_one : IsAlignment 1 := ⟨0, by decide, rfl⟩

theorem isAlignment_two : IsAlignment 2 := ⟨1, by decide, rfl⟩

theorem decodeArithmetic_reads (type : Arithmetic) :
    Reads (decodeArithmetic type) fun _ n => type.size ≤ n :=
  (decodeFixedLengthData_reads type.size_isAlignment).map fun _ _ taken => taken.2

theorem decodeArithmetic_sticky (type : Arithmetic) : Sticky (decodeArithmetic type) :=
  (decodeFixedLengthData_sticky type.size_isAlignment).bind

theorem byteArray_reads :
    Reads decodeVariableLengthByteArray fun bytes n => 8 + bytes.length ≤ n := by
  refine (decodeArithmetic_reads (.integer .uint64)).bind fun size m eight => ?_
  refine (decodeFixedLengthData_reads isAlignment_one).weaken fun bytes n taken => ?_
  have : (Arithmetic.integer .uint64).size = 8 := rfl
  omega

theorem length_pieces {size count : Nat} {bytes : List UInt8} :
    (pieces size count bytes).length = count := by
  induction count generalizing bytes with
  | zero => rfl
  | succ count ih => rw [pieces, List.length_cons, ih]

theorem decodeStringText_reads {is8Bit : Bool} {length : Nat} :
    Reads (decodeStringText is8Bit length) fun s n =>
      s.WellFormed ∧ s.encodedSize ≤ 4 + 1 + n := by
  refine checkBufferIsLargeEnough_reads.bind fun _ m _ => ?_
  refine crashUnless_reads.bind fun _ m' short => ?_
  have short := of_decide_eq_true short
  cases is8Bit with
  | true =>
    refine (decodeFixedLengthData_reads isAlignment_one).map fun bytes n taken => ?_
    obtain ⟨all, taken⟩ := taken
    simp only [Nat.mul_one, if_true] at all short taken
    refine ⟨?_, ?_⟩
    · rw [WTFString.WellFormed, all]
      exact short
    · rw [WTFString.encodedSize]
      omega
  | false =>
    refine (decodeFixedLengthData_reads isAlignment_two).bind fun bytes n taken => ?_
    obtain ⟨all, taken⟩ := taken
    simp only [Bool.false_eq_true, if_false] at all short taken ⊢
    by_cases empty : length = 0
    · rw [if_pos empty]
      exact .pure ⟨Nat.zero_le _, Nat.le_add_right _ _⟩
    · rw [if_neg empty]
      refine .pure ⟨⟨?_, ?_⟩, ?_⟩
      · intro none
        have := congrArg List.length none
        rw [List.length_map, length_pieces] at this
        exact empty this
      · rw [List.length_map, length_pieces]
        exact short
      · rw [WTFString.encodedSize, List.length_map, length_pieces]
        omega

theorem decodeString_reads :
    Reads decodeString fun s n => s.WellFormed ∧ s.encodedSize ≤ n := by
  refine (decodeArithmetic_reads (.integer .uint32)).bind fun length m four => ?_
  have size : (Arithmetic.integer .uint32).size = 4 := rfl
  unfold decodeStringRest
  by_cases null : length.val = nullLength
  · rw [if_pos null]
    refine .pure ⟨trivial, ?_⟩
    rw [WTFString.encodedSize]
    omega
  · rw [if_neg null]
    refine (decodeArithmetic_reads .bool).bind fun is8Bit m' one => ?_
    have : Arithmetic.bool.size = 1 := rfl
    refine decodeStringText_reads.weaken fun s n read => ⟨read.1, ?_⟩
    omega

theorem decodeCString_reads :
    Reads decodeCString fun s n =>
      (∀ characters, s = some characters → characters.length ≤ maxCStringLength) ∧
        4 + Option.elim s 0 List.length ≤ n := by
  refine (decodeArithmetic_reads (.integer .uint32)).bind fun length m four => ?_
  have size : (Arithmetic.integer .uint32).size = 4 := rfl
  unfold decodeCStringRest
  by_cases null : length.val = nullLength
  · rw [if_pos null]
    refine .pure ⟨?_, ?_⟩
    · intro characters some
      cases some
    · rw [Option.elim_none]
      omega
  · rw [if_neg null]
    refine checkBufferIsLargeEnough_reads.bind fun _ m₁ _ => ?_
    refine crashUnless_reads.bind fun _ m₂ short => ?_
    refine (decodeFixedLengthData_reads isAlignment_one).map fun bytes n taken => ⟨?_, ?_⟩
    · intro characters same
      cases same
      rw [taken.1]
      exact of_decide_eq_true short
    · rw [Option.elim_some]
      omega

theorem decodeKey_reads (k : KeyTy) :
    Reads (decodeKey k) fun v n => k.WellFormed v ∧ k.encodedSize v ≤ n := by
  cases k with
  | integer type =>
    exact (decodeArithmetic_reads (.integer type)).weaken fun _ _ taken => ⟨trivial, taken⟩
  | string => exact decodeString_reads

theorem decodeFixedSizeElements_reads (element : Arithmetic) {size : Nat} :
    Reads (decodeFixedSizeElements element size) fun vs n => vs.length * element.size ≤ n := by
  refine checkBufferIsLargeEnough_reads.bind fun _ m _ => ?_
  refine (decodeFixedLengthData_reads element.size_isAlignment).map fun bytes n taken => ?_
  rw [List.length_map, length_pieces]
  omega

theorem decodeElements_reads {element : Decode α} {accepted : α → Prop} {weight : α → Nat}
    (reads : Reads element fun v n => accepted v ∧ weight v ≤ n) {size : Nat} :
    Reads (decodeElements element size) fun vs n =>
      Every accepted vs ∧ (vs.map weight).sum ≤ n := by
  induction size with
  | zero => exact .pure ⟨fun _ mem => absurd mem List.not_mem_nil, Nat.le_refl _⟩
  | succ size ih =>
    refine reads.bind fun v m one => ?_
    refine ih.map fun vs n rest => ⟨?_, ?_⟩
    · intro w mem
      rcases List.mem_cons.mp mem with rfl | mem
      · exact one.1
      · exact rest.1 w mem
    · rw [List.map_cons, List.sum_cons]
      omega

/-- The keys in the map stay distinct: a key that is there already is refused. -/
theorem decodeEntries_reads {k : KeyTy} {mapped : Decode α} {accepted : α → Prop}
    {weight : α → Nat} (reads : Reads mapped fun v n => accepted v ∧ weight v ≤ n) {size : Nat}
    {hashMap : List (k.Value × α)}
    (distinct : hashMap.Pairwise fun a b => k.same a.1 b.1 = false)
    (every : Every (fun entry => k.WellFormed entry.1 ∧ accepted entry.2) hashMap) :
    Reads (decodeEntries mapped size hashMap) fun entries n =>
      entries.Pairwise (fun a b => k.same a.1 b.1 = false) ∧
        Every (fun entry => k.WellFormed entry.1 ∧ accepted entry.2) entries ∧
        (entries.map fun entry => k.encodedSize entry.1 + weight entry.2).sum ≤
          (hashMap.map fun entry => k.encodedSize entry.1 + weight entry.2).sum + n := by
  induction size generalizing hashMap with
  | zero => exact .pure ⟨distinct, every, Nat.le_refl _⟩
  | succ size ih =>
    refine (decodeKey_reads k).bind fun key m keyRead => ?_
    refine reads.bind fun value m' valueRead => ?_
    have added : Reads (addEntry hashMap (key, value)) fun entries _ =>
        entries = hashMap ++ [(key, value)] ∧
          hashMap.any (fun other => k.same other.1 key) = false := by
      intro d _ valid
      unfold addEntry
      by_cases there : hashMap.any (fun other => k.same other.1 key) = true
      · exact .refused (if_pos there)
      · exact .value 0 _ (if_neg there) (Nat.le_of_not_lt valid) ⟨rfl, Bool.eq_false_iff.mpr there⟩
    refine added.bind fun entries m'' new => ?_
    obtain ⟨rfl, fresh⟩ := new
    rw [List.any_eq_false] at fresh
    refine (ih ?_ ?_).weaken fun entries n rest => ⟨rest.1, rest.2.1, ?_⟩
    · refine List.pairwise_append.mpr ⟨distinct, List.pairwise_singleton _ _, ?_⟩
      intro a mem b single
      rw [List.mem_singleton.mp single]
      exact Bool.eq_false_iff.mpr (fresh a mem)
    · intro entry mem
      rcases List.mem_append.mp mem with old | single
      · exact every entry old
      · rw [List.mem_singleton.mp single]
        exact ⟨keyRead.1, valueRead.1⟩
    · have total := rest.2.2
      simp only [List.map_append, List.sum_append, List.map_singleton, List.sum_singleton] at total
      omega

/-- **Untrusted bytes.** What is decoded is accepted and no larger than the bytes it took. -/
theorem decode_reads (t : Ty) :
    Reads (decode t) fun v n => t.Accepted v ∧ t.encodedSize v ≤ n := by
  have eight : (Arithmetic.integer .uint64).size = 8 := rfl
  induction t with
  | arithmetic type => exact (decodeArithmetic_reads type).weaken fun _ _ taken => ⟨trivial, taken⟩
  | byteArray => exact byteArray_reads.weaken fun _ _ taken => ⟨trivial, taken⟩
  | string => exact decodeString_reads
  | cString => exact decodeCString_reads
  | pair first second readsFirst readsSecond =>
    refine readsFirst.bind fun v m one => ?_
    refine readsSecond.map fun w n two => ⟨⟨one.1, two.1⟩, ?_⟩
    change first.encodedSize v + second.encodedSize w ≤ m + n
    omega
  | fixedSizeVector element =>
    refine (decodeArithmetic_reads (.integer .uint64)).bind fun size m length => ?_
    refine (decodeFixedSizeElements_reads element).weaken fun vs n taken => ⟨trivial, ?_⟩
    change 8 + List.length vs * element.size ≤ m + n
    omega
  | vector element reads =>
    refine (decodeArithmetic_reads (.integer .uint64)).bind fun size m length => ?_
    refine (decodeElements_reads reads).weaken fun vs n taken => ⟨taken.1, ?_⟩
    change 8 + (List.map element.encodedSize vs).sum ≤ m + n
    omega
  | hashMap key mapped reads =>
    refine (decodeArithmetic_reads (.integer .uint64)).bind fun size m length => ?_
    have entries := @decodeEntries_reads _ key _ _ _ reads size.val [] List.Pairwise.nil
      fun _ mem => absurd mem List.not_mem_nil
    refine entries.weaken fun vs n taken => ⟨⟨taken.1, taken.2.1⟩, ?_⟩
    have total := taken.2.2
    rw [List.map_nil, List.sum_nil, Nat.zero_add] at total
    change 8 + (List.map _ vs).sum ≤ m + n
    omega

theorem decode_sticky (t : Ty) : Sticky (decode t) := by
  induction t with
  | arithmetic type => exact decodeArithmetic_sticky type
  | pair first second sticky _ => exact sticky.bind
  | _ => exact (decodeArithmetic_sticky _).bind

/-! ## A message -/

/-- A call of `decode` and the value, if it returned true. -/
abbrev Decoded := Σ t : Ty, Option t.Value

def Decoded.encodedSize : Decoded → Nat
  | ⟨_, none⟩ => 0
  | ⟨t, some v⟩ => t.encodedSize v

def Decoded.failed (call : Decoded) : Prop := call.2 = none

/-- Calls one after another, whatever they returned, as long as none crashes. -/
inductive Decoding : ArgumentDecoder → List Decoded → ArgumentDecoder → Prop
  | done {d : ArgumentDecoder} : Decoding d [] d
  | value {d e f : ArgumentDecoder} {t : Ty} {v : t.Value} {calls : List Decoded}
    (one : decode t d = (.ok v, e)) (rest : Decoding e calls f) : Decoding d (⟨t, some v⟩ :: calls) f
  | refused {d e f : ArgumentDecoder} {t : Ty} {calls : List Decoded}
    (one : decode t d = (.error .returnsFalse, e)) (rest : Decoding e calls f) :
    Decoding d (⟨t, none⟩ :: calls) f

/-- An invalid decoder refuses everything. -/
theorem decoding_of_isInvalid {d e : ArgumentDecoder} {calls : List Decoded}
    (h : Decoding d calls e) (inside : d.Inside) (invalid : d.isInvalid) :
    e = d ∧ ∀ call ∈ calls, call.failed := by
  induction h with
  | done => exact ⟨rfl, fun _ mem => absurd mem List.not_mem_nil⟩
  | @value d e f t v calls one rest ih =>
    rw [decode_sticky t d inside invalid] at one
    cases one
  | @refused d e f t calls one rest ih =>
    rw [decode_sticky t d inside invalid] at one
    cases one
    obtain ⟨same, all⟩ := ih inside invalid
    refine ⟨same, ?_⟩
    intro call mem
    rcases List.mem_cons.mp mem with rfl | mem
    · rfl
    · exact all call mem

/-- What the calls that returned true have taken, and where the decoder stands. -/
structure Decoded.Safe (d : ArgumentDecoder) (calls : List Decoded) (e : ArgumentDecoder) :
    Prop where
  sameBuffer : e.base = d.base ∧ e.data = d.data
  inside : e.Inside
  accepted : ∀ t v, (⟨t, some v⟩ : Decoded) ∈ calls → t.Accepted v
  taken : d.bufferPos + (calls.map Decoded.encodedSize).sum ≤ d.bufferEnd
  valid : ¬ e.isInvalid → d.bufferPos + (calls.map Decoded.encodedSize).sum ≤ e.bufferPos
  sticky : calls.Pairwise fun a b => a.failed → b.failed
  failed : e.isInvalid ↔ ∃ call ∈ calls, call.failed

theorem encodedSize_failed {calls : List Decoded} (all : ∀ call ∈ calls, call.failed) :
    (calls.map Decoded.encodedSize).sum = 0 := by
  rw [List.sum_eq_zero_iff]
  intro n mem
  obtain ⟨⟨t, v⟩, called, rfl⟩ := List.mem_map.mp mem
  cases v with
  | none => rfl
  | some v => cases all _ called

/-- A value that was at most `n` bytes, and what was decoded behind it. -/
theorem Decoded.Safe.value {d e : ArgumentDecoder} {t : Ty} {v : t.Value} {calls : List Decoded}
    {n : Nat} (later : Decoded.Safe (d.advance n) calls e) (accepted : t.Accepted v)
    (small : t.encodedSize v ≤ n) : Decoded.Safe d (⟨t, some v⟩ :: calls) e := by
  have position : (d.advance n).bufferPos = d.bufferPos + n := rfl
  have sum : ((⟨t, some v⟩ :: calls).map Decoded.encodedSize).sum =
      t.encodedSize v + (calls.map Decoded.encodedSize).sum := by
    rw [List.map_cons, List.sum_cons]
    rfl
  refine ⟨later.sameBuffer, later.inside, ?_, ?_, ?_, ?_, ?_⟩
  · intro t' v' mem
    rcases List.mem_cons.mp mem with same | mem
    · cases same
      exact accepted
    · exact later.accepted t' v' mem
  · have taken := later.taken
    have same : (d.advance n).bufferEnd = d.bufferEnd := rfl
    omega
  · intro still
    have taken := later.valid still
    omega
  · refine List.pairwise_cons.mpr ⟨?_, later.sticky⟩
    intro _ _ now
    cases now
  · rw [later.failed]
    constructor
    · rintro ⟨call, mem, failed⟩
      exact ⟨call, List.mem_cons_of_mem _ mem, failed⟩
    · rintro ⟨call, mem, failed⟩
      rcases List.mem_cons.mp mem with rfl | mem
      · cases failed
      · exact ⟨call, mem, failed⟩

/-- From the first call on that returns false, all of them do. -/
theorem Decoded.Safe.refused {d : ArgumentDecoder} {call : Decoded} {calls : List Decoded}
    (inside : d.Inside) (valid : ¬ d.isInvalid) (failed : ∀ c ∈ call :: calls, c.failed) :
    Decoded.Safe d (call :: calls) d.markInvalid := by
  refine ⟨⟨rfl, rfl⟩, inside.markInvalid, ?_, ?_, ?_, ?_, ?_⟩
  · intro t v mem
    cases failed _ mem
  · rw [encodedSize_failed failed]
    exact Nat.le_of_not_lt valid
  · exact fun still => absurd isInvalid_markInvalid still
  · exact List.pairwise_of_forall_mem_list fun _ _ b mem _ => failed b mem
  · exact ⟨fun _ => ⟨call, List.mem_cons_self, failed call List.mem_cons_self⟩,
      fun _ => isInvalid_markInvalid⟩

theorem decoding_safe_from {d e : ArgumentDecoder} {calls : List Decoded}
    (h : Decoding d calls e) (inside : d.Inside) (valid : ¬ d.isInvalid) :
    Decoded.Safe d calls e := by
  induction h with
  | @done d =>
    refine ⟨⟨rfl, rfl⟩, inside, fun _ _ mem => absurd mem List.not_mem_nil,
      Nat.le_of_not_lt valid, fun _ => Nat.le_refl _, .nil, fun now => absurd now valid, ?_⟩
    rintro ⟨_, mem, _⟩
    exact absurd mem List.not_mem_nil
  | @value d e f t v calls one rest ih =>
    cases decode_reads t d inside valid with
    | refused result => cases result.symm.trans one
    | crashed n result => cases result.symm.trans one
    | value n w result fits accepted =>
      cases result.symm.trans one
      have later := ih (inside.advance fits) (Nat.not_lt.mpr fits)
      exact later.value accepted.1 accepted.2
  | @refused d e f t calls one rest ih =>
    cases decode_reads t d inside valid with
    | value n w result => cases result.symm.trans one
    | crashed n result => cases result.symm.trans one
    | refused result =>
      cases result.symm.trans one
      obtain ⟨rfl, all⟩ := decoding_of_isInvalid rest inside.markInvalid isInvalid_markInvalid
      refine .refused inside valid ?_
      intro call mem
      rcases List.mem_cons.mp mem with rfl | mem
      · rfl
      · exact all call mem

def sevenThenText : ArgumentDecoder :=
  ofBuffer 0 [7, 0, 0, 0, 2, 0, 0, 0, 1, 65] (by decide) (by decide)

end NetRider.Ipc
