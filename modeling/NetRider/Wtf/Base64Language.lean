import NetRider.Wtf.Base64RoundTrip

/-!
# The language of Base64

What is accepted if neither invalid characters nor excess padding are, and what the encoder writes.
-/

namespace NetRider.Wtf.Base64

/-! ## Characters of the alphabet -/

def alphabet : List Nat := base64EncMap.map UInt8.toNat

/-- Alphabet characters and then equals signs, few enough and where they are needed. -/
def InLanguage (text : List Nat) : Prop :=
  ∃ digits equals, text = digits ++ List.replicate equals 0x3D ∧ (∀ ch ∈ digits, ch ∈ alphabet) ∧
    digits.length % 4 ≠ 1 ∧
    (equals = 0 ∨ equals ≤ 2 ∧ 0 < digits.length ∧ text.length % 4 = 0)

/-- The codes that stand for the values. -/
def digitsOf (values : List UInt8) : List Nat := (values.map (encode base64EncMap)).map UInt8.toNat

variable {values : List UInt8}

theorem digitsOf_length (values : List UInt8) : (digitsOf values).length = values.length := by
  rw [digitsOf, List.length_map, List.length_map]

theorem mem_alphabet {value : UInt8} (small : value.toNat < 64) :
    (encode base64EncMap value).toNat ∈ alphabet := by
  have inside : value.toNat < base64EncMap.length := small
  rw [encode, List.getD_eq_getElem?_getD, List.getElem?_eq_getElem inside]
  exact List.mem_map_of_mem (List.getElem_mem inside)

theorem digitsOf_cons (value : UInt8) (values : List UInt8) :
    digitsOf (value :: values) = (encode base64EncMap value).toNat :: digitsOf values := rfl

theorem digitsOf_mem (small : ∀ value ∈ values, value.toNat < 64) :
    ∀ ch ∈ digitsOf values, ch ∈ alphabet := by
  intro ch member
  rw [digitsOf, List.map_map, List.mem_map] at member
  obtain ⟨value, inside, rfl⟩ := member
  exact mem_alphabet (small value inside)

/-- A character of the alphabet, from its value. -/
theorem exists_value {ch : Nat} (member : ch ∈ alphabet) :
    ∃ value : UInt8, value.toNat < 64 ∧ (encode base64EncMap value).toNat = ch := by
  obtain ⟨digit, stored, rfl⟩ := List.mem_map.mp member
  obtain ⟨n, inside, rfl⟩ := List.mem_iff_getElem.mp stored
  have small : n < 64 := inside
  have same : (UInt8.ofNat n).toNat = n := UInt8.toNat_ofNat_of_lt' (Nat.lt_trans small (by decide))
  refine ⟨UInt8.ofNat n, by rw [same]; exact small, ?_⟩
  rw [encode, same, List.getD_eq_getElem?_getD, List.getElem?_eq_getElem inside, Option.getD_some]

theorem exists_digitsOf {digits : List Nat} (all : ∀ ch ∈ digits, ch ∈ alphabet) :
    ∃ values, (∀ value ∈ values, value.toNat < 64) ∧ digits = digitsOf values := by
  induction digits with
  | nil => exact ⟨[], by simp, rfl⟩
  | cons ch digits ih =>
    obtain ⟨head, others⟩ := List.forall_mem_cons.mp all
    obtain ⟨value, small, rfl⟩ := exists_value head
    obtain ⟨values, smalls, rfl⟩ := ih others
    exact ⟨value :: values, List.forall_mem_cons.mpr ⟨small, smalls⟩, rfl⟩

/-- What the map to decode with knows is in the alphabet. -/
theorem decMap_known {ch : Nat} (small : ch < 128)
    (known : base64DecMap.getD ch nonAlphabet ≠ nonAlphabet) :
    (base64DecMap.getD ch nonAlphabet).toNat < 64 ∧
      (encode base64EncMap (base64DecMap.getD ch nonAlphabet)).toNat = ch := by
  have all : ∀ ch : Fin 128, base64DecMap.getD ch nonAlphabet ≠ nonAlphabet →
      (base64DecMap.getD ch nonAlphabet).toNat < 64 ∧
        (encode base64EncMap (base64DecMap.getD ch nonAlphabet)).toNat = ch := by
    decide
  exact all ⟨ch, small⟩ known

/-! ## The loop over the characters -/

variable {icu : Icu} {length count total : Nat} {decoded final : List UInt8} {text : List Nat}

theorem scan_equals (few : count + total ≤ 2) (whole : total = 0 ∨ length % 4 = 0) :
    scan icu .failOnInvalidCharacterOrExcessPadding base64DecMap length count decoded
        (List.replicate total 0x3D) = some (count + total, decoded) := by
  induction total generalizing count with
  | zero => rfl
  | succ total ih =>
    have divides : length % 4 = 0 := by simpa using whole
    have allowed : ¬ (length % 4 ≠ 0 ∨ count + 1 > 2) := by omega
    rw [List.replicate_succ, scan, if_pos rfl, if_neg fun both => allowed both.2,
      ih (by omega) (.inr divides), Nat.add_assoc, Nat.add_comm 1 total]

/-- What is scanned is values and then equals signs. -/
theorem scan_shape
    (scanned : scan icu .failOnInvalidCharacterOrExcessPadding base64DecMap length count decoded
      text = some (total, final)) :
    ∃ values equals, text = digitsOf values ++ List.replicate equals 0x3D ∧
      final = decoded ++ values ∧ total = count + equals ∧
      (∀ value ∈ values, value.toNat < 64) ∧ (values = [] ∨ count = 0) ∧
      (equals = 0 ∨ length % 4 = 0 ∧ total ≤ 2) := by
  induction text generalizing count decoded with
  | nil =>
    obtain ⟨rfl, rfl⟩ := Prod.mk.inj (Option.some.inj scanned)
    exact ⟨[], 0, rfl, (List.append_nil _).symm, rfl, by simp, .inl rfl, .inl rfl⟩
  | cons ch text ih =>
    rw [scan] at scanned
    by_cases sign : ch = 0x3D
    · rw [if_pos sign] at scanned
      split_ifs at scanned with excess
      obtain ⟨values, equals, rfl, rfl, rfl, -, none, enough⟩ := ih scanned
      obtain rfl : values = [] := none.resolve_right (Nat.succ_ne_zero count)
      refine ⟨[], equals + 1, ?_, rfl, by omega, by simp, .inl rfl, .inr ?_⟩
      · rw [sign]
        rfl
      · have allowed : ¬ (length % 4 ≠ 0 ∨ count + 1 > 2) := fun either => excess ⟨rfl, either⟩
        rcases enough with rfl | enough <;> omega
    · rw [if_neg sign] at scanned
      dsimp only at scanned
      by_cases known :
          (if ch < 128 then base64DecMap.getD ch nonAlphabet else nonAlphabet) ≠ nonAlphabet
      · have small : ch < 128 := by
          by_contra outside
          exact known (if_neg outside)
        rw [if_pos known] at scanned
        rw [if_pos small] at known scanned
        split_ifs at scanned with signs
        obtain rfl : count = 0 := not_not.mp signs
        obtain ⟨value, same⟩ := decMap_known small known
        obtain ⟨values, equals, rfl, rfl, rfl, others, -, enough⟩ := ih scanned
        refine ⟨base64DecMap.getD ch nonAlphabet :: values, equals, ?_, ?_, rfl, ?_, .inr rfl,
          enough⟩
        · rw [digitsOf_cons, same, List.cons_append]
        · rw [List.append_assoc, List.singleton_append]
        · exact List.forall_mem_cons.mpr ⟨value, others⟩
      · rw [if_neg known, if_pos (.inl rfl)] at scanned
        cases scanned

/-! ## The values that are joined -/

/-- The text is so long that the length of the output is not computed rightly. -/
def Huge (text : List Nat) : Prop :=
  (∀ ch ∈ text, ch ∈ alphabet) ∧ (text.length = 2 ^ 32 - 2 ∨ text.length = 2 ^ 32 - 1)

variable {out : List UInt8} {join : UInt8 → UInt8 → UInt8}

theorem joinAt_reads (join : UInt8 → UInt8 → UInt8) (out : List UInt8) (didx i : Nat) :
    joinAt join out didx i = .error .overflowed ∨
      ∃ out', joinAt join out didx i = .ok out' ∧ out'.length = out.length ∧
        i + 1 < out.length := by
  unfold joinAt read write
  rcases first : out[i]? with _ | a
  · exact .inl rfl
  · rcases second : out[i + 1]? with _ | b
    · exact .inl rfl
    · obtain ⟨inside, -⟩ := List.getElem?_eq_some_iff.mp second
      dsimp only
      split_ifs
      · exact .inr ⟨_, rfl, List.length_set, inside⟩
      · exact .inl rfl

theorem joinGroup_reads (out : List UInt8) (sidx didx : Nat) :
    joinGroup out sidx didx = .error .overflowed ∨
      ∃ out', joinGroup out sidx didx = .ok out' ∧ out'.length = out.length ∧
        sidx + 3 < out.length := by
  unfold joinGroup
  rcases joinAt_reads join0 out didx sidx with bad | ⟨out1, made1, size1, -⟩
  · rw [bad]
    exact .inl rfl
  · rw [made1]
    rcases joinAt_reads join1 out1 (didx + 1) (sidx + 1) with bad | ⟨out2, made2, size2, -⟩
    · refine .inl ?_
      simp only [bind, Except.bind, bad]
    · rcases joinAt_reads join2 out2 (didx + 2) (sidx + 2) with bad | ⟨out3, made3, size3, inside⟩
      · refine .inl ?_
        simp only [bind, Except.bind, made2, bad]
      · refine .inr ⟨out3, ?_, by omega, by omega⟩
        simp only [bind, Except.bind, made2, made3]

/-- Three characters are written for four that are read: the reading leaves the output first. -/
theorem joinLoop_overflows {sidx didx fuel : Nat} (many : 8 < out.length)
    (pace : 4 * didx = 3 * sidx) (inside : sidx ≤ out.length) (enough : out.length ≤ didx + fuel) :
    joinLoop out.length fuel out sidx didx = .error .overflowed := by
  induction fuel generalizing out sidx didx with
  | zero => omega
  | succ fuel ih =>
    rw [joinLoop, if_pos (by omega)]
    rcases joinGroup_reads out sidx didx with bad | ⟨out', made, size, behind⟩
    · rw [bad]
      rfl
    · have further := @ih out' (sidx + 4) (didx + 3) (by omega) (by omega) (by omega) (by omega)
      rw [size] at further
      rw [made]
      exact further

theorem joinedLength_huge {n : Nat} (huge : n = 2 ^ 32 - 2 ∨ n = 2 ^ 32 - 1) :
    joinedLength n = n := by
  unfold joinedLength
  omega

theorem joinAll_overflows (many : 8 < out.length) :
    joinAll out.length out = .error .overflowed := by
  rw [joinAll, if_pos (by omega), joinLoop_overflows many rfl (Nat.zero_le _) (Nat.zero_add _).ge]
  rfl

/-! ## What is accepted -/

theorem equals_notin : ¬ 0x3D ∈ alphabet := by decide

theorem scan_inLanguage {equals : Nat} (small : ∀ value ∈ values, value.toNat < 64)
    (enough : equals = 0 ∨ equals ≤ 2 ∧ length % 4 = 0) :
    scan icu .failOnInvalidCharacterOrExcessPadding base64DecMap length 0 []
        (digitsOf values ++ List.replicate equals 0x3D) = some (equals, values) := by
  have few : 0 + equals ≤ 2 := by omega
  have whole : equals = 0 ∨ length % 4 = 0 := enough.imp_right And.right
  have digits := @scan_values icu .failOnInvalidCharacterOrExcessPadding _ _ [] values length
    (List.replicate equals 0x3D) inverse_base64 small
  refine digits.trans ?_
  rw [List.nil_append, scan_equals few whole, Nat.zero_add]

/-- A text of alphabet characters has no equals signs. -/
theorem Huge.length_eq {equals : Nat} (huge : Huge (digitsOf values ++ List.replicate equals 0x3D)) :
    equals = 0 ∧ (values.length = 2 ^ 32 - 2 ∨ values.length = 2 ^ 32 - 1) := by
  obtain ⟨all, long⟩ := huge
  have none : equals = 0 := by
    by_contra some_
    exact equals_notin (all 0x3D (List.mem_append_right _ (List.mem_replicate.mpr ⟨some_, rfl⟩)))
  rw [none, List.replicate_zero, List.append_nil, digitsOf_length] at long
  exact ⟨none, long⟩

theorem Huge.inLanguage (huge : Huge text) : InLanguage text := by
  refine ⟨text, 0, by simp, huge.1, ?_, .inl rfl⟩
  have long := huge.2
  omega

theorem accepted_iff (fits : text.length < 2 ^ 32) :
    (∃ out, base64DecodeInternal icu .failOnInvalidCharacterOrExcessPadding base64DecMap text =
      .ok out) ↔ InLanguage text ∧ ¬ Huge text := by
  by_cases empty : text = []
  · subst empty
    have language : InLanguage [] := ⟨[], 0, rfl, by simp, by simp, .inl rfl⟩
    have short : ¬ Huge [] := by
      rintro ⟨-, long | long⟩ <;> cases long
    exact ⟨fun _ => ⟨language, short⟩, fun _ => ⟨[], rfl⟩⟩
  · have written : text.length ≠ 0 := fun none => empty (List.eq_nil_of_length_eq_zero none)
    rw [base64DecodeInternal, if_neg written]
    constructor
    · rintro ⟨out, accepted⟩
      rcases scanned : scan icu .failOnInvalidCharacterOrExcessPadding base64DecMap text.length 0 []
        text with _ | ⟨total, final⟩
      · rw [scanned] at accepted
        cases accepted
      · obtain ⟨_, equals, same, rfl, rfl, small, -, enough⟩ := scan_shape scanned
        rw [scanned, Nat.zero_add] at accepted
        rw [Nat.zero_add] at enough
        dsimp only at accepted
        by_cases digits : final.length = 0
        · rw [if_pos digits] at accepted
          split_ifs at accepted with none
          obtain rfl := List.eq_nil_of_length_eq_zero digits
          rw [none] at same
          exact absurd same empty
        · rw [if_neg digits] at accepted
          split_ifs at accepted with ragged nothing
          refine ⟨⟨digitsOf final, equals, same, digitsOf_mem small, ?_, ?_⟩, fun huge => ?_⟩
          · rwa [digitsOf_length]
          · rw [digitsOf_length]
            omega
          · rw [same] at huge
            obtain ⟨rfl, long⟩ := huge.length_eq
            have size : text.length = final.length := by
              rw [same, List.replicate_zero, List.append_nil, digitsOf_length]
            rw [joinedLength_huge long, size, Nat.sub_self, List.replicate_zero, List.append_nil,
              joinAll_overflows (by omega)] at accepted
            cases accepted
    · rintro ⟨⟨digits, equals, same, all, whole, enough⟩, small⟩
      obtain ⟨values, smalls, rfl⟩ := exists_digitsOf all
      have size : text.length = values.length + equals := by
        rw [same, List.length_append, digitsOf_length, List.length_replicate]
      have scanned := @scan_inLanguage values icu text.length equals smalls (by omega)
      rw [← same] at scanned
      rw [digitsOf_length] at whole enough
      have some_ : values.length ≠ 0 := by omega
      have room : values.length + 3 < 2 ^ 32 := by
        by_contra many
        obtain rfl : equals = 0 := by omega
        rw [List.replicate_zero, List.append_nil] at same
        exact small ⟨same ▸ digitsOf_mem smalls, by omega⟩
      have joinedSize := joined_length values whole
      rw [scanned]
      dsimp only
      rw [if_neg some_, if_neg whole, joinedLength_eq whole room, if_neg (by omega),
        joinAll_eq whole]
      exact ⟨_, rfl⟩

/-! ## Round trip and language -/

/-- What the encoder writes is decoded to what it was, as a string and as a vector. -/
def RoundTrips (encoded : Option (List UInt8))
    (decode : Characters → Except DecodeFailure (List UInt8)) (x : List UInt8) : Prop :=
  ∃ text, encoded = some text ∧ decode (.string (text.map UInt8.toUInt16)) = .ok x ∧
    decode (.vector text) = .ok x

/-- Bytes come back, and what is accepted without invalid characters and excess padding is
the language. -/
structure Base64Right (icu : Icu) (x : List UInt8) (s : Characters) : Prop where
  plain : RoundTrips (base64Encode x .doNotInsertLFs) (base64Decode icu · .ignoreWhitespace) x
  lines : RoundTrips (base64Encode x .insertLFs) (base64Decode icu · .ignoreWhitespace) x
  url : RoundTrips (base64URLEncode x) (base64URLDecode icu) x
  language : (∃ out, base64Decode icu s .failOnInvalidCharacterOrExcessPadding = .ok out) ↔
    InLanguage s.codes

variable {x : List UInt8}

theorem codes_length (s : Characters) : s.codes.length = match s with
    | .string data => data.length
    | .vector data => data.length := by
  cases s <;> exact List.length_map _

theorem not_pathological {s : Characters} (fits : s.codes.length < 2 ^ 32) :
    s.pathological = false := by
  rw [codes_length] at fits
  cases s with
  | string => rfl
  | vector data => exact decide_eq_false (by dsimp only at fits; omega)

theorem string_codes (text : List UInt8) :
    (Characters.string (text.map UInt8.toUInt16)).codes = text.map UInt8.toNat := by
  rw [Characters.codes, List.map_map]
  exact List.map_congr_left fun byte _ => UInt8.toNat_toUInt16 byte

theorem vector_codes {text : List UInt8} (ascii : ∀ ch ∈ text, ch.toNat < 128) :
    (Characters.vector text).codes = text.map UInt8.toNat := by
  refine List.map_congr_left fun byte member => if_pos ?_
  rw [UInt8.lt_iff_toNat_lt]
  exact ascii byte member

theorem base64Decode_eq {s : Characters} {policy : Base64DecodePolicy}
    (short : s.pathological = false) :
    base64Decode icu s policy = base64DecodeInternal icu policy base64DecMap s.codes := by
  rw [base64Decode, short]
  rfl

/-- What the encoder writes is a string of ASCII characters that is read again. -/
theorem roundTrips {encodeMap decodeMap : List UInt8} (inverse : Inverse encodeMap decodeMap)
    {encodePolicy : Base64EncodePolicy} {policy : Base64DecodePolicy}
    {decode : Characters → Except DecodeFailure (List UInt8)}
    (decodes : ∀ s, s.pathological = false →
      decode s = base64DecodeInternal icu policy decodeMap s.codes)
    (lenient : policy ≠ .failOnInvalidCharacterOrExcessPadding)
    (allowed : encodePolicy = .insertLFs → policy = .ignoreWhitespace)
    (small : x.length ≤ maxInputBufferSize) :
    RoundTrips (base64EncodeInternal x encodePolicy encodeMap) decode x := by
  obtain ⟨insertLFs, padding, written, feeds, none⟩ :=
    @base64EncodeInternal_eq encodeMap x small encodePolicy
  have ascii : ∀ ch ∈ encodeGroups encodeMap insertLFs 0 x ++ List.replicate padding 0x3D,
      ch.toNat < 128 := by
    refine List.forall_mem_append.mpr ⟨encodeGroups_ascii inverse insertLFs 0, fun ch member => ?_⟩
    rw [List.eq_of_mem_replicate member]
    decide
  have back := @base64DecodeInternal_encoded icu policy _ _ x inverse small insertLFs padding
    lenient (fun set => allowed (feeds set)) fun empty => none (.inl empty)
  have codes := vector_codes ascii
  have short := base64EncodeInternal_length small written
  refine ⟨_, written, ?_, ?_⟩
  · rw [decodes _ rfl, string_codes, back]
  · rw [decodes _ (not_pathological (by rwa [codes, List.length_map])), codes, back]

/-- **Base64 round trip and accepted language.** -/
theorem base64_right_iff (icu : Icu) (x : List UInt8) (s : Characters)
    (small : x.length ≤ maxInputBufferSize) (fits : s.codes.length < 2 ^ 32) :
    Base64Right icu x s ↔ ¬ Huge s.codes := by
  have decodes := @base64Decode_eq icu
  have decodesURL (s : Characters) (short : s.pathological = false) : base64URLDecode icu s =
      base64DecodeInternal icu .failOnInvalidCharacter base64URLDecMap s.codes := by
    rw [base64URLDecode, short]
    rfl
  have accepted := @accepted_iff icu _ fits
  rw [← decodes (not_pathological fits)] at accepted
  constructor
  · rintro right huge
    exact (accepted.mp (right.language.mpr huge.inLanguage)).2 huge
  · intro short
    refine ⟨?_, ?_, ?_, ?_⟩
    · exact roundTrips inverse_base64 (fun _ => decodes) (by decide) (fun _ => rfl) small
    · exact roundTrips inverse_base64 (fun _ => decodes) (by decide) (fun _ => rfl) small
    · exact roundTrips inverse_base64URL decodesURL (by decide) Base64EncodePolicy.noConfusion small
    · exact accepted.trans (and_iff_left short)

theorem base64_right_iff_padded : Base64Right Icu.forASCII [0x4D, 0x61]
    (.string [0x54, 0x57, 0x45, 0x3D]) :=
  (base64_right_iff Icu.forASCII [0x4D, 0x61] (.string [0x54, 0x57, 0x45, 0x3D]) (by decide)
    (by decide)).mpr fun huge => absurd huge.2 (by decide)

/-- Adding 3 to the number of values leads back to 1, so nothing is subtracted. -/
theorem huge_text_overflows :
    ¬ Base64Right Icu.forASCII [] (.vector (List.replicate (2 ^ 32 - 2) 0x41)) := by
  intro right
  have codes : (Characters.vector (List.replicate (2 ^ 32 - 2) 0x41)).codes =
      List.replicate (2 ^ 32 - 2) 0x41 := List.map_replicate
  have fits : (Characters.vector (List.replicate (2 ^ 32 - 2) 0x41)).codes.length < 2 ^ 32 := by
    rw [codes, List.length_replicate]
    decide
  have huge : Huge (Characters.vector (List.replicate (2 ^ 32 - 2) 0x41)).codes := by
    rw [codes]
    refine ⟨fun ch member => ?_, .inl List.length_replicate⟩
    rw [List.eq_of_mem_replicate member]
    decide
  have language := right.language.mpr huge.inLanguage
  rw [base64Decode_eq (not_pathological fits)] at language
  exact ((accepted_iff fits).mp language).2 huge

end NetRider.Wtf.Base64
