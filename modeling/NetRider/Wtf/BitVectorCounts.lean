import NetRider.Wtf.BitVectorSets

/-!
# Counts, equality and hashes of BitVectors

What is computed of a vector depends on its set alone.
-/

namespace NetRider.Wtf.BitVectors

open NetRider.Lib.PopulationCount

/-! ## Counts of words -/

variable {b0 b1 b2 b3 : Nat}

theorem word_lt (small : b0 < 256 ∧ b1 < 256 ∧ b2 < 256 ∧ b3 < 256) :
    word (nibbles b0) (nibbles b1) (nibbles b2) (nibbles b3) < 2 ^ 32 ∧
    word (nibbles b0) (nibbles b1) (nibbles b2) (nibbles b3) +
      word (nibbles b0) (nibbles b1) (nibbles b2) (nibbles b3) / 16 < 2 ^ 32 := by
  have most0 := (pairs_facts b0 small.1).2.1
  have most1 := (pairs_facts b1 small.2.1).2.1
  have most2 := (pairs_facts b2 small.2.2.1).2.1
  have most3 := (pairs_facts b3 small.2.2.2).2.1
  unfold word
  omega

theorem bitCount32_eq (x : BitVec 32) : bitCount32 x = count 32 x.toNat := by
  obtain ⟨b0, b1, b2, b3, small, bytes⟩ : ∃ b0 b1 b2 b3,
      (b0 < 256 ∧ b1 < 256 ∧ b2 < 256 ∧ b3 < 256) ∧ x.toNat = word b0 b1 b2 b3 := by
    have less := x.isLt
    refine ⟨x.toNat % 256, x.toNat / 256 % 256, x.toNat / 256 / 256 % 256,
      x.toNat / 256 / 256 / 256, by omega, ?_⟩
    unfold word
    omega
  have half : ((x >>> 1) &&& 0x55555555#32).toNat =
      word b0 b1 b2 b3 / 2 &&& word 0x55 0x55 0x55 0x55 := by
    rw [BitVec.toNat_and, BitVec.toNat_ushiftRight, Nat.shiftRight_eq_div_pow, bytes]
    rfl
  have first : (x - ((x >>> 1) &&& 0x55555555#32)).toNat =
      word (pairs b0) (pairs b1) (pairs b2) (pairs b3) := by
    have least : (x >>> 1) &&& 0x55555555#32 ≤ x := by
      rw [BitVec.le_def, half, bytes]
      exact Nat.and_le_left.trans (Nat.div_le_self ..)
    rw [BitVec.toNat_sub_of_le least, half, bytes, word_pairs small]
  rw [bitCount32]
  generalize x - ((x >>> 1) &&& 0x55555555#32) = y at first
  have second : ((y &&& 0x33333333#32) + ((y >>> 2) &&& 0x33333333#32)).toNat =
      word (nibbles b0) (nibbles b1) (nibbles b2) (nibbles b3) := by
    have sum := word_nibbles small
    rw [← first] at sum
    rw [BitVec.toNat_add, BitVec.toNat_and, BitVec.toNat_and, BitVec.toNat_ushiftRight,
      Nat.shiftRight_eq_div_pow]
    change ((y.toNat &&& word 0x33 0x33 0x33 0x33) + (y.toNat / 4 &&& word 0x33 0x33 0x33 0x33)) %
      2 ^ 32 = _
    rw [sum, Nat.mod_eq_of_lt (word_lt small).1]
  generalize (y &&& 0x33333333#32) + ((y >>> 2) &&& 0x33333333#32) = z at second
  have third : ((z + (z >>> 4)) &&& 0xF0F0F0F#32).toNat =
      word (count 8 b0) (count 8 b1) (count 8 b2) (count 8 b3) := by
    rw [BitVec.toNat_and, BitVec.toNat_add, BitVec.toNat_ushiftRight, Nat.shiftRight_eq_div_pow,
      second, show (2 : Nat) ^ 4 = 16 from rfl, Nat.mod_eq_of_lt (word_lt small).2]
    exact word_bytes small
  rw [BitVec.toNat_ushiftRight, BitVec.toNat_mul, third, Nat.shiftRight_eq_div_pow, bytes]
  exact word_sum small

theorem bitCount64_eq (w : Word) : bitCount64 w = count 64 w.toNat := by
  have parts := @count_add (w.toNat % 2 ^ 32) (w.toNat / 2 ^ 32) 32 32 (Nat.mod_lt _ (by decide))
  rw [Nat.mod_add_div] at parts
  have less := w.isLt
  rw [bitCount64, bitCount32_eq, bitCount32_eq, BitVec.toNat_setWidth, BitVec.toNat_setWidth,
    BitVec.toNat_ushiftRight, Nat.shiftRight_eq_div_pow,
    Nat.mod_eq_of_lt (by omega : w.toNat / 2 ^ 32 < 2 ^ 32), ← parts]

/-! ## Counts of vectors -/

open BitVector

variable {v other : BitVector} {ws ws' : List Word} {n : Nat}

theorem count_bits (w : Word) (ws : List Word) :
    (List.range 64).countP (bitOf (w :: ws)) = bitCount64 w := by
  rw [bitCount64_eq, count]
  refine List.countP_congr fun i within => ?_
  rw [bitOf_cons_low (List.mem_range.mp within)]
  rfl

/-- The words are counted one after the other. -/
theorem countP_words :
    (List.range (64 * ws.length)).countP (bitOf ws) = (ws.map bitCount64).sum := by
  induction ws with
  | nil => rfl
  | cons w ws ih =>
    rw [List.length_cons, show 64 * (ws.length + 1) = 64 + 64 * ws.length by ring, List.range_add,
      List.countP_append, List.countP_map, count_bits, List.map_cons, List.sum_cons, ← ih]
    refine congrArg (bitCount64 w + ·) (List.countP_congr fun i _ => ?_)
    rw [Function.comp_apply, bitOf_cons_high]

theorem ncard_bits : {i | bitOf ws i = true}.ncard = (ws.map bitCount64).sum := by
  have members : {i | bitOf ws i = true} =
      (((Finset.range (64 * ws.length)).filter (bitOf ws · = true) : Finset Nat) : Set Nat) := by
    ext i
    rw [Finset.coe_filter, Set.mem_ofPred_eq, Set.mem_ofPred_eq, Finset.mem_range]
    refine ⟨fun bit => ⟨?_, bit⟩, And.right⟩
    by_contra high
    rw [bitOf_of_ge (by omega)] at bit
    cases bit
  rw [members, Set.ncard_coe_finset, ← countP_words, List.countP_eq_length_filter,
    Finset.card_def, Finset.filter_val, Finset.range_val, ← Multiset.coe_range,
    Multiset.filter_coe, Multiset.coe_card]
  simp

/-- The loop folds over the words from behind. -/
theorem foldLoop_eq {β : Type} {f : β → Word → β} {acc : β} (inside : n ≤ ws.length) :
    foldLoop f ws n acc = .ok ((ws.take n).foldr (fun w result => f result w) acc) := by
  induction n generalizing acc with
  | zero => rfl
  | succ n ih =>
    rw [foldLoop, List.getElem?_eq_getElem inside]
    simp only
    rw [ih (by omega), List.take_succ_eq_append_getElem inside, List.foldr_append]
    rfl

theorem foldLoop_words {β : Type} {f : β → Word → β} {acc : β} {o : OutOfLineBits}
    (valid : (pointer o).Valid) : foldLoop f o.words (o.numWords % 2 ^ 32) acc =
      .ok (o.words.foldr (fun w result => f result w) acc) := by
  have few := small_numBits valid
  rw [numWords_eq valid, Nat.mod_eq_of_lt (by omega), foldLoop_eq (Nat.le_refl _),
    List.take_length]

theorem foldr_sum {acc : Nat} : ws.foldr (fun w result => result + bitCount64 w) acc =
    acc + (ws.map bitCount64).sum := by
  induction ws with
  | nil => rfl
  | cons w ws ih =>
    rw [List.foldr_cons, ih, List.map_cons, List.sum_cons]
    ring

theorem bitCount_eq (valid : v.Valid) : v.bitCount = .ok {i | v.Has i}.ncard := by
  change v.bitCount = .ok {i | bitOf v.contents i = true}.ncard
  rw [ncard_bits]
  rcases v with w | o
  · simp only [BitVector.bitCount, isInline_word valid, contents, List.map_singleton,
      List.sum_singleton]
  · simp only [BitVector.bitCount, isInline_pointer, outOfLineBits, bind, Except.bind,
      foldLoop_words valid]
    rw [foldr_sum, Nat.zero_add, contents]

/-! ## Equality -/

theorem equalsLoop_eq (valid : v.Valid) (valid' : other.Valid) :
    ∃ b, equalsLoop v other n = .ok b ∧
      (b = true ↔ ∀ i < n, bitOf v.contents i = bitOf other.contents i) := by
  induction n with
  | zero => exact ⟨true, rfl, iff_of_true rfl fun i below => absurd below (Nat.not_lt_zero i)⟩
  | succ n ih =>
    rw [equalsLoop, get_eq valid, get_eq valid']
    simp only [bind, Except.bind, pure, Except.pure]
    by_cases same : bitOf v.contents n = bitOf other.contents n
    · rw [if_neg (not_not_intro same)]
      obtain ⟨b, loops, iff⟩ := ih
      refine ⟨b, loops, iff.trans ⟨fun all i below => ?_, fun all i below => all i (by omega)⟩⟩
      rcases Nat.lt_succ_iff_lt_or_eq.mp below with less | rfl
      · exact all i less
      · exact same
    · rw [if_pos same]
      exact ⟨false, rfl, iff_of_false (by decide) fun all => same (all n (Nat.lt_succ_self n))⟩

theorem has_congr : (∀ i, v.Has i ↔ other.Has i) ↔
    ∀ i, bitOf v.contents i = bitOf other.contents i :=
  forall_congr' fun _ => Bool.eq_iff_iff.symm

theorem room_lt (valid : v.Valid) : v.room < 2 ^ 32 := by
  rcases v with w | o
  · rw [room]
    decide
  · exact valid.2.2

theorem word_inj {w w' : Word} (valid : (word w).Valid) (valid' : (word w').Valid)
    (same : ∀ i, bitOf [cleanseInlineBits w] i = bitOf [cleanseInlineBits w'] i) : w = w' := by
  refine BitVec.eq_of_getLsbD_eq fun i small => ?_
  rcases Nat.lt_or_ge i 63 with low | high
  · rw [← bitOf_inline low, ← bitOf_inline low, same]
  · obtain rfl : i = 63 := by omega
    exact valid.trans valid'.symm

theorem equals_eq (valid : v.Valid) (valid' : other.Valid) :
    ∃ b, v.equals other = .ok b ∧ (b = true ↔ ∀ i, v.Has i ↔ other.Has i) := by
  have slow : ∃ b, equalsLoop v other (max v.room other.room % 2 ^ 32) = .ok b ∧
      (b = true ↔ ∀ i, v.Has i ↔ other.Has i) := by
    have less := room_lt valid
    have less' := room_lt valid'
    rw [Nat.mod_eq_of_lt (by omega)]
    obtain ⟨b, loops, iff⟩ := @equalsLoop_eq v other (max v.room other.room) valid valid'
    refine ⟨b, loops, iff.trans ?_⟩
    rw [has_congr]
    refine ⟨fun all i => ?_, fun all i _ => all i⟩
    by_cases below : i < max v.room other.room
    · exact all i below
    · rw [not_has_of_ge valid (by omega), not_has_of_ge valid' (by omega)]
  rcases v with w | o
  · rcases other with w' | o'
    · simp only [equals, isInline_word valid, isInline_word valid', Bool.and_self]
      refine ⟨w == w', rfl, ?_⟩
      rw [beq_iff_eq, has_congr]
      refine ⟨?_, word_inj valid valid'⟩
      rintro rfl i
      rfl
    · simpa only [equals, isInline_pointer, Bool.and_false, size_eq valid, size_eq valid', bind,
        Except.bind] using slow
  · simpa only [equals, isInline_pointer, Bool.false_and, size_eq valid, size_eq valid', bind,
      Except.bind] using slow

/-! ## Hashes -/

def xorAll (ws : List Word) : Word := ws.foldr (fun w result => result ^^^ w) 0#64

theorem xorAll_cons {w : Word} : xorAll (w :: ws) = xorAll ws ^^^ w := rfl

/-- Words that are zero do not count. -/
theorem xorAll_congr (same : ∀ k, wordAt ws k = wordAt ws' k) : xorAll ws = xorAll ws' := by
  induction ws generalizing ws' with
  | nil =>
    induction ws' with
    | nil => rfl
    | cons w ws ih =>
      have first : w = 0 := (same 0).symm
      rw [xorAll_cons, ← ih fun k => same (k + 1), first]
      rfl
  | cons w ws ih =>
    rcases ws' with _ | ⟨w', ws'⟩
    · have first : w = 0 := same 0
      rw [xorAll_cons, first, @ih [] fun k => same (k + 1)]
      rfl
    · have first : w = w' := same 0
      rw [xorAll_cons, xorAll_cons, first, ih fun k => same (k + 1)]

theorem hash_eq (valid : v.Valid) : v.hash = .ok (intHash (xorAll v.contents)) := by
  rcases v with w | o
  · simp only [BitVector.hash, isInline_word valid, contents]
    rw [xorAll_cons, xorAll, List.foldr_nil, BitVec.zero_xor]
  · simp only [BitVector.hash, isInline_pointer, outOfLineBits, bind, Except.bind, pure,
      Except.pure, foldLoop_words valid]
    rfl

/-- Equal sets have equal hashes. -/
theorem hash_congr (valid : v.Valid) (valid' : other.Valid) (same : ∀ i, v.Has i ↔ other.Has i) :
    v.hash = other.hash := by
  rw [hash_eq valid, hash_eq valid', xorAll_congr fun k => wordAt_congr (has_congr.mp same)]

end NetRider.Wtf.BitVectors
