import NetRider.Wtf.BitVector
import Mathlib.Data.Set.Card

/-!
# BitVectors as sets

The set of a vector is read off its words, with the mark of an inline vector taken out. Every
operation is described by what it makes of the set.
-/

namespace NetRider.Wtf.BitVectors

open NetRider.Lib.PopulationCount (count and_parts)

/-! ## Bits of words -/

variable {w x : Word} {i j k n : Nat}

theorem getLsbD_one_shift : (1#64 <<< k).getLsbD j = (decide (k < 64) && decide (k = j)) := by
  rw [← BitVec.twoPow_eq, BitVec.getLsbD_twoPow]

theorem getLsbD_tag : tag.getLsbD j = decide (j = 63) := by
  rw [tag, getLsbD_one_shift]
  simp [maxInlineBits, bitsInPointer, eq_comm]

theorem getLsbD_cleanse (small : j < 64) :
    (cleanseInlineBits w).getLsbD j = (w.getLsbD j && decide (j ≠ 63)) := by
  rw [cleanseInlineBits, BitVec.getLsbD_and, BitVec.getLsbD_not, getLsbD_tag, decide_eq_true small,
    Bool.true_and, decide_not]

theorem and_one_shift (small : k < 64) : (w &&& (1#64 <<< k) ≠ 0#64) ↔ w.getLsbD k = true := by
  constructor
  · intro some
    by_contra none
    refine some (BitVec.eq_of_getLsbD_eq fun i _ => ?_)
    rw [BitVec.getLsbD_and, getLsbD_one_shift]
    by_cases same : k = i
    · subst same
      simp [none]
    · simp [same]
  · intro bit zero
    have none : (w &&& (1#64 <<< k)).getLsbD k = false := by
      rw [zero, BitVec.getLsbD_zero]
    rw [BitVec.getLsbD_and, getLsbD_one_shift, bit, decide_eq_true small, decide_eq_true rfl] at none
    cases none

theorem shift_maxInlineBits : (w >>> maxInlineBits ≠ 0#64) ↔ w.getLsbD 63 = true := by
  constructor
  · intro some
    by_contra none
    refine some (BitVec.eq_of_getLsbD_eq fun i _ => ?_)
    rw [BitVec.getLsbD_ushiftRight, maxInlineBits, bitsInPointer]
    rcases i with _ | i
    · simpa using none
    · rw [BitVec.getLsbD_of_ge _ _ (by omega)]
      simp
  · intro bit zero
    have none : (w >>> maxInlineBits).getLsbD 0 = false := by
      rw [zero, BitVec.getLsbD_zero]
    rw [BitVec.getLsbD_ushiftRight] at none
    exact absurd (bit.symm.trans none) (by decide)

theorem and_bits : j &&& bitsInPointer - 1 = j % 64 := Nat.and_two_pow_sub_one_eq_mod j 6

/-! ## Lists of words -/

def wordAt (ws : List Word) (k : Nat) : Word := ws[k]?.getD 0

def bitOf (ws : List Word) (i : Nat) : Bool := (wordAt ws (i / 64)).getLsbD (i % 64)

variable {ws ws' : List Word}

theorem wordAt_of_ge (high : ws.length ≤ k) : wordAt ws k = 0 := by
  rw [wordAt, List.getElem?_eq_none high]
  rfl

theorem getElem?_of_wordAt (inside : k < ws.length) : ws[k]? = some (wordAt ws k) := by
  rw [wordAt, List.getElem?_eq_getElem inside]
  rfl

theorem wordAt_set (inside : k < ws.length) :
    wordAt (ws.set k x) j = if j = k then x else wordAt ws j := by
  unfold wordAt
  by_cases same : j = k
  · subst same
    rw [List.getElem?_set_self inside, if_pos rfl]
    rfl
  · rw [List.getElem?_set_ne (Ne.symm same), if_neg same]

theorem wordAt_append_zeros : wordAt (ws ++ List.replicate n 0) k = wordAt ws k := by
  rcases Nat.lt_or_ge k ws.length with low | high
  · rw [wordAt, List.getElem?_append_left low]
    rfl
  · rw [wordAt_of_ge high, wordAt, List.getElem?_append_right high, List.getElem?_replicate]
    split <;> rfl

theorem wordAt_replicate : wordAt (List.replicate n 0) k = 0 := by
  rw [wordAt, List.getElem?_replicate]
  split <;> rfl

theorem wordAt_zero_cons : wordAt (w :: ws) 0 = w := rfl

theorem wordAt_succ_cons : wordAt (w :: ws) (k + 1) = wordAt ws k := rfl

theorem bitOf_of_ge (high : 64 * ws.length ≤ i) : bitOf ws i = false := by
  rw [bitOf, wordAt_of_ge (by omega)]
  exact BitVec.getLsbD_zero

theorem bitOf_cons_low (low : i < 64) : bitOf (w :: ws) i = w.getLsbD i := by
  rw [bitOf, Nat.div_eq_of_lt low, Nat.mod_eq_of_lt low, wordAt_zero_cons]

theorem bitOf_cons_high : bitOf (w :: ws) (64 + i) = bitOf ws i := by
  rw [bitOf, Nat.add_comm, Nat.add_mod_right, Nat.add_div_right _ (by decide), wordAt_succ_cons,
    bitOf]

/-- Vectors with the same bits have the same words. -/
theorem wordAt_congr (same : ∀ i, bitOf ws i = bitOf ws' i) : wordAt ws k = wordAt ws' k := by
  refine BitVec.eq_of_getLsbD_eq fun i small => ?_
  have bit := same (64 * k + i)
  rwa [bitOf, bitOf, Nat.mul_add_mod, Nat.mod_eq_of_lt small, Nat.mul_add_div (by decide),
    Nat.div_eq_of_lt small, Nat.add_zero] at bit

/-! ## Valid vectors -/

namespace BitVector

/-- An inline vector has its mark, and the others have as many words as they say. -/
def Valid : BitVector → Prop
  | word w => w.getLsbD 63 = true
  | pointer o => o.numBits = 64 * o.words.length ∧ 0 < o.words.length ∧ o.numBits < 2 ^ 32

/-- The words of the vector, without the mark. -/
def contents : BitVector → List Word
  | word w => [cleanseInlineBits w]
  | pointer o => o.words

/-- The number of bits that fit in. -/
def room : BitVector → Nat
  | word _ => 63
  | pointer o => o.numBits

/-- `i` is in the set. -/
def Has (v : BitVector) (i : Nat) : Prop := bitOf v.contents i = true

end BitVector

open BitVector

variable {v other : BitVector} {o : OutOfLineBits}

theorem isInline_word (valid : (word w).Valid) : (word w).isInline = true :=
  decide_eq_true (shift_maxInlineBits.mpr valid)

theorem numWords_eq (valid : (pointer o).Valid) : o.numWords = o.words.length := by
  have whole := valid.1
  rw [OutOfLineBits.numWords, bitsInPointer]
  omega

theorem size_eq (valid : v.Valid) : v.size = .ok v.room := by
  rcases v with w | o
  · rw [BitVector.size, if_pos (isInline_word valid)]
    rfl
  · rfl

theorem bitOf_inline (small : i < 63) : bitOf [cleanseInlineBits w] i = w.getLsbD i := by
  rw [bitOf_cons_low (by omega), getLsbD_cleanse (by omega), decide_eq_true (by omega),
    Bool.and_true]

theorem bitOf_inline_high (high : 63 ≤ i) : bitOf [cleanseInlineBits w] i = false := by
  rcases Nat.eq_or_lt_of_le high with rfl | above
  · rw [bitOf_cons_low (by omega), getLsbD_cleanse (by omega), decide_eq_false (by decide),
      Bool.and_false]
  · exact bitOf_of_ge (by rw [List.length_singleton]; omega)

/-- Nothing is in the set beyond the room. -/
theorem not_has_of_ge (valid : v.Valid) (high : v.room ≤ i) : bitOf v.contents i = false := by
  rcases v with w | o
  · exact bitOf_inline_high high
  · have whole := valid.1
    exact bitOf_of_ge (by rw [contents, ← whole]; exact high)

theorem get_eq (valid : v.Valid) : v.get i = .ok (bitOf v.contents i) := by
  rw [BitVector.get, size_eq valid]
  simp only [bind, Except.bind, pure, Except.pure]
  by_cases high : v.room ≤ i
  · rw [if_pos high, not_has_of_ge valid high]
  · rw [if_neg high]
    rcases v with w | o
    · have small : i < 63 := by
        rw [room] at high
        omega
      rw [quickGet, loadWord, if_pos (isInline_word valid), bitsInPointer, if_pos (by omega)]
      simp only [bind, Except.bind, pure, Except.pure, contents]
      rw [bitOf_inline small, show i &&& 64 - 1 = i % 64 from and_bits]
      refine congrArg Except.ok (Bool.eq_iff_iff.mpr ?_)
      rw [decide_eq_true_iff, and_one_shift (by omega), Nat.mod_eq_of_lt (by omega)]
    · have whole := valid.1
      rw [room] at high
      rw [quickGet, loadWord, bitsInPointer, getElem?_of_wordAt (by omega)]
      simp only [bind, Except.bind, pure, Except.pure, contents]
      rw [show i &&& 64 - 1 = i % 64 from and_bits]
      refine congrArg Except.ok (Bool.eq_iff_iff.mpr ?_)
      rw [decide_eq_true_iff, and_one_shift (by omega), bitOf]

/-! ## Growing -/

theorem created_eq (small : n + 63 < 2 ^ 32) : OutOfLineBits.created n = (n + 63) / 64 * 64 := by
  have parts := @and_parts ((n + 63) % 2 ^ 6) ((n + 63) / 2 ^ 6) 6 0 (2 ^ 26 - 1)
    (Nat.mod_lt _ (by decide)) (by decide)
  rw [Nat.mod_add_div, Nat.and_zero, Nat.and_two_pow_sub_one_eq_mod,
    Nat.mod_eq_of_lt (by omega : (n + 63) / 2 ^ 6 < 2 ^ 26)] at parts
  rw [OutOfLineBits.created, bitsInPointer, Nat.mod_eq_of_lt (by omega)]
  change (n + 63) &&& 0xFFFFFFC0 = _
  rw [show (0xFFFFFFC0 : Nat) = 0 + 2 ^ 6 * (2 ^ 26 - 1) by decide, parts]
  omega

theorem created_numWords (small : n + 63 < 2 ^ 32) (words : List Word) :
    OutOfLineBits.numWords ⟨OutOfLineBits.created n, words⟩ = (n + 63) / 64 := by
  rw [OutOfLineBits.numWords, created_eq small, bitsInPointer]
  simp only
  omega

theorem valid_created {words : List Word} (small : n + 63 < 2 ^ 32) (some : 0 < n)
    (length : words.length = (n + 63) / 64) :
    (pointer ⟨OutOfLineBits.created n, words⟩).Valid := by
  have whole := created_eq small
  refine ⟨?_, ?_, ?_⟩
  · change OutOfLineBits.created n = 64 * words.length
    omega
  · change 0 < words.length
    omega
  · change OutOfLineBits.created n < 2 ^ 32
    omega

/-- The vector grows, and keeps its set. -/
theorem resizeOutOfLine_eq (valid : v.Valid) (small : n + 63 < 2 ^ 32) (grows : v.room < n) :
    ∃ o, v.resizeOutOfLine n = .ok (pointer o) ∧ (pointer o).Valid ∧
      o.words.length = (n + 63) / 64 ∧ ∀ i, bitOf o.words i = bitOf v.contents i := by
  have many := created_numWords small []
  rcases v with w | old
  · rw [room] at grows
    rw [resizeOutOfLine, if_pos (isInline_word valid)]
    simp only [many]
    rw [if_neg (by omega)]
    have length : ((cleanseInlineBits w) :: List.replicate ((n + 63) / 64 - 1) (0 : Word)).length =
        (n + 63) / 64 := by
      rw [List.length_cons, List.length_replicate]
      omega
    refine ⟨_, rfl, valid_created small (by omega) length, length, fun i => ?_⟩
    change bitOf ([cleanseInlineBits w] ++ List.replicate ((n + 63) / 64 - 1) 0) i = _
    rw [bitOf, wordAt_append_zeros]
    rfl
  · obtain ⟨whole, some, less⟩ := id valid
    rw [room] at grows
    rw [resizeOutOfLine, if_pos grows]
    simp only [many, numWords_eq valid, List.take_length]
    rw [if_neg (by omega)]
    have length : (old.words ++ List.replicate ((n + 63) / 64 - old.words.length) (0 : Word)).length
        = (n + 63) / 64 := by
      rw [List.length_append, List.length_replicate]
      omega
    refine ⟨_, rfl, valid_created small (by omega) length, length, fun i => ?_⟩
    rw [bitOf, wordAt_append_zeros]
    rfl

theorem ensureSize_eq (valid : v.Valid) (small : n + 63 < 2 ^ 32) :
    ∃ v', v.ensureSize n = .ok v' ∧ v'.Valid ∧ n ≤ v'.room ∧
      ∀ i, bitOf v'.contents i = bitOf v.contents i := by
  rw [ensureSize, size_eq valid]
  simp only [bind, Except.bind, pure, Except.pure]
  by_cases fits : n ≤ v.room
  · rw [if_pos fits]
    exact ⟨v, rfl, valid, fits, fun _ => rfl⟩
  · rw [if_neg fits]
    obtain ⟨o, resizes, valid', length, same⟩ := resizeOutOfLine_eq valid small (by omega)
    refine ⟨pointer o, resizes, valid', ?_, same⟩
    have whole := valid'.1
    rw [room]
    omega

/-! ## Changes in one word -/

/-- A word is changed bit by bit. -/
theorem modifyWord_eq {f : Word → Word} {g : Nat → Bool → Bool} (valid : v.Valid)
    (inside : k < v.contents.length)
    (acts : ∀ w j, j < 64 → (f w).getLsbD j = g j (w.getLsbD j))
    (mark : v.isInline = true → g 63 true = true) :
    ∃ v', v.modifyWord k f = .ok v' ∧ v'.Valid ∧ v'.room = v.room ∧
      ∀ j, bitOf v'.contents j =
        if j / 64 = k ∧ j < v.room then g (j % 64) (bitOf v.contents j)
        else bitOf v.contents j := by
  rcases v with w | o
  · obtain rfl : k = 0 := Nat.lt_one_iff.mp inside
    have kept : (word (f w)).Valid := by
      rw [Valid, acts w 63 (by decide), show w.getLsbD 63 = true from valid]
      exact mark (isInline_word valid)
    rw [modifyWord, if_pos (isInline_word valid), if_pos rfl]
    refine ⟨_, rfl, kept, rfl, fun j => ?_⟩
    rw [contents, contents, room]
    by_cases low : j < 63
    · rw [if_pos (by omega), bitOf_inline low, bitOf_inline low, acts w j (by omega),
        Nat.mod_eq_of_lt (by omega)]
    · rw [if_neg (by omega), bitOf_inline_high (by omega), bitOf_inline_high (by omega)]
  · obtain ⟨whole, some, less⟩ := id valid
    rw [contents] at inside
    rw [modifyWord, getElem?_of_wordAt inside]
    refine ⟨_, rfl, ⟨?_, ?_, less⟩, rfl, fun j => ?_⟩
    · rw [List.length_set]
      exact whole
    · rw [List.length_set]
      exact some
    · rw [contents, contents, room, bitOf, wordAt_set inside]
      by_cases here : j / 64 = k
      · rw [if_pos here, if_pos ⟨here, by omega⟩, acts _ _ (Nat.mod_lt _ (by decide)), bitOf, here]
      · rw [if_neg here, if_neg fun both => here both.1]
        rfl

theorem contents_length (valid : v.Valid) (inside : i < v.room) : i / 64 < v.contents.length := by
  rcases v with w | o
  · rw [room] at inside
    rw [contents, List.length_singleton]
    omega
  · have whole := valid.1
    rw [room] at inside
    rw [contents]
    omega

theorem set_eq (valid : v.Valid) (small : i < 2 ^ 32 - 64) :
    ∃ v', v.set i = .ok v' ∧ v'.Valid ∧ ∀ j, v'.Has j ↔ j = i ∨ v.Has j := by
  obtain ⟨v', ensures, valid', fits, same⟩ := @ensureSize_eq (i + 1) v valid (by omega)
  obtain ⟨v'', modifies, valid'', -, bits⟩ :=
    @modifyWord_eq (i / 64) v' (· ||| (1#64 <<< (i &&& bitsInPointer - 1)))
      (fun j b => b || decide (i % 64 = j)) valid' (contents_length valid' (by omega))
      (fun w j low => by
        rw [BitVec.getLsbD_or, getLsbD_one_shift, and_bits, decide_eq_true (Nat.mod_lt _ (by decide)),
          Bool.true_and])
      (fun _ => rfl)
  refine ⟨v'', ?_, valid'', fun j => ?_⟩
  · rw [BitVector.set, Nat.mod_eq_of_lt (by omega), ensures]
    exact modifies
  · rw [Has, Has, bits, same]
    by_cases here : j / 64 = i / 64 ∧ j < v'.room
    · rw [if_pos here, Bool.or_eq_true, decide_eq_true_iff, or_comm]
      exact or_congr_left (by omega)
    · rw [if_neg here]
      exact ⟨.inr, fun either => either.resolve_left (by omega)⟩

theorem clear_eq (valid : v.Valid) :
    ∃ v', v.clear i = .ok v' ∧ v'.Valid ∧ ∀ j, v'.Has j ↔ j ≠ i ∧ v.Has j := by
  rw [BitVector.clear, size_eq valid]
  simp only [bind, Except.bind, pure, Except.pure]
  by_cases high : v.room ≤ i
  · rw [if_pos high]
    refine ⟨v, rfl, valid, fun j => ⟨fun has => ⟨?_, has⟩, And.right⟩⟩
    rintro rfl
    rw [Has, not_has_of_ge valid high] at has
    cases has
  · rw [if_neg high]
    obtain ⟨v', modifies, valid', -, bits⟩ :=
      @modifyWord_eq (i / 64) v (· &&& ~~~(1#64 <<< (i &&& bitsInPointer - 1)))
        (fun j b => b && !decide (i % 64 = j)) valid (contents_length valid (by omega))
        (fun w j low => by
          rw [BitVec.getLsbD_and, BitVec.getLsbD_not, getLsbD_one_shift, and_bits,
            decide_eq_true (Nat.mod_lt _ (by decide)), decide_eq_true low, Bool.true_and,
            Bool.true_and])
        (fun marked => by
          rcases v with w | o
          · rw [room] at high
            rw [decide_eq_false (by omega)]
            rfl
          · cases marked)
    refine ⟨v', modifies, valid', fun j => ?_⟩
    rw [Has, Has, bits]
    by_cases here : j / 64 = i / 64 ∧ j < v.room
    · rw [if_pos here, Bool.and_eq_true, Bool.not_eq_true', decide_eq_false_iff_not, and_comm]
      exact and_congr_left fun _ => by omega
    · rw [if_neg here]
      exact ⟨fun has => ⟨by omega, has⟩, And.right⟩

/-! ## Whole vectors -/

theorem valid_empty : empty.Valid := by
  rw [empty, makeInlineBits, Valid, BitVec.getLsbD_or, getLsbD_tag]
  rfl

theorem has_empty : ¬ empty.Has i := by
  have none : cleanseInlineBits (makeInlineBits 0) = 0 := by decide
  rw [Has, empty, contents, none, bitOf]
  rcases i / 64 with _ | k
  · rw [wordAt_zero_cons]
    simp
  · rw [wordAt_succ_cons, wordAt_of_ge (Nat.zero_le k)]
    simp

theorem clearAll_eq (valid : v.Valid) :
    ∃ v', v.clearAll = .ok v' ∧ v'.Valid ∧ ∀ j, ¬ v'.Has j := by
  rcases v with w | o
  · rw [clearAll, if_pos (isInline_word valid)]
    exact ⟨_, rfl, valid_empty, fun _ => has_empty⟩
  · obtain ⟨whole, some, less⟩ := id valid
    refine ⟨_, rfl, ⟨?_, ?_, less⟩, fun j => ?_⟩
    · rw [List.length_replicate]
      exact whole
    · rw [List.length_replicate]
      exact some
    · rw [Has, contents, bitOf, wordAt_replicate]
      simp

theorem assign_eq (valid' : other.Valid) :
    ∃ v', v.assign other = .ok v' ∧ v'.Valid ∧ ∀ j, v'.Has j ↔ other.Has j := by
  have slow : ∃ v', setSlow other = .ok v' ∧ v'.Valid ∧ ∀ j, v'.Has j ↔ other.Has j := by
    rcases other with w | o
    · refine ⟨word w, ?_, valid', fun _ => Iff.rfl⟩
      rw [setSlow, isInline_word valid', Bool.true_or, if_pos rfl]
    · obtain ⟨whole, some, less⟩ := id valid'
      have rounded : (o.numBits + 63) / 64 = o.words.length := by omega
      have copied : byteCount o.numBits / 8 = o.words.length := by
        rw [byteCount]
        omega
      have aligned : o.numBits + 63 < 2 ^ 32 := by omega
      simp only [setSlow, isInline, isEmptyOrDeletedValue, Bool.or_self, Bool.false_eq_true,
        if_false, outOfLineBits, bind, Except.bind, pure, Except.pure, created_numWords aligned,
        copied, rounded, List.take_length, if_true]
      exact ⟨_, rfl, valid_created aligned (by omega) rounded.symm, fun _ => Iff.rfl⟩
  rw [assign]
  by_cases both : (v.isInline && other.isInline) = true
  · rw [if_pos both]
    exact ⟨other, rfl, valid', fun _ => Iff.rfl⟩
  · rw [if_neg both]
    exact slow

/-! ## Loops over words -/

theorem wordLoop_eq {f : Word → Word → Word} {a b : List Word} (inside : n ≤ a.length)
    (inside' : n ≤ b.length) : ∃ a', wordLoop f b n a = .ok a' ∧ a'.length = a.length ∧
      ∀ k, wordAt a' k = if k < n then f (wordAt a k) (wordAt b k) else wordAt a k := by
  induction n generalizing a with
  | zero => exact ⟨a, rfl, rfl, fun k => (if_neg (Nat.not_lt_zero k)).symm⟩
  | succ n ih =>
    obtain ⟨a', loops, length, words⟩ := @ih (a.set n (f (wordAt a n) (wordAt b n)))
      (by rw [List.length_set]; omega) (by omega)
    refine ⟨a', ?_, length.trans (List.length_set ..), fun k => ?_⟩
    · rw [wordLoop, getElem?_of_wordAt (by omega), getElem?_of_wordAt (by omega)]
      exact loops
    · rw [words, wordAt_set (by omega)]
      by_cases last : k = n
      · subst last
        rw [if_neg (Nat.lt_irrefl k), if_pos rfl, if_pos (Nat.lt_succ_self k)]
      · rw [if_neg last]
        exact if_congr (by omega) rfl rfl

theorem clearLoop_eq {a : List Word} {fuel : Nat} (inside : n ≤ a.length) (small : n < 2 ^ 32)
    (enough : n - i < fuel) : ∃ a', clearLoop n fuel i a = .ok a' ∧ a'.length = a.length ∧
      ∀ k, wordAt a' k = if i ≤ k ∧ k < n then 0 else wordAt a k := by
  induction fuel generalizing i a with
  | zero => omega
  | succ fuel ih =>
    rw [clearLoop]
    by_cases more : i < n
    · obtain ⟨a', loops, length, words⟩ := @ih (i + 1) (a.set i 0)
        (by rw [List.length_set]; omega) (by omega)
      rw [if_pos more, if_pos (by omega), Nat.mod_eq_of_lt (by omega)]
      refine ⟨a', loops, length.trans (List.length_set ..), fun k => ?_⟩
      rw [words, wordAt_set (by omega)]
      by_cases first : k = i
      · rw [if_neg (by omega), if_pos first, if_pos (by omega)]
      · rw [if_neg first]
        exact if_congr (by omega) rfl rfl
    · rw [if_neg more]
      exact ⟨a, rfl, rfl, fun k => (if_neg (by omega)).symm⟩

/-! ## Two vectors -/

theorem small_numBits (valid : (pointer o).Valid) : o.words.length < 2 ^ 26 := by
  obtain ⟨whole, -, less⟩ := id valid
  omega

/-- The set of a vector whose words are changed in place. -/
theorem has_pointer {words : List Word} : (pointer { o with words := words }).Has i ↔
    bitOf words i = true :=
  Iff.rfl

theorem valid_words {words : List Word} (valid : (pointer o).Valid)
    (length : words.length = o.words.length) : (pointer { o with words := words }).Valid := by
  obtain ⟨whole, some, less⟩ := id valid
  exact ⟨whole.trans (by rw [length]), length ▸ some, less⟩

/-- Both out of line, and `this` has more bits: `merge` reads behind the words of `other`. -/
def Shorter (v other : BitVector) : Prop :=
  v.isInline = false ∧ other.isInline = false ∧ other.room < v.room

theorem isInline_pointer : (pointer o).isInline = false := rfl

theorem merge_words {w' : Word} (valid : (word w).Valid) (valid' : (word w').Valid) :
    ∃ v', (word w).merge (word w') = .ok v' ∧ v'.Valid ∧
      ∀ j, v'.Has j ↔ (word w).Has j ∨ (word w').Has j := by
  simp only [merge, isInline_word valid, isInline_word valid', Bool.and_self]
  refine ⟨_, rfl, ?_, fun j => ?_⟩
  · rw [Valid, BitVec.getLsbD_or, show w.getLsbD 63 = true from valid, Bool.true_or]
  · rw [Has, Has, Has, contents, contents, contents]
    rcases Nat.lt_or_ge j 63 with low | high
    · rw [bitOf_inline low, bitOf_inline low, bitOf_inline low, BitVec.getLsbD_or,
        Bool.or_eq_true]
    · rw [bitOf_inline_high high, bitOf_inline_high high, bitOf_inline_high high]
      exact (or_self_iff).symm

/-- The first word is changed with an inline vector. -/
theorem modifyFirst_eq {f : Word → Word} {g : Bool → Bool → Bool} {w' : Word}
    (valid : (pointer o).Valid)
    (acts : ∀ w j, j < 64 →
      (f w).getLsbD j = g (w.getLsbD j) ((cleanseInlineBits w').getLsbD j))
    (beyond : ∀ j, 64 ≤ j → g (bitOf o.words j) false = bitOf o.words j) :
    ∃ v', (pointer o).modifyWord 0 f = .ok v' ∧ v'.Valid ∧
      ∀ j, bitOf v'.contents j = g (bitOf o.words j) (bitOf (word w').contents j) := by
  obtain ⟨whole, some, less⟩ := id valid
  obtain ⟨v', modifies, valid', same, bits⟩ :=
    @modifyWord_eq 0 (pointer o) f (fun j b => g b ((cleanseInlineBits w').getLsbD j)) valid some
      acts (fun marked => by cases marked)
  refine ⟨v', modifies, valid', fun j => ?_⟩
  rw [bits]
  rcases Nat.lt_or_ge j 64 with low | high
  · rw [if_pos ⟨by omega, by rw [room]; omega⟩, Nat.mod_eq_of_lt low, contents, contents,
      bitOf_cons_low low]
  · rw [if_neg (by omega), show bitOf (word w').contents j = false from
      bitOf_inline_high (by omega), beyond j high]
    rfl

theorem merge_pointer_word {w' : Word} (valid : (pointer o).Valid) (valid' : (word w').Valid) :
    ∃ v', (pointer o).merge (word w') = .ok v' ∧ v'.Valid ∧
      ∀ j, v'.Has j ↔ (pointer o).Has j ∨ (word w').Has j := by
  simp only [merge, mergeSlow, isInline_pointer, isInline_word valid', Bool.false_and]
  obtain ⟨v', modifies, valid'', bits⟩ :=
    @modifyFirst_eq o (· ||| cleanseInlineBits w') or w' valid (fun w j low => BitVec.getLsbD_or)
      (fun j high => Bool.or_false _)
  refine ⟨v', modifies, valid'', fun j => ?_⟩
  rw [Has, Has, Has, bits, Bool.or_eq_true]
  rfl

theorem merge_pointer {o' : OutOfLineBits} (valid : v.Valid) (valid' : (pointer o').Valid)
    (fits : v.isInline = false → v.room ≤ o'.numBits) :
    ∃ v', v.merge (pointer o') = .ok v' ∧ v'.Valid ∧
      ∀ j, v'.Has j ↔ v.Has j ∨ (pointer o').Has j := by
  obtain ⟨whole', some', less'⟩ := id valid'
  have grown : ∃ o, v.ensureSize o'.numBits = .ok (pointer o) ∧ (pointer o).Valid ∧
      o.words.length = o'.words.length ∧ ∀ i, bitOf o.words i = bitOf v.contents i := by
    rw [ensureSize, size_eq valid]
    simp only [bind, Except.bind, pure, Except.pure]
    by_cases enough : o'.numBits ≤ v.room
    · rw [if_pos enough]
      rcases v with w | o
      · rw [room] at enough
        omega
      · have least := fits rfl
        obtain ⟨whole, -, -⟩ := id valid
        rw [room] at enough least
        exact ⟨o, rfl, valid, by omega, fun _ => rfl⟩
    · rw [if_neg enough]
      obtain ⟨o, resizes, valid'', length, same⟩ :=
        @resizeOutOfLine_eq o'.numBits v valid (by omega) (by omega)
      exact ⟨o, resizes, valid'', by omega, same⟩
  obtain ⟨o, ensures, valid'', length, same⟩ := grown
  obtain ⟨words, loops, length', result⟩ :=
    @wordLoop_eq o.words.length (· ||| ·) o.words o'.words (Nat.le_refl _) (by omega)
  have count : o.numWords % 2 ^ 32 = o.words.length := by
    rw [numWords_eq valid'']
    exact Nat.mod_eq_of_lt (by omega)
  simp only [merge, mergeSlow, isInline_pointer, Bool.and_false, size_eq valid', room, ensures,
    outOfLineBits, count, loops, bind, Except.bind, pure, Except.pure]
  refine ⟨_, rfl, valid_words valid'' length', fun j => ?_⟩
  have either : bitOf words j = (bitOf o.words j || bitOf o'.words j) := by
    rw [bitOf, result]
    split
    · exact BitVec.getLsbD_or
    · next beyond =>
      rw [bitOf, bitOf, @wordAt_of_ge _ o'.words (by omega)]
      simp
  rw [has_pointer, either, Bool.or_eq_true, same]
  rfl

theorem merge_eq (valid : v.Valid) (valid' : other.Valid) (fits : ¬ Shorter v other) :
    ∃ v', v.merge other = .ok v' ∧ v'.Valid ∧ ∀ j, v'.Has j ↔ v.Has j ∨ other.Has j := by
  rcases other with w' | o'
  · rcases v with w | o
    · exact merge_words valid valid'
    · exact merge_pointer_word valid valid'
  · refine merge_pointer valid valid' fun out => ?_
    by_contra less
    exact fits ⟨out, rfl, by rw [room]; omega⟩

/-! ## Intersection and difference -/

/-- An inline vector is changed with the first word of `x`, which has no say in the mark. -/
theorem has_word {f : Word → Word → Word} {g : Bool → Bool → Bool} {b : List Word} (j : Nat)
    (acts : ∀ x y j, j < 63 → (f x y).getLsbD j = g (x.getLsbD j) (y.getLsbD j))
    (absent : ∀ c, g false c = false) :
    bitOf [cleanseInlineBits (f w (wordAt b 0))] j =
      g (bitOf [cleanseInlineBits w] j) (bitOf b j) := by
  rcases Nat.lt_or_ge j 63 with low | high
  · rw [bitOf_inline low, bitOf_inline low, acts _ _ _ low, bitOf, Nat.div_eq_of_lt (by omega),
      Nat.mod_eq_of_lt (by omega)]
  · rw [bitOf_inline_high high, bitOf_inline_high high, absent]

theorem getLsbD_and_not (small : j < 64) :
    (w &&& ~~~x).getLsbD j = (w.getLsbD j && !x.getLsbD j) := by
  rw [BitVec.getLsbD_and, BitVec.getLsbD_not, decide_eq_true small, Bool.true_and]

theorem valid_or_tag : (word (w ||| (1#64 <<< maxInlineBits))).Valid := by
  rw [Valid, BitVec.getLsbD_or, show (1#64 <<< maxInlineBits).getLsbD 63 = true by decide,
    Bool.or_true]

theorem cleanse_or_tag : cleanseInlineBits (w ||| (1#64 <<< maxInlineBits)) = cleanseInlineBits w := by
  refine BitVec.eq_of_getLsbD_eq fun i small => ?_
  rw [getLsbD_cleanse small, getLsbD_cleanse small, BitVec.getLsbD_or,
    show (1#64 <<< maxInlineBits) = tag from rfl, getLsbD_tag]
  by_cases last : i = 63 <;> simp [last]

/-- `this` is out of line and has a bit beyond the first word, `other` is inline. -/
def Leftover (v other : BitVector) : Prop :=
  v.isInline = false ∧ other.isInline = true ∧ ∃ j, 64 ≤ j ∧ v.Has j

theorem filter_pointers {o' : OutOfLineBits} (valid : (pointer o).Valid)
    (valid' : (pointer o').Valid) : ∃ v', (pointer o).filter (pointer o') = .ok v' ∧ v'.Valid ∧
      ∀ j, bitOf v'.contents j = (bitOf o.words j && bitOf o'.words j) := by
  have few := small_numBits valid
  have few' := small_numBits valid'
  obtain ⟨words, loops, length, result⟩ :=
    @wordLoop_eq (min o.words.length o'.words.length) (· &&& ·) o.words o'.words (by omega) (by omega)
  obtain ⟨words', clears, length', result'⟩ :=
    @clearLoop_eq o'.words.length o.words.length words (o.words.length + 1) (by omega) (by omega)
      (by omega)
  have count : min o.words.length o'.words.length % 2 ^ 32 = min o.words.length o'.words.length :=
    Nat.mod_eq_of_lt (by omega)
  simp only [BitVector.filter, filterSlow, isInline_pointer, Bool.and_self, outOfLineBits,
    numWords_eq valid, numWords_eq valid', count, loops,
    Nat.mod_eq_of_lt (by omega : o'.words.length < 2 ^ 32), clears, bind, Except.bind, pure,
    Except.pure]
  refine ⟨_, rfl, valid_words valid (length'.trans length), fun j => ?_⟩
  rw [contents, bitOf, result', bitOf, bitOf]
  split
  · next beyond =>
    rw [@wordAt_of_ge _ o'.words (by omega)]
    simp
  · rw [result]
    split
    · exact BitVec.getLsbD_and
    · rw [@wordAt_of_ge _ o.words (by omega)]
      simp

theorem filter_eq (valid : v.Valid) (valid' : other.Valid) (fits : ¬ Leftover v other) :
    ∃ v', v.filter other = .ok v' ∧ v'.Valid ∧ ∀ j, v'.Has j ↔ v.Has j ∧ other.Has j := by
  have found : ∃ v', v.filter other = .ok v' ∧ v'.Valid ∧
      ∀ j, bitOf v'.contents j = (bitOf v.contents j && bitOf other.contents j) := by
    rcases other with w' | o'
    · rcases v with w | o
      · simp only [BitVector.filter, isInline_word valid, isInline_word valid', Bool.and_self]
        refine ⟨_, rfl, ?_, fun j => ?_⟩
        · rw [Valid, BitVec.getLsbD_and, show w.getLsbD 63 = true from valid,
            show w'.getLsbD 63 = true from valid', Bool.and_self]
        · rw [contents, contents, contents]
          rcases Nat.lt_or_ge j 63 with low | high
          · rw [bitOf_inline low, bitOf_inline low, bitOf_inline low, BitVec.getLsbD_and]
          · rw [bitOf_inline_high high, bitOf_inline_high high, Bool.false_and]
      · simp only [BitVector.filter, filterSlow, isInline_pointer, isInline_word valid',
          Bool.false_and]
        refine modifyFirst_eq valid (fun w j low => BitVec.getLsbD_and) fun j high => ?_
        rw [Bool.and_false]
        by_contra some
        refine fits ⟨rfl, isInline_word valid', j, high, ?_⟩
        rw [Has, contents]
        simpa using Ne.symm some
    · rcases v with w | o
      · have some : 0 < o'.words.length := valid'.2.1
        simp only [BitVector.filter, filterSlow, isInline_pointer, isInline_word valid,
          Bool.and_false, loadWord, getElem?_of_wordAt some, bind, Except.bind, pure, Except.pure]
        refine ⟨_, rfl, valid_or_tag, fun j => ?_⟩
        rw [contents, cleanse_or_tag]
        exact has_word j (fun x y j low => BitVec.getLsbD_and) Bool.false_and
      · exact filter_pointers valid valid'
  obtain ⟨v', filters, valid'', bits⟩ := found
  refine ⟨v', filters, valid'', fun j => ?_⟩
  rw [Has, Has, Has, bits, Bool.and_eq_true]

theorem exclude_pointers {o' : OutOfLineBits} (valid : (pointer o).Valid)
    (valid' : (pointer o').Valid) : ∃ v', (pointer o).exclude (pointer o') = .ok v' ∧ v'.Valid ∧
      ∀ j, bitOf v'.contents j = (bitOf o.words j && !bitOf o'.words j) := by
  have few := small_numBits valid
  obtain ⟨words, loops, length, result⟩ :=
    @wordLoop_eq (min o.words.length o'.words.length) (fun x y => x &&& ~~~y) o.words o'.words
      (by omega) (by omega)
  have count : min o.words.length o'.words.length % 2 ^ 32 = min o.words.length o'.words.length :=
    Nat.mod_eq_of_lt (by omega)
  simp only [exclude, excludeSlow, isInline_pointer, Bool.and_self, outOfLineBits,
    numWords_eq valid, numWords_eq valid', count, loops, bind, Except.bind, pure, Except.pure]
  refine ⟨_, rfl, valid_words valid length, fun j => ?_⟩
  rw [contents, bitOf, result, bitOf, bitOf]
  split
  · exact getLsbD_and_not (Nat.mod_lt _ (by decide))
  · next beyond =>
    rcases Nat.lt_or_ge (j / 64) o.words.length with low | high
    · rw [@wordAt_of_ge _ o'.words (by omega)]
      simp
    · rw [@wordAt_of_ge _ o.words high]
      simp

theorem exclude_eq (valid : v.Valid) (valid' : other.Valid) :
    ∃ v', v.exclude other = .ok v' ∧ v'.Valid ∧ ∀ j, v'.Has j ↔ v.Has j ∧ ¬ other.Has j := by
  have found : ∃ v', v.exclude other = .ok v' ∧ v'.Valid ∧
      ∀ j, bitOf v'.contents j = (bitOf v.contents j && !bitOf other.contents j) := by
    rcases other with w' | o'
    · rcases v with w | o
      · simp only [exclude, isInline_word valid, isInline_word valid', Bool.and_self]
        refine ⟨_, rfl, valid_or_tag, fun j => ?_⟩
        rw [contents, contents, contents, cleanse_or_tag]
        rcases Nat.lt_or_ge j 63 with low | high
        · rw [bitOf_inline low, bitOf_inline low, bitOf_inline low, getLsbD_and_not (by omega)]
        · rw [bitOf_inline_high high, bitOf_inline_high high, Bool.false_and]
      · simp only [exclude, excludeSlow, isInline_pointer, isInline_word valid', Bool.false_and]
        exact @modifyFirst_eq o (· &&& ~~~cleanseInlineBits w') (fun a b => a && !b) w' valid
          (fun w j low => getLsbD_and_not low) fun j high => Bool.and_true _
    · rcases v with w | o
      · have some : 0 < o'.words.length := valid'.2.1
        simp only [exclude, excludeSlow, isInline_pointer, isInline_word valid,
          Bool.and_false, loadWord, getElem?_of_wordAt some, bind, Except.bind, pure, Except.pure]
        refine ⟨_, rfl, valid_or_tag, fun j => ?_⟩
        rw [contents, cleanse_or_tag]
        exact @has_word w (fun x y => x &&& ~~~y) (fun a b => a && !b) o'.words j
          (fun x y j low => getLsbD_and_not (by omega)) (fun c => Bool.false_and _)
      · exact exclude_pointers valid valid'
  obtain ⟨v', excludes, valid'', bits⟩ := found
  refine ⟨v', excludes, valid'', fun j => ?_⟩
  rw [Has, Has, Has, bits, Bool.and_eq_true, Bool.not_eq_true', Bool.eq_false_iff]

end NetRider.Wtf.BitVectors
