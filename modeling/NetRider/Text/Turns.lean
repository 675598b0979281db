import NetRider.Text.Sequences

/-!
# Turns of the loops

What one turn does to the text and to the bytes that are still to be read, whichever buffer it
writes to.
-/

namespace NetRider.Text

open Lib Relation
open Url (isASCII nonASCIISequenceLength decodeNonASCIISequence isASCII_false_iff)

/-- The bytes that are still to be read. -/
def State.stream (s : State) : List UInt8 := s.partialSequence ++ s.source

/-- Whatever bytes follow, no character stands in front; at the end none follow. -/
def InError (flush : Bool) (bytes : List UInt8) : Prop :=
  ∀ future, (flush = true → future = []) → ¬ Starts (bytes ++ future)

/-- The first byte is not part of a character, whatever follows. -/
def Flawed (bytes : List UInt8) : Prop :=
  ∃ byte rest, bytes = byte :: rest ∧ isASCII byte = false ∧
    (nonASCIISequenceLength byte = 0 ∨ nonASCIISequenceLength byte ≤ bytes.length ∧
      decodeNonASCIISequence (bytes.take (nonASCIISequenceLength byte)) = none)

/-- The beginning of a sequence. -/
def Pending (bytes : List UInt8) : Prop :=
  ∀ byte rest, bytes = byte :: rest → bytes.length < nonASCIISequenceLength byte

/-- What the loops do, a bit at a time. -/
inductive Step (flush : Bool) : State → State → Prop
  | byte {s byte rest} : s.partialSequence = byte :: rest → isASCII byte = true →
    Step flush s { s with text := s.text ++ [byte.toUInt16], partialSequence := rest }
  | refill {s byte rest count} : s.partialSequence = byte :: rest → count ≤ s.source.length →
    0 < count → s.partialSequence.length + count = nonASCIISequenceLength byte →
    Step flush s { s with
      source := s.source.drop count
      partialSequence := s.partialSequence ++ s.source.take count }
  | partialCharacter {s ch lost} : s.partialSequence = String.utf8EncodeChar ch ++ lost →
    0x80 ≤ ch.val.toNat →
    Step flush s { s with
      text := s.text ++ utf16Units ch, partialSequence := s.partialSequence.take lost.length }
  | partialError {s byte rest} : s.partialSequence = byte :: rest →
    Flawed s.partialSequence ∨ flush = true ∧ Pending s.stream →
    Step flush s { s with
      text := s.text ++ [replacementCharacter], partialSequence := rest, sawError := true }
  | chunk {s chunk rest} : s.partialSequence = [] → s.source = chunk ++ rest →
    (∀ byte ∈ chunk, isASCII byte = true) →
    Step flush s { s with text := s.text ++ chunk.map UInt8.toUInt16, source := rest }
  | character {s ch rest} : s.partialSequence = [] → s.source = String.utf8EncodeChar ch ++ rest →
    Step flush s { s with text := s.text ++ utf16Units ch, source := rest }
  | error {s byte rest} : s.partialSequence = [] → s.source = byte :: rest →
    InError flush s.source →
    Step flush s { s with
      text := s.text ++ [replacementCharacter], source := rest, sawError := true }

  | keep {s} : flush = true → s.partialSequence = [] → Pending s.source →
    Step flush s { s with source := [], partialSequence := s.source }

abbrev Run (flush : Bool) : State → State → Prop := ReflTransGen (Step flush)

variable {flush stopOnError : Bool} {memory : Memory} {capacity : Nat} {take : Take} {s s' : State}
  {byte : UInt8} {rest bytes : List UInt8} {ch : Char}

theorem Flawed.inError (flawed : Flawed bytes) (more : List UInt8) :
    InError flush (bytes ++ more) := by
  obtain ⟨byte, rest, rfl, other, bad⟩ := flawed
  intro future _
  rw [List.append_assoc]
  refine not_starts other (bad.imp_right fun ⟨fits, undecoded⟩ => .inr ?_)
  have same := @List.take_append_of_le_length _ (byte :: rest) (more ++ future) _ fits
  exact (congrArg _ same).trans undecoded

theorem Pending.inError (pending : Pending (byte :: rest)) : InError true (byte :: rest) := by
  intro future last
  have short := pending byte rest rfl
  rw [last rfl, List.append_nil]
  have other := (nonASCII_of_length (Nat.ne_zero_of_lt short)).1
  exact not_starts other (.inr (.inl short))

/-- No step writes more units than it reads bytes. -/
theorem Step.room (step : Step flush s s') :
    s'.text.length + s'.stream.length ≤ s.text.length + s.stream.length := by
  unfold State.stream
  cases step with
  | byte front | partialError front =>
    simp only [front, List.length_append, List.length_cons, List.length_nil]
    omega
  | refill front fits =>
    simp only [List.length_append, List.length_take, List.length_drop]
    omega
  | @partialCharacter ch lost front =>
    have units := (lengths ch).1
    simp only [front, List.length_append, List.length_take]
    omega
  | chunk empty front =>
    simp only [empty, front, List.length_append, List.length_map]
    omega
  | @character ch rest empty front =>
    have units := (lengths ch).1
    simp only [empty, front, List.length_append]
    omega
  | error empty front =>
    simp only [empty, front, List.length_append, List.length_cons, List.length_nil]
    omega
  | keep flushed empty =>
    simp only [empty, List.length_append]
    omega

theorem Step.source_le (step : Step flush s s') : s'.source.length ≤ s.source.length := by
  cases step with
  | refill => exact List.length_drop.trans_le (Nat.sub_le _ _)
  | chunk empty front | character empty front | error empty front =>
    simp only [front, List.length_append, List.length_cons]
    omega
  | keep => exact Nat.zero_le _
  | _ => exact le_rfl

theorem Run.source_le (run : Run flush s s') : s'.source.length ≤ s.source.length := by
  induction run with
  | refl => exact le_rfl
  | tail _ step ih => exact step.source_le.trans ih

theorem Run.room (run : Run flush s s') :
    s'.text.length + s'.stream.length ≤ s.text.length + s.stream.length := by
  induction run with
  | refl => exact le_rfl
  | tail _ step ih => exact step.room.trans ih

/-- Nothing that has been written changes. -/
theorem Step.text (step : Step flush s s') : s.text <+: s'.text := by
  cases step with
  | refill | keep => exact List.prefix_refl _
  | _ => exact List.prefix_append _ _

theorem Run.text (run : Run flush s s') : s.text <+: s'.text := by
  induction run with
  | refl => exact List.prefix_refl _
  | tail _ step ih => exact ih.trans step.text

/-! ## Memory -/

theorem write_eq {text units : List UInt16} (room : text.length + units.length ≤ capacity) :
    write capacity text units = .ok (text ++ units) := if_pos room

theorem readSource_eq {source : List UInt8} {count : Nat} (fits : count ≤ source.length) :
    readSource source count = .ok (source.take count) := if_pos fits

theorem store_eq {sequence source : List UInt8} {count : Nat} (fits : count ≤ source.length)
    (room : sequence.length + count ≤ maxLength) :
    store sequence source count = .ok (sequence ++ source.take count) := by
  rw [store, readSource_eq fits]
  exact if_pos room

/-! ## ASCII -/

theorem wordSize_pos (memory : Memory) : 0 < memory.wordSize := by
  unfold Memory.wordSize
  split_ifs <;> omega

/-- An aligned word in front of the aligned end is in front of the end. -/
theorem word_inside {source : List UInt8} (inside : source.length ≤ memory.endAddress)
    (aligned : memory.isAlignedToMachineWord source = true)
    (before : memory.isBeforeAlignedEnd source = true) : memory.wordSize ≤ source.length := by
  have positive := wordSize_pos memory
  unfold Memory.isAlignedToMachineWord at aligned
  unfold Memory.isBeforeAlignedEnd at before
  rw [decide_eq_true_eq] at aligned before
  obtain ⟨k, address⟩ := Nat.dvd_of_mod_eq_zero aligned
  have most := Nat.div_mul_le_self memory.endAddress memory.wordSize
  rw [address, Nat.mul_comm] at before
  have next : (k + 1) * memory.wordSize ≤ memory.endAddress / memory.wordSize * memory.wordSize :=
    Nat.mul_le_mul_right _ (Nat.lt_of_mul_lt_mul_right before)
  rw [Nat.succ_mul] at next
  rw [Nat.mul_comm] at address
  omega

theorem aligned_drop {source : List UInt8} (inside : source.length ≤ memory.endAddress)
    (fits : memory.wordSize ≤ source.length)
    (aligned : memory.isAlignedToMachineWord source = true) :
    memory.isAlignedToMachineWord (source.drop memory.wordSize) = true := by
  unfold Memory.isAlignedToMachineWord at aligned ⊢
  rw [decide_eq_true_eq] at aligned ⊢
  have address : memory.endAddress - (source.drop memory.wordSize).length =
      memory.endAddress - source.length + memory.wordSize := by
    rw [List.length_drop]
    omega
  rw [address, Nat.add_mod_right, aligned]

theorem copyASCIIMachineWords_eq {fuel : Nat} {text : List UInt16} {source : List UInt8}
    (inside : source.length ≤ memory.endAddress)
    (aligned : memory.isAlignedToMachineWord source = true)
    (room : text.length + source.length ≤ capacity) (enough : source.length < fuel) :
    ∃ chunk rest, source = chunk ++ rest ∧ (∀ byte ∈ chunk, isASCII byte = true) ∧
      copyASCIIMachineWords memory capacity fuel text source =
        .ok (text ++ chunk.map UInt8.toUInt16, rest) := by
  have positive := wordSize_pos memory
  have stays : ∃ chunk rest, source = chunk ++ rest ∧ (∀ byte ∈ chunk, isASCII byte = true) ∧
      (.ok (text, source) : Except Fault _) = .ok (text ++ chunk.map UInt8.toUInt16, rest) :=
    ⟨[], source, rfl, by simp, by simp⟩
  induction fuel generalizing text source with
  | zero => omega
  | succ fuel ih =>
    rw [copyASCIIMachineWords]
    by_cases before : memory.isBeforeAlignedEnd source = true
    · have fits := word_inside inside aligned before
      rw [if_pos before, readSource_eq fits]
      simp only [bind, Except.bind]
      by_cases ascii : (source.take memory.wordSize).all isASCII = true
      · have size : (source.take memory.wordSize).length = memory.wordSize := by
          rw [List.length_take, min_eq_left fits]
        have left : (source.drop memory.wordSize).length = source.length - memory.wordSize :=
          List.length_drop
        have fresh : text.length + ((source.take memory.wordSize).map UInt8.toUInt16).length ≤
            capacity := by
          rw [List.length_map]
          omega
        rw [if_pos ascii, write_eq fresh]
        dsimp only
        obtain ⟨chunk, rest, parts, all, copied⟩ :=
          @ih (text ++ (source.take memory.wordSize).map UInt8.toUInt16)
            (source.drop memory.wordSize) (by omega) (aligned_drop inside fits aligned)
            (by rw [List.length_append, List.length_map]; omega) (by omega)
            ⟨[], _, rfl, by simp, by simp⟩
        refine ⟨source.take memory.wordSize ++ chunk, rest, ?_, ?_, ?_⟩
        · rw [List.append_assoc, ← parts, List.take_append_drop]
        · exact List.forall_mem_append.mpr ⟨List.all_eq_true.mp ascii, all⟩
        · rw [copied, List.map_append, List.append_assoc]
      · rw [if_neg ascii]
        exact stays
    · rw [if_neg before]
      exact stays

theorem copyByte_eq {text : List UInt16} (room : text.length < capacity) :
    copyByte capacity text (byte :: rest) = .ok (text ++ [byte.toUInt16], rest) := by
  have written : write capacity text [byte.toUInt16] = .ok (text ++ [byte.toUInt16]) :=
    write_eq room
  rw [copyByte, written]
  rfl

/-- One byte or more is copied. -/
theorem copyASCII_eq {text : List UInt16}
    (inside : (byte :: rest).length ≤ memory.endAddress) (ascii : isASCII byte = true)
    (room : text.length + (byte :: rest).length ≤ capacity) :
    ∃ chunk rest', byte :: rest = chunk ++ rest' ∧ chunk ≠ [] ∧
      (∀ byte ∈ chunk, isASCII byte = true) ∧
      copyASCII memory capacity text (byte :: rest) =
        .ok (text ++ chunk.map UInt8.toUInt16, rest') := by
  have free : text.length + (rest.length + 1) ≤ capacity := room
  unfold copyASCII
  by_cases aligned : memory.isAlignedToMachineWord (byte :: rest) = true
  · obtain ⟨chunk, left, parts, all, copied⟩ :=
      copyASCIIMachineWords_eq inside aligned room (Nat.lt_succ_self _)
    have sizes := congrArg List.length parts
    rw [List.length_append, List.length_cons] at sizes
    rw [if_pos aligned, copied]
    simp only [bind, Except.bind]
    rcases left with _ | ⟨next, left⟩
    · refine ⟨chunk, [], parts, ?_, all, rfl⟩
      rintro rfl
      cases parts
    · dsimp only
      rw [List.length_cons] at sizes
      by_cases more : isASCII next = true
      · refine ⟨chunk ++ [next], left, ?_, by simp, ?_, ?_⟩
        · rw [parts, List.append_assoc, List.singleton_append]
        · exact List.forall_mem_append.mpr ⟨all, List.forall_mem_singleton.mpr more⟩
        · rw [if_pos more, copyByte_eq (by rw [List.length_append, List.length_map]; omega),
            List.map_append, List.append_assoc]
          rfl
      · refine ⟨chunk, next :: left, parts, ?_, all, by rw [if_neg more]; rfl⟩
        rintro rfl
        obtain ⟨rfl, -⟩ := List.cons.inj parts
        exact more ascii
  · rw [if_neg aligned, copyByte_eq (by omega)]
    exact ⟨[byte], rest, rfl, by simp, List.forall_mem_singleton.mpr ascii, rfl⟩

end NetRider.Text
