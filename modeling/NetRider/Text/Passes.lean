import NetRider.Text.Turns

/-!
# Passes

Neither pass faults as long as its buffer has room for the bytes that are still to be read, and
what it does is a run.
-/

namespace NetRider.Text

open Lib Relation
open Url (isASCII nonASCIISequenceLength decodeNonASCIISequence isASCII_false_iff)

/-- The beginning of a sequence, or one that is in error. -/
def Valid (bytes : List UInt8) : Prop :=
  ∀ byte rest, bytes = byte :: rest → bytes.length < nonASCIISequenceLength byte ∨
    bytes.length = nonASCIISequenceLength byte ∧ decodeNonASCIISequence bytes = none

variable {flush stopOnError : Bool} {memory : Memory} {capacity fuel : Nat} {take : Take}
  {s s' : State} {byte : UInt8} {rest bytes : List UInt8} {ch : Char}

theorem pending_nil : Pending [] := fun _ _ empty => by cases empty

theorem Pending.valid (pending : Pending bytes) : Valid bytes :=
  fun byte rest front => .inl (pending byte rest front)

theorem Valid.length_le (valid : Valid bytes) : bytes.length ≤ maxLength := by
  rcases bytes with _ | ⟨byte, rest⟩
  · exact Nat.zero_le _
  · have most := nonASCIISequenceLength_le byte
    rcases valid byte rest rfl with short | ⟨whole, -⟩ <;> omega

/-! ## Turns -/

theorem sourceTurn_cases (flush : Bool) (take : Take) (front : s.source = byte :: rest)
    (empty : s.partialSequence = []) (inside : s.source.length ≤ memory.endAddress)
    (room : s.text.length + s.source.length ≤ capacity) :
    (∃ s', sourceTurn memory capacity take byte s = .ok (.next s') ∧ Step flush s s' ∧
      s'.partialSequence = [] ∧ s'.source.length < s.source.length) ∨
    (sourceTurn memory capacity take byte s = take (nonASCIISequenceLength byte) none s ∧
      Flawed s.source) ∨
    (sourceTurn memory capacity take byte s =
      .ok (.ended (.finished { s with source := [], partialSequence := s.source })) ∧
      Pending s.source) ∨
    ∃ ch rest', s.source = String.utf8EncodeChar ch ++ rest' ∧
      sourceTurn memory capacity take byte s =
        take (String.utf8EncodeChar ch).length (some ch.val.toNat) s := by
  unfold sourceTurn
  by_cases ascii : isASCII byte = true
  · left
    rw [front] at inside room
    obtain ⟨chunk, rest', parts, some_, all, copied⟩ := copyASCII_eq inside ascii room
    have size : 0 < chunk.length := List.length_pos_of_ne_nil some_
    rw [if_pos ascii, front, copied]
    refine ⟨_, rfl, .chunk empty (front.trans parts) all, empty, ?_⟩
    show rest'.length < (byte :: rest).length
    rw [parts, List.length_append]
    omega
  · right
    have other : isASCII byte = false := Bool.eq_false_iff.mpr ascii
    rw [if_neg ascii]
    by_cases zero : nonASCIISequenceLength byte = 0
    · rw [if_pos zero]
      exact .inl ⟨rfl, byte, rest, front, other, .inl zero⟩
    · rw [if_neg zero]
      by_cases short : nonASCIISequenceLength byte > s.source.length
      · refine .inr (.inl ⟨?_, ?_⟩)
        · have most := nonASCIISequenceLength_le byte
          rw [if_pos short, store_eq le_rfl (by rw [List.length_nil]; omega), List.take_length]
          rfl
        · intro byte' rest' same
          obtain ⟨rfl, -⟩ := List.cons.inj (front.symm.trans same)
          exact short
      · have fits : nonASCIISequenceLength byte ≤ s.source.length := not_lt.mp short
        rw [if_neg short, readSource_eq fits]
        simp only [bind, Except.bind]
        rcases decodes : decodeNonASCIISequence (s.source.take (nonASCIISequenceLength byte))
          with _ | character
        · exact .inl ⟨rfl, byte, rest, front, other, .inr ⟨fits, decodes⟩⟩
        · have size : (s.source.take (nonASCIISequenceLength byte)).length =
              nonASCIISequenceLength byte := by
            rw [List.length_take, min_eq_left fits]
          have split : s.source.take (nonASCIISequenceLength byte) =
              byte :: rest.take (nonASCIISequenceLength byte - 1) := by
            rw [front, List.take_cons (Nat.pos_of_ne_zero zero)]
          rw [split] at decodes size
          obtain ⟨ch, encoded, rfl⟩ := sequence_char other size decodes
          refine .inr (.inr ⟨ch, s.source.drop (nonASCIISequenceLength byte), ?_, ?_⟩)
          · rw [← encoded, ← split, List.take_append_drop]
          · rw [← encoded, size]

/-- The sequence in front is read from the partial sequence alone, after it has been completed. -/
theorem partialTurn_whole (take : Take) (ascii : isASCII byte = false)
    (some_ : nonASCIISequenceLength byte ≠ 0) {sequence : List UInt8} {s' : State}
    (front : s'.partialSequence = byte :: rest)
    (fits : nonASCIISequenceLength byte ≤ s'.partialSequence.length)
    (same : s'.partialSequence.take (nonASCIISequenceLength byte) = sequence) :
    (take (nonASCIISequenceLength byte) (decodeNonASCIISequence sequence) s' =
        take (nonASCIISequenceLength byte) none s' ∧ Flawed s'.partialSequence) ∨
      ∃ ch lost, s'.partialSequence = String.utf8EncodeChar ch ++ lost ∧ 0x80 ≤ ch.val.toNat ∧
        (String.utf8EncodeChar ch).length = nonASCIISequenceLength byte ∧
        take (nonASCIISequenceLength byte) (decodeNonASCIISequence sequence) s' =
          take (String.utf8EncodeChar ch).length (some ch.val.toNat) s' := by
  rcases decodes : decodeNonASCIISequence sequence with _ | character
  · exact .inl ⟨rfl, byte, rest, front, ascii, .inr ⟨fits, same ▸ decodes⟩⟩
  · have size : sequence.length = nonASCIISequenceLength byte := by
      rw [← same, List.length_take, min_eq_left fits]
    have split : sequence = byte :: rest.take (nonASCIISequenceLength byte - 1) := by
      rw [← same, front, List.take_cons (Nat.pos_of_ne_zero some_)]
    rw [split] at decodes size
    obtain ⟨ch, encoded, rfl⟩ := sequence_char ascii size decodes
    refine .inr ⟨ch, s'.partialSequence.drop (nonASCIISequenceLength byte), ?_, ?_, encoded ▸ size,
      ?_⟩
    · rw [← encoded, ← split, ← same, List.take_append_drop]
    · by_contra small
      have one : [UInt8.ofNat ch.val.toNat] = String.utf8EncodeChar ch := by
        refine eq_utf8EncodeChar ?_
        rw [List.map_singleton, toNat_ofNat (by omega)]
        exact .one (by omega)
      have two := (nonASCII_of_length some_).2
      rw [encoded, ← one] at size
      exact absurd size (by rw [List.length_singleton]; omega)
    · rw [← encoded, size]

theorem partialTurn_cases (flush : Bool) (take : Take) (front : s.partialSequence = byte :: rest)
    (few : s.partialSequence.length ≤ maxLength) (room : s.text.length < capacity) :
    (∃ s', partialTurn flush capacity take byte rest s = .ok (.next s') ∧ Step flush s s' ∧
      isASCII byte = true ∧ s'.partialSequence = rest ∧ s'.source = s.source) ∨
    (partialTurn flush capacity take byte rest s =
      .ok (.ended (.finished { s with partialSequence := s.stream })) ∧ flush = false ∧
      Pending s.stream) ∨
    (partialTurn flush capacity take byte rest s = take (nonASCIISequenceLength byte) none s ∧
      flush = true ∧ Pending s.stream) ∨
    ∃ s', Run flush s s' ∧ s'.stream = s.stream ∧ s'.text = s.text ∧ s'.sawError = s.sawError ∧
      (s'.partialSequence = s.partialSequence ∨
        s'.partialSequence.length = nonASCIISequenceLength byte) ∧
      s'.partialSequence.length ≤ maxLength ∧ (∃ rest', s'.partialSequence = byte :: rest') ∧
      (partialTurn flush capacity take byte rest s = take (nonASCIISequenceLength byte) none s' ∧
        Flawed s'.partialSequence ∨
      ∃ ch lost, s'.partialSequence = String.utf8EncodeChar ch ++ lost ∧ 0x80 ≤ ch.val.toNat ∧
        (String.utf8EncodeChar ch).length = nonASCIISequenceLength byte ∧
        partialTurn flush capacity take byte rest s =
          take (String.utf8EncodeChar ch).length (some ch.val.toNat) s') := by
  have most := nonASCIISequenceLength_le byte
  unfold partialTurn
  by_cases ascii : isASCII byte = true
  · left
    rw [if_pos ascii, write_eq (by simpa using room)]
    exact ⟨_, rfl, .byte front ascii, ascii, rfl, rfl⟩
  · right
    have other : isASCII byte = false := Bool.eq_false_iff.mpr ascii
    rw [if_neg ascii]
    by_cases zero : nonASCIISequenceLength byte = 0
    · rw [if_pos zero]
      refine .inr (.inr ⟨s, .refl, rfl, rfl, rfl, .inl rfl, few, ⟨rest, front⟩, .inl ⟨rfl, ?_⟩⟩)
      exact ⟨byte, rest, front, other, .inl zero⟩
    · rw [if_neg zero]
      by_cases short : nonASCIISequenceLength byte > s.partialSequence.length
      · rw [if_pos short]
        by_cases missing : nonASCIISequenceLength byte - s.partialSequence.length > s.source.length
        · have pending : Pending s.stream := by
            intro byte' rest' same
            unfold State.stream at same ⊢
            rw [front, List.cons_append] at same
            obtain ⟨rfl, -⟩ := List.cons.inj same
            rw [List.length_append]
            omega
          rw [if_pos missing]
          cases flush with
          | true => exact .inr (.inl ⟨rfl, rfl, pending⟩)
          | false =>
            refine .inl ⟨?_, rfl, pending⟩
            rw [if_pos Bool.not_false, store_eq le_rfl (by omega), List.take_length]
            rfl
        · have fits : nonASCIISequenceLength byte - s.partialSequence.length ≤ s.source.length :=
            not_lt.mp missing
          have size : (s.partialSequence ++
              s.source.take (nonASCIISequenceLength byte - s.partialSequence.length)).length =
              nonASCIISequenceLength byte := by
            rw [List.length_append, List.length_take, min_eq_left fits]
            omega
          have joined : s.partialSequence ++
              s.source.take (nonASCIISequenceLength byte - s.partialSequence.length) = byte ::
              (rest ++ s.source.take (nonASCIISequenceLength byte - s.partialSequence.length)) := by
            rw [front, List.cons_append]
          rw [if_neg missing, store_eq fits (by omega)]
          simp only [bind, Except.bind]
          refine .inr (.inr ⟨{ s with
            source := s.source.drop (nonASCIISequenceLength byte - s.partialSequence.length)
            partialSequence := s.partialSequence ++
              s.source.take (nonASCIISequenceLength byte - s.partialSequence.length) },
            .single (.refill front fits (by omega) (by omega)), ?_, rfl, rfl, .inr size, size.trans_le most,
            ⟨_, joined⟩, partialTurn_whole take other zero joined size.ge ?_⟩)
          · unfold State.stream
            dsimp only
            rw [List.append_assoc, List.take_append_drop]
          · exact List.take_of_length_le size.le
      · rw [if_neg short]
        exact .inr (.inr ⟨s, .refl, rfl, rfl, rfl, .inl rfl, few, ⟨rest, front⟩,
          partialTurn_whole take other zero front (not_lt.mp short) rfl⟩)

end NetRider.Text
