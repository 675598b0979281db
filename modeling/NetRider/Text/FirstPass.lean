import NetRider.Text.SecondPass

/-!
# The first pass

Into bytes everything can be written up to the first character behind Latin-1, or the first error.
What has been read by then, and what the partial sequence holds, leaves room in the other buffer.
-/

namespace NetRider.Text

open Lib Relation
open Url (isASCII nonASCIISequenceLength decodeNonASCIISequence isASCII_false_iff)

variable {flush stopOnError : Bool} {memory : Memory} {capacity fuel count : Nat}
  {s s' : State} {byte : UInt8} {rest bytes : List UInt8} {ch : Char}

/-! ## What is taken -/

theorem units_latin1 (small : ¬ ch.val.toNat > 0xFF) :
    utf16Units ch = [UInt16.ofNat ch.val.toNat] := by
  have narrow : ch.val.toNat < 0x10000 := by omega
  exact if_pos narrow

theorem takePartialLatin1_char (room : s.text.length + (utf16Units ch).length ≤ capacity) :
    takePartialLatin1 capacity count (some ch.val.toNat) s = .ok (.ended (.upConvert s)) ∨
      takePartialLatin1 capacity count (some ch.val.toNat) s = .ok (.next { s with
        text := s.text ++ utf16Units ch
        partialSequence := s.partialSequence.take (s.partialSequence.length - count) }) := by
  rw [takePartialLatin1]
  by_cases large : ch.val.toNat > 0xFF
  · rw [if_pos large]
    exact .inl rfl
  · rw [if_neg large, ← units_latin1 large, write_eq room]
    exact .inr rfl

theorem takeLatin1_error : takeLatin1 stopOnError capacity count none s = .ok (.ended
    (if stopOnError then .finished { s with sawError := true }
    else .upConvert { s with sawError := true })) := by
  rw [takeLatin1]
  cases stopOnError <;> rfl

theorem takeLatin1_char (room : s.text.length + (utf16Units ch).length ≤ capacity) :
    takeLatin1 stopOnError capacity count (some ch.val.toNat) s = .ok (.ended (.upConvert s)) ∨
      takeLatin1 stopOnError capacity count (some ch.val.toNat) s = .ok (.next { s with
        text := s.text ++ utf16Units ch, source := s.source.drop count }) := by
  rw [takeLatin1]
  by_cases large : ch.val.toNat > 0xFF
  · rw [if_pos large]
    exact .inl rfl
  · rw [if_neg large, ← units_latin1 large, write_eq room]
    exact .inr rfl

/-! ## The partial sequence -/

/-- How the partial sequence is left. -/
inductive PartialLatin1End (flush : Bool) (s : State) : Outcome → Prop
  | read {s' : State} : Run flush s s' → s'.partialSequence = [] →
    s'.text.length + s'.source.length ≤ s.text.length + s.source.length →
    PartialLatin1End flush s (.finished s')
  | stored : flush = false → Pending s.stream → s.partialSequence ≠ [] →
    PartialLatin1End flush s (.finished { s with partialSequence := s.stream })
  | wide {s' : State} : Run flush s s' → s'.text = s.text → s'.source.length ≤ s.source.length →
    s'.partialSequence.length ≤ maxLength → Fits s'.partialSequence →
    PartialLatin1End flush s (.upConvert s')

/-- A sequence that is whole decodes, so it has just been completed. -/
theorem valid_char {lost : List UInt8} (valid : Valid s.partialSequence)
    (front : s.partialSequence = byte :: rest)
    (whole : s.partialSequence = String.utf8EncodeChar ch ++ lost) (behind : 0x80 ≤ ch.val.toNat)
    (size : (String.utf8EncodeChar ch).length = nonASCIISequenceLength byte) : False := by
  have sizes := congrArg List.length whole
  rw [List.length_append] at sizes
  rcases valid byte rest front with short | ⟨equal, undecoded⟩
  · omega
  · have none : lost = [] := List.eq_nil_of_length_eq_zero (by omega)
    rw [none, List.append_nil] at whole
    obtain ⟨byte', bytes, encoded, -, -, decodes⟩ := char_sequence behind
    rw [whole, encoded, decodes] at undecoded
    cases undecoded

/-- One turn is enough. -/
theorem handlePartialSequence_latin1 (valid : Valid s.partialSequence)
    (some_ : s.partialSequence ≠ []) (room : s.text.length + s.stream.length ≤ capacity) :
    ∃ outcome, handlePartialSequence flush capacity (takePartialLatin1 capacity) (fuel + 2) s =
      .ok outcome ∧ PartialLatin1End flush s outcome := by
  obtain ⟨byte, rest, front⟩ := List.exists_cons_of_ne_nil some_
  have few := valid.length_le
  have here := stream_length front
  have fits := valid.fits byte rest front
  have least : s.partialSequence.length = rest.length + 1 := by rw [front]; rfl
  have wideEnd : PartialLatin1End flush s (.upConvert s) :=
    .wide .refl rfl le_rfl few valid.fits
  have free : s.text.length < capacity := by omega
  rcases partialTurn_cases flush (takePartialLatin1 capacity) front few free with
    ⟨s', turn, step, ascii, left, kept⟩ | ⟨turn, last, pending⟩ | ⟨turn, last, pending⟩ |
    ⟨s', run, same, text, saw, grown, few', ⟨rest', front'⟩, turn⟩
  · have other := (nonASCII_of_length (by omega : nonASCIISequenceLength byte ≠ 0)).1
    exact absurd (ascii.symm.trans other) (by decide)
  · exact ⟨_, handlePartialSequence_ended front turn, .stored last pending some_⟩
  · exact ⟨_, handlePartialSequence_ended front turn, wideEnd⟩
  · have most : Fits s'.partialSequence := by
      intro byte' rest'' again
      obtain ⟨rfl, -⟩ := List.cons.inj (front'.symm.trans again)
      rcases grown with unchanged | complete
      · rw [unchanged]
        exact fits
      · exact complete.le
    have sourceLe := run.source_le
    have wideEnd' : PartialLatin1End flush s (.upConvert s') :=
      .wide run text sourceLe few' most
    rcases turn with ⟨turn, -⟩ | ⟨ch, lost, whole, behind, size, turn⟩
    · exact ⟨_, handlePartialSequence_ended front turn, wideEnd'⟩
    · have room' : s'.text.length + s'.stream.length ≤ capacity := by
        rw [text, same]
        exact room
      rcases @takePartialLatin1_char capacity (String.utf8EncodeChar ch).length s' ch
        (char_room whole room') with wide | narrow
      · exact ⟨_, handlePartialSequence_ended front (turn.trans wide), wideEnd'⟩
      · rcases grown with unchanged | complete
        · rw [unchanged] at whole
          exact (valid_char valid front whole behind size).elim
        · have sizes := congrArg List.length whole
          have streams := congrArg List.length same
          unfold State.stream at streams
          simp only [List.length_append] at sizes streams
          have none : lost = [] := List.eq_nil_of_length_eq_zero (by omega)
          subst none
          have short : s.partialSequence.length < s'.partialSequence.length := by
            rcases valid byte rest front with short | ⟨equal, undecoded⟩
            · omega
            · exfalso
              have taken : s'.partialSequence = s.partialSequence := by
                have parts : s'.partialSequence ++ s'.source = s.partialSequence ++ s.source := same
                exact (List.append_inj parts (by omega)).1
              rw [taken] at whole
              exact valid_char valid front whole behind size
          rw [handlePartialSequence_next front (turn.trans narrow)]
          have empty : s'.partialSequence.take
              (s'.partialSequence.length - (String.utf8EncodeChar ch).length) = [] := by
            have none : s'.partialSequence.length - (String.utf8EncodeChar ch).length = 0 := by
              rw [sizes]
              exact Nat.sub_self _
            rw [none, List.take_zero]
          refine ⟨_, handlePartialSequence_nil empty, .read ?_ empty ?_⟩
          · have step := @Step.partialCharacter flush _ _ _ whole behind
            rw [List.length_nil, List.take_zero, ← empty] at step
            exact run.tail step
          · have units : utf16Units ch = [UInt16.ofNat ch.val.toNat] := by
              refine units_latin1 fun large => ?_
              rw [takePartialLatin1, if_pos large] at narrow
              cases narrow
            simp only [List.length_append, text, units, List.length_singleton]
            omega

/-! ## The source -/

/-- How the loop over the source ends in the first pass. -/
inductive SourceLatin1End (stopOnError : Bool) (s : State) : Outcome → Prop
  | finished {s' : State} : SourceEnd stopOnError s s' → SourceLatin1End stopOnError s (.finished s')
  | wide {saw : Bool} : saw = s.sawError ∨ Flawed s.source →
    SourceLatin1End stopOnError s (.upConvert { s with sawError := saw })

theorem decodeSource_latin1 (empty : s.partialSequence = [])
    (inside : s.source.length ≤ memory.endAddress)
    (room : s.text.length + s.source.length ≤ capacity) (enough : s.source.length < fuel) :
    ∃ s1 outcome, decodeSource memory capacity (takeLatin1 stopOnError capacity) fuel s =
      .ok outcome ∧ Run flush s s1 ∧ s1.partialSequence = [] ∧
      SourceLatin1End stopOnError s1 outcome := by
  induction fuel generalizing s with
  | zero => omega
  | succ fuel ih =>
    -- What is left to do once a step has been made.
    have goes {s3 : State} {byte : UInt8} {rest : List UInt8} (front : s.source = byte :: rest)
        (step : Step flush s s3) (turn : sourceTurn memory capacity
          (takeLatin1 stopOnError capacity) byte s = .ok (.next s3))
        (empty : s3.partialSequence = []) (shorter : s3.source.length < s.source.length)
        (room : s3.text.length + s3.source.length ≤ capacity) :
        ∃ s1 outcome, decodeSource memory capacity (takeLatin1 stopOnError capacity) (fuel + 1) s =
          .ok outcome ∧ Run flush s s1 ∧ s1.partialSequence = [] ∧
          SourceLatin1End stopOnError s1 outcome := by
      obtain ⟨s1, outcome, decoded, more, none, ended⟩ := ih empty (by omega) room (by omega)
      exact ⟨s1, outcome, (decodeSource_next front turn).trans decoded, .head step more, none, ended⟩
    rcases front : s.source with _ | ⟨byte, rest⟩
    · exact ⟨s, _, decodeSource_nil front, .refl, empty, .finished (.empty front)⟩
    · rcases sourceTurn_cases flush (takeLatin1 stopOnError capacity) front empty inside room with
        ⟨s', turn, step, none, shorter⟩ | ⟨turn, flawed⟩ | ⟨turn, pending⟩ |
        ⟨ch, rest', split, turn⟩
      · have grown := step.room
        unfold State.stream at grown
        rw [empty, none, List.nil_append, List.nil_append] at grown
        exact goes front step turn none shorter (grown.trans room)
      · rw [takeLatin1_error] at turn
        refine ⟨s, _, decodeSource_ended front turn, .refl, empty, ?_⟩
        cases stopOnError with
        | true => exact .finished (.stopped rfl)
        | false => exact .wide (.inr flawed)
      · exact ⟨s, _, decodeSource_ended front turn, .refl, empty,
          .finished (.stored pending (by simp [front]))⟩
      · obtain ⟨fits, fits', shorter⟩ := source_room split room
        rcases @takeLatin1_char stopOnError capacity (String.utf8EncodeChar ch).length s ch fits
          with wide | narrow
        · exact ⟨s, _, decodeSource_ended front (turn.trans wide), .refl, empty, .wide (.inl rfl)⟩
        · rw [narrow, split, List.drop_left] at turn
          refine goes front (.character empty split) turn empty shorter ?_
          rw [List.length_append]
          exact fits'

/-! ## The pass -/

/-- Where the second pass takes over. -/
structure TakesOver (flush : Bool) (s s1 : State) (saw : Bool) : Prop where
  run : Run flush s s1
  room : s1.text.length + s1.source.length ≤ s.text.length + s.source.length
  few : s1.partialSequence.length ≤ maxLength
  fits : Fits s1.partialSequence
  error : saw = s1.sawError ∨ s1.partialSequence = [] ∧ Flawed s1.source

/-- How the first pass ends. -/
inductive FirstEnd (flush stopOnError : Bool) (s : State) : Outcome → Prop
  | finished {s' : State} : Ends flush stopOnError s s' → FirstEnd flush stopOnError s (.finished s')
  | takesOver {s1 : State} {saw : Bool} : TakesOver flush s s1 saw →
    FirstEnd flush stopOnError s (.upConvert { s1 with sawError := saw })

theorem TakesOver.of_run {s1 : State} {saw : Bool} (run : Run flush s s')
    (smaller : s'.text.length + s'.source.length ≤ s.text.length + s.source.length)
    (takes : TakesOver flush s' s1 saw) : TakesOver flush s s1 saw :=
  ⟨run.trans takes.run, takes.room.trans smaller, takes.few, takes.fits, takes.error⟩

theorem FirstEnd.of_run {outcome : Outcome} (run : Run flush s s')
    (smaller : s'.text.length + s'.source.length ≤ s.text.length + s.source.length)
    (ended : FirstEnd flush stopOnError s' outcome) : FirstEnd flush stopOnError s outcome := by
  cases ended with
  | finished ends => exact .finished (ends.of_run run)
  | takesOver takes => exact .takesOver (takes.of_run run smaller)

theorem pass_upConvert {takePartial take : Take}
    (handled : handleCarried flush capacity takePartial s = .ok (.upConvert s')) :
    pass memory flush capacity takePartial take (fuel + 1) s =
      .ok (.upConvert { s' with text := s.text }) := by
  rw [pass, handled]
  rfl

theorem handleCarried_latin1 (valid : Valid s.partialSequence)
    (room : s.text.length + s.stream.length ≤ capacity) :
    ∃ outcome, handleCarried flush capacity (takePartialLatin1 capacity) s = .ok outcome ∧
      PartialLatin1End flush s outcome := by
  unfold handleCarried
  by_cases empty : s.partialSequence = []
  · rw [if_pos empty]
    exact ⟨_, rfl, .read .refl empty le_rfl⟩
  · have some_ : 0 < s.partialSequence.length := List.length_pos_of_ne_nil empty
    obtain ⟨fuel, same⟩ : ∃ fuel, s.partialSequence.length + s.source.length + 1 = fuel + 2 :=
      ⟨s.partialSequence.length + s.source.length - 1, by omega⟩
    rw [if_neg empty, same]
    exact handlePartialSequence_latin1 valid empty room

/-- One round of the first pass; another one is needed at most if the source has been read. -/
theorem pass_latin1 (inside : s.source.length ≤ memory.endAddress)
    (valid : Valid s.partialSequence) (room : s.text.length + s.stream.length ≤ capacity) :
    (∃ outcome, pass memory flush capacity (takePartialLatin1 capacity)
      (takeLatin1 stopOnError capacity) (fuel + 1) s = .ok outcome ∧
      FirstEnd flush stopOnError s outcome) ∨
    ∃ s', pass memory flush capacity (takePartialLatin1 capacity)
      (takeLatin1 stopOnError capacity) (fuel + 1) s =
      pass memory flush capacity (takePartialLatin1 capacity)
        (takeLatin1 stopOnError capacity) fuel s' ∧ Run flush s s' ∧ s'.source = [] ∧
      s'.text.length + s'.source.length ≤ s.text.length + s.source.length ∧
      Pending s'.partialSequence ∧ s.source ≠ [] := by
  obtain ⟨outcome, handled, ended⟩ := @handleCarried_latin1 flush capacity s valid room
  cases ended with
  | @wide s' run text shorter few fits =>
    rw [pass_upConvert handled, ← text]
    refine .inl ⟨_, rfl, @FirstEnd.takesOver _ _ _ s' s'.sawError ⟨run, ?_, few, fits, .inl rfl⟩⟩
    rw [text]
    omega
  | stored last pending some_ =>
    have here : s.stream ≠ [] := fun none => some_ (List.append_eq_nil_iff.mp none).1
    rw [pass_finished handled, if_pos here]
    refine .inl ⟨_, rfl, .finished ⟨pending.valid, fun _ => ⟨s, .refl, rfl, rfl, rfl, pending, ?_⟩⟩⟩
    exact fun flushed => absurd (last.symm.trans flushed) (by decide)
  | @read s1 run none smaller =>
    have grown := run.room
    rw [pass_finished handled, if_neg (not_not.mpr none)]
    have fits : s1.text.length + s1.source.length ≤ capacity := by
      unfold State.stream at grown room
      rw [none, List.nil_append] at grown
      omega
    obtain ⟨s2, outcome, decoded, more, none', ended⟩ := @decodeSource_latin1 flush stopOnError
      memory capacity _ s1 none (run.source_le.trans inside) fits (Nat.lt_succ_self _)
    have whole : Run flush s s2 := run.trans more
    have smaller' : s2.text.length + s2.source.length ≤ s.text.length + s.source.length := by
      have grown' := more.room
      unfold State.stream at grown'
      rw [none, none', List.nil_append, List.nil_append] at grown'
      omega
    rw [decoded]
    cases ended with
    | wide error =>
      refine .inl ⟨_, rfl, .takesOver ⟨whole, smaller', ?_, ?_, error.imp_right fun flawed =>
        ⟨none', flawed⟩⟩⟩
      · rw [none']
        exact Nat.zero_le _
      · rw [none']
        exact fits_nil
    | finished ended =>
      dsimp only
      cases ended with
      | empty read =>
        rw [if_neg fun both => both.2 none']
        exact .inl ⟨_, rfl, .finished ((ends_nil none' read).of_run whole)⟩
      | stored pending some_ =>
        cases flush with
        | false =>
          have stream : s2.source = s2.stream := by rw [State.stream, none', List.nil_append]
          rw [if_neg fun both => Bool.noConfusion both.1]
          refine .inl ⟨_, rfl, .finished ⟨pending.valid, fun _ =>
            ⟨s2, whole, rfl, rfl, stream, ?_, ?_⟩⟩⟩
          · exact stream ▸ pending
          · exact fun flushed => Bool.noConfusion flushed
        | true =>
          rw [if_pos ⟨rfl, some_⟩]
          refine .inr ⟨_, rfl, whole.tail (.keep rfl none' pending), rfl, ?_, pending,
            fun nothing => ?_⟩
          · rw [List.length_nil]
            dsimp only
            omega
          · have shorter := whole.source_le
            rw [nothing, List.length_nil] at shorter
            exact some_ (List.eq_nil_of_length_eq_zero (Nat.le_zero.mp shorter))
      | stopped stop =>
        rw [if_neg fun both => both.2 none']
        refine .inl ⟨_, rfl, .finished ⟨?_, fun goes => absurd (stop.symm.trans goes) (by decide)⟩⟩
        show Valid s2.partialSequence
        rw [none']
        exact pending_nil.valid

theorem firstPass_spec (inside : s.source.length ≤ memory.endAddress)
    (valid : Valid s.partialSequence) (room : s.text.length + s.stream.length ≤ capacity) :
    ∃ outcome, firstPass memory flush stopOnError capacity s = .ok outcome ∧
      FirstEnd flush stopOnError s outcome := by
  unfold firstPass
  rcases @pass_latin1 flush stopOnError memory capacity 1 s inside valid room with
    done | ⟨s', again, run, read, smaller, pending, -⟩
  · exact done
  · rcases @pass_latin1 flush stopOnError memory capacity 0 s' (run.source_le.trans inside)
      pending.valid (run.room.trans room) with
      ⟨outcome, done, ended⟩ | ⟨-, -, -, -, -, -, some_⟩
    · exact ⟨outcome, again.trans done, ended.of_run run smaller⟩
    · exact absurd read some_

end NetRider.Text
