import NetRider.Text.Passes

/-!
# The second pass

Into UTF-16 units everything can be written, so the pass comes to the end, or to an error where it
is to stop.
-/

namespace NetRider.Text

open Lib Relation
open Url (isASCII nonASCIISequenceLength decodeNonASCIISequence isASCII_false_iff)

/-- No longer than the sequence that it begins. -/
def Fits (bytes : List UInt8) : Prop :=
  ∀ byte rest, bytes = byte :: rest → bytes.length ≤ nonASCIISequenceLength byte

variable {flush stopOnError : Bool} {memory : Memory} {capacity fuel count : Nat}
  {s s' : State} {byte : UInt8} {rest bytes : List UInt8} {ch : Char}

theorem Valid.fits (valid : Valid bytes) : Fits bytes := by
  intro byte rest front
  rcases valid byte rest front with short | ⟨whole, -⟩ <;> omega

theorem fits_nil : Fits [] := fun _ _ empty => by cases empty

/-- What does not fit and is in error is an error of its own. -/
theorem Flawed.valid (flawed : Flawed bytes) (fits : Fits bytes) : Valid bytes := by
  intro byte rest front
  obtain ⟨byte', rest', front', -, bad⟩ := flawed
  obtain ⟨rfl, rfl⟩ := List.cons.inj (front.symm.trans front')
  have most := fits byte rest front
  subst front
  rcases bad with zero | ⟨least, undecoded⟩
  · rw [zero] at most
    exact absurd most (by simp)
  · have whole := le_antisymm most least
    rw [← whole, List.take_length] at undecoded
    exact .inr ⟨whole, undecoded⟩

/-! ## What is taken -/

theorem takePartialUTF16_error (room : s.text.length < capacity)
    (front : s.partialSequence = byte :: rest) :
    takePartialUTF16 stopOnError capacity count none s = .ok
      (if stopOnError then .ended (.finished { s with sawError := true })
      else .next { s with
        text := s.text ++ [replacementCharacter], partialSequence := rest, sawError := true }) := by
  have written : write capacity s.text [replacementCharacter] =
      .ok (s.text ++ [replacementCharacter]) := write_eq room
  rw [takePartialUTF16]
  cases stopOnError with
  | true => rfl
  | false =>
    rw [if_neg Bool.false_ne_true, written, front]
    rfl

theorem takePartialUTF16_char (room : s.text.length + (utf16Units ch).length ≤ capacity) :
    takePartialUTF16 stopOnError capacity count (some ch.val.toNat) s = .ok (.next { s with
      text := s.text ++ utf16Units ch
      partialSequence := s.partialSequence.take (s.partialSequence.length - count) }) := by
  rw [takePartialUTF16, appendCharacter_eq, write_eq room]
  rfl

theorem takeUTF16_error (room : s.text.length < capacity) (front : s.source = byte :: rest) :
    takeUTF16 stopOnError capacity count none s = .ok
      (if stopOnError then .ended (.finished { s with sawError := true })
      else .next { s with
        text := s.text ++ [replacementCharacter], source := rest, sawError := true }) := by
  have written : write capacity s.text [replacementCharacter] =
      .ok (s.text ++ [replacementCharacter]) := write_eq room
  rw [takeUTF16]
  cases stopOnError with
  | true => rfl
  | false =>
    rw [if_neg Bool.false_ne_true, written, front]
    rfl

theorem takeUTF16_char (room : s.text.length + (utf16Units ch).length ≤ capacity) :
    takeUTF16 stopOnError capacity count (some ch.val.toNat) s = .ok (.next { s with
      text := s.text ++ utf16Units ch, source := s.source.drop count }) := by
  rw [takeUTF16, appendCharacter_eq, write_eq room]
  rfl

/-! ## The partial sequence -/

/-- How the loop over the partial sequence ends. -/
inductive PartialEnd (flush stopOnError : Bool) (s : State) : State → Prop
  | empty : s.partialSequence = [] → PartialEnd flush stopOnError s s
  | stored : flush = false → Pending s.stream → s.partialSequence ≠ [] →
    PartialEnd flush stopOnError s { s with partialSequence := s.stream }
  | stopped : stopOnError = true → Valid s.partialSequence → s.partialSequence ≠ [] →
    PartialEnd flush stopOnError s { s with sawError := true }

theorem char_room {lost : List UInt8} (front : s.partialSequence = String.utf8EncodeChar ch ++ lost)
    (room : s.text.length + s.stream.length ≤ capacity) :
    s.text.length + (utf16Units ch).length ≤ capacity := by
  have units := (lengths ch).1
  unfold State.stream at room
  simp only [front, List.length_append] at room
  omega

theorem stream_length (front : s.partialSequence = byte :: rest) : 0 < s.stream.length := by
  unfold State.stream
  rw [front]
  exact Nat.zero_lt_succ _

/-- The loop goes on behind a step. -/
theorem handlePartialSequence_next {take : Take} (front : s.partialSequence = byte :: rest)
    (turn : partialTurn flush capacity take byte rest s = .ok (.next s')) :
    handlePartialSequence flush capacity take (fuel + 1) s =
      handlePartialSequence flush capacity take fuel s' := by
  rw [handlePartialSequence]
  simp only [front, turn, bind, Except.bind]

theorem handlePartialSequence_ended {take : Take} {outcome : Outcome}
    (front : s.partialSequence = byte :: rest)
    (turn : partialTurn flush capacity take byte rest s = .ok (.ended outcome)) :
    handlePartialSequence flush capacity take (fuel + 1) s = .ok outcome := by
  rw [handlePartialSequence]
  simp only [front, turn, bind, Except.bind]
  rfl

theorem handlePartialSequence_nil {take : Take} (empty : s.partialSequence = []) :
    handlePartialSequence flush capacity take (fuel + 1) s = .ok (.finished s) := by
  rw [handlePartialSequence]
  simp only [empty]
  rfl

theorem handlePartialSequence_utf16 (few : s.partialSequence.length ≤ maxLength)
    (room : s.text.length + s.stream.length ≤ capacity)
    (stops : stopOnError = true → Fits s.partialSequence) (enough : s.stream.length < fuel) :
    ∃ s1 s', handlePartialSequence flush capacity (takePartialUTF16 stopOnError capacity) fuel s =
      .ok (.finished s') ∧ Run flush s s1 ∧ PartialEnd flush stopOnError s1 s' := by
  induction fuel generalizing s with
  | zero => omega
  | succ fuel ih =>
    -- What is left to do once a step has been made.
    have goes {s2 s3 : State} {byte : UInt8} {rest : List UInt8}
        (front : s.partialSequence = byte :: rest) (run : Run flush s s2)
        (step : Step flush s2 s3) (turn : partialTurn flush capacity
          (takePartialUTF16 stopOnError capacity) byte rest s = .ok (.next s3))
        (few : s3.partialSequence.length ≤ maxLength)
        (stops : stopOnError = true → Fits s3.partialSequence)
        (shorter : s3.stream.length < s.stream.length) : ∃ s1 s',
        handlePartialSequence flush capacity (takePartialUTF16 stopOnError capacity) (fuel + 1) s =
          .ok (.finished s') ∧ Run flush s s1 ∧ PartialEnd flush stopOnError s1 s' := by
      have whole : Run flush s s3 := run.tail step
      obtain ⟨s1, s', handled, more, ended⟩ :=
        ih few (whole.room.trans room) stops (by omega)
      exact ⟨s1, s', (handlePartialSequence_next front turn).trans handled, whole.trans more, ended⟩
    rcases front : s.partialSequence with _ | ⟨byte, rest⟩
    · exact ⟨s, s, handlePartialSequence_nil front, .refl, .empty front⟩
    · have some_ := stream_length front
      have free : s.text.length < capacity := by omega
      have partsOf (s' : State) : s'.stream.length =
          s'.partialSequence.length + s'.source.length := List.length_append
      have parts := partsOf s
      rcases partialTurn_cases flush (takePartialUTF16 stopOnError capacity) front few free with
        ⟨s', turn, step, ascii, left, kept⟩ | ⟨turn, last, pending⟩ | ⟨turn, last, pending⟩ |
        ⟨s', run, same, text, saw, grown, few', ⟨rest', front'⟩, turn⟩
      · have size := partsOf s'
        rw [front, List.length_cons] at few parts
        rw [left, kept] at size
        refine goes front .refl step turn (by rw [left]; omega) (fun stop => ?_) (by omega)
        have most := stops stop byte rest front
        rw [front, List.length_cons] at most
        have other := (nonASCII_of_length (by omega : nonASCIISequenceLength byte ≠ 0)).1
        exact absurd (ascii.symm.trans other) (by decide)
      · have here : s.partialSequence ≠ [] := by simp [front]
        exact ⟨s, _, handlePartialSequence_ended front turn, .refl, .stored last pending here⟩
      · rw [takePartialUTF16_error free front] at turn
        have short : s.partialSequence.length < nonASCIISequenceLength byte := by
          have all := pending byte (rest ++ s.source) (by rw [State.stream, front]; rfl)
          omega
        cases stop : stopOnError with
        | true =>
          subst stop
          refine ⟨s, _, handlePartialSequence_ended front turn, .refl, .stopped rfl ?_ ?_⟩
          · intro byte' rest' same
            obtain ⟨rfl, -⟩ := List.cons.inj (front.symm.trans same)
            exact .inl short
          · simp [front]
        | false =>
          subst stop last
          refine goes front .refl (.partialError front (.inr ⟨rfl, pending⟩)) turn ?_ ?_ ?_
          · rw [front, List.length_cons] at few
            exact Nat.le_of_succ_le few
          · exact fun stop => Bool.noConfusion stop
          · rw [front, List.length_cons] at parts
            rw [partsOf]
            dsimp only
            omega
      · have parts' := partsOf s'
        rw [same] at parts'
        have free' : s'.text.length < capacity := text ▸ free
        have room' : s'.text.length + s'.stream.length ≤ capacity := by
          rw [text, same]
          exact room
        rcases turn with ⟨turn, flawed⟩ | ⟨ch, lost, whole, behind, size, turn⟩
        · rw [takePartialUTF16_error free' front'] at turn
          cases stop : stopOnError with
          | true =>
            subst stop
            refine ⟨s', _, handlePartialSequence_ended front turn, run, .stopped rfl ?_ ?_⟩
            · refine flawed.valid ?_
              rcases grown with unchanged | complete
              · rw [unchanged]
                exact stops rfl
              · intro byte' rest'' again
                obtain ⟨rfl, -⟩ := List.cons.inj (front'.symm.trans again)
                exact complete.le
            · simp [front']
          | false =>
            subst stop
            refine goes front run (.partialError front' (.inl flawed)) turn ?_ ?_ ?_
            · rw [front', List.length_cons] at few'
              exact Nat.le_of_succ_le few'
            · exact fun stop => Bool.noConfusion stop
            · rw [front', List.length_cons] at parts'
              rw [partsOf]
              dsimp only
              omega
        · have sizes := congrArg List.length whole
          rw [List.length_append] at sizes
          have left : s'.partialSequence.length - (String.utf8EncodeChar ch).length = lost.length := by
            omega
          have many := utf8EncodeChar_length_pos ch
          rw [takePartialUTF16_char (char_room whole room'), left] at turn
          refine goes front run (.partialCharacter whole behind) turn ?_ ?_ ?_
          · exact (List.length_take_le' _ _).trans few'
          · intro stop
            have none : lost = [] := by
              have most : s'.partialSequence.length ≤ nonASCIISequenceLength byte := by
                rcases grown with unchanged | complete
                · rw [unchanged]
                  exact stops stop byte rest front
                · exact complete.le
              exact List.eq_nil_of_length_eq_zero (by omega)
            rw [none]
            exact fits_nil
          · rw [partsOf, List.length_take]
            dsimp only
            omega

/-! ## The source -/

/-- How the loop over the source ends in the second pass. -/
inductive SourceEnd (stopOnError : Bool) (s : State) : State → Prop
  | empty : s.source = [] → SourceEnd stopOnError s s
  | stored : Pending s.source → s.source ≠ [] →
    SourceEnd stopOnError s { s with source := [], partialSequence := s.source }
  | stopped : stopOnError = true → SourceEnd stopOnError s { s with sawError := true }

theorem decodeSource_next {take : Take} (front : s.source = byte :: rest)
    (turn : sourceTurn memory capacity take byte s = .ok (.next s')) :
    decodeSource memory capacity take (fuel + 1) s = decodeSource memory capacity take fuel s' := by
  rw [decodeSource]
  simp only [front, turn, bind, Except.bind]

theorem decodeSource_ended {take : Take} {outcome : Outcome} (front : s.source = byte :: rest)
    (turn : sourceTurn memory capacity take byte s = .ok (.ended outcome)) :
    decodeSource memory capacity take (fuel + 1) s = .ok outcome := by
  rw [decodeSource]
  simp only [front, turn, bind, Except.bind]
  rfl

theorem decodeSource_nil {take : Take} (empty : s.source = []) :
    decodeSource memory capacity take (fuel + 1) s = .ok (.finished s) := by
  rw [decodeSource]
  simp only [empty]
  rfl

/-- The first byte of the source is in error. -/
theorem Flawed.step (flawed : Flawed s.source) (empty : s.partialSequence = [])
    (front : s.source = byte :: rest) : Step flush s { s with
      text := s.text ++ [replacementCharacter], source := rest, sawError := true } := by
  have inError := @Flawed.inError flush _ flawed []
  rw [List.append_nil] at inError
  exact .error empty front inError

theorem source_room {lost : List UInt8} (front : s.source = String.utf8EncodeChar ch ++ lost)
    (room : s.text.length + s.source.length ≤ capacity) :
    s.text.length + (utf16Units ch).length ≤ capacity ∧
      s.text.length + (utf16Units ch).length + lost.length ≤ capacity ∧
      lost.length < s.source.length := by
  have units := (lengths ch).1
  have some_ := utf8EncodeChar_length_pos ch
  simp only [front, List.length_append] at room ⊢
  omega

theorem decodeSource_utf16 (empty : s.partialSequence = [])
    (inside : s.source.length ≤ memory.endAddress)
    (room : s.text.length + s.source.length ≤ capacity) (enough : s.source.length < fuel) :
    ∃ s1 s', decodeSource memory capacity (takeUTF16 stopOnError capacity) fuel s =
      .ok (.finished s') ∧ Run flush s s1 ∧ s1.partialSequence = [] ∧
      SourceEnd stopOnError s1 s' := by
  induction fuel generalizing s with
  | zero => omega
  | succ fuel ih =>
    -- What is left to do once a step has been made.
    have goes {s3 : State} {byte : UInt8} {rest : List UInt8} (front : s.source = byte :: rest)
        (step : Step flush s s3) (turn : sourceTurn memory capacity
          (takeUTF16 stopOnError capacity) byte s = .ok (.next s3))
        (empty : s3.partialSequence = []) (shorter : s3.source.length < s.source.length)
        (room : s3.text.length + s3.source.length ≤ capacity) :
        ∃ s1 s', decodeSource memory capacity (takeUTF16 stopOnError capacity) (fuel + 1) s =
          .ok (.finished s') ∧ Run flush s s1 ∧ s1.partialSequence = [] ∧
          SourceEnd stopOnError s1 s' := by
      obtain ⟨s1, s', decoded, more, none, ended⟩ := ih empty (by omega) room (by omega)
      exact ⟨s1, s', (decodeSource_next front turn).trans decoded, .head step more, none, ended⟩
    rcases front : s.source with _ | ⟨byte, rest⟩
    · exact ⟨s, s, decodeSource_nil front, .refl, empty, .empty front⟩
    · have size : s.source.length = rest.length + 1 := by rw [front]; rfl
      rcases sourceTurn_cases flush (takeUTF16 stopOnError capacity) front empty inside room with
        ⟨s', turn, step, none, shorter⟩ | ⟨turn, flawed⟩ | ⟨turn, pending⟩ |
        ⟨ch, rest', split, turn⟩
      · have grown := step.room
        unfold State.stream at grown
        rw [empty, none, List.nil_append, List.nil_append] at grown
        exact goes front step turn none shorter (grown.trans room)
      · rw [takeUTF16_error (by omega) front] at turn
        cases stop : stopOnError with
        | true =>
          subst stop
          exact ⟨s, _, decodeSource_ended front turn, .refl, empty, .stopped rfl⟩
        | false =>
          subst stop
          refine goes front (flawed.step empty front) turn empty ?_ ?_
          · dsimp only
            omega
          · rw [List.length_append, List.length_singleton]
            dsimp only
            omega
      · exact ⟨s, _, decodeSource_ended front turn, .refl, empty, .stored pending (by simp [front])⟩
      · obtain ⟨fits, fits', shorter⟩ := source_room split room
        rw [takeUTF16_char fits, split, List.drop_left] at turn
        refine goes front (.character empty split) turn empty shorter ?_
        rw [List.length_append]
        exact fits'

/-! ## The pass -/

/-- What is left at the end: at the final call nothing, unless there has been an error to stop at. -/
def Ends (flush stopOnError : Bool) (s s' : State) : Prop :=
  Valid s'.partialSequence ∧ (stopOnError = false → ∃ s1, Run flush s s1 ∧ s'.text = s1.text ∧
    s'.sawError = s1.sawError ∧ s'.partialSequence = s1.stream ∧ Pending s1.stream ∧
    (flush = true → s1.stream = []))

theorem Ends.of_run (run : Run flush s s') {s2 : State} (ends : Ends flush stopOnError s' s2) :
    Ends flush stopOnError s s2 := by
  refine ⟨ends.1, fun goes => ?_⟩
  obtain ⟨s1, more, rest⟩ := ends.2 goes
  exact ⟨s1, run.trans more, rest⟩

theorem ends_nil (empty : s.partialSequence = []) (read : s.source = []) :
    Ends flush stopOnError s s := by
  have none : s.stream = [] := by rw [State.stream, empty, read]; rfl
  refine ⟨empty ▸ pending_nil.valid, fun _ => ⟨s, .refl, rfl, rfl, ?_, ?_, fun _ => none⟩⟩
  · rw [none, empty]
  · rw [none]
    exact pending_nil

theorem pass_finished {takePartial take : Take} {fuel : Nat}
    (handled : handleCarried flush capacity takePartial s = .ok (.finished s')) :
    pass memory flush capacity takePartial take (fuel + 1) s =
      if s'.partialSequence ≠ [] then .ok (.finished s')
      else
        match decodeSource memory capacity take (s'.source.length + 1) s' with
        | .error fault => .error fault
        | .ok (.upConvert s) => .ok (.upConvert s)
        | .ok (.finished s) =>
          if flush ∧ s.partialSequence ≠ [] then
            pass memory flush capacity takePartial take fuel s
          else .ok (.finished s) := by
  rw [pass, handled]
  simp only [bind, Except.bind]
  split_ifs
  · rfl
  · rcases decodeSource memory capacity take (s'.source.length + 1) s' with _ | _ | _ <;> rfl

/-- One round of the second pass; another one is needed at most if the source has been read. -/
theorem pass_utf16 {fuel : Nat} (inside : s.source.length ≤ memory.endAddress)
    (few : s.partialSequence.length ≤ maxLength)
    (room : s.text.length + s.stream.length ≤ capacity)
    (stops : stopOnError = true → Fits s.partialSequence) :
    (∃ s', pass memory flush capacity (takePartialUTF16 stopOnError capacity)
      (takeUTF16 stopOnError capacity) (fuel + 1) s = .ok (.finished s') ∧
      Ends flush stopOnError s s') ∨
    ∃ s', pass memory flush capacity (takePartialUTF16 stopOnError capacity)
      (takeUTF16 stopOnError capacity) (fuel + 1) s =
      pass memory flush capacity (takePartialUTF16 stopOnError capacity)
        (takeUTF16 stopOnError capacity) fuel s' ∧ Run flush s s' ∧ s'.source = [] ∧
      Pending s'.partialSequence ∧ s.source ≠ [] := by
  have handled : ∃ s1 s', handleCarried flush capacity (takePartialUTF16 stopOnError capacity) s =
      .ok (.finished s') ∧ Run flush s s1 ∧ PartialEnd flush stopOnError s1 s' := by
    unfold handleCarried
    by_cases empty : s.partialSequence = []
    · rw [if_pos empty]
      exact ⟨s, s, rfl, .refl, .empty empty⟩
    · rw [if_neg empty]
      refine handlePartialSequence_utf16 few room stops ?_
      rw [State.stream, List.length_append]
      exact Nat.lt_succ_self _
  obtain ⟨s1, s', handled, run, ended⟩ := handled
  rw [pass_finished handled]
  cases ended with
  | stored last pending some_ =>
    have here : s1.stream ≠ [] := fun none => some_ (List.append_eq_nil_iff.mp none).1
    rw [if_pos here]
    refine .inl ⟨_, rfl, pending.valid, fun _ => ⟨s1, run, rfl, rfl, rfl, pending, ?_⟩⟩
    exact fun flushed => absurd (last.symm.trans flushed) (by decide)
  | stopped stop valid some_ =>
    rw [if_pos some_]
    exact .inl ⟨_, rfl, valid, fun goes => absurd (stop.symm.trans goes) (by decide)⟩
  | empty none =>
    have grown := run.room
    rw [if_neg (not_not.mpr none)]
    have fits : s1.text.length + s1.source.length ≤ capacity := by
      unfold State.stream at grown room
      rw [none, List.nil_append] at grown
      omega
    obtain ⟨s2, s3, decoded, more, none', ended⟩ := @decodeSource_utf16 flush stopOnError memory
      capacity _ s1 none (run.source_le.trans inside) fits (Nat.lt_succ_self _)
    have whole : Run flush s s2 := run.trans more
    rw [decoded]
    dsimp only
    cases ended with
    | empty read =>
      rw [if_neg fun both => both.2 none']
      exact .inl ⟨_, rfl, (ends_nil none' read).of_run whole⟩
    | stored pending some_ =>
      cases flush with
      | false =>
        have stream : s2.source = s2.stream := by rw [State.stream, none', List.nil_append]
        rw [if_neg fun both => Bool.noConfusion both.1]
        refine .inl ⟨_, rfl, pending.valid, fun _ => ⟨s2, whole, rfl, rfl, stream, ?_, ?_⟩⟩
        · exact stream ▸ pending
        · exact fun flushed => Bool.noConfusion flushed
      | true =>
        rw [if_pos ⟨rfl, some_⟩]
        refine .inr ⟨_, rfl, whole.tail (.keep rfl none' pending), rfl, pending, fun nothing => ?_⟩
        have shorter := whole.source_le
        rw [nothing, List.length_nil] at shorter
        exact some_ (List.eq_nil_of_length_eq_zero (Nat.le_zero.mp shorter))
    | stopped stop =>
      rw [if_neg fun both => both.2 none']
      refine .inl ⟨_, rfl, ?_, fun goes => absurd (stop.symm.trans goes) (by decide)⟩
      show Valid s2.partialSequence
      rw [none']
      exact pending_nil.valid

theorem secondPass_spec (inside : s.source.length ≤ memory.endAddress)
    (few : s.partialSequence.length ≤ maxLength)
    (room : s.text.length + s.stream.length ≤ capacity)
    (stops : stopOnError = true → Fits s.partialSequence) :
    ∃ s', secondPass memory flush stopOnError capacity s = .ok (.finished s') ∧
      Ends flush stopOnError s s' := by
  unfold secondPass
  rcases @pass_utf16 flush stopOnError memory capacity s 1 inside few room stops with
    done | ⟨s', again, run, read, pending, -⟩
  · exact done
  · rcases @pass_utf16 flush stopOnError memory capacity s' 0 (run.source_le.trans inside)
      pending.valid.length_le (run.room.trans room) (fun _ => pending.valid.fits) with
      ⟨s2, done, ends⟩ | ⟨-, -, -, -, -, some_⟩
    · exact ⟨s2, again.trans done, ends.of_run run⟩
    · exact absurd read some_

end NetRider.Text
