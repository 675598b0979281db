import NetRider.Text.FirstPass

/-!
# Inside the buffers

One call of `decode`, from any state that earlier calls leave behind.
-/

namespace NetRider.Text

open Lib Relation
open Url (isASCII nonASCIISequenceLength decodeNonASCIISequence isASCII_false_iff)

variable {wide flush stopOnError sawError : Bool} {address : Nat}
  {s s' : State} {partialSequence bytes rest : List UInt8}

/-- Both buffers are as long as they are meant to be: their lengths are not cut off. The second one
is as long as the partial sequence that the first pass leaves demands. -/
structure Sized (wide : Bool) (address : Nat) (flush stopOnError : Bool)
    (partialSequence bytes : List UInt8) (sawError : Bool) : Prop where
  first : partialSequence.length + bytes.length < 2 ^ 32
  second : ∀ s, firstPass ⟨wide, address + bytes.length⟩ flush stopOnError
    (bufferLength partialSequence bytes.length) ⟨[], bytes, partialSequence, sawError⟩ =
      .ok (.upConvert s) → s.partialSequence.length + bytes.length < 2 ^ 32

/-- The partial sequences that calls leave behind. -/
inductive Reachable : List UInt8 → Prop
  | start : Reachable []
  | call {wide address flush stopOnError partialSequence bytes sawError decoded} :
    Reachable partialSequence →
    Sized wide address flush stopOnError partialSequence bytes sawError →
    decode wide address flush stopOnError partialSequence bytes sawError = .ok decoded →
    Reachable decoded.partialSequence

theorem Flawed.not_pending (flawed : Flawed bytes) : ¬ Pending bytes := by
  obtain ⟨byte, rest, rfl, -, bad⟩ := flawed
  intro pending
  have short := pending byte rest rfl
  rcases bad with zero | ⟨fits, -⟩ <;> omega

/-- An error is noted whether it has been noted before or not. -/
theorem run_flawed {saw : Bool} (empty : s.partialSequence = []) (flawed : Flawed s.source)
    (run : Run flush { s with sawError := saw } s') (pending : Pending s'.stream) :
    Run flush s s' := by
  generalize start : { s with sawError := saw } = s2 at run
  induction run using ReflTransGen.head_induction_on with
  | refl =>
    subst start
    rw [State.stream, empty, List.nil_append] at pending
    exact absurd pending flawed.not_pending
  | head step run ih =>
    subst start
    cases step with
    | byte front | refill front | partialError front =>
      exact absurd (empty.symm.trans front) (List.cons_ne_nil _ _).symm
    | @partialCharacter ch lost front =>
      have some_ := utf8EncodeChar_length_pos ch
      have sizes := congrArg List.length front
      rw [List.length_append] at sizes
      simp only [empty, List.length_nil] at sizes
      omega
    | @chunk chunk rest _ front ascii =>
      rcases chunk with _ | ⟨byte, chunk⟩
      · refine ih ?_
        simp only [List.map_nil, List.append_nil]
        exact congrArg (fun source => (⟨s.text, source, s.partialSequence, saw⟩ : State)) front
      · obtain ⟨byte', rest', front', other, -⟩ := flawed
        obtain ⟨rfl, -⟩ := List.cons.inj (front'.symm.trans front)
        exact absurd (ascii _ List.mem_cons_self) (by simp [other])
    | @character ch rest _ front =>
      have inError := @Flawed.inError flush _ flawed []
      rw [List.append_nil] at inError
      refine absurd ?_ (inError [] fun _ => rfl)
      have start : s.source = String.utf8EncodeChar ch ++ rest := front
      rw [List.append_nil, start]
      exact starts_character
    | error _ front => exact .head (flawed.step empty front) run
    | keep _ _ ahead => exact absurd ahead flawed.not_pending

/-- What one call decodes. -/
structure Decodes1 (flush stopOnError : Bool) (s : State) (decoded : Decoded) : Prop where
  valid : Valid decoded.partialSequence
  run : stopOnError = false → ∃ s1, Run flush s s1 ∧ decoded.text = s1.text ∧
    decoded.sawError = s1.sawError ∧ decoded.partialSequence = s1.stream ∧ Pending s1.stream ∧
    (flush = true → s1.stream = [])

theorem decode_spec (valid : Valid partialSequence)
    (sized : Sized wide address flush stopOnError partialSequence bytes sawError) :
    ∃ decoded, decode wide address flush stopOnError partialSequence bytes sawError = .ok decoded ∧
      Decodes1 flush stopOnError ⟨[], bytes, partialSequence, sawError⟩ decoded := by
  have inside : bytes.length ≤ address + bytes.length := Nat.le_add_left _ _
  have capacity : bufferLength partialSequence bytes.length =
      partialSequence.length + bytes.length := Nat.mod_eq_of_lt sized.first
  have room : ([] : List UInt16).length + (partialSequence ++ bytes).length ≤
      bufferLength partialSequence bytes.length := by
    rw [capacity, List.length_append, List.length_nil, Nat.zero_add]
  obtain ⟨outcome, passed, ended⟩ := @firstPass_spec flush stopOnError
    ⟨wide, address + bytes.length⟩ _ ⟨[], bytes, partialSequence, sawError⟩ inside valid room
  unfold decode
  dsimp only
  simp only [passed, bind, Except.bind]
  cases ended with
  | @finished s' ends => exact ⟨_, rfl, ends.1, ends.2⟩
  | @takesOver s1 saw takes =>
    have second : bufferLength s1.partialSequence bytes.length =
        s1.partialSequence.length + bytes.length := Nat.mod_eq_of_lt (sized.second { s1 with sawError := saw } passed)
    have smaller : s1.text.length + s1.source.length ≤ bytes.length := by
      have all := takes.room
      rwa [List.length_nil, Nat.zero_add] at all
    have sourceLe : s1.source.length ≤ bytes.length := by omega
    have written : write (bufferLength s1.partialSequence bytes.length) [] s1.text =
        .ok ([] ++ s1.text) := write_eq (by rw [second, List.length_nil]; omega)
    have room' : s1.text.length + (s1.partialSequence ++ s1.source).length ≤
        bufferLength s1.partialSequence bytes.length := by
      rw [second, List.length_append]
      omega
    obtain ⟨s', passed', ends⟩ := @secondPass_spec flush stopOnError
      ⟨wide, address + bytes.length⟩ _ { s1 with sawError := saw } (sourceLe.trans inside)
      takes.few room' fun _ => takes.fits
    dsimp only
    rw [written]
    dsimp only
    rw [List.nil_append, passed']
    refine ⟨_, rfl, ends.1, fun goes => ?_⟩
    obtain ⟨s2, run, text, error, left, pending, last⟩ := ends.2 goes
    refine ⟨s2, takes.run.trans ?_, text, error, left, pending, last⟩
    rcases takes.error with rfl | ⟨empty, flawed⟩
    · exact run
    · exact run_flawed empty flawed run pending

theorem reachable_valid (reachable : Reachable partialSequence) : Valid partialSequence := by
  induction reachable with
  | start => exact pending_nil.valid
  | call _ sized decoded ih =>
    obtain ⟨decoded', again, spec⟩ := decode_spec ih sized
    obtain rfl := Except.ok.inj (decoded.symm.trans again)
    exact spec.valid

/-- **`decode` stays inside its buffers**, and ends. -/
theorem decode_inside (reachable : Reachable partialSequence)
    (sized : Sized wide address flush stopOnError partialSequence bytes sawError) :
    ∃ decoded, decode wide address flush stopOnError partialSequence bytes sawError =
      .ok decoded := by
  obtain ⟨decoded, done, -⟩ := decode_spec (reachable_valid reachable) sized
  exact ⟨decoded, done⟩

/-- Of 2 ^ 32 bytes nothing is left in the length of the buffer. -/
theorem decode_outside (length : (0xFF :: rest).length = 2 ^ 32) :
    decode wide address flush false [] (0xFF :: rest) sawError = .error .outsideBuffer := by
  have capacity : bufferLength [] (0xFF :: rest).length = 0 := by
    rw [length]
    rfl
  have first : firstPass ⟨wide, address + (0xFF :: rest).length⟩ flush false 0
      ⟨[], 0xFF :: rest, [], sawError⟩ = .ok (.upConvert ⟨[], 0xFF :: rest, [], true⟩) := rfl
  have second : secondPass ⟨wide, address + (0xFF :: rest).length⟩ flush false 0
      ⟨[], 0xFF :: rest, [], true⟩ = .error .outsideBuffer := rfl
  have copied : write 0 [] [] = .ok [] := rfl
  unfold decode
  dsimp only
  rw [capacity, first]
  simp only [bind, Except.bind, capacity, copied, second]

/-- The partial sequence [0xF1] and four more bytes: an error in the middle of the sequence. -/
theorem decode_inside_carried : ∃ decoded,
    decode true 16 true false [0xF1] [0xC3, 0xA9, 0x41, 0x42] false = .ok decoded := by
  have before : decode true 16 false false [] [0xF1] false = .ok ⟨[], [0xF1], false⟩ := by
    decide
  have sized : Sized true 16 false false [] [0xF1] false := by
    refine ⟨by decide, fun s converts => ?_⟩
    have finished : firstPass ⟨true, 16 + [(0xF1 : UInt8)].length⟩ false false
        (bufferLength [] [(0xF1 : UInt8)].length) ⟨[], [0xF1], [], false⟩ =
        .ok (.finished ⟨[], [], [0xF1], false⟩) := by decide
    rw [finished] at converts
    cases converts
  have reachable : Reachable [0xF1] := Reachable.call .start sized before
  have sized' : Sized true 16 true false [0xF1] [0xC3, 0xA9, 0x41, 0x42] false := by
    refine ⟨by decide, fun s converts => ?_⟩
    have converted : firstPass ⟨true, 16 + [(0xC3 : UInt8), 0xA9, 0x41, 0x42].length⟩ true false
        (bufferLength [0xF1] [(0xC3 : UInt8), 0xA9, 0x41, 0x42].length)
        ⟨[], [0xC3, 0xA9, 0x41, 0x42], [0xF1], false⟩ =
        .ok (.upConvert ⟨[], [0x42], [0xF1, 0xC3, 0xA9, 0x41], false⟩) := by decide
    rw [converted] at converts
    cases converts
    decide
  exact decode_inside reachable sized'

theorem chunk_overflows :
    ¬ ∃ decoded, decode true 0 true false [] (0xFF :: List.replicate (2 ^ 32 - 1) 0xFF) false =
      .ok decoded := by
  rintro ⟨decoded, done⟩
  have length : (0xFF :: List.replicate (2 ^ 32 - 1) (0xFF : UInt8)).length = 2 ^ 32 := by
    rw [List.length_cons, List.length_replicate, Nat.sub_add_cancel (by decide)]
  rw [decode_outside length] at done
  cases done

end NetRider.Text
