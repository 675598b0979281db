import NetRider.Text.Chunks

/-!
# Mixed bytes

Cut behind the byte that leads four, mixed bytes are not decoded as they are when they come in one.
-/

namespace NetRider.Text

open Lib Relation
open Url (isASCII nonASCIISequenceLength decodeNonASCIISequence isASCII_false_iff)

variable {flush wide : Bool} {s s' s2 : State} {a b c l byte : UInt8}
  {rest bytes pre tail more : List UInt8} {ch : Char}

/-! ## Steps in the partial sequence -/

/-- What the partial sequence looks like decides which step is made. -/
inductive PartialStep (flush : Bool) (s : State) (byte : UInt8) (rest : List UInt8) : State → Prop
  | byte : isASCII byte = true → PartialStep flush s byte rest { s with
      text := s.text ++ [byte.toUInt16], partialSequence := rest }
  | refill {count : Nat} : count ≤ s.source.length → 0 < count →
    (byte :: rest).length + count = nonASCIISequenceLength byte →
    PartialStep flush s byte rest { s with
      source := s.source.drop count, partialSequence := byte :: rest ++ s.source.take count }
  | character {ch : Char} {lost : List UInt8} : byte :: rest = String.utf8EncodeChar ch ++ lost →
    (String.utf8EncodeChar ch).length = nonASCIISequenceLength byte →
    PartialStep flush s byte rest { s with
      text := s.text ++ utf16Units ch, partialSequence := (byte :: rest).take lost.length }
  | error : Flawed (byte :: rest) ∨ flush = true ∧ Pending s.stream →
    PartialStep flush s byte rest { s with
      text := s.text ++ [replacementCharacter], partialSequence := rest, sawError := true }

theorem Step.partialStep (step : Step flush s s') (front : s.partialSequence = byte :: rest) :
    PartialStep flush s byte rest s' := by
  cases step with
  | byte front' ascii =>
    obtain ⟨rfl, rfl⟩ := List.cons.inj (front.symm.trans front')
    exact .byte ascii
  | refill front' fits some_ size =>
    obtain ⟨rfl, rfl⟩ := List.cons.inj (front.symm.trans front')
    rw [front] at size ⊢
    exact .refill fits some_ size
  | partialCharacter front' behind =>
    rw [front] at front' ⊢
    obtain ⟨byte', bytes, encoded, -, length, -⟩ := char_sequence behind
    have same := front'
    rw [encoded] at same
    obtain ⟨rfl, -⟩ := List.cons.inj same
    exact .character front' (encoded ▸ length)
  | partialError front' bad =>
    obtain ⟨rfl, rfl⟩ := List.cons.inj (front.symm.trans front')
    rw [front] at bad
    exact .error bad
  | chunk empty | character empty | error empty | keep _ empty =>
    exact absurd (empty.symm.trans front) (List.cons_ne_nil _ _).symm

/-- A run to the end makes a step as long as there are bytes. -/
theorem run_step (run : Run flush s s2) (ended : s2.stream = [])
    (front : s.partialSequence = byte :: rest) :
    ∃ s', Step flush s s' ∧ PartialStep flush s byte rest s' ∧ Run flush s' s2 := by
  rcases ReflTransGen.cases_head run with rfl | ⟨s', step, more⟩
  · rw [State.stream, front] at ended
    cases ended
  · exact ⟨s', step, step.partialStep front, more⟩

/-! ## The byte that leads four -/

/-- It is part of no character that begins in front of it. -/
theorem not_inside (lead : LeadsFour l) {lost : List UInt8}
    (front : byte :: (bytes ++ l :: more) = String.utf8EncodeChar ch ++ lost) :
    (String.utf8EncodeChar ch).length ≤ bytes.length + 1 := by
  by_contra long
  have here : (byte :: (bytes ++ l :: more))[bytes.length + 1]? = some l := by
    rw [List.getElem?_cons_succ, List.getElem?_append_right le_rfl, Nat.sub_self,
      List.getElem?_cons_zero]
  rw [front, List.getElem?_append_left (by omega)] at here
  rcases encoded : String.utf8EncodeChar ch with _ | ⟨first, trailing⟩
  · rw [encoded] at here
    cases here
  · rw [encoded, List.getElem?_cons_succ] at here
    have trail := utf8EncodeChar_trails ch encoded l (List.mem_of_getElem? here)
    unfold LeadsFour at lead
    unfold Trails at trail
    omega

/-- Some bytes make a character of it. -/
theorem LeadsFour.starts (lead : LeadsFour l) : ∃ future, Starts (l :: future) := by
  have trail : Url.isTrail (if l.toNat = 0xF0 then 0x90 else 0x80) (Url.secondByteRange l) =
      true := by
    rw [secondByteRange_iff]
    unfold LeadsFour at lead
    split_ifs <;> simp only [UInt8.reduceToNat] <;> omega
  obtain ⟨ch, encoded, -⟩ := @char_of_four l _ 0x80 0x80 _ lead.1 lead.2
    (decode_four.mpr ⟨trail, by decide, by decide, rfl⟩)
  exact ⟨_, ch, [], (List.append_nil _).trans encoded.symm⟩

/-- As the last byte of the source it stays there. -/
theorem run_last (run : Run false s s') (empty : s.partialSequence = [])
    (last : s.source.getLast? = some l) (lead : LeadsFour l) : s'.source.getLast? = some l := by
  induction run with
  | refl => exact last
  | @tail s1 s2 run step ih =>
    have none := (@run_source _ _ [] run empty).2
    cases step with
    | byte front | refill front | partialError front =>
      exact absurd (none.symm.trans front) (List.cons_ne_nil _ _).symm
    | partialCharacter => exact ih
    | keep flushed => exact Bool.noConfusion flushed
    | @chunk chunk rest _ front ascii =>
      rw [front] at ih
      rcases rest with _ | ⟨next, rest⟩
      · rw [List.append_nil] at ih
        exact absurd lead (not_leadsFour_ascii (ascii l (List.mem_of_getLast? ih)))
      · rwa [List.getLast?_append_of_ne_nil _ (List.cons_ne_nil _ _)] at ih
    | @character ch rest _ front =>
      rw [front] at ih
      rcases rest with _ | ⟨next, rest⟩
      · obtain ⟨bytes, same⟩ := List.getLast?_eq_some_iff.mp ih
        rw [List.append_nil] at same
        rcases bytes with _ | ⟨first, bytes⟩
        · have encodes := encodes_utf8EncodeChar ch
          rw [same, List.nil_append, List.map_singleton] at encodes
          generalize ch.val.toNat = v at encodes
          generalize number : l.toNat = n at encodes
          unfold LeadsFour at lead
          cases encodes
          omega
        · have sizes := congrArg List.length same
          have inside := @not_inside l first bytes [] ch lead [] (by rw [List.append_nil, same]; rfl)
          simp only [List.length_append, List.length_cons, List.length_nil] at sizes
          omega
      · rwa [List.getLast?_append_of_ne_nil _ (List.cons_ne_nil _ _)] at ih
    | @error byte rest _ front inError =>
      rw [front] at ih inError
      rcases rest with _ | ⟨next, rest⟩
      · obtain rfl : byte = l := by simpa using ih
        obtain ⟨future, starts⟩ := lead.starts
        exact absurd starts (inError future fun impossible => Bool.noConfusion impossible)
      · rwa [List.getLast?_cons_cons] at ih

/-- The bytes in front of it are read one at a time, and then it is the first one. -/
theorem run_to_lead (run : Run true s s2) (ended : s2.stream = []) (lead : LeadsFour l)
    (front : s.partialSequence = pre ++ l :: tail) (behind : tail ++ s.source = bytes)
    (few : s.partialSequence.length ≤ maxLength)
    (alone : pre.length ≤ 1 ∨ ∃ first rest, pre = first :: rest ∧
      pre.length + 1 < nonASCIISequenceLength first) :
    ∃ s' tail', Moves [] s s' ∧ Run true s' s2 ∧ s'.partialSequence = l :: tail' ∧
      tail' ++ s'.source = bytes ∧ s'.partialSequence.length ≤ maxLength := by
  induction run using ReflTransGen.head_induction_on generalizing pre tail with
  | refl =>
    rw [State.stream, front, List.append_assoc] at ended
    exact absurd (List.append_eq_nil_iff.mp ended).2 (List.cons_ne_nil _ _)
  | @head s s1 step run ih =>
    rcases pre with _ | ⟨first, pre⟩
    · exact ⟨s, tail, .refl _ _, .head step run, front, behind, few⟩
    · have tame : Tame [] s := by
        intro ch lost encoded high
        exfalso
        have inside := @not_inside l first pre tail ch lead lost (by rw [← encoded, front]; rfl)
        have two := length_two high
        obtain ⟨byte', rest', same, -, length, -⟩ := char_sequence high
        rw [front, same] at encoded
        obtain ⟨rfl, -⟩ := List.cons.inj encoded
        rw [← same] at length
        rcases alone with short | ⟨first', rest'', same', long⟩
        · rw [List.length_cons] at short
          omega
        · obtain ⟨rfl, -⟩ := List.cons.inj same'
          rw [List.length_cons] at long
          omega
      have moves := step.moves (fun _ => rfl) tame
      have short : pre.length ≤ 1 := by
        rcases alone with short | ⟨first', rest', same, long⟩
        · rw [List.length_cons] at short
          omega
        · have most := nonASCIISequenceLength_le first'
          rw [List.length_cons] at long
          unfold maxLength at most
          omega
      have fewer : (pre ++ l :: tail).length ≤ maxLength := by
        rw [front, List.cons_append, List.length_cons] at few
        exact Nat.le_of_succ_le few
      have next : ∃ s' tail', Moves [] s1 s' ∧ Run true s' s2 ∧ s'.partialSequence = l :: tail' ∧
          tail' ++ s'.source = bytes ∧ s'.partialSequence.length ≤ maxLength := by
        cases step.partialStep front with
        | byte => exact ih rfl behind fewer (.inl short)
        | error => exact ih rfl behind fewer (.inl short)
        | @refill count fits some_ size =>
          refine @ih (first :: pre) (tail ++ s.source.take count) ?_ ?_ ?_ alone
          · simp
          · dsimp only
            rw [List.append_assoc, List.take_append_drop, behind]
          · have most := nonASCIISequenceLength_le first
            have sizes : (first :: (pre ++ l :: tail) ++ s.source.take count).length =
                nonASCIISequenceLength first := by
              rw [List.length_append, List.length_take, min_eq_left fits]
              exact size
            exact sizes.trans_le most
        | @character ch lost encoded length =>
          exfalso
          have inside := not_inside lead encoded
          have high : 0x80 ≤ ch.val.toNat := by
            by_contra small
            have one : [UInt8.ofNat ch.val.toNat] = String.utf8EncodeChar ch := by
              refine eq_utf8EncodeChar ?_
              rw [List.map_singleton, toNat_ofNat (by omega)]
              exact .one (by omega)
            rw [← one, List.length_singleton] at length
            have two := (nonASCII_of_length (by omega : nonASCIISequenceLength first ≠ 0)).2
            omega
          rcases tame ch lost (front.trans encoded) high with rfl | ⟨a, b, c, two, -⟩
          · have sizes : (first :: (pre ++ l :: tail)).length = (String.utf8EncodeChar ch ++ []).length :=
              congrArg List.length encoded
            simp only [List.length_append, List.length_cons, List.length_nil] at sizes
            omega
          · rw [two] at inside encoded
            rcases alone with short' | ⟨first', rest', same', long⟩
            · rw [List.length_cons] at short' inside
              simp only [List.length_cons, List.length_nil] at inside
              omega
            · obtain ⟨rfl, rfl⟩ := List.cons.inj same'
              rw [← length, two] at long
              simp only [List.length_cons, List.length_nil] at long inside
              omega
      obtain ⟨s', tail', moves', more, front', behind', few'⟩ := next
      exact ⟨s', tail', moves.trans moves', more, front', behind', few'⟩

/-! ## The character behind it -/

/-- The first character that the bytes are read as. -/
def ReadsFirst (ch : Char) (bytes : List UInt8) : Prop :=
  String.utf8EncodeChar ch <+: bytes ∨ ch = Char.ofNat 0xFFFD ∧ ¬ Starts bytes

theorem flawed_cons {byte : UInt8} {rest : List UInt8} (flawed : Flawed (byte :: rest)) :
    isASCII byte = false ∧ (nonASCIISequenceLength byte = 0 ∨
      nonASCIISequenceLength byte ≤ (byte :: rest).length ∧
      decodeNonASCIISequence ((byte :: rest).take (nonASCIISequenceLength byte)) = none) := by
  obtain ⟨byte', rest', same, other, bad⟩ := flawed
  obtain ⟨rfl, -⟩ := List.cons.inj same
  exact ⟨other, bad⟩

theorem LeadsTwo.other (lead : LeadsTwo a) : isASCII a = false :=
  (nonASCII_of_length (by rw [lead.length]; decide : nonASCIISequenceLength a ≠ 0)).1

/-- From a byte that leads two on, the character or the error is the first thing written. -/
theorem run_from_two (run : Run true s s2) (ended : s2.stream = []) (lead : LeadsTwo a)
    (front : s.partialSequence = [a]) :
    ∃ ch, ReadsFirst ch (a :: s.source) ∧ s.text ++ utf16Units ch <+: s2.text := by
  have length := lead.length
  have error : utf16Units (Char.ofNat 0xFFFD) = [replacementCharacter] := by decide
  obtain ⟨s1, step, cases1, more⟩ := run_step run ended front
  cases cases1 with
  | byte ascii => exact absurd (ascii.symm.trans lead.other) (by decide)
  | @character ch lost encoded size =>
    have sizes := congrArg List.length encoded
    simp only [List.length_append, List.length_cons, List.length_nil] at sizes
    omega
  | error bad =>
    refine ⟨Char.ofNat 0xFFFD, .inr ⟨rfl, ?_⟩, ?_⟩
    · have inError := @partialError_inError true s (front ▸ bad) (by simp [front])
      have other := inError [] fun _ => rfl
      rw [List.append_nil, State.stream, front] at other
      exact other
    · rw [error]
      exact more.text
  | @refill count fits some_ size =>
    obtain rfl : count = 1 := by
      rw [length, List.length_singleton] at size
      omega
    rcases source : s.source with _ | ⟨t, rest⟩
    · rw [source] at fits
      exact absurd fits (by simp)
    rw [source] at more
    obtain ⟨s3, step', cases2, more'⟩ := @run_step _ _ _ a [t] more ended rfl
    cases cases2 with
    | byte ascii => exact absurd (ascii.symm.trans lead.other) (by decide)
    | @refill count fits' some' size' =>
      rw [length, List.length_cons, List.length_singleton] at size'
      omega
    | @character ch lost encoded size' =>
      refine ⟨ch, .inl ?_, more'.text⟩
      have sizes := congrArg List.length encoded
      simp only [List.length_append, List.length_cons, List.length_nil] at sizes
      have none : lost = [] := List.eq_nil_of_length_eq_zero (by omega)
      rw [none, List.append_nil] at encoded
      exact ⟨rest, by rw [← encoded]; rfl⟩
    | error bad =>
      refine ⟨Char.ofNat 0xFFFD, .inr ⟨rfl, ?_⟩, ?_⟩
      · rcases bad with flawed | ⟨-, pending⟩
        · have other := @Flawed.inError true _ flawed rest [] fun _ => rfl
          rwa [List.append_nil] at other
        · have short := pending a ([t] ++ rest) rfl
          rw [length] at short
          exact absurd short (by simp [State.stream])
      · rw [error]
        exact more'.text

/-- The sequence of four bytes is completed. -/
theorem run_fills (run : Run true s s2) (ended : s2.stream = []) (lead : LeadsFour l)
    (front : s.partialSequence = l :: tail) (behind : tail ++ s.source = a :: b :: c :: rest)
    (few : s.partialSequence.length ≤ maxLength) :
    ∃ s', Run true s' s2 ∧ s'.partialSequence = [l, a, b, c] ∧ s'.source = rest ∧
      s'.text = s.text := by
  have length := leadsFour_iff.mpr lead
  have other := (nonASCII_of_length (by omega : nonASCIISequenceLength l ≠ 0)).1
  have sizes := congrArg List.length behind
  simp only [List.length_append, List.length_cons] at sizes
  rw [front, List.length_cons] at few
  unfold maxLength at few
  have parts : [a, b, c] ++ rest = tail ++ s.source := behind.symm
  by_cases whole : tail.length = 3
  · obtain ⟨rfl, rfl⟩ := List.append_inj parts (by rw [whole]; rfl)
    exact ⟨s, run, front, rfl, rfl⟩
  · obtain ⟨s1, step, cases1, more⟩ := run_step run ended front
    cases cases1 with
    | byte ascii => exact absurd (ascii.symm.trans other) (by decide)
    | @character ch lost encoded size =>
      have sizes' := congrArg List.length encoded
      simp only [List.length_append, List.length_cons] at sizes'
      omega
    | error bad =>
      rcases bad with flawed | ⟨-, pending⟩
      · rcases (flawed_cons flawed).2 with zero | ⟨fits, -⟩
        · omega
        · rw [length, List.length_cons] at fits
          omega
      · have short := pending l (tail ++ s.source) (by rw [State.stream, front]; rfl)
        rw [State.stream, front, length] at short
        simp only [List.length_append, List.length_cons] at short
        omega
    | @refill count fits some_ size =>
      rw [length, List.length_cons] at size
      have filled : tail ++ s.source.take count = [a, b, c] ∧ s.source.drop count = rest := by
        have split : tail ++ s.source.take count ++ s.source.drop count = [a, b, c] ++ rest := by
          rw [List.append_assoc, List.take_append_drop, parts]
        refine List.append_inj split ?_
        rw [List.length_append, List.length_take, min_eq_left fits]
        simp only [List.length_cons, List.length_nil]
        omega
      refine ⟨_, more, ?_, filled.2, rfl⟩
      dsimp only
      rw [List.cons_append, filled.1]

/-- It is in error, as the second byte does not trail. -/
theorem run_fails (run : Run true s s2) (ended : s2.stream = []) (lead : LeadsFour l)
    (front : s.partialSequence = [l, a, b, c]) (lead' : LeadsTwo a) :
    ∃ s', Run true s' s2 ∧ s'.partialSequence = [a, b, c] ∧ s'.source = s.source ∧
      s'.text = s.text ++ [replacementCharacter] := by
  have length := leadsFour_iff.mpr lead
  have other := (nonASCII_of_length (by omega : nonASCIISequenceLength l ≠ 0)).1
  obtain ⟨s1, step, cases1, more⟩ := run_step run ended front
  cases cases1 with
  | byte ascii => exact absurd (ascii.symm.trans other) (by decide)
  | @refill count fits some_ size =>
    rw [length] at size
    simp only [List.length_cons, List.length_nil] at size
    omega
  | error => exact ⟨_, more, rfl, rfl, rfl⟩
  | @character ch lost encoded size =>
    exfalso
    rw [length] at size
    rcases same : String.utf8EncodeChar ch with _ | ⟨first, _ | ⟨second, bytes⟩⟩
    · rw [same] at size
      cases size
    · rw [same] at size
      cases size
    · rw [same] at encoded
      obtain ⟨-, tails⟩ := List.cons.inj encoded
      obtain ⟨rfl, -⟩ := List.cons.inj tails
      have trail := utf8EncodeChar_trails ch same a List.mem_cons_self
      unfold LeadsTwo at lead'
      unfold Trails at trail
      omega

/-- The character is read, and its first byte stays. -/
theorem run_loses (run : Run true s s2) (ended : s2.stream = [])
    (front : s.partialSequence = [a, b, c]) (lead : LeadsTwo a)
    (encoded : String.utf8EncodeChar ch = [a, b]) :
    ∃ s', Run true s' s2 ∧ s'.partialSequence = [a] ∧ s'.source = s.source ∧
      s'.text = s.text ++ utf16Units ch := by
  have length := lead.length
  obtain ⟨s1, step, cases1, more⟩ := run_step run ended front
  cases cases1 with
  | byte ascii => exact absurd (ascii.symm.trans lead.other) (by decide)
  | @refill count fits some_ size =>
    rw [length] at size
    simp only [List.length_cons, List.length_nil] at size
    omega
  | error bad =>
    exfalso
    rcases bad with flawed | ⟨-, pending⟩
    · have inError := @Flawed.inError true _ flawed [] [] fun _ => rfl
      exact inError ⟨ch, [c], by rw [encoded]; rfl⟩
    · have short := pending a ([b, c] ++ s.source) (by rw [State.stream, front]; rfl)
      rw [State.stream, front, length] at short
      exact absurd short (by simp)
  | @character ch' lost encoded' size =>
    have first : String.utf8EncodeChar ch <+: [a, b, c] := ⟨[c], by rw [encoded]; rfl⟩
    obtain rfl := front_unique ⟨lost, encoded'.symm⟩ first
    have sizes := congrArg List.length encoded'
    rw [encoded] at sizes
    simp only [List.length_append, List.length_cons, List.length_nil] at sizes
    have one : lost.length = 1 := by omega
    refine ⟨_, more, ?_, rfl, rfl⟩
    dsimp only
    rw [one]
    rfl

/-- From the byte that leads four on: an error, the character behind it, and then `a` once more. -/
theorem run_from_lead (run : Run true s s2) (ended : s2.stream = []) (lead : LeadsFour l)
    (front : s.partialSequence = l :: tail) (behind : tail ++ s.source = a :: b :: c :: rest)
    (few : s.partialSequence.length ≤ maxLength) (lead' : LeadsTwo a)
    (encoded : String.utf8EncodeChar ch = [a, b]) :
    ∃ again, ReadsFirst again (a :: rest) ∧
      s.text ++ [replacementCharacter] ++ utf16Units ch ++ utf16Units again <+: s2.text := by
  obtain ⟨s1, run1, front1, source1, text1⟩ := run_fills run ended lead front behind few
  obtain ⟨s3, run3, front3, source3, text3⟩ := run_fails run1 ended lead front1 lead'
  obtain ⟨s4, run4, front4, source4, text4⟩ := run_loses run3 ended front3 lead' encoded
  obtain ⟨again, reads, written⟩ := run_from_two run4 ended lead' front4
  rw [source4, source3, source1] at reads
  rw [text4, text3, text1] at written
  exact ⟨again, reads, written⟩

/-! ## Cut there, the bytes are read differently -/

/-- The first unit of a text tells a character that is no surrogate pair. -/
theorem units_head {d : Char} {text : List Char}
    (small : ch.val.toNat < 0x10000) (front : utf16Units ch <+: utf16 (d :: text)) : ch = d := by
  have scalar := scalar_cases ch
  have scalar' := scalar_cases d
  have single : utf16Units ch = [UInt16.ofNat ch.val.toNat] := if_pos small
  rw [utf16, List.flatMap_cons, single] at front
  unfold utf16Units at front
  dsimp only at front
  by_cases narrow : d.val.toNat < 0x10000
  · rw [if_pos narrow, List.singleton_append, List.cons_prefix_cons] at front
    have same := congrArg UInt16.toNat front.1
    rw [UInt16.toNat_ofNat', UInt16.toNat_ofNat', Nat.mod_eq_of_lt (by omega),
      Nat.mod_eq_of_lt (by omega)] at same
    exact char_eq same
  · rw [if_neg narrow, List.cons_append, List.cons_prefix_cons] at front
    have same := congrArg UInt16.toNat front.1
    rw [UInt16.toNat_ofNat', UInt16.toNat_ofNat', Nat.mod_eq_of_lt (by omega),
      Nat.mod_eq_of_lt (by omega)] at same
    omega

/-- What is read first behind `a` is not read first behind `c`. -/
theorem again_differs {again : Char} {text : List Char} {bad : Bool} (lead : LeadsTwo a)
    (mixes : Mixes a c rest) (reads : ReadsFirst again (a :: rest))
    (decodes : Decodes (c :: rest) text bad) : ¬ utf16Units again <+: utf16 text := by
  obtain ⟨differs, starts⟩ := mixes
  intro front
  rcases text with _ | ⟨d, text⟩
  · have some_ := utf16Units_length_pos again
    have short := front.length_le
    rw [utf16, List.flatMap_nil, List.length_nil] at short
    omega
  rcases reads with inFront | ⟨rfl, other⟩
  · obtain ⟨fits, encoded, -⟩ := front_eq lead.other inFront
    rcases rest with _ | ⟨t, rest⟩
    · rw [lead.length] at fits
      exact absurd fits (by simp)
    rw [lead.length] at encoded
    have numbers := encodes_utf8EncodeChar again
    rw [encoded, List.take_succ_cons, List.take_succ_cons, List.take_zero, List.map_cons,
      List.map_singleton] at numbers
    have bound : again.val.toNat < 0x800 := by
      generalize again.val.toNat = v at numbers
      generalize same : [a.toNat, t.toNat] = list at numbers
      cases numbers <;> simp only [List.cons.injEq, reduceCtorEq, and_false, and_true] at same
      omega
    obtain rfl := units_head (by omega) front
    by_cases start : Starts (c :: t :: rest)
    · obtain ⟨ch, more, same⟩ := start
      rw [← same] at decodes
      obtain ⟨text', same', -⟩ := decodes.of_character
      obtain ⟨rfl, -⟩ := List.cons.inj same'
      rw [encoded] at same
      exact differs (List.cons.inj same).1.symm
    · obtain ⟨text', bad', same, -⟩ := decodes.of_error start
      obtain ⟨rfl, -⟩ := List.cons.inj same
      exact absurd bound (by decide)
  · obtain rfl := units_head (by decide) front
    have start : Starts (c :: rest) := starts.resolve_left other
    obtain ⟨ch, more, same⟩ := start
    rw [← same] at decodes
    obtain ⟨text', same', -⟩ := decodes.of_character
    obtain ⟨rfl, -⟩ := List.cons.inj same'
    have bytes : String.utf8EncodeChar (Char.ofNat 0xFFFD) = [0xEF, 0xBF, 0xBD] := by
      decide
    rw [bytes] at same
    obtain ⟨-, rfl⟩ := List.cons.inj same
    exact other ((starts_two lead).mpr ⟨_, _, rfl, by unfold Trails; decide⟩)

/-- However the bytes are cut, the calls decode what one call decodes, and that is the text of the
bytes. -/
def Together (wide : Bool) (bytes : List UInt8) : Prop :=
  ∃ text bad, Decodes bytes text bad ∧
    (∀ address, feed wide [] (address, bytes) [] false = .ok (utf16 text, bad)) ∧
    ∀ chunks last, (chunks.map Prod.snd).flatten ++ last.2 = bytes →
      feed wide chunks last [] false = .ok (utf16 text, bad)

theorem together_of_plain (short : bytes.length + maxLength < 2 ^ 32) (plain : ¬ Mixed bytes) :
    Together wide bytes := by
  obtain ⟨text, bad, decodes⟩ := exists_decodes bytes
  have cut : ∀ chunks last, (chunks.map Prod.snd).flatten ++ last.2 = bytes →
      feed wide chunks last [] false = .ok (utf16 text, bad) := by
    rintro chunks last rfl
    obtain ⟨text', bad', fed, decodes'⟩ :=
      @feed_decodes wide false [] chunks last pending_nil plain short
    obtain ⟨rfl, rfl⟩ := decodes.unique decodes'
    exact fed
  exact ⟨text, bad, decodes, fun address => cut [] (address, bytes) rfl, cut⟩

/-- Two calls, and the runs they make. -/
theorem feed_two {first second : List UInt8} (short : (first ++ second).length + maxLength < 2 ^ 32) :
    ∃ s1 s2 saw saw', feed wide [(0, first)] (0, second) [] false =
        .ok (s1.text ++ s2.text, saw') ∧
      Run false ⟨[], first, [], false⟩ s1 ∧ Pending s1.stream ∧
      Run true ⟨[], second, s1.stream, saw⟩ s2 ∧ s2.stream = [] := by
  rw [List.length_append] at short
  have short' : ([] : List UInt8).length + first.length + maxLength < 2 ^ 32 := by
    rw [List.length_nil]
    omega
  obtain ⟨decoded, done, spec⟩ := @decode_spec wide false false false 0 [] first pending_nil.valid
    (sized_of_short pending_nil.valid short')
  obtain ⟨s1, run, text, -, left, ahead, -⟩ := spec.run rfl
  have smaller := run.room
  unfold State.stream at smaller
  simp only [List.length_nil, List.nil_append, List.length_append] at smaller
  have short'' : s1.stream.length + second.length + maxLength < 2 ^ 32 := by
    rw [State.stream, List.length_append]
    omega
  obtain ⟨decoded', done', spec'⟩ := @decode_spec wide true false decoded.sawError 0 s1.stream
    second ahead.valid (sized_of_short ahead.valid short'')
  obtain ⟨s2, run', text', saw', -, -, ended⟩ := spec'.run rfl
  refine ⟨s1, s2, decoded.sawError, decoded'.sawError, ?_, run, ahead, run', ended rfl⟩
  simp only [feed, done, done', left, text, text', bind, Except.bind, pure, Except.pure]

theorem not_together (short : bytes.length + maxLength < 2 ^ 32) (mixed : Mixed bytes) :
    ¬ Together wide bytes := by
  obtain ⟨front, l, a, b, c, rest, rfl, lead, lead', trail, mixes⟩ := mixed
  rintro ⟨text, bad, decodes, -, cut⟩
  obtain ⟨ch, encoded⟩ := two_bytes.mpr ⟨lead', trail⟩
  have parts : front ++ l :: a :: b :: c :: rest = front ++ [l] ++ a :: b :: c :: rest := by simp
  rw [parts] at short decodes cut
  obtain ⟨s1, s2, saw, saw', fed, run, ahead, run', ended⟩ := @feed_two wide _ _ short
  have whole := cut [(0, front ++ [l])] (0, a :: b :: c :: rest) (by simp)
  -- What the first call has decoded, and what it has left.
  obtain ⟨⟨chars, bad1, text1, -, decodes1⟩, empty⟩ :=
    @run_source _ _ (a :: b :: c :: rest) run rfl
  have last := run_last run rfl (by simp) lead
  have stream : s1.stream = s1.source := by rw [State.stream, empty, List.nil_append]
  obtain ⟨pre, left⟩ := List.getLast?_eq_some_iff.mp last
  rw [stream, left] at decodes1 ahead run'
  have alone : pre.length ≤ 1 ∨ ∃ first rest, pre = first :: rest ∧
      pre.length + 1 < nonASCIISequenceLength first := by
    rcases pre with _ | ⟨first, pre⟩
    · exact .inl (Nat.zero_le _)
    · refine .inr ⟨first, pre, rfl, ?_⟩
      have long := ahead first (pre ++ [l]) rfl
      rwa [List.length_append, List.length_singleton] at long
  -- What the second call decodes: the error, the character and what `a` begins.
  obtain ⟨s3, tail, ⟨chars3, bad3, text3, -, decodes3⟩, run3, front3, behind3, few3⟩ :=
    @run_to_lead _ s2 l _ pre [] run' ended lead rfl rfl ahead.valid.length_le alone
  obtain ⟨again, reads, written⟩ := run_from_lead run3 ended lead front3 behind3 few3 lead' encoded
  obtain ⟨rest', bad', all⟩ := exists_decodes (l :: a :: b :: c :: rest)
  have stream3 : s3.stream = l :: a :: b :: c :: rest := by
    rw [State.stream, front3, List.cons_append, behind3]
    rfl
  have total := decodes1 _ _ (by
    have more := decodes3 rest' bad' (by rw [List.append_nil, stream3]; exact all)
    rwa [List.append_nil] at more)
  obtain ⟨same, -⟩ := decodes.unique total
  have units : utf16 chars3 ++ utf16 rest' = s2.text := by
    have texts := congrArg Prod.fst (Except.ok.inj (fed.symm.trans whole))
    have split : utf16 text = utf16 chars ++ (utf16 chars3 ++ utf16 rest') := by
      rw [same, utf16, List.flatMap_append, List.flatMap_append]
      rfl
    rw [text1, List.nil_append, split] at texts
    exact (List.append_cancel_left texts).symm
  -- And what they are.
  have fails : ¬ Starts (l :: a :: b :: c :: rest) := by
    rintro ⟨ch', front'⟩
    have length := leadsFour_iff.mpr lead
    have other := (nonASCII_of_length (by omega : nonASCIISequenceLength l ≠ 0)).1
    obtain ⟨-, taken, -⟩ := front_eq other front'
    rw [length] at taken
    have trails := utf8EncodeChar_trails ch' taken a List.mem_cons_self
    unfold LeadsTwo at lead'
    unfold Trails at trails
    omega
  obtain ⟨text2, bad2, rfl, -, all2⟩ := all.of_error fails
  have character : a :: b :: c :: rest = String.utf8EncodeChar ch ++ c :: rest := by
    rw [encoded]
    rfl
  rw [character] at all2
  obtain ⟨text4, rfl, all4⟩ := all2.of_character
  refine again_differs lead' mixes reads all4 ?_
  have texts : utf16 (Char.ofNat 0xFFFD :: ch :: text4) =
      [replacementCharacter] ++ utf16Units ch ++ utf16 text4 := by
    rw [utf16, List.flatMap_cons, List.flatMap_cons, ← List.append_assoc]
    rfl
  rw [← units, text3, texts, List.nil_append] at written
  simp only [List.append_assoc] at written
  exact (List.prefix_append_right_inj _).mp ((List.prefix_append_right_inj _).mp
    ((List.prefix_append_right_inj _).mp written))

/-- **Incremental UTF-8 decoding.** -/
theorem together_iff (wide : Bool) (bytes : List UInt8)
    (short : bytes.length + maxLength < 2 ^ 32) : Together wide bytes ↔ ¬ Mixed bytes :=
  ⟨fun together mixed => not_together short mixed together, together_of_plain short⟩

theorem together_iff_incomplete : Together true [0xF1, 0xC3, 0xA9, 0xC3, 0xE2, 0x82] := by
  refine (together_iff true [0xF1, 0xC3, 0xA9, 0xC3, 0xE2, 0x82] (by decide)).mpr ?_
  rintro ⟨front, l, a, b, c, rest, same, lead, lead', -, differs, -⟩
  unfold LeadsFour at lead
  rcases front with _ | ⟨x1, _ | ⟨x2, _ | ⟨x3, front⟩⟩⟩
  · simp only [List.nil_append, List.cons.injEq] at same
    obtain ⟨-, rfl, -, rfl, -⟩ := same
    exact differs rfl
  · simp only [List.cons_append, List.nil_append, List.cons.injEq] at same
    obtain ⟨-, rfl, -⟩ := same
    exact absurd lead.1 (by decide)
  · simp only [List.cons_append, List.nil_append, List.cons.injEq] at same
    obtain ⟨-, -, rfl, -⟩ := same
    exact absurd lead.1 (by decide)
  · have sizes := congrArg List.length same
    simp only [List.length_cons, List.length_append, List.length_nil] at sizes
    omega

theorem first_byte_again : ¬ Together true [0xF1, 0xC3, 0xA9, 0x41] := by
  rintro ⟨text, bad, -, once, cut⟩
  have one := once 0
  have two := cut [(0, [0xF1])] (0, [0xC3, 0xA9, 0x41]) rfl
  have one' : feed true [] (0, [0xF1, 0xC3, 0xA9, 0x41]) [] false =
      .ok ([0xFFFD, 0xE9, 0x41], true) := by decide
  have two' : feed true [(0, [0xF1])] (0, [0xC3, 0xA9, 0x41]) [] false =
      .ok ([0xFFFD, 0xE9, 0xFFFD], true) := by decide
  rw [one'] at one
  rw [two'] at two
  exact absurd (Except.ok.inj (one.trans two.symm)) (by decide)

end NetRider.Text
