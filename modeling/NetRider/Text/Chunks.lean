import NetRider.Text.BufferBounds

/-!
# Chunks

What a run decodes, and when the way the bytes are cut makes no difference.
-/

namespace NetRider.Text

open Lib Relation
open Url (isASCII nonASCIISequenceLength decodeNonASCIISequence isASCII_false_iff)

/-! ## Bytes -/

/-- The first byte of a sequence of two. -/
def LeadsTwo (byte : UInt8) : Prop := 0xC2 ≤ byte.toNat ∧ byte.toNat < 0xE0

/-- The first byte of a sequence of four. -/
def LeadsFour (byte : UInt8) : Prop := 0xF0 ≤ byte.toNat ∧ byte.toNat < 0xF5

def Trails (byte : UInt8) : Prop := 0x80 ≤ byte.toNat ∧ byte.toNat ≤ 0xBF

/-- The bytes `a` and `b` are a character, and it is read as if `a` followed instead of `c`. -/
def Mixes (a c : UInt8) (rest : List UInt8) : Prop :=
  c ≠ a ∧ (Starts (a :: rest) ∨ Starts (c :: rest))

/-- A byte that begins a sequence of four, with a character of two bytes behind it. -/
def Mixed (bytes : List UInt8) : Prop :=
  ∃ front l a b c rest, bytes = front ++ l :: a :: b :: c :: rest ∧
    LeadsFour l ∧ LeadsTwo a ∧ Trails b ∧ Mixes a c rest

variable {flush stopOnError wide sawError : Bool} {s s' s2 : State} {a b c l byte : UInt8}
  {rest bytes future partialSequence front : List UInt8} {ch : Char}

theorem Mixed.append (mixed : Mixed bytes) (front : List UInt8) : Mixed (front ++ bytes) := by
  obtain ⟨first, l, a, b, c, rest, rfl, more⟩ := mixed
  exact ⟨front ++ first, l, a, b, c, rest, (List.append_assoc _ _ _).symm, more⟩

theorem Mixed.of_cons (mixed : Mixed (byte :: bytes)) (other : ¬ LeadsFour byte) : Mixed bytes := by
  obtain ⟨front, l, a, b, c, rest, same, lead, more⟩ := mixed
  rcases front with _ | ⟨first, front⟩
  · obtain ⟨rfl, -⟩ := List.cons.inj same
    exact absurd lead other
  · exact ⟨front, l, a, b, c, rest, (List.cons.inj same).2, lead, more⟩

theorem Mixed.length (mixed : Mixed bytes) : 4 ≤ bytes.length := by
  obtain ⟨front, l, a, b, c, rest, rfl, -⟩ := mixed
  simp only [List.length_append, List.length_cons]
  omega

theorem leadsFour_iff : nonASCIISequenceLength byte = 4 ↔ LeadsFour byte := by
  rw [nonASCIISequenceLength_eq, LeadsFour]
  constructor <;> intro fact <;> split_ifs at * <;> omega

theorem LeadsTwo.length (lead : LeadsTwo byte) : nonASCIISequenceLength byte = 2 := by
  unfold LeadsTwo at lead
  rw [nonASCIISequenceLength_eq, if_neg (by omega), if_pos (by omega)]

/-- The bytes behind the first one trail. -/
theorem utf8EncodeChar_trails (ch : Char) {byte : UInt8} {bytes : List UInt8}
    (encoded : String.utf8EncodeChar ch = byte :: bytes) : ∀ b ∈ bytes, Trails b := by
  have numbers := encodes_utf8EncodeChar ch
  rw [encoded, List.map_cons] at numbers
  intro b member
  have inside := List.mem_map_of_mem (f := UInt8.toNat) member
  generalize bytes.map UInt8.toNat = list at numbers inside
  generalize byte.toNat = first at numbers
  generalize ch.val.toNat = v at numbers
  unfold Trails
  cases numbers <;>
    simp only [List.mem_cons, List.not_mem_nil, or_false] at inside <;> omega

/-- A character of two bytes. -/
theorem two_bytes : (∃ ch : Char, String.utf8EncodeChar ch = [a, b]) ↔ LeadsTwo a ∧ Trails b := by
  constructor
  · rintro ⟨ch, encoded⟩
    refine ⟨?_, utf8EncodeChar_trails ch encoded b (List.mem_singleton_self b)⟩
    have numbers := encodes_utf8EncodeChar ch
    rw [encoded, List.map_cons, List.map_singleton] at numbers
    generalize same : [a.toNat, b.toNat] = list at numbers
    generalize ch.val.toNat = v at numbers
    unfold LeadsTwo
    cases numbers <;> simp only [List.cons.injEq, reduceCtorEq, and_false, and_true] at same
    omega
  · rintro ⟨lead, trail⟩
    unfold LeadsTwo at lead
    unfold Trails at trail
    obtain ⟨ch, encoded, -⟩ := @char_of_two a b _ lead.2
      (decode_two.mpr ⟨lead.1, trail, rfl⟩)
    exact ⟨ch, encoded.symm⟩

theorem starts_two (lead : LeadsTwo a) : Starts (a :: bytes) ↔ ∃ t rest, bytes = t :: rest ∧
    Trails t := by
  have length := lead.length
  have other := (nonASCII_of_length (by omega : nonASCIISequenceLength a ≠ 0)).1
  constructor
  · rintro ⟨ch, front⟩
    obtain ⟨fits, encoded, -⟩ := front_eq other front
    rw [length] at fits encoded
    rcases bytes with _ | ⟨t, rest⟩
    · simp at fits
    · exact ⟨t, rest, rfl, (two_bytes.mp ⟨ch, encoded⟩).2⟩
  · rintro ⟨t, rest, rfl, trail⟩
    obtain ⟨ch, encoded⟩ := two_bytes.mpr ⟨lead, trail⟩
    exact ⟨ch, encoded ▸ ⟨rest, rfl⟩⟩

/-! ## What a step decodes -/

/-- From one state to another, the characters written are those of the bytes that were read. -/
def Moves (future : List UInt8) (s s' : State) : Prop :=
  ∃ chars bad, s'.text = s.text ++ utf16 chars ∧ s'.sawError = (s.sawError || bad) ∧
    ∀ text bad', Decodes (s'.stream ++ future) text bad' →
      Decodes (s.stream ++ future) (chars ++ text) (bad || bad')

theorem Moves.refl (future : List UInt8) (s : State) : Moves future s s :=
  ⟨[], false, (List.append_nil _).symm, (Bool.or_false _).symm, fun _ _ decodes => decodes⟩

theorem Moves.trans (first : Moves future s s') (second : Moves future s' s2) :
    Moves future s s2 := by
  obtain ⟨chars, bad, text, saw, decodes⟩ := first
  obtain ⟨chars', bad', text', saw', decodes'⟩ := second
  refine ⟨chars ++ chars', bad || bad', ?_, ?_, fun more worse all => ?_⟩
  · rw [text', text, utf16, utf16, utf16, List.flatMap_append, List.append_assoc]
  · rw [saw', saw, Bool.or_assoc]
  · rw [List.append_assoc, Bool.or_assoc]
    exact decodes _ _ (decodes' _ _ all)

/-- The byte that is lost behind a character makes no difference. -/
def Tame (future : List UInt8) (s : State) : Prop :=
  ∀ ch lost, s.partialSequence = String.utf8EncodeChar ch ++ lost → 0x80 ≤ ch.val.toNat →
    lost = [] ∨ ∃ a b c, String.utf8EncodeChar ch = [a, b] ∧ lost = [c] ∧
      ¬ Mixes a c (s.source ++ future)

theorem utf16_ascii {chunk : List UInt8} (ascii : ∀ byte ∈ chunk, isASCII byte = true) :
    utf16 (chunk.map fun byte => Char.ofNat byte.toNat) = chunk.map UInt8.toUInt16 := by
  induction chunk with
  | nil => rfl
  | cons byte chunk ih =>
    obtain ⟨is, others⟩ := List.forall_mem_cons.mp ascii
    have small := isASCII_iff.mp is
    have value : (Char.ofNat byte.toNat).val.toNat = byte.toNat := val_ofNat (.inl (by omega))
    have narrow : (Char.ofNat byte.toNat).val.toNat < 0x10000 := by omega
    have unit : utf16Units (Char.ofNat byte.toNat) = [byte.toUInt16] := by
      refine (if_pos narrow).trans (congrArg (fun unit => [unit]) (UInt16.toNat_inj.mp ?_))
      rw [value]
      simp
    rw [List.map_cons, List.map_cons, ← ih others, utf16, List.flatMap_cons, unit]
    rfl

theorem utf16_replacement : utf16 [Char.ofNat 0xFFFD] = [replacementCharacter] := by decide

theorem utf16_singleton (ch : Char) : utf16 [ch] = utf16Units ch := List.flatMap_singleton _ _

/-- As long as it makes no difference, `a` stands for `c`. -/
theorem decodes_instead {text : List Char} {bad : Bool} (tame : ¬ Mixes a c rest)
    (decodes : Decodes (a :: rest) text bad) : Decodes (c :: rest) text bad := by
  unfold Mixes at tame
  rw [not_and_or, not_or, not_not] at tame
  rcases tame with rfl | ⟨first, second⟩
  · exact decodes
  · obtain ⟨text', bad', rfl, rfl, more⟩ := decodes.of_error first
    exact .error second more

theorem partialError_inError (bad : Flawed s.partialSequence ∨ flush = true ∧ Pending s.stream)
    (some_ : s.partialSequence ≠ []) : InError flush s.stream := by
  rcases bad with flawed | ⟨rfl, pending⟩
  · exact flawed.inError _
  · obtain ⟨byte, rest, front⟩ := List.exists_cons_of_ne_nil some_
    unfold State.stream at pending ⊢
    rw [front, List.cons_append] at pending ⊢
    exact pending.inError

theorem Step.moves (step : Step flush s s') (last : flush = true → future = [])
    (tame : Tame future s) : Moves future s s' := by
  cases step with
  | @byte byte rest front ascii =>
    have all : ∀ b ∈ [byte], isASCII b = true := List.forall_mem_singleton.mpr ascii
    refine ⟨[byte].map fun byte => Char.ofNat byte.toNat, false, ?_, (Bool.or_false _).symm,
      fun text bad more => ?_⟩
    · rw [utf16_ascii all]
      rfl
    · unfold State.stream at more ⊢
      rw [front, List.append_assoc]
      rw [List.append_assoc] at more
      refine @decodes_ascii _ _ _ [byte] (fun b member => isASCII_iff.mp (all b member)) more
  | refill =>
    refine ⟨[], false, (List.append_nil _).symm, (Bool.or_false _).symm, fun text bad more => ?_⟩
    unfold State.stream at more
    dsimp only at more
    rw [List.append_assoc _ _ (s.source.drop _), List.take_append_drop] at more
    exact more
  | @partialCharacter ch lost front behind =>
    refine ⟨[ch], false, ?_, (Bool.or_false _).symm, fun text bad more => ?_⟩
    · rw [utf16_singleton]
    · unfold State.stream at more ⊢
      dsimp only at more
      rw [List.append_assoc] at more ⊢
      rcases tame ch lost front behind with rfl | ⟨a, b, c, encoded, rfl, other⟩
      · rw [front, List.append_nil]
        rw [List.length_nil, List.take_zero, List.nil_append] at more
        exact .character more
      · rw [front, encoded] at more
        rw [front, List.append_assoc]
        exact .character (decodes_instead other more)
  | @partialError byte rest front bad =>
    have inError := partialError_inError bad (by simp [front])
    refine ⟨[Char.ofNat 0xFFFD], true, ?_, (Bool.or_true _).symm, fun text bad more => ?_⟩
    · rw [utf16_replacement]
    · have other := inError future last
      unfold State.stream at more other ⊢
      rw [front, List.cons_append, List.cons_append] at other ⊢
      exact .error other more
  | @chunk chunk rest empty front ascii =>
    refine ⟨chunk.map fun byte => Char.ofNat byte.toNat, false, ?_, (Bool.or_false _).symm,
      fun text bad more => ?_⟩
    · rw [utf16_ascii ascii]
    · unfold State.stream at more ⊢
      rw [empty] at more ⊢
      rw [front, List.nil_append, List.append_assoc]
      exact decodes_ascii (fun b member => isASCII_iff.mp (ascii b member)) more
  | @character ch rest empty front =>
    refine ⟨[ch], false, ?_, (Bool.or_false _).symm, fun text bad more => ?_⟩
    · rw [utf16_singleton]
    · unfold State.stream at more ⊢
      rw [empty] at more ⊢
      rw [front, List.nil_append, List.append_assoc]
      exact .character more
  | @error byte rest empty front inError =>
    refine ⟨[Char.ofNat 0xFFFD], true, ?_, (Bool.or_true _).symm, fun text bad more => ?_⟩
    · rw [utf16_replacement]
    · have other := inError future last
      unfold State.stream at more ⊢
      rw [empty] at more ⊢
      rw [front] at other ⊢
      exact .error other more
  | keep _ empty =>
    refine ⟨[], false, (List.append_nil _).symm, (Bool.or_false _).symm, fun text bad more => ?_⟩
    unfold State.stream at more ⊢
    rw [empty]
    rw [List.append_nil] at more
    exact more

/-! ## Runs without such bytes -/

/-- What holds of the states of a run over bytes that are not mixed. -/
structure Ready (future : List UInt8) (s : State) : Prop where
  plain : ¬ Mixed (s.stream ++ future)
  few : s.partialSequence.length ≤ maxLength
  four : ∀ l rest, s.partialSequence = l :: rest → rest.length = 3 → LeadsFour l
  three : ∀ a b c, s.partialSequence = [a, b, c] → LeadsTwo a → Trails b →
    ¬ Mixes a c (s.source ++ future)

theorem ready_nil (empty : s.partialSequence = []) (plain : ¬ Mixed (s.stream ++ future)) :
    Ready future s := by
  refine ⟨plain, ?_, fun l rest front => ?_, fun a b c front => ?_⟩
  · rw [empty]
    exact Nat.zero_le _
  · exact absurd (empty.symm.trans front) (List.cons_ne_nil _ _).symm
  · exact absurd (empty.symm.trans front) (List.cons_ne_nil _ _).symm

/-- Where a sequence begins, four bytes begin with one that leads four, and three do not begin
with one that leads two. -/
theorem ready_pending (plain : ¬ Mixed (s.stream ++ future)) (few : Pending s.partialSequence) :
    Ready future s := by
  refine ⟨plain, few.valid.length_le, fun l rest front three => ?_, fun a b c front lead => ?_⟩
  · have short := few l rest front
    have most := nonASCIISequenceLength_le l
    rw [front, List.length_cons] at short
    unfold maxLength at most
    omega
  · have short := few a [b, c] front
    rw [front, lead.length] at short
    exact absurd short (by simp)

theorem length_two (behind : 0x80 ≤ ch.val.toNat) : 2 ≤ (String.utf8EncodeChar ch).length := by
  obtain ⟨byte, bytes, encoded, -, length, -⟩ := char_sequence behind
  have some_ : nonASCIISequenceLength byte ≠ 0 := by
    rw [← length]
    exact Nat.succ_ne_zero _
  rw [encoded, length]
  exact (nonASCII_of_length some_).2

theorem Ready.tame (ready : Ready future s) : Tame future s := by
  intro ch lost front behind
  obtain ⟨byte, bytes, encoded, -, length, -⟩ := char_sequence behind
  have two := length_two behind
  have few := ready.few
  have sizes := congrArg List.length front
  rw [List.length_append] at sizes
  unfold maxLength at few
  by_cases some_ : lost = []
  · exact .inl some_
  have least : 0 < lost.length := List.length_pos_of_ne_nil some_
  rw [encoded] at front two sizes ⊢
  by_cases four : s.partialSequence.length = 4
  · have rest : (bytes ++ lost).length = 3 := by
      rw [List.length_append]
      rw [List.length_cons] at sizes
      omega
    have lead := ready.four byte (bytes ++ lost) front rest
    rw [leadsFour_iff.mpr lead] at length
    omega
  · obtain ⟨b, same⟩ := List.length_eq_one_iff.mp (by
      rw [List.length_cons] at sizes two
      omega : bytes.length = 1)
    obtain ⟨c, same'⟩ := List.length_eq_one_iff.mp (by
      rw [List.length_cons] at sizes two
      omega : lost.length = 1)
    subst same same'
    obtain ⟨lead, trail⟩ := two_bytes.mp ⟨ch, encoded⟩
    exact .inr ⟨byte, b, c, rfl, rfl, ready.three byte b c front lead trail⟩

theorem not_leadsFour_ascii (ascii : isASCII byte = true) : ¬ LeadsFour byte := by
  have small := isASCII_iff.mp ascii
  unfold LeadsFour
  omega

theorem Step.ready (step : Step flush s s') (ready : Ready future s) : Ready future s' := by
  have tame := ready.tame
  obtain ⟨plain, few, four, three⟩ := ready
  unfold State.stream at plain
  cases step with
  | @byte byte rest front ascii =>
    rw [front] at plain few
    refine ⟨fun mixed => plain (mixed.append [byte]), Nat.le_of_succ_le few, ?_, ?_⟩
    · intro l rest' front' length
      unfold maxLength at few
      simp only [List.length_cons] at few
      have size := congrArg List.length front'
      simp only [List.length_cons] at size
      omega
    · intro a b c front'
      dsimp only at front'
      exact absurd (four byte rest front (by rw [front']; rfl)) (not_leadsFour_ascii ascii)
  | @refill byte rest count front fits some_ size =>
    have most := nonASCIISequenceLength_le byte
    have size' : (s.partialSequence ++ s.source.take count).length =
        nonASCIISequenceLength byte := by
      rw [List.length_append, List.length_take, min_eq_left fits, size]
    refine ⟨?_, size'.trans_le most, ?_, ?_⟩
    · unfold State.stream
      dsimp only
      rwa [List.append_assoc s.partialSequence, List.take_append_drop]
    · intro l rest' front' length
      dsimp only at front'
      rw [front', List.length_cons, length] at size'
      rw [front, List.cons_append] at front'
      obtain ⟨rfl, -⟩ := List.cons.inj front'
      exact leadsFour_iff.mp size'.symm
    · intro a b c front' lead
      dsimp only at front'
      rw [front'] at size'
      rw [front, List.cons_append] at front'
      obtain ⟨rfl, -⟩ := List.cons.inj front'
      rw [lead.length] at size'
      exact absurd size' (by simp)
  | @partialCharacter ch lost front behind =>
    rcases tame ch lost front behind with rfl | ⟨a, b, c, encoded, rfl, other⟩
    · refine ready_nil (@List.take_zero _ s.partialSequence) ?_
      unfold State.stream
      dsimp only
      rw [List.length_nil, List.take_zero, List.nil_append]
      rw [List.append_assoc] at plain
      exact fun mixed => plain (mixed.append _)
    · have whole : s.partialSequence = [a, b, c] := by rw [front, encoded]; rfl
      obtain ⟨lead, -⟩ := two_bytes.mp ⟨ch, encoded⟩
      have single : s.partialSequence.take [c].length = [a] := by rw [whole]; rfl
      refine ⟨?_, ?_, ?_, ?_⟩
      · unfold State.stream
        dsimp only
        rw [single]
        intro mixed
        have narrow : ¬ LeadsFour a := by
          unfold LeadsTwo at lead
          unfold LeadsFour
          omega
        rw [List.append_assoc] at plain
        exact plain ((mixed.of_cons narrow).append _)
      · have one : 1 ≤ maxLength := by decide
        rw [single]
        exact one
      · intro l rest' front' length
        dsimp only at front'
        rw [single] at front'
        obtain ⟨-, rfl⟩ := List.cons.inj front'
        cases length
      · intro a' b' c' front'
        dsimp only at front'
        rw [single] at front'
        cases front'
  | @partialError byte rest front bad =>
    rw [front] at plain few
    refine ⟨fun mixed => plain (mixed.append [byte]), Nat.le_of_succ_le few, ?_, ?_⟩
    · intro l rest' front' length
      unfold maxLength at few
      simp only [List.length_cons] at few
      have size := congrArg List.length front'
      simp only [List.length_cons] at size
      omega
    · intro a b c front' lead trail mixes
      dsimp only at front'
      have lead' := four byte rest front (by rw [front']; rfl)
      refine plain ⟨[], byte, a, b, c, s.source ++ future, ?_, lead', lead, trail, mixes⟩
      rw [front']
      simp
  | @chunk chunk rest empty front ascii =>
    refine ready_nil empty fun mixed => plain ?_
    unfold State.stream at mixed
    rw [empty] at mixed ⊢
    rw [front, List.nil_append, List.append_assoc]
    exact mixed.append chunk
  | @character ch rest empty front =>
    refine ready_nil empty fun mixed => plain ?_
    unfold State.stream at mixed
    rw [empty] at mixed ⊢
    rw [front, List.nil_append, List.append_assoc]
    exact mixed.append _
  | @error byte rest empty front =>
    refine ready_nil empty fun mixed => plain ?_
    unfold State.stream at mixed
    rw [empty] at mixed ⊢
    rw [front]
    exact mixed.append [byte]
  | keep _ empty pending =>
    refine ready_pending ?_ pending
    unfold State.stream
    rw [empty, List.nil_append] at plain
    rwa [List.append_nil]

/-- A run over bytes that are not mixed decodes them. -/
theorem run_moves (run : Run flush s s') (last : flush = true → future = [])
    (ready : Ready future s) : Moves future s s' ∧ Ready future s' := by
  induction run with
  | refl => exact ⟨.refl _ _, ready⟩
  | tail _ step ih =>
    obtain ⟨moves, ready'⟩ := ih
    exact ⟨moves.trans (step.moves last ready'.tame), step.ready ready'⟩

/-- A run over the source alone decodes it, whatever it is. -/
theorem run_source (run : Run false s s') (empty : s.partialSequence = []) :
    Moves future s s' ∧ s'.partialSequence = [] := by
  induction run with
  | refl => exact ⟨.refl _ _, empty⟩
  | @tail s1 s2 _ step ih =>
    obtain ⟨moves, none⟩ := ih
    have tame : Tame future s1 := by
      intro ch lost front
      have some_ := utf8EncodeChar_length_pos ch
      have sizes := congrArg List.length front
      rw [List.length_append] at sizes
      simp only [none, List.length_nil] at sizes
      omega
    have last : false = true → future = [] := fun impossible => Bool.noConfusion impossible
    refine ⟨moves.trans (step.moves last tame), ?_⟩
    cases step with
    | chunk | character | error => exact none
    | byte front | refill front | partialError front =>
      exact absurd (none.symm.trans front) (List.cons_ne_nil _ _).symm
    | partialCharacter =>
      show s1.partialSequence.take _ = []
      rw [none, List.take_nil]
    | keep flushed => exact Bool.noConfusion flushed

/-! ## Calls -/

/-- The calls for the chunks, the last one of which flushes. A chunk has an address. -/
def feed (wide : Bool) : List (Nat × List UInt8) → Nat × List UInt8 → List UInt8 → Bool →
    Except Fault (List UInt16 × Bool)
  | [], last, partialSequence, sawError => do
    let decoded ← decode wide last.1 true false partialSequence last.2 sawError
    return (decoded.text, decoded.sawError)
  | chunk :: chunks, last, partialSequence, sawError => do
    let decoded ← decode wide chunk.1 false false partialSequence chunk.2 sawError
    let (text, sawError) ← feed wide chunks last decoded.partialSequence decoded.sawError
    return (decoded.text ++ text, sawError)

/-- Room for the partial sequence twice is enough. -/
theorem sized_of_short {address : Nat} (valid : Valid partialSequence)
    (short : partialSequence.length + bytes.length + maxLength < 2 ^ 32) :
    Sized wide address flush stopOnError partialSequence bytes sawError := by
  have first : partialSequence.length + bytes.length < 2 ^ 32 := by omega
  refine ⟨first, fun s converted => ?_⟩
  have capacity : bufferLength partialSequence bytes.length =
      partialSequence.length + bytes.length := Nat.mod_eq_of_lt first
  have room : ([] : List UInt16).length + (partialSequence ++ bytes).length ≤
      bufferLength partialSequence bytes.length := by
    rw [capacity, List.length_append, List.length_nil, Nat.zero_add]
  obtain ⟨outcome, passed, ended⟩ := @firstPass_spec flush stopOnError
    ⟨wide, address + bytes.length⟩ _ ⟨[], bytes, partialSequence, sawError⟩
    (Nat.le_add_left _ _) valid room
  obtain rfl := Except.ok.inj (passed.symm.trans converted)
  cases ended with
  | takesOver takes =>
    have few := takes.few
    dsimp only
    omega

/-- A call in which nothing is lost decodes what it takes from the bytes. -/
theorem decode_moves {address : Nat} (pending : Pending partialSequence)
    (last : flush = true → future = [])
    (ready : Ready future ⟨[], bytes, partialSequence, sawError⟩)
    (short : partialSequence.length + bytes.length + maxLength < 2 ^ 32) :
    ∃ decoded chars bad,
      decode wide address flush false partialSequence bytes sawError = .ok decoded ∧
      decoded.text = utf16 chars ∧ decoded.sawError = (sawError || bad) ∧
      Pending decoded.partialSequence ∧ (flush = true → decoded.partialSequence = []) ∧
      ¬ Mixed (decoded.partialSequence ++ future) ∧
      (decoded.partialSequence ++ future).length ≤ (partialSequence ++ bytes ++ future).length ∧
      ∀ text bad', Decodes (decoded.partialSequence ++ future) text bad' →
        Decodes (partialSequence ++ bytes ++ future) (chars ++ text) (bad || bad') := by
  obtain ⟨decoded, done, spec⟩ := @decode_spec wide flush false sawError address _ bytes
    pending.valid (sized_of_short pending.valid short)
  obtain ⟨s1, run, text, saw, left, ahead, ended⟩ := spec.run rfl
  obtain ⟨⟨chars, bad, text', saw', decodes⟩, ready'⟩ := run_moves run last ready
  have smaller := run.room
  rw [← left] at ahead ended decodes smaller
  refine ⟨decoded, chars, bad, done, text.trans text', saw.trans saw', ahead, ended, ?_, ?_,
    decodes⟩
  · rw [left]
    exact ready'.plain
  · simp only [List.length_append]
    unfold State.stream at smaller
    simp only [List.length_append, List.length_nil] at smaller
    omega

/-- Bytes that are not mixed are decoded however they are cut. -/
theorem feed_decodes {chunks : List (Nat × List UInt8)} {last : Nat × List UInt8}
    (pending : Pending partialSequence)
    (plain : ¬ Mixed (partialSequence ++ ((chunks.map Prod.snd).flatten ++ last.2)))
    (short : (partialSequence ++ ((chunks.map Prod.snd).flatten ++ last.2)).length + maxLength <
      2 ^ 32) :
    ∃ text bad, feed wide chunks last partialSequence sawError =
      .ok (utf16 text, sawError || bad) ∧
      Decodes (partialSequence ++ ((chunks.map Prod.snd).flatten ++ last.2)) text bad := by
  induction chunks generalizing partialSequence sawError with
  | nil =>
    have ready : Ready [] ⟨[], last.2, partialSequence, sawError⟩ := by
      refine ready_pending ?_ pending
      rwa [List.append_nil]
    rw [List.length_append] at short
    obtain ⟨decoded, chars, bad, done, text, saw, -, ended, -, -, decodes⟩ :=
      @decode_moves true wide sawError last.2 [] partialSequence last.1 pending (fun _ => rfl)
        ready short
    have all := decodes [] false (by rw [ended rfl]; exact .nil)
    rw [List.append_nil, List.append_nil, Bool.or_false] at all
    refine ⟨chars, bad, ?_, all⟩
    simp only [feed, done, bind, Except.bind, pure, Except.pure, text, saw]
  | cons chunk chunks ih =>
    have parts : partialSequence ++ (((chunk :: chunks).map Prod.snd).flatten ++ last.2) =
        partialSequence ++ chunk.2 ++ ((chunks.map Prod.snd).flatten ++ last.2) := by
      simp only [List.map_cons, List.flatten_cons, List.append_assoc]
    rw [parts] at plain short ⊢
    have ready : Ready ((chunks.map Prod.snd).flatten ++ last.2)
        ⟨[], chunk.2, partialSequence, sawError⟩ := ready_pending plain pending
    have short' : partialSequence.length + chunk.2.length + maxLength < 2 ^ 32 := by
      rw [List.length_append, List.length_append] at short
      omega
    obtain ⟨decoded, chars, bad, done, text, saw, pending', -, plain', smaller, decodes⟩ :=
      @decode_moves false wide sawError chunk.2 _ partialSequence chunk.1 pending
        (fun impossible => Bool.noConfusion impossible) ready short'
    obtain ⟨text', bad', fed, all⟩ := @ih decoded.sawError decoded.partialSequence pending' plain'
      (by omega)
    refine ⟨chars ++ text', bad || bad', ?_, decodes _ _ all⟩
    rw [saw, Bool.or_assoc] at fed
    simp only [feed, done, bind, Except.bind, pure, Except.pure, text, saw, fed]
    rw [utf16, utf16, utf16, List.flatMap_append]

end NetRider.Text
