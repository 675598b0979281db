import NetRider.Lib.Unicode

/-!
# Decoding with replacement characters

The text of any byte string: characters where they are well-formed, and a replacement character
for each byte that starts none.
-/

namespace NetRider.Lib

/-- A character stands in front. -/
def Starts (bytes : List UInt8) : Prop := ∃ c, String.utf8EncodeChar c <+: bytes

/-- The text that the bytes are read as, and whether one of them is in error. -/
inductive Decodes : List UInt8 → List Char → Bool → Prop
  | nil : Decodes [] [] false
  | character {c bytes text bad} : Decodes bytes text bad →
    Decodes (String.utf8EncodeChar c ++ bytes) (c :: text) bad
  | error {byte bytes text bad} : ¬ Starts (byte :: bytes) → Decodes bytes text bad →
    Decodes (byte :: bytes) (Char.ofNat 0xFFFD :: text) true

variable {c d : Char} {byte : UInt8} {bytes rest : List UInt8} {text : List Char} {bad : Bool}

theorem Encodes.prefix_eq {numbers numbers' : List Nat} {v w : Nat} (first : Encodes numbers v)
    (second : Encodes numbers' w) (front : numbers <+: numbers') : v = w := by
  cases first <;> cases second <;>
    simp only [List.cons_prefix_cons, List.nil_prefix, List.prefix_nil, reduceCtorEq, and_true,
      and_false] at front <;> omega

/-- No character stands in front of another one. -/
theorem char_eq_of_front (front : String.utf8EncodeChar c <+: String.utf8EncodeChar d) :
    c = d :=
  char_eq ((encodes_utf8EncodeChar c).prefix_eq (encodes_utf8EncodeChar d)
    (front.map UInt8.toNat))

theorem front_unique (first : String.utf8EncodeChar c <+: bytes)
    (second : String.utf8EncodeChar d <+: bytes) : c = d := by
  rcases List.prefix_or_prefix_of_prefix first second with front | front
  · exact char_eq_of_front front
  · exact (char_eq_of_front front).symm

theorem utf8EncodeChar_length_pos (c : Char) : 0 < (String.utf8EncodeChar c).length := by
  have numbers := encodes_utf8EncodeChar c
  rw [← List.length_map UInt8.toNat]
  generalize (String.utf8EncodeChar c).map UInt8.toNat = list at numbers ⊢
  cases numbers <;> exact Nat.zero_lt_succ _

theorem starts_character : Starts (String.utf8EncodeChar c ++ bytes) :=
  ⟨c, List.prefix_append _ _⟩

/-- What follows a character, and the text it gives. -/
theorem Decodes.of_character (decodes : Decodes (String.utf8EncodeChar c ++ rest) text bad) :
    ∃ text', text = c :: text' ∧ Decodes rest text' bad := by
  generalize same : String.utf8EncodeChar c ++ rest = bytes at decodes
  cases decodes with
  | nil =>
    have none := congrArg List.length same
    have some_ := utf8EncodeChar_length_pos c
    rw [List.length_append, List.length_nil] at none
    omega
  | character more =>
    have fronts := front_unique ⟨rest, same⟩ (List.prefix_append _ _)
    subst fronts
    obtain rfl := List.append_cancel_left same
    exact ⟨_, rfl, more⟩
  | error other => exact absurd ⟨c, rest, same⟩ other

theorem Decodes.of_error (other : ¬ Starts (byte :: bytes))
    (decodes : Decodes (byte :: bytes) text bad) :
    ∃ text' bad', text = Char.ofNat 0xFFFD :: text' ∧ bad = true ∧ Decodes bytes text' bad' := by
  generalize same : byte :: bytes = whole at decodes
  cases decodes with
  | nil => cases same
  | character more => exact absurd (same ▸ starts_character) other
  | error _ more =>
    obtain ⟨rfl, rfl⟩ := List.cons.inj same
    exact ⟨_, _, rfl, rfl, more⟩

theorem Decodes.unique {text' : List Char} {bad' : Bool} (first : Decodes bytes text bad)
    (second : Decodes bytes text' bad') : text = text' ∧ bad = bad' := by
  induction first generalizing text' bad' with
  | nil =>
    generalize empty : ([] : List UInt8) = whole at second
    cases second with
    | nil => exact ⟨rfl, rfl⟩
    | @character c bytes =>
      have some_ := utf8EncodeChar_length_pos c
      have none := congrArg List.length empty
      rw [List.length_append, List.length_nil] at none
      omega
    | error => cases empty
  | character _ ih =>
    obtain ⟨rest, rfl, more⟩ := second.of_character
    obtain ⟨rfl, rfl⟩ := ih more
    exact ⟨rfl, rfl⟩
  | error other _ ih =>
    obtain ⟨rest, bad', rfl, rfl, more⟩ := second.of_error other
    obtain ⟨rfl, -⟩ := ih more
    exact ⟨rfl, rfl⟩

theorem exists_decodes (bytes : List UInt8) : ∃ text bad, Decodes bytes text bad := by
  induction length : bytes.length using Nat.strongRecOn generalizing bytes with
  | _ n ih =>
    by_cases start : Starts bytes
    · obtain ⟨c, rest, rfl⟩ := start
      have some_ := utf8EncodeChar_length_pos c
      rw [List.length_append] at length
      obtain ⟨text, bad, more⟩ := ih rest.length (by omega) rest rfl
      exact ⟨_, _, .character more⟩
    · cases bytes with
      | nil => exact ⟨_, _, .nil⟩
      | cons byte rest =>
        rw [List.length_cons] at length
        obtain ⟨text, bad, more⟩ := ih rest.length (by omega) rest rfl
        exact ⟨_, _, .error start more⟩

/-- ASCII characters are bytes. -/
theorem decodes_ascii {chunk : List UInt8} (ascii : ∀ byte ∈ chunk, byte.toNat < 0x80)
    (decodes : Decodes rest text bad) :
    Decodes (chunk ++ rest) (chunk.map (fun byte => Char.ofNat byte.toNat) ++ text) bad := by
  induction chunk with
  | nil => exact decodes
  | cons byte chunk ih =>
    obtain ⟨small, others⟩ := List.forall_mem_cons.mp ascii
    have value : (Char.ofNat byte.toNat).val.toNat = byte.toNat := val_ofNat (.inl (by omega))
    have encoded : String.utf8EncodeChar (Char.ofNat byte.toNat) = [byte] := by
      refine (eq_utf8EncodeChar ?_).symm
      rw [value]
      exact .one small
    have step := @Decodes.character (Char.ofNat byte.toNat) _ _ _ (ih others)
    rwa [encoded] at step

end NetRider.Lib
