import Mathlib

/-!
# Lempel-Ziv-Welch decoding

The decoder of variable-width codes with a clear and an end code behind the literals, and the
stream of bits its codes are packed into, least significant first.
-/

namespace NetRider.Lib.LempelZivWelch

/-- Codes below `literals` stand for a letter; the next two are the clear and the end code. Codes
have at most `limit` bits. -/
structure Scheme (α : Type) where
  literals : Nat
  letter : Nat → α
  limit : Nat

/-- The words of the codes behind the end code, and the word of the code before. -/
structure Decoder (α : Type) where
  entries : List (List α)
  previous : Option (List α)

variable {α : Type} (s : Scheme α)

def Scheme.clearCode : Nat := s.literals

def Scheme.endCode : Nat := s.literals + 1

/-- The decoder at the start and behind a clear code. -/
def start : Decoder α := { entries := [], previous := none }

/-- The next free code. -/
def Scheme.next (d : Decoder α) : Nat := s.literals + 2 + d.entries.length

/-- The word of a code. -/
def Scheme.word (d : Decoder α) (code : Nat) : Option (List α) :=
  if code < s.literals then some [s.letter code]
  else if code ≤ s.endCode then none
  else d.entries[code - (s.literals + 2)]?

/-- The word that a code behind `previous` stands for: its own one, or, for the next free code,
`previous` and its first letter. -/
def Scheme.spelled (d : Decoder α) (previous : List α) (code : Nat) : Option (List α) :=
  if code = s.next d ∧ code < 2 ^ s.limit then some (previous ++ previous.take 1) else s.word d code

/-- The dictionary grows by `previous` and the first letter of the next word until it is full. -/
def Scheme.grow (d : Decoder α) (previous word : List α) : Decoder α :=
  { entries :=
      if s.next d < 2 ^ s.limit then d.entries ++ [previous ++ word.take 1] else d.entries
    previous := some word }

/-- What a code other than the end code stands for; behind a clear code comes a literal. -/
def Scheme.step (d : Decoder α) (code : Nat) : Option (List α × Decoder α) :=
  if code = s.clearCode then some ([], start)
  else
    match d.previous with
    | none =>
      if code < s.literals then some ([s.letter code], { d with previous := some [s.letter code] })
      else none
    | some previous => (s.spelled d previous code).map fun word => (word, s.grow d previous word)

/-- The letters of a sequence of codes up to its end or an end code; nothing if it is not valid. -/
def Scheme.decode (d : Decoder α) : List Nat → Option (List α)
  | [] => some []
  | code :: codes =>
    if code = s.endCode then some []
    else do
      let (word, d) ← s.step d code
      let rest ← Scheme.decode d codes
      some (word ++ rest)

/-! ## Bits -/

/-- The width of the next code. -/
def Scheme.width (d : Decoder α) : Nat := min s.limit (Nat.size (s.next d))

/-- The number that a valid sequence of codes is packed into, and the bits that it takes. -/
def Scheme.pack (d : Decoder α) : List Nat → Nat × Nat
  | [] => (0, 0)
  | code :: codes =>
    let rest :=
      match s.step d code with
      | some (_, d) => Scheme.pack d codes
      | none => (0, 0)
    (code + 2 ^ s.width d * rest.1, s.width d + rest.2)

/-- The number that bytes stand for, the least significant one first. -/
def ofBytes : List UInt8 → Nat
  | [] => 0
  | byte :: bytes => byte.toNat + 256 * ofBytes bytes

/-- The bits begin with the packed codes. -/
def Scheme.Holds (d : Decoder α) (codes : List Nat) (bits number : Nat) : Prop :=
  (s.pack d codes).2 ≤ bits ∧ number % 2 ^ (s.pack d codes).2 = (s.pack d codes).1

/-- The bytes begin with the packed codes. -/
def Scheme.Packs (codes : List Nat) (bytes : List UInt8) : Prop :=
  s.Holds start codes (8 * bytes.length) (ofBytes bytes)

/-! ## One code -/

variable {s} {d : Decoder α} {code : Nat}

theorem step_clear : s.step d s.clearCode = some ([], start) := if_pos rfl

theorem step_first (notClear : code ≠ s.clearCode) (first : d.previous = none)
    {after : List α × Decoder α} (taken : s.step d code = some after) :
    code < s.literals ∧
      after = ([s.letter code], { d with previous := some [s.letter code] }) := by
  rw [Scheme.step, if_neg notClear, first] at taken
  dsimp only at taken
  split at taken
  case isTrue literal => exact ⟨literal, (Option.some.inj taken).symm⟩
  case isFalse => simp at taken

theorem step_word (notClear : code ≠ s.clearCode) {previous : List α}
    (before : d.previous = some previous) {after : List α × Decoder α}
    (taken : s.step d code = some after) :
    s.spelled d previous code = some after.1 ∧ after.2 = s.grow d previous after.1 := by
  rw [Scheme.step, if_neg notClear, before] at taken
  obtain ⟨word, spelled, rfl⟩ := Option.map_eq_some_iff.mp taken
  exact ⟨spelled, rfl⟩

theorem decode_cons {codes : List Nat} {letters : List α} (notEnd : code ≠ s.endCode)
    (decodes : s.decode d (code :: codes) = some letters) :
    ∃ word d' rest, s.step d code = some (word, d') ∧ s.decode d' codes = some rest ∧
      letters = word ++ rest := by
  rw [Scheme.decode, if_neg notEnd] at decodes
  obtain ⟨⟨word, d'⟩, taken, further⟩ := Option.bind_eq_some_iff.mp decodes
  obtain ⟨rest, later, all⟩ := Option.bind_eq_some_iff.mp further
  exact ⟨word, d', rest, taken, later, (Option.some.inj all).symm⟩

theorem word_literal (literal : code < s.literals) : s.word d code = some [s.letter code] :=
  if_pos literal

theorem word_lt_next {word : List α} (spells : s.word d code = some word) : code < s.next d := by
  unfold Scheme.word at spells
  unfold Scheme.next
  split at spells
  case isTrue literal => omega
  case isFalse =>
    split at spells
    case isTrue => simp at spells
    case isFalse behind =>
      have inside := (List.getElem?_eq_some_iff.mp spells).1
      unfold Scheme.endCode at behind
      omega

/-- The words of a grown dictionary: a new one for the next free code. -/
theorem word_grow {previous word : List α} :
    s.word (s.grow d previous word) code =
      if code = s.next d ∧ code < 2 ^ s.limit then some (previous ++ word.take 1)
      else s.word d code := by
  unfold Scheme.word Scheme.grow Scheme.next Scheme.endCode
  by_cases literal : code < s.literals
  · rw [if_pos literal, if_pos literal, if_neg (by omega)]
  by_cases reserved : code ≤ s.literals + 1
  · rw [if_neg literal, if_pos reserved, if_neg literal, if_pos reserved, if_neg (by omega)]
  rw [if_neg literal, if_neg reserved, if_neg literal, if_neg reserved]
  by_cases free : code = s.literals + 2 + d.entries.length
  · have index : code - (s.literals + 2) = d.entries.length := by omega
    rw [index]
    by_cases room : s.literals + 2 + d.entries.length < 2 ^ s.limit
    · rw [if_pos room, if_pos ⟨free, by omega⟩]
      simp
    · have full : ¬ (code = s.literals + 2 + d.entries.length ∧ code < 2 ^ s.limit) := by omega
      rw [if_neg room, if_neg full]
  · have other : ¬ (code = s.literals + 2 + d.entries.length ∧ code < 2 ^ s.limit) :=
      fun both => free both.1
    rw [if_neg other]
    by_cases room : s.literals + 2 + d.entries.length < 2 ^ s.limit
    · rw [if_pos room, List.getElem?_append]
      split
      case isTrue => rfl
      case isFalse past =>
        rw [List.getElem?_eq_none (by simp only [List.length_singleton]; omega),
          List.getElem?_eq_none (by omega)]
    · rw [if_neg room]

theorem next_grow {previous word : List α} :
    s.next (s.grow d previous word) =
      if s.next d < 2 ^ s.limit then s.next d + 1 else s.next d := by
  unfold Scheme.next Scheme.grow Scheme.next
  by_cases room : s.literals + 2 + d.entries.length < 2 ^ s.limit
  · rw [if_pos room, if_pos room, List.length_append, List.length_singleton]
    rfl
  · rw [if_neg room, if_neg room]

/-! ## The bits of one code -/

theorem size_succ (n : Nat) :
    Nat.size (n + 1) = if n + 1 = 2 ^ Nat.size n then Nat.size n + 1 else Nat.size n := by
  have below : n < 2 ^ Nat.size n := Nat.lt_size_self n
  split
  case isTrue whole => rw [whole, Nat.size_pow]
  case isFalse part =>
    apply Nat.le_antisymm
    · exact Nat.size_le.mpr (by omega)
    · exact Nat.size_le_size (Nat.le_succ n)

/-- As long as the dictionary is not full, the next free code has the width of the codes. -/
theorem width_eq (room : s.next d < 2 ^ s.limit) : s.width d = Nat.size (s.next d) :=
  Nat.min_eq_right (Nat.size_le.mpr room)

/-- Every code with a word fits the width. -/
theorem fits_width (full : s.next d ≤ 2 ^ s.limit) (small : code < s.next d) :
    code < 2 ^ s.width d := by
  unfold Scheme.width
  obtain least | least := min_choice s.limit (Nat.size (s.next d))
  · rw [least]
    omega
  · rw [least]
    exact Nat.lt_trans small (Nat.lt_size_self _)

theorem holds_cons {codes : List Nat} {word : List α} {d' : Decoder α} {bits number : Nat}
    (taken : s.step d code = some (word, d')) (fits : code < 2 ^ s.width d)
    (holds : s.Holds d (code :: codes) bits number) :
    s.width d ≤ bits ∧ number % 2 ^ s.width d = code ∧
      s.Holds d' codes (bits - s.width d) (number / 2 ^ s.width d) := by
  obtain ⟨enough, equal⟩ := holds
  simp only [Scheme.pack, taken] at enough equal
  rw [Nat.pow_add, Nat.mod_mul] at equal
  have low := congrArg (· % 2 ^ s.width d) equal
  have high := congrArg (· / 2 ^ s.width d) equal
  have positive : 0 < 2 ^ s.width d := Nat.two_pow_pos _
  simp only [Nat.add_mul_mod_self_left, Nat.mod_mod, Nat.mod_eq_of_lt fits] at low
  simp only [Nat.add_mul_div_left _ _ positive, Nat.div_eq_of_lt fits,
    Nat.div_eq_of_lt (Nat.mod_lt number positive), Nat.zero_add] at high
  exact ⟨by omega, low, by omega, high⟩

/-- Without codes nothing is asked of the bits. -/
theorem holds_nil {bits number : Nat} : s.Holds d [] bits number :=
  ⟨Nat.zero_le _, by simp [Scheme.pack, Nat.mod_one]⟩

end NetRider.Lib.LempelZivWelch
