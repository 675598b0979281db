import NetRider.Json.Grammar

/-!
# Strings in the lexer
-/

namespace NetRider.Json

open NetRider.Wtf

theorem isSafeStringCharacter_iff {mode : ParserMode} {terminator c : UChar} (printable : terminator ≠ 0x9) :
    isSafeStringCharacter mode terminator c = true ↔
      (StringUnit.plain c).WellFormed mode terminator := by
  have tab : c = 0x9 → c ≠ backslash ∧ c ≠ terminator ∧ ¬ 0x20 ≤ c := by
    rintro rfl
    exact ⟨by decide, printable.symm, by decide⟩
  cases mode with
  | strictJSON =>
    simp [isSafeStringCharacter, StringUnit.WellFormed]
    tauto
  | nonStrictJSON =>
    simp [isSafeStringCharacter, StringUnit.WellFormed]
    tauto
  | jsonp =>
    simp [isSafeStringCharacter, StringUnit.WellFormed]
    tauto

theorem escapedUnit_listed {mode : ParserMode} {c v : UChar} (listed : simpleEscapes.lookup c = some v) :
    escapedUnit mode c = some v := by
  have table : ∀ p ∈ simpleEscapes, escapedUnit mode p.1 = some p.2 := by
    cases mode <;> exact List.all_iff_forall_prop.mp (by decide)
  obtain ⟨before, after, split, -⟩ := List.lookup_eq_some_iff.mp listed
  exact table (c, v) (by simp [split])

theorem escapedUnit_other {mode : ParserMode} {c : UChar} (other : simpleEscapes.lookup c = none) :
    escapedUnit mode c = if c = singleQuote ∧ mode ≠ .strictJSON then some singleQuote else none := by
  have differs : ∀ p ∈ simpleEscapes, c ≠ p.1 := by
    intro p member same
    exact absurd (List.lookup_eq_none_iff.mp other p member) (by simp [same])
  simp only [simpleEscapes, List.forall_mem_cons] at differs
  obtain ⟨h1, h2, h3, h4, h5, h6, h7, h8, -⟩ := differs
  unfold escapedUnit
  rw [if_neg h1, if_neg h2, if_neg h3, if_neg h4, if_neg h5, if_neg h6, if_neg h7, if_neg h8]

/-- What the switch does with a letter. -/
theorem escapedUnit_iff {mode : ParserMode} {c v : UChar} (escapes : mode ≠ .nonStrictJSON)
    {quote : UChar} :
    escapedUnit mode c = some v ↔
      (StringUnit.escape c).WellFormed mode quote ∧ v = (StringUnit.escape c).value := by
  simp only [StringUnit.WellFormed, StringUnit.value]
  cases listed : simpleEscapes.lookup c with
  | some w =>
    rw [escapedUnit_listed listed, Option.some_inj]
    constructor
    · rintro rfl
      exact ⟨⟨escapes, .inl rfl⟩, rfl⟩
    · rintro ⟨-, rfl⟩
      rfl
  | none =>
    rw [escapedUnit_other listed]
    split_ifs with single
    · rw [Option.some_inj]
      constructor
      · rintro rfl
        exact ⟨⟨escapes, .inr single⟩, single.1.symm⟩
      · rintro ⟨-, rfl⟩
        exact single.1.symm
    · constructor
      · nofun
      · rintro ⟨⟨-, found | other⟩, -⟩
        · cases found
        · exact absurd other single

theorem toASCIIHexValue_eq {c : UChar} (hex : isASCIIHexDigit c = true) :
    (toASCIIHexValue c).toNat = hexValue c ∧ hexValue c < 16 := by
  have small : c.toNat < 128 := by
    simp only [isASCIIHexDigit, isASCIIDigit, Bool.or_eq_true, Bool.and_eq_true, decide_eq_true_eq,
      ge_iff_le, UInt16.le_iff_toNat_le] at hex
    have h1 : (0x39 : UInt16).toNat = 0x39 := rfl
    have h2 : (0x46 : UInt16).toNat = 0x46 := rfl
    have h3 : (0x66 : UInt16).toNat = 0x66 := rfl
    omega
  have all : ∀ n : Fin 128, isASCIIHexDigit (UInt16.ofNat n) = true →
      (toASCIIHexValue (UInt16.ofNat n)).toNat = hexValue (UInt16.ofNat n) ∧
        hexValue (UInt16.ofNat n) < 16 := by
    decide
  have same : UInt16.ofNat c.toNat = c := by simp
  have result := all ⟨c.toNat, small⟩
  rw [same] at result
  exact result hex

theorem convertHex_toNat {c1 c2 : UChar} (hex1 : isASCIIHexDigit c1 = true)
    (hex2 : isASCIIHexDigit c2 = true) :
    (convertHex c1 c2).toNat = 16 * hexValue c1 + hexValue c2 := by
  obtain ⟨v1, s1⟩ := toASCIIHexValue_eq hex1
  obtain ⟨v2, s2⟩ := toASCIIHexValue_eq hex2
  have low : (toASCIIHexValue c2).toNat < 2 ^ 4 := by omega
  have shifted : (toASCIIHexValue c1 <<< 4).toNat = (toASCIIHexValue c1).toNat <<< 4 := by
    rw [UInt16.toNat_shiftLeft]
    have count : (4 : UInt16).toNat % 16 = 4 := rfl
    rw [count, Nat.shiftLeft_eq, Nat.mod_eq_of_lt (by omega)]
  rw [convertHex, UInt16.toNat_or, shifted, ← Nat.shiftLeft_add_eq_or_of_lt low, Nat.shiftLeft_eq]
  omega

theorem convertUnicode_eq {c1 c2 c3 c4 : UChar} (hex1 : isASCIIHexDigit c1 = true)
    (hex2 : isASCIIHexDigit c2 = true) (hex3 : isASCIIHexDigit c3 = true)
    (hex4 : isASCIIHexDigit c4 = true) :
    convertUnicode c1 c2 c3 c4 = (StringUnit.unicode c1 c2 c3 c4).value := by
  have high := convertHex_toNat hex1 hex2
  have low := convertHex_toNat hex3 hex4
  have s1 := (toASCIIHexValue_eq hex1).2
  have s2 := (toASCIIHexValue_eq hex2).2
  have s3 := (toASCIIHexValue_eq hex3).2
  have s4 := (toASCIIHexValue_eq hex4).2
  have small : (convertHex c3 c4).toNat < 2 ^ 8 := by omega
  have shifted : (convertHex c1 c2 <<< 8).toNat = (convertHex c1 c2).toNat <<< 8 := by
    rw [UInt16.toNat_shiftLeft]
    have count : (8 : UInt16).toNat % 16 = 8 := rfl
    rw [count, Nat.shiftLeft_eq, Nat.mod_eq_of_lt (by omega)]
  apply UInt16.toNat_inj.mp
  rw [convertUnicode, UInt16.toNat_or, shifted, ← Nat.shiftLeft_add_eq_or_of_lt small,
    Nat.shiftLeft_eq, StringUnit.value, UInt16.toNat_ofNat_of_lt' (show _ < 65536 by omega)]
  omega

def StringUnit.Escaped : StringUnit → Prop
  | plain _ => False
  | _ => True

theorem lexEscape_unit {mode : ParserMode} {quote : UChar} {u : StringUnit}
    (valid : u.WellFormed mode quote) (escaped : u.Escaped) (rest : List UChar) :
    lexEscape mode (u.text.tail ++ rest) = some (u.value, rest) := by
  cases u with
  | plain c => cases escaped
  | escape c =>
    have letter : c ≠ 0x75 := by
      rintro rfl
      rcases valid.2 with listed | single
      · revert listed
        decide
      · exact absurd single.1 (by decide)
    have unit := (@escapedUnit_iff mode c _ valid.1 quote).mpr ⟨valid, rfl⟩
    simp [StringUnit.text, lexEscape, letter, unit]
  | unicode c1 c2 c3 c4 =>
    have digits := valid.2
    simp only [List.forall_mem_cons] at digits
    obtain ⟨hex1, hex2, hex3, hex4, -⟩ := digits
    simp [StringUnit.text, lexEscape, hex1, hex2, hex3, hex4, convertUnicode_eq hex1 hex2 hex3 hex4]

theorem lexEscape_sound {mode : ParserMode} {quote v : UChar} {text rest : List UChar}
    (escapes : mode ≠ .nonStrictJSON) (found : lexEscape mode text = some (v, rest)) :
    ∃ u : StringUnit, u.WellFormed mode quote ∧ u.Escaped ∧ backslash :: text = u.text ++ rest ∧
      v = u.value := by
  unfold lexEscape at found
  split at found
  · cases found
  · split_ifs at found with letter
    · split at found
      · split_ifs at found with hex
        rename_i c1 c2 c3 c4 rest'
        cases found
        simp only [Bool.and_eq_true] at hex
        obtain ⟨⟨⟨hex1, hex2⟩, hex3⟩, hex4⟩ := hex
        refine ⟨.unicode c1 c2 c3 c4, ⟨escapes, ?_⟩, trivial, by rw [letter]; rfl,
          convertUnicode_eq hex1 hex2 hex3 hex4⟩
        simp [hex1, hex2, hex3, hex4]
      · cases found
    · rename_i c rest'
      obtain ⟨w, unit, same⟩ := Option.map_eq_some_iff.mp found
      cases same
      obtain ⟨valid, value⟩ := (@escapedUnit_iff mode c v escapes quote).mp unit
      exact ⟨.escape c, valid, trivial, rfl, value⟩

/-- The units of a run. -/
theorem takeWhile_safe_wellFormed (mode : ParserMode) {quote : UChar} (printable : quote ≠ 0x9)
    (text : List UChar) :
    ∀ u ∈ (text.takeWhile (isSafeStringCharacter mode quote)).map StringUnit.plain,
      u.WellFormed mode quote := by
  intro u member
  obtain ⟨c, inRun, rfl⟩ := List.mem_map.mp member
  exact (isSafeStringCharacter_iff printable).mp (List.mem_takeWhile_imp inRun)

theorem flatMap_plain (run : List UChar) : (run.map StringUnit.plain).flatMap StringUnit.text = run := by
  induction run with
  | nil => rfl
  | cons c run ih => simpa [StringUnit.text] using ih

theorem map_value_plain (run : List UChar) : (run.map StringUnit.plain).map StringUnit.value = run := by
  induction run with
  | nil => rfl
  | cons c run ih => simpa [StringUnit.value] using ih

/-- The two quotes. -/
structure IsQuote (quote : UChar) : Prop where
  printable : quote ≠ 0x9
  notBackslash : quote ≠ backslash

theorem IsQuote.notSafe {mode : ParserMode} {quote : UChar} (valid : IsQuote quote) :
    isSafeStringCharacter mode quote quote = false := by
  simp [isSafeStringCharacter, valid.printable]

theorem lexEscape_length {mode : ParserMode} {c : UChar} {text rest : List UChar}
    (found : lexEscape mode text = some (c, rest)) : rest.length < text.length := by
  unfold lexEscape at found
  split at found
  · cases found
  · split_ifs at found
    · split at found
      · split_ifs at found
        cases found
        simp only [List.length_cons]
        omega
      · cases found
    · obtain ⟨w, -, same⟩ := Option.map_eq_some_iff.mp found
      cases same
      simp

/-- A turn that starts at the end of a run, where nothing is left but the terminator. -/
theorem lexStringLoop_stuck {mode : ParserMode} {quote : UChar} {builder ptr : List UChar}
    (unsafe_ : ptr.dropWhile (isSafeStringCharacter mode quote) = ptr)
    (noEscape : ¬ (mode ≠ .nonStrictJSON ∧ ptr.head? = some backslash)) :
    lexStringLoop mode quote builder ptr =
      if ptr.head? = some quote then some (builder, ptr.tail) else none := by
  have noRun : ptr.takeWhile (isSafeStringCharacter mode quote) = [] := by
    have split := List.takeWhile_append_dropWhile (p := isSafeStringCharacter mode quote) (l := ptr)
    rw [unsafe_] at split
    exact List.append_left_eq_self.mp split
  rw [lexStringLoop, unsafe_, noRun]
  simp only [List.append_nil, noEscape, if_false, ite_self, Nat.lt_irrefl, false_and, and_false]
  by_cases ends : ptr.head? = some quote
  · by_cases empty : builder = []
    · simp [ends, empty]
    · simp [ends, empty]
  · simp [ends]

/-- A turn of the loop: a run, and behind it an escape or the end. -/
theorem lexStringLoop_turn {mode : ParserMode} {quote : UChar} (valid : IsQuote quote)
    {builder text run ptr : List UChar}
    (isRun : text.takeWhile (isSafeStringCharacter mode quote) = run)
    (isPtr : text.dropWhile (isSafeStringCharacter mode quote) = ptr) :
    lexStringLoop mode quote builder text =
      if mode ≠ .nonStrictJSON ∧ ptr.head? = some backslash then
        (lexEscape mode ptr.tail).bind fun (c, rest) =>
          lexStringLoop mode quote (builder ++ run ++ [c]) rest
      else if ptr.head? = some quote then some (builder ++ run, ptr.tail) else none := by
  have split : run ++ ptr = text := by
    rw [← isRun, ← isPtr]
    exact List.takeWhile_append_dropWhile
  have lengths := congrArg List.length split
  rw [List.length_append] at lengths
  have unsafe_ : ptr.dropWhile (isSafeStringCharacter mode quote) = ptr := by
    rw [← isPtr]
    exact List.dropWhile_idempotent _ _
  rw [lexStringLoop, isRun, isPtr]
  by_cases escape : mode ≠ .nonStrictJSON ∧ ptr.head? = some backslash
  · have appended : (if (if builder ≠ [] then builder ++ run else builder) = [] ∧ run ≠ [] then run
        else if builder ≠ [] then builder ++ run else builder) = builder ++ run := by
      by_cases empty : builder = []
      · by_cases noRun : run = []
        · simp [empty, noRun]
        · simp [empty, noRun]
      · simp [empty]
    dsimp only
    rw [if_pos escape, if_pos escape, appended]
    cases found : lexEscape mode ptr.tail with
    | none => rfl
    | some result =>
      obtain ⟨c, rest⟩ := result
      have shorter := lexEscape_length found
      rw [List.length_tail] at shorter
      simp only [Option.map_some, Option.bind_some]
      by_cases more : rest ≠ [] ∧ rest.head? ≠ some quote
      · rw [if_pos ⟨escape.1, by omega, more⟩]
      · -- another turn would change nothing
        have last : rest = [] ∨ rest.head? = some quote := by
          by_contra neither
          exact more (not_or.mp neither)
        rw [if_neg fun again => more again.2.2]
        rcases last with rfl | ends
        · rw [lexStringLoop_stuck rfl (by simp)]
          simp
        · obtain ⟨tail, rfl⟩ := List.head?_eq_some_iff.mp ends
          have stuck := @lexStringLoop_stuck mode quote (builder ++ run ++ [c]) (quote :: tail)
            (List.dropWhile_cons_of_neg (by simp [valid.notSafe]))
            (fun bad => valid.notBackslash (Option.some_inj.mp bad.2))
          rw [stuck]
          simp
  · dsimp only
    rw [if_neg escape, if_neg escape]
    simp only
    by_cases ends : ptr.head? = some quote
    · rw [if_neg fun again => again.2.2.2 ends, if_neg (not_not_intro ends), if_pos ends]
      have slice : text.take (text.length - ptr.length) = run := by
        rw [← lengths, Nat.add_sub_cancel, ← split, List.take_left]
      by_cases empty : builder = []
      · simp [empty, slice]
      · simp [empty]
    · rw [if_neg ends, if_pos ends, lexStringLoop_stuck unsafe_ escape, if_neg ends, ite_self]

/-- The loop accepts only units and the terminator. -/
theorem lexStringLoop_sound {mode : ParserMode} {quote : UChar} (valid : IsQuote quote)
    {builder text value rest : List UChar}
    (found : lexStringLoop mode quote builder text = some (value, rest)) :
    ∃ units : List StringUnit, (∀ u ∈ units, u.WellFormed mode quote) ∧
      text = units.flatMap StringUnit.text ++ quote :: rest ∧
      value = builder ++ units.map StringUnit.value := by
  generalize size : text.length = n
  induction n using Nat.strong_induction_on generalizing builder text with
  | _ n ih =>
    subst size
    generalize isRun : text.takeWhile (isSafeStringCharacter mode quote) = run
    generalize isPtr : text.dropWhile (isSafeStringCharacter mode quote) = ptr
    have split : run ++ ptr = text := by
      rw [← isRun, ← isPtr]
      exact List.takeWhile_append_dropWhile
    have runUnits := takeWhile_safe_wellFormed mode valid.printable text
    rw [isRun] at runUnits
    rw [lexStringLoop_turn valid isRun isPtr] at found
    split_ifs at found with escape ends
    · obtain ⟨⟨c, after⟩, isEscape, again⟩ := Option.bind_eq_some_iff.mp found
      obtain ⟨u, unit, -, written, rfl⟩ :=
        @lexEscape_sound mode quote c ptr.tail after escape.1 isEscape
      have shorter := lexEscape_length isEscape
      have lengths := congrArg List.length split
      rw [List.length_append] at lengths
      rw [List.length_tail] at shorter
      obtain ⟨units, others, rfl, rfl⟩ := ih after.length (by omega) again rfl
      refine ⟨run.map .plain ++ u :: units, ?_, ?_, ?_⟩
      · intro v member
        rcases List.mem_append.mp member with inRun | inRest
        · exact runUnits v inRun
        · rcases List.mem_cons.mp inRest with rfl | inUnits
          · exact unit
          · exact others v inUnits
      · obtain ⟨tail, rfl⟩ := List.head?_eq_some_iff.mp escape.2
        rw [← split, List.flatMap_append, flatMap_plain, List.flatMap_cons]
        simpa using written
      · rw [List.map_append, map_value_plain]
        simp
    · cases found
      refine ⟨run.map .plain, runUnits, ?_, ?_⟩
      · obtain ⟨tail, rfl⟩ := List.head?_eq_some_iff.mp ends
        rw [flatMap_plain]
        exact split.symm
      · rw [map_value_plain]

/-- Units up to the first escape, if there is one. -/
theorem units_split (units : List StringUnit) :
    (∃ run : List UChar, units = run.map .plain) ∨
    ∃ (run : List UChar) (u : StringUnit) (others : List StringUnit),
      u.Escaped ∧ units = run.map .plain ++ u :: others := by
  induction units with
  | nil => exact .inl ⟨[], rfl⟩
  | cons u units ih =>
    cases u with
    | plain c =>
      rcases ih with ⟨run, rfl⟩ | ⟨run, v, others, escaped, rfl⟩
      · exact .inl ⟨c :: run, rfl⟩
      · exact .inr ⟨c :: run, v, others, escaped, rfl⟩
    | escape c => exact .inr ⟨[], .escape c, units, trivial, rfl⟩
    | unicode c1 c2 c3 c4 => exact .inr ⟨[], .unicode c1 c2 c3 c4, units, trivial, rfl⟩

theorem lexStringLoop_units {mode : ParserMode} {quote : UChar} (valid : IsQuote quote)
    {units : List StringUnit} (wellFormed : ∀ u ∈ units, u.WellFormed mode quote)
    (builder rest : List UChar) :
    lexStringLoop mode quote builder (units.flatMap StringUnit.text ++ quote :: rest) =
      some (builder ++ units.map StringUnit.value, rest) := by
  generalize size : units.length = n
  induction n using Nat.strong_induction_on generalizing builder units with
  | _ n ih =>
    subst size
    have safe : ∀ {run : List UChar}, (∀ u ∈ run.map StringUnit.plain, u.WellFormed mode quote) →
        ∀ c ∈ run, isSafeStringCharacter mode quote c = true := by
      intro run plain c member
      exact (isSafeStringCharacter_iff valid.printable).mpr
        (plain (.plain c) (List.mem_map_of_mem member))
    rcases units_split units with ⟨run, rfl⟩ | ⟨run, u, others, escaped, rfl⟩
    · have safeRun := safe wellFormed
      rw [flatMap_plain, map_value_plain, lexStringLoop_turn valid
        (List.takeWhile_append_of_pos safeRun) (List.dropWhile_append_of_pos safeRun)]
      simp [valid.notSafe, valid.notBackslash]
    · have safeRun := safe fun v member => wellFormed v (List.mem_append_left _ member)
      have unit := wellFormed u (by simp)
      have starts : ∃ tail, u.text = backslash :: tail := by
        cases u with
        | plain c => cases escaped
        | escape c => exact ⟨_, rfl⟩
        | unicode c1 c2 c3 c4 => exact ⟨_, rfl⟩
      have escapes : mode ≠ .nonStrictJSON := by
        cases u with
        | plain c => cases escaped
        | escape c => exact unit.1
        | unicode c1 c2 c3 c4 => exact unit.1
      obtain ⟨tail, starts⟩ := starts
      have unsafe_ : isSafeStringCharacter mode quote backslash = false := by
        have tab : backslash ≠ 0x9 := by decide
        simp [isSafeStringCharacter, tab]
      have next := lexEscape_unit unit escaped (others.flatMap StringUnit.text ++ quote :: rest)
      rw [starts, List.tail_cons] at next
      rw [List.flatMap_append, flatMap_plain, List.flatMap_cons, List.append_assoc,
        lexStringLoop_turn valid (List.takeWhile_append_of_pos safeRun)
          (List.dropWhile_append_of_pos safeRun)]
      simp only [starts, List.cons_append, List.append_assoc, List.takeWhile_cons, List.dropWhile_cons,
        unsafe_, Bool.false_eq_true, if_false, List.head?_cons, List.tail_cons, escapes, ne_eq,
        not_false_eq_true, and_self, if_true, next, Option.bind_some]
      rw [ih others.length (by simp only [List.length_append, List.length_cons]; omega) (fun v member => wellFormed v (by simp [member])) _ rfl,
        List.map_append, map_value_plain]
      simp

theorem quote_isQuote {mode : ParserMode} {string : Quoted} (valid : string.WellFormed mode) :
    IsQuote string.quote := by
  rcases valid.quote with same | ⟨same, -⟩
  · rw [same]
    exact ⟨by decide, by decide⟩
  · rw [same]
    exact ⟨by decide, by decide⟩

end NetRider.Json
