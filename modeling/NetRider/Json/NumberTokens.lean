import NetRider.Json.Grammar

/-!
# Numbers in the lexer
-/

namespace NetRider.Json

open NetRider.Wtf

section

variable {Number : Type} {doubles : Doubles Number}

/-- `parseDouble` returns the double that a numeral denotes. -/
def Doubles.Parses (doubles : Doubles Number) : Prop :=
  ∀ n : Numeral, n.WellFormed → doubles.parseDouble n.text = doubles.nearest n.negative n.magnitude

/-- The double that the lexer finds before the rest: the sign of "-0" is lost unless the text ends. -/
def Numeral.lexed (doubles : Doubles Number) (n : Numeral) (rest : List UChar) : Number :=
  if n = .minusZero ∧ rest ≠ [] then doubles.nearest false 0
  else doubles.nearest n.negative n.magnitude

/-- The rest does not continue a numeral. -/
def Apart (rest : List UChar) : Prop :=
  ∀ c, rest.head? = some c → isASCIIDigit c = false ∧ c ≠ 0x2E ∧ c ≠ 0x65 ∧ c ≠ 0x45

theorem digit_toNat {c : UChar} (digit : isASCIIDigit c = true) :
    0x30 ≤ c.toNat ∧ c.toNat ≤ 0x39 := by
  have range := digit_range digit
  omega

theorem intOfDigits_eq {digits : List UChar} (all : ∀ c ∈ digits, isASCIIDigit c = true) (value : Nat) :
    intOfDigits value digits =
      (digits.foldl (fun value c => 10 * value + (c.toNat - 0x30)) value : Nat) := by
  induction digits generalizing value with
  | nil => rfl
  | cons c digits ih =>
    have digit := digit_toNat (all c List.mem_cons_self)
    have first : (value : Int) * 10 + c.toNat - 0x30 = (10 * value + (c.toNat - 0x30) : Nat) := by
      omega
    have others := ih (fun d member => all d (List.mem_cons_of_mem c member))
      (10 * value + (c.toNat - 0x30))
    rw [← first] at others
    exact others

theorem le_foldl_digits (digits : List UChar) (value : Nat) :
    value ≤ digits.foldl (fun value c => 10 * value + (c.toNat - 0x30)) value := by
  induction digits generalizing value with
  | nil => exact Nat.le_refl _
  | cons c digits ih =>
    have := ih (10 * value + (c.toNat - 0x30))
    rw [List.foldl_cons]
    omega

theorem Numeral.WellFormed.digits {n : Numeral} (valid : n.WellFormed) : IsDigits n.integer := by
  rcases valid.integer with zero | ⟨digits, -⟩
  · rw [zero]
    exact ⟨by simp, by simp [isASCIIDigit]⟩
  · exact digits

/-- Only the numeral 0 is zero. -/
theorem Numeral.WellFormed.natOfDigits_pos {n : Numeral} (valid : n.WellFormed)
    (other : n.integer ≠ [0x30]) : 0 < natOfDigits n.integer := by
  obtain ⟨digits, notZero⟩ := valid.integer.resolve_left other
  cases written : n.integer with
  | nil => exact absurd written digits.1
  | cons c rest =>
    have digit := digit_toNat (digits.2 c (by simp [written]))
    have first : c.toNat ≠ 0x30 := by
      intro same
      apply notZero
      rw [written, List.head?_cons, Option.some_inj]
      exact UInt16.toNat_inj.mp same
    have least := le_foldl_digits rest (10 * 0 + (c.toNat - 0x30))
    rw [natOfDigits, List.foldl_cons]
    omega

theorem Numeral.magnitude_integer {n : Numeral} (noFraction : n.fraction = none)
    (noExponent : n.exponent = none) : n.magnitude = natOfDigits n.integer := by
  simp [Numeral.magnitude, noFraction, noExponent]

theorem Numeral.eq_minusZero {n : Numeral} (noFraction : n.fraction = none)
    (noExponent : n.exponent = none) :
    n = .minusZero ↔ n.negative = true ∧ n.integer = [0x30] := by
  obtain ⟨negative, integer, fraction, exponent⟩ := n
  cases noFraction
  cases noExponent
  simp [Numeral.minusZero]

/-- The fast path for integers loses the sign of zero and nothing else. -/
theorem ofInt_fast (doubles : Doubles Number) {n : Numeral} (valid : n.WellFormed) (noFraction : n.fraction = none)
    (noExponent : n.exponent = none) {rest : List UChar} (more : rest ≠ []) :
    doubles.ofInt (if n.negative then intOfDigits 0 n.integer * -1 else intOfDigits 0 n.integer) =
      n.lexed doubles rest := by
  have value : intOfDigits 0 n.integer = natOfDigits n.integer :=
    intOfDigits_eq valid.digits.2 0
  have isMinusZero := Numeral.eq_minusZero noFraction noExponent
  rw [value, Numeral.lexed, Numeral.magnitude_integer noFraction noExponent]
  unfold Doubles.ofInt
  cases sign : n.negative with
  | false =>
    have least : ¬ (natOfDigits n.integer : Int) < 0 := by omega
    simp [isMinusZero, sign, least]
  | true =>
    by_cases zero : n.integer = [0x30]
    · have none_ : natOfDigits [0x30] = 0 := rfl
      simp [isMinusZero, sign, zero, none_, more]
    · have positive := valid.natOfDigits_pos zero
      have below : (natOfDigits n.integer : Int) * -1 < 0 := by omega
      have size : ((natOfDigits n.integer : Int) * -1).natAbs = natOfDigits n.integer := by omega
      simp only [if_true, isMinusZero, sign, zero, and_false, false_and, if_false, below, size,
        decide_true]

theorem IsDigits.starts {digits : List UChar} (valid : IsDigits digits) (rest : List UChar) :
    ((digits ++ rest).head?.map isASCIIDigit).getD false = true := by
  cases digits with
  | nil => exact absurd rfl valid.1
  | cons c digits => simpa using valid.2 c List.mem_cons_self

theorem IsDigits.dropWhile {digits rest : List UChar} (valid : IsDigits digits)
    (ends : ∀ c, rest.head? = some c → isASCIIDigit c = false) :
    (digits ++ rest).dropWhile isASCIIDigit = rest := by
  rw [List.dropWhile_append_of_pos valid.2]
  cases rest with
  | nil => rfl
  | cons c rest => exact List.dropWhile_cons_of_neg (by simp [ends c rfl])

theorem takeWhile_isDigits {text : List UChar}
    (starts : (text.head?.map isASCIIDigit).getD false = true) :
    IsDigits (text.takeWhile isASCIIDigit) := by
  cases text with
  | nil => cases starts
  | cons c rest =>
    refine ⟨?_, fun d member => List.mem_takeWhile_imp member⟩
    rw [List.takeWhile_cons_of_pos (by simpa using starts)]
    exact List.cons_ne_nil _ _

theorem lexExponent_complete {start rest : List UChar} {exponent : Option Exponent}
    (valid : ∀ e, exponent = some e → e.WellFormed) (apart : Apart rest) :
    lexExponent doubles start (exponent.elim [] Exponent.text ++ rest) =
      (.number (doubles.parseDouble (start.take (start.length - rest.length))), rest) := by
  cases exponent with
  | none =>
    cases rest with
    | nil => rfl
    | cons c rest =>
      obtain ⟨-, -, lower, upper⟩ := apart c rfl
      simp [lexExponent, lower, upper]
  | some e =>
    obtain ⟨letter, sign, digits⟩ := valid e rfl
    obtain ⟨letterUnit, signUnit, digitUnits⟩ := e
    have isSign : ∀ c ∈ digitUnits, c ≠ 0x2D ∧ c ≠ 0x2B := by
      intro c member
      have digit := digits.2 c member
      constructor
      · rintro rfl
        revert digit
        decide
      · rintro rfl
        revert digit
        decide
    have skipped : (if (signUnit.toList ++ (digitUnits ++ rest)).head? = some 0x2D ∨
        (signUnit.toList ++ (digitUnits ++ rest)).head? = some 0x2B then
          (signUnit.toList ++ (digitUnits ++ rest)).tail
        else signUnit.toList ++ (digitUnits ++ rest)) = digitUnits ++ rest := by
      cases signUnit with
      | none =>
        cases digitUnits with
        | nil => exact absurd rfl digits.1
        | cons d digitUnits => simp [isSign d List.mem_cons_self]
      | some c => simpa using or_iff_not_imp_left.mp (sign c rfl)
    have starts := digits.starts rest
    have after := digits.dropWhile (fun c (first : rest.head? = some c) => (apart c first).1)
    simp only at letter skipped starts after
    simp only [Option.elim_some, Exponent.text, List.cons_append, List.append_assoc, lexExponent,
      letter, if_true, skipped, starts, after]

theorem lexExponent_sound {start ptr rest : List UChar} {value : Number}
    (found : lexExponent doubles start ptr = (.number value, rest)) :
    ∃ exponent : Option Exponent, (∀ e, exponent = some e → e.WellFormed) ∧
      ptr = exponent.elim [] Exponent.text ++ rest ∧
      (exponent = none → ∀ c, rest.head? = some c → c ≠ 0x65 ∧ c ≠ 0x45) ∧
      value = doubles.parseDouble (start.take (start.length - rest.length)) := by
  unfold lexExponent at found
  cases ptr with
  | nil =>
    cases found
    exact ⟨none, nofun, rfl, nofun, rfl⟩
  | cons c tail =>
    simp only at found
    split_ifs at found with letter sign digit digit
    · cases found
      obtain ⟨signUnit, digits, rfl, isSign⟩ : ∃ d ds, tail = d :: ds ∧ (d = 0x2D ∨ d = 0x2B) := by
        rcases sign with minus | plus
        · obtain ⟨ds, rfl⟩ := List.head?_eq_some_iff.mp minus
          exact ⟨_, ds, rfl, .inl rfl⟩
        · obtain ⟨ds, rfl⟩ := List.head?_eq_some_iff.mp plus
          exact ⟨_, ds, rfl, .inr rfl⟩
      refine ⟨some ⟨c, some signUnit, digits.takeWhile isASCIIDigit⟩, ?_, ?_, nofun, rfl⟩
      · rintro e ⟨⟩
        refine ⟨letter, ?_, takeWhile_isDigits digit⟩
        rintro d ⟨⟩
        exact isSign
      · simp [Exponent.text, List.takeWhile_append_dropWhile]
    · cases found
    · cases found
      refine ⟨some ⟨c, none, tail.takeWhile isASCIIDigit⟩, ?_, ?_, nofun, rfl⟩
      · rintro e ⟨⟩
        exact ⟨letter, nofun, takeWhile_isDigits digit⟩
      · simp [Exponent.text, List.takeWhile_append_dropWhile]
    · cases found
    · cases found
      refine ⟨none, nofun, rfl, ?_, rfl⟩
      rintro - d ⟨⟩
      exact not_or.mp letter

theorem apart_nil : Apart [] := nofun

theorem exponent_starts {exponent : Option Exponent} (valid : ∀ e, exponent = some e → e.WellFormed)
    {rest : List UChar} (apart : Apart rest) {c : UChar}
    (first : (exponent.elim [] Exponent.text ++ rest).head? = some c) :
    isASCIIDigit c = false ∧ c ≠ 0x2E := by
  cases exponent with
  | none => exact ⟨(apart c first).1, (apart c first).2.1⟩
  | some e =>
    have letter := (valid e rfl).letter
    have same : e.letter = c := Option.some_inj.mp first
    rw [same] at letter
    rcases letter with rfl | rfl
    · exact ⟨by decide, by decide⟩
    · exact ⟨by decide, by decide⟩

theorem Numeral.text_length_sub (n : Numeral) (rest : List UChar) :
    (n.text ++ rest).take ((n.text ++ rest).length - rest.length) = n.text := by
  rw [List.length_append, Nat.add_sub_cancel, List.take_left]

theorem Numeral.WellFormed.first_digit {n : Numeral} (valid : n.WellFormed) :
    ∃ c digits, n.integer = c :: digits ∧ isASCIIDigit c = true := by
  cases written : n.integer with
  | nil => exact absurd written valid.digits.1
  | cons c digits => exact ⟨c, digits, rfl, valid.digits.2 c (by simp [written])⟩

theorem Numeral.WellFormed.sign_skipped {n : Numeral} (valid : n.WellFormed) :
    (if n.integerText.head? = some 0x2D then intOfDigits 0 n.integerText.tail * -1
      else intOfDigits 0 n.integerText) =
    if n.negative then intOfDigits 0 n.integer * -1 else intOfDigits 0 n.integer := by
  obtain ⟨c, digits, integer, digit⟩ := valid.first_digit
  have notMinus : c ≠ 0x2D := by
    rintro rfl
    revert digit
    decide
  cases sign : n.negative with
  | false => simp [Numeral.integerText, sign, integer, notMinus]
  | true => simp [Numeral.integerText, sign]

theorem lexFraction_complete (parses : doubles.Parses) {n : Numeral} (valid : n.WellFormed)
    {rest : List UChar} (apart : Apart rest) :
    lexFraction doubles (n.text ++ rest) (n.fractionText ++ (n.exponentText ++ rest)) =
      (.number (n.lexed doubles rest), rest) := by
  have whole : lexExponent doubles (n.text ++ rest) _ = _ :=
    lexExponent_complete valid.exponent apart
  have denoted := parses n valid
  rw [n.text_length_sub, denoted] at whole
  cases hasFraction : n.fraction with
  | some digits =>
    have isDigits := valid.fraction digits hasFraction
    have other : n ≠ .minusZero := by
      rintro rfl
      cases hasFraction
    have ends : ∀ c, (n.exponentText ++ rest).head? = some c → isASCIIDigit c = false :=
      fun c first => (exponent_starts valid.exponent apart first).1
    have after := isDigits.dropWhile ends
    have text : n.fractionText = 0x2E :: digits := by simp [Numeral.fractionText, hasFraction]
    simp only [text, List.cons_append, lexFraction, if_true, isDigits.starts, after]
    rw [Numeral.lexed, if_neg fun both => other both.1]
    exact whole
  | none =>
    have text : n.fractionText = [] := by simp [Numeral.fractionText, hasFraction]
    rw [text, List.nil_append]
    cases hasExponent : n.exponent with
    | some e =>
      have letter := (valid.exponent e hasExponent).letter
      have other : n ≠ .minusZero := by
        rintro rfl
        cases hasExponent
      have exponentText : n.exponentText = e.letter :: (e.sign.toList ++ e.digits) := by
        simp [Numeral.exponentText, hasExponent, Exponent.text]
      have notPoint : e.letter ≠ 0x2E := by
        rcases letter with same | same
        · rw [same]
          decide
        · rw [same]
          decide
      have notFast : ¬ (e.letter ≠ 0x65 ∧ e.letter ≠ 0x45 ∧
          ((n.text ++ rest).take ((n.text ++ rest).length -
            (e.letter :: (e.sign.toList ++ e.digits ++ rest)).length)).length < 10) := by
        rintro ⟨lower, upper, -⟩
        exact letter.elim lower upper
      rw [Numeral.lexed, if_neg fun both => other both.1]
      change lexExponent doubles (n.text ++ rest) (n.exponentText ++ rest) = _ at whole
      rw [exponentText, List.cons_append] at whole ⊢
      rw [lexFraction, if_neg notPoint, if_neg notFast]
      exact whole
    | none =>
      have exponentText : n.exponentText = [] := by simp [Numeral.exponentText, hasExponent]
      change lexExponent doubles (n.text ++ rest) (n.exponentText ++ rest) = _ at whole
      rw [exponentText, List.nil_append] at whole ⊢
      cases rest with
      | nil =>
        rw [lexFraction, Numeral.lexed, if_neg fun both => both.2 rfl]
        exact whole
      | cons c rest =>
        obtain ⟨-, notPoint, lower, upper⟩ := apart c rfl
        have integerText : n.text = n.integerText := by
          rw [Numeral.text, text, exponentText, List.nil_append, List.append_nil]
        rw [lexFraction, if_neg notPoint]
        simp only [n.text_length_sub]
        by_cases short : n.text.length < 10
        · have fast := ofInt_fast doubles valid hasFraction hasExponent
            (List.cons_ne_nil c rest)
          rw [if_pos ⟨lower, upper, short⟩, ← fast, integerText, valid.sign_skipped]
        · have other : n ≠ .minusZero := by
            rintro rfl
            exact short (by decide)
          rw [if_neg fun all => short all.2.2, Numeral.lexed, if_neg fun both => other both.1]
          exact whole

theorem lexNumber_complete (parses : doubles.Parses) {n : Numeral} (valid : n.WellFormed)
    {rest : List UChar} (apart : Apart rest) :
    lexNumber doubles (n.text ++ rest) = (.number (n.lexed doubles rest), rest) := by
  have fraction := lexFraction_complete parses valid apart
  have unsigned : (if (n.text ++ rest).head? = some 0x2D then (n.text ++ rest).tail
      else n.text ++ rest) = n.integer ++ (n.fractionText ++ (n.exponentText ++ rest)) := by
    have first := valid.first_digit
    obtain ⟨c, digits, integer, digit⟩ := first
    have notMinus : c ≠ 0x2D := by
      rintro rfl
      revert digit
      decide
    cases sign : n.negative with
    | false => simp [Numeral.text, Numeral.integerText, sign, integer, notMinus]
    | true => simp [Numeral.text, Numeral.integerText, sign]
  have ends : ∀ c, (n.fractionText ++ (n.exponentText ++ rest)).head? = some c →
      isASCIIDigit c = false := by
    intro c first
    cases hasFraction : n.fraction with
    | some digits =>
      have same : 0x2E = c := by simpa [Numeral.fractionText, hasFraction] using first
      rw [← same]
      decide
    | none =>
      rw [Numeral.fractionText, hasFraction] at first
      exact (exponent_starts valid.exponent apart first).1
  unfold lexNumber
  rw [unsigned]
  rcases valid.integer with zero | ⟨isDigits, notZero⟩
  · simp only [zero, List.cons_append, List.nil_append, if_true]
    exact fraction
  · obtain ⟨c, digits, integer, digit⟩ := valid.first_digit
    have isNonzero : c ≠ 0x30 := by
      rintro rfl
      exact notZero (by simp [integer])
    have range : c ≥ 0x31 ∧ c ≤ 0x39 := by
      have bounds := digit_toNat digit
      have nonzero : c.toNat ≠ 0x30 := fun same => isNonzero (UInt16.toNat_inj.mp same)
      rw [ge_iff_le, UInt16.le_iff_toNat_le, UInt16.le_iff_toNat_le]
      have h1 : (0x31 : UInt16).toNat = 0x31 := rfl
      have h2 : (0x39 : UInt16).toNat = 0x39 := rfl
      omega
    have after : (digits ++ (n.fractionText ++ (n.exponentText ++ rest))).dropWhile isASCIIDigit =
        n.fractionText ++ (n.exponentText ++ rest) := by
      rw [List.dropWhile_append_of_pos fun d member => isDigits.2 d (by simp [integer, member])]
      cases text : n.fractionText ++ (n.exponentText ++ rest) with
      | nil => rfl
      | cons d tail =>
        exact List.dropWhile_cons_of_neg (by simp [ends d (by rw [text]; rfl)])
    simp only [integer, List.cons_append, isNonzero, if_false, range, and_self, if_true, after]
    exact fraction

theorem lexFraction_sound (parses : doubles.Parses) {negative : Bool} (integer : List UChar)
    (digits : integer = [0x30] ∨ (IsDigits integer ∧ integer.head? ≠ some 0x30))
    {ptr rest : List UChar} {value : Number}
    (found : lexFraction doubles ((if negative then [0x2D] else []) ++ (integer ++ ptr)) ptr =
      (.number value, rest)) :
    ∃ n : Numeral, n.WellFormed ∧ (if negative then [0x2D] else []) ++ (integer ++ ptr) = n.text ++ rest ∧
      value = n.lexed doubles rest := by
  generalize isStart : (if negative then [0x2D] else []) ++ (integer ++ ptr) = start at found ⊢
  -- whatever fraction has been read, the exponent completes the numeral
  have complete : ∀ (fraction : Option (List UChar)) {after : List UChar},
      (∀ ds, fraction = some ds → IsDigits ds) → ptr = fraction.elim [] (0x2E :: ·) ++ after →
      (fraction = none → ∀ c, after.head? = some c →
        c = 0x65 ∨ c = 0x45 ∨ ¬ ((if negative then [0x2D] else []) ++ integer).length < 10) →
      lexExponent doubles start after = (.number value, rest) →
      ∃ n : Numeral, n.WellFormed ∧ start = n.text ++ rest ∧ value = n.lexed doubles rest := by
    intro fraction after isFraction split slow exponentFound
    obtain ⟨exponent, isExponent, rfl, noLetter, rfl⟩ := lexExponent_sound exponentFound
    have valid : Numeral.WellFormed ⟨negative, integer, fraction, exponent⟩ :=
      ⟨digits, isFraction, isExponent⟩
    have text : start = Numeral.text ⟨negative, integer, fraction, exponent⟩ ++ rest := by
      rw [← isStart, split]
      simp [Numeral.text, Numeral.integerText, Numeral.fractionText, Numeral.exponentText]
    refine ⟨_, valid, text, ?_⟩
    rw [text, Numeral.text_length_sub, parses _ valid, Numeral.lexed, if_neg]
    rintro ⟨isMinusZero, more⟩
    cases isMinusZero
    cases rest with
    | nil => exact more rfl
    | cons c rest =>
      obtain ⟨lower, upper⟩ := noLetter rfl c rfl
      rcases slow rfl c rfl with same | same | long
      · exact lower same
      · exact upper same
      · exact long (by decide)
  have literal : start.take (start.length - ptr.length) =
      Numeral.integerText ⟨negative, integer, none, none⟩ := by
    rw [← isStart, ← List.append_assoc, List.length_append, Nat.add_sub_cancel, List.take_left]
    rfl
  unfold lexFraction at found
  cases ptr with
  | nil => exact complete none nofun rfl nofun found
  | cons c tail =>
    dsimp only at found
    rw [literal] at found
    by_cases point : c = 0x2E
    · rw [if_pos point] at found
      split_ifs at found with digit
      · refine complete (some (tail.takeWhile isASCIIDigit)) ?_ ?_ nofun found
        · rintro ds ⟨⟩
          exact takeWhile_isDigits digit
        · simp [point, List.takeWhile_append_dropWhile]
      · cases found
    · rw [if_neg point] at found
      by_cases fast : c ≠ 0x65 ∧ c ≠ 0x45 ∧
          (Numeral.integerText ⟨negative, integer, none, none⟩).length < 10
      · have valid : Numeral.WellFormed ⟨negative, integer, none, none⟩ := ⟨digits, nofun, nofun⟩
        rw [if_pos fast, valid.sign_skipped] at found
        obtain ⟨isValue, rfl⟩ := Prod.mk.inj found
        refine ⟨⟨negative, integer, none, none⟩, valid, ?_, ?_⟩
        · rw [← isStart]
          simp [Numeral.text, Numeral.integerText, Numeral.fractionText, Numeral.exponentText]
        · rw [← ofInt_fast doubles valid rfl rfl (List.cons_ne_nil c tail)]
          exact (Token.number.inj isValue).symm
      · rw [if_neg fast] at found
        refine complete none nofun rfl ?_ found
        rintro - d ⟨⟩
        by_contra none_
        rw [not_or, not_or, not_not] at none_
        exact fast none_

theorem lexNumber_sound (parses : doubles.Parses) {start rest : List UChar} {value : Number}
    (found : lexNumber doubles start = (.number value, rest)) :
    ∃ n : Numeral, n.WellFormed ∧ start = n.text ++ rest ∧ value = n.lexed doubles rest := by
  obtain ⟨negative, ptr, isStart, isPtr⟩ : ∃ (negative : Bool) (ptr : List UChar),
      start = (if negative then [0x2D] else []) ++ ptr ∧
      (if start.head? = some 0x2D then start.tail else start) = ptr := by
    by_cases minus : start.head? = some 0x2D
    · obtain ⟨tail, rfl⟩ := List.head?_eq_some_iff.mp minus
      exact ⟨true, tail, by simp, by simp⟩
    · exact ⟨false, start, by simp, by simp [minus]⟩
  unfold lexNumber at found
  rw [isPtr] at found
  subst isStart
  cases ptr with
  | nil => cases found
  | cons c tail =>
    dsimp only at found
    by_cases zero : c = 0x30
    · rw [if_pos zero] at found
      subst zero
      exact lexFraction_sound parses [0x30] (.inl rfl) found
    rw [if_neg zero] at found
    by_cases range : c ≥ 0x31 ∧ c ≤ 0x39
    · rw [if_pos range] at found
      have digit : isASCIIDigit c = true := by
        have least : (0x30 : UInt16) ≤ c := UInt16.le_trans (by decide) range.1
        simp [isASCIIDigit, least, range.2]
      have isDigits : IsDigits (c :: tail.takeWhile isASCIIDigit) := by
        refine ⟨List.cons_ne_nil _ _, ?_⟩
        intro d member
        rcases List.mem_cons.mp member with rfl | inTail
        · exact digit
        · exact List.mem_takeWhile_imp inTail
      have nonzero : (c :: tail.takeWhile isASCIIDigit).head? ≠ some 0x30 := by
        simpa using zero
      have split : c :: tail =
          (c :: tail.takeWhile isASCIIDigit) ++ tail.dropWhile isASCIIDigit := by
        simp [List.takeWhile_append_dropWhile]
      rw [split] at found ⊢
      exact lexFraction_sound parses _ (.inr ⟨isDigits, nonzero⟩) found
    · rw [if_neg range] at found
      cases found

end

/-! ## Numbers without rounding -/

/-- The exponent at the end of a numeral. -/
def readExponent : List UChar → Option Exponent
  | [] => none
  | letter :: text =>
    if text.head? = some 0x2D ∨ text.head? = some 0x2B then some ⟨letter, text.head?, text.tail⟩
    else some ⟨letter, none, text⟩

def readFraction (text : List UChar) : Option (List UChar) × List UChar :=
  if text.head? = some 0x2E then
    (some (text.tail.takeWhile isASCIIDigit), text.tail.dropWhile isASCIIDigit)
  else (none, text)

/-- The numeral that is written. -/
def readNumeral (text : List UChar) : Numeral :=
  let negative := text.head? == some 0x2D
  let unsigned := if negative then text.tail else text
  let (fraction, exponent) := readFraction (unsigned.dropWhile isASCIIDigit)
  ⟨negative, unsigned.takeWhile isASCIIDigit, fraction, readExponent exponent⟩

theorem readExponent_text {exponent : Option Exponent}
    (valid : ∀ e, exponent = some e → e.WellFormed) :
    readExponent (exponent.elim [] Exponent.text) = exponent := by
  cases exponent with
  | none => rfl
  | some e =>
    obtain ⟨letter, sign, digits⟩ := e
    obtain ⟨-, isSign, isDigits⟩ := valid _ rfl
    cases sign with
    | some c =>
      rcases isSign c rfl with rfl | rfl
      · simp [Exponent.text, readExponent]
      · simp [Exponent.text, readExponent]
    | none =>
      cases digits with
      | nil => exact absurd rfl isDigits.1
      | cons d digits =>
        have digit := isDigits.2 d List.mem_cons_self
        have notMinus : d ≠ 0x2D := by
          rintro rfl
          revert digit
          decide
        have notPlus : d ≠ 0x2B := by
          rintro rfl
          revert digit
          decide
        simp [Exponent.text, readExponent, notMinus, notPlus]

theorem IsDigits.takeWhile {digits rest : List UChar} (valid : ∀ c ∈ digits, isASCIIDigit c = true)
    (ends : ∀ c, rest.head? = some c → isASCIIDigit c = false) :
    (digits ++ rest).takeWhile isASCIIDigit = digits := by
  rw [List.takeWhile_append_of_pos valid]
  cases rest with
  | nil => simp
  | cons c rest => simp [ends c rfl]

theorem readFraction_text {n : Numeral} (valid : n.WellFormed) :
    readFraction (n.fractionText ++ n.exponentText) = (n.fraction, n.exponentText) := by
  have ends : ∀ c, n.exponentText.head? = some c → isASCIIDigit c = false ∧ c ≠ 0x2E := by
    intro c first
    apply exponent_starts valid.exponent apart_nil
    rwa [List.append_nil]
  unfold readFraction
  cases hasFraction : n.fraction with
  | some digits =>
    have isDigits := valid.fraction digits hasFraction
    have text : n.fractionText = 0x2E :: digits := by simp [Numeral.fractionText, hasFraction]
    rw [text, List.cons_append, List.head?_cons, if_pos rfl, List.tail_cons,
      isDigits.dropWhile fun c first => (ends c first).1,
      IsDigits.takeWhile isDigits.2 fun c first => (ends c first).1]
  | none =>
    have text : n.fractionText = [] := by simp [Numeral.fractionText, hasFraction]
    rw [text, List.nil_append, if_neg fun point => (ends _ point).2 rfl]

theorem readNumeral_text {n : Numeral} (valid : n.WellFormed) : readNumeral n.text = n := by
  obtain ⟨c, digits, integer, digit⟩ := valid.first_digit
  have notMinus : c ≠ 0x2D := by
    rintro rfl
    revert digit
    decide
  have unsigned : (n.text.head? == some 0x2D) = n.negative ∧
      (if n.negative then n.text.tail else n.text) =
        n.integer ++ (n.fractionText ++ n.exponentText) := by
    cases sign : n.negative with
    | false => simp [Numeral.text, Numeral.integerText, sign, integer, notMinus]
    | true => simp [Numeral.text, Numeral.integerText, sign]
  have ends : ∀ c, (n.fractionText ++ n.exponentText).head? = some c → isASCIIDigit c = false := by
    intro c first
    cases hasFraction : n.fraction with
    | some digits =>
      have same : 0x2E = c := by simpa [Numeral.fractionText, hasFraction] using first
      rw [← same]
      decide
    | none =>
      rw [Numeral.fractionText, hasFraction] at first
      refine (exponent_starts valid.exponent apart_nil ?_).1
      rwa [List.append_nil]
  simp only [readNumeral, unsigned.1, unsigned.2, valid.digits.dropWhile ends,
    IsDigits.takeWhile valid.digits.2 ends, readFraction_text valid]
  rw [Numeral.exponentText, readExponent_text valid.exponent]

/-- Numbers as a sign and a magnitude that is never rounded. -/
def Doubles.exact : Doubles (Bool × ℚ) where
  nearest negative magnitude := (negative, magnitude)
  parseDouble text := ((readNumeral text).negative, (readNumeral text).magnitude)
  asInt number :=
    if number.2.den = 1 then some (if number.1 then -number.2.num else number.2.num) else none

theorem Doubles.exact_parses : Doubles.exact.Parses := by
  intro n valid
  simp only [Doubles.exact, readNumeral_text valid]

theorem Doubles.exact_signed : Doubles.exact.nearest true 0 ≠ Doubles.exact.nearest false 0 := by
  simp [Doubles.exact]

end NetRider.Json
