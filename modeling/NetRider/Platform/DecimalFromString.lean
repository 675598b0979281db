import NetRider.Lib.DecimalDigits
import NetRider.Platform.DecimalRounding
import NetRider.Wtf.Strings

/-!
# Reading decimals

`fromString` is a machine of nine states. Digits are collected until there are 18, from the first
that is not a leading zero of the integer part; the zeros behind the point count.
-/

namespace NetRider.Platform

open DecimalPrivate Lib Wtf

inductive State
  | digit
  | dot
  | dotDigit
  | e
  | eDigit
  | eSign
  | sign
  | start
  | zero
  deriving DecidableEq, Repr

/-- The variables of `fromString`. -/
structure Scan where
  exponent : Int
  exponentSign : Sign
  numberOfDigits : Nat
  numberOfDigitsAfterDot : Nat
  numberOfExtraDigits : Nat
  sign : Sign
  state : State
  accumulator : Nat

namespace Scan

def initial : Scan := ⟨0, .positive, 0, 0, 0, .positive, .start, 0⟩

def digitOf (ch : UChar) : Nat := ch.toNat - 0x30

/-- A digit of the integer part. -/
def wholeDigit (scan : Scan) (ch : UChar) : Scan :=
  if scan.numberOfDigits < precision then
    { scan with
      numberOfDigits := scan.numberOfDigits + 1
      accumulator := scan.accumulator * 10 + digitOf ch }
  else { scan with numberOfExtraDigits := scan.numberOfExtraDigits + 1 }

/-- A digit behind the point. -/
def fractionDigit (scan : Scan) (ch : UChar) : Scan :=
  if scan.numberOfDigits < precision then
    { scan with
      numberOfDigits := scan.numberOfDigits + 1
      numberOfDigitsAfterDot := scan.numberOfDigitsAfterDot + 1
      accumulator := scan.accumulator * 10 + digitOf ch }
  else scan

/-- The first digit that is not zero. -/
def firstDigit (scan : Scan) (ch : UChar) : Scan :=
  { scan with accumulator := digitOf ch, numberOfDigits := 1, state := .digit }

def isNonzeroDigit (ch : UChar) : Bool := ch ≥ 0x31 && ch ≤ 0x39

/-- A character that ends the digits. -/
def exponentMarker (scan : Scan) (ch : UChar) : Except Decimal Scan :=
  if ch = 0x45 ∨ ch = 0x65 then .ok { scan with state := .e } else .error .nan

/-- One round of the loop: the next variables, or the result that is returned at once. -/
def step (scan : Scan) (ch : UChar) : Except Decimal Scan :=
  match scan.state with
  | .digit =>
    if isASCIIDigit ch then .ok (scan.wholeDigit ch)
    else if ch = 0x2E then .ok { scan with state := .dot }
    else scan.exponentMarker ch
  | .dot =>
    if isASCIIDigit ch then .ok { scan.fractionDigit ch with state := .dotDigit }
    -- falls through to the next case
    else scan.exponentMarker ch
  | .dotDigit =>
    if isASCIIDigit ch then .ok (scan.fractionDigit ch) else scan.exponentMarker ch
  | .e =>
    if ch = 0x2B then .ok { scan with exponentSign := .positive, state := .eSign }
    else if ch = 0x2D then .ok { scan with exponentSign := .negative, state := .eSign }
    else if isASCIIDigit ch then .ok { scan with exponent := digitOf ch, state := .eDigit }
    else .error .nan
  | .eDigit =>
    if isASCIIDigit ch then
      let exponent := scan.exponent * 10 + digitOf ch
      if exponent > exponentMax + precision then
        if scan.accumulator ≠ 0 then
          .error (if scan.exponentSign = .negative then .zero .positive else .infinity scan.sign)
        else .error (.zero scan.sign)
      else .ok { scan with exponent := exponent, state := .eDigit }
    else .error .nan
  | .eSign =>
    if isASCIIDigit ch then .ok { scan with exponent := digitOf ch, state := .eDigit }
    else .error .nan
  | .sign =>
    if isNonzeroDigit ch then .ok (scan.firstDigit ch)
    else if ch = 0x30 then .ok { scan with state := .zero }
    else .error .nan
  | .start =>
    if isNonzeroDigit ch then .ok (scan.firstDigit ch)
    else if ch = 0x2D then .ok { scan with sign := .negative, state := .sign }
    else if ch = 0x2B then .ok { scan with sign := .positive, state := .sign }
    else if ch = 0x30 then .ok { scan with state := .zero }
    else if ch = 0x2E then .ok { scan with state := .dot }
    else .error .nan
  | .zero =>
    if ch = 0x30 then .ok scan
    else if isNonzeroDigit ch then .ok (scan.firstDigit ch)
    else if ch = 0x2E then .ok { scan with state := .dot }
    else scan.exponentMarker ch

/-- The loop. -/
def run (scan : Scan) : List UChar → Except Decimal Scan
  | [] => .ok scan
  | ch :: str =>
    match scan.step ch with
    | .error result => .error result
    | .ok next => next.run str

/-- The result for an exponent that is in range or can be brought there. -/
def assemble (scan : Scan) (resultExponent : Int) : Decimal :=
  if resultExponent < exponentMin then .zero .positive
  else
    let overflow := resultExponent - exponentMax + 1
    if overflow > 0 then
      if overflow + scan.numberOfDigits - scan.numberOfDigitsAfterDot > precision then
        .infinity scan.sign
      else
        .make scan.sign (resultExponent - overflow) (scaleUp scan.accumulator overflow.toNat)
    else .make scan.sign resultExponent scan.accumulator

/-- What follows the loop. -/
def finish (scan : Scan) : Decimal :=
  if scan.state = .zero then .zero scan.sign
  else if scan.state = .digit ∨ scan.state = .eDigit ∨ scan.state = .dotDigit then
    scan.assemble
      (scan.exponent * (if scan.exponentSign = .negative then -1 else 1) -
        scan.numberOfDigitsAfterDot + scan.numberOfExtraDigits)
  else .nan

end Scan

def Decimal.fromString (str : List UChar) : Decimal :=
  match Scan.initial.run str with
  | .error result => result
  | .ok scan => scan.finish

/-! ## Texts of numbers -/

def digitChar (d : Fin 10) : UChar := UInt16.ofNat (0x30 + d)

def signText : Option Sign → List UChar
  | none => []
  | some .positive => [0x2B]
  | some .negative => [0x2D]

/-- The digits behind an exponent marker, with the marker in upper case or not. -/
structure ExponentPart where
  upper : Bool
  sign : Option Sign
  digits : List (Fin 10)
  nonempty : digits ≠ []

/-- `[sign] digits [. digits] [e [sign] digits]`; no fraction digits for no point. -/
structure Literal where
  sign : Option Sign
  whole : List (Fin 10)
  fraction : List (Fin 10)
  exponentPart : Option ExponentPart
  nonempty : whole ≠ []

namespace ExponentPart

def text (part : ExponentPart) : List UChar :=
  (if part.upper then 0x45 else 0x65) :: signText part.sign ++ part.digits.map digitChar

def number (part : ExponentPart) : Int :=
  numeral part.digits * (if part.sign = some .negative then -1 else 1)

end ExponentPart

namespace Literal

def text (l : Literal) : List UChar :=
  signText l.sign ++ l.whole.map digitChar ++
    (if l.fraction = [] then [] else 0x2E :: l.fraction.map digitChar) ++
    (l.exponentPart.map ExponentPart.text).getD []

def exponent (l : Literal) : Int := (l.exponentPart.map ExponentPart.number).getD 0

/-- The number that is written. -/
def value (l : Literal) : ℚ :=
  (if l.sign = some .negative then -1 else 1) *
    (numeral (l.whole ++ l.fraction) * 10 ^ (l.exponent - l.fraction.length))

end Literal

/-! ## One character -/

theorem digitChar_isDigit (d : Fin 10) : isASCIIDigit (digitChar d) = true := by
  decide +revert

theorem digitOf_digitChar (d : Fin 10) : Scan.digitOf (digitChar d) = d := by
  decide +revert

theorem digitChar_nonzero (d : Fin 10) : Scan.isNonzeroDigit (digitChar d) = !decide (d = 0) := by
  decide +revert

theorem digitChar_ne (d : Fin 10) :
    digitChar d ≠ 0x2B ∧ digitChar d ≠ 0x2D ∧ digitChar d ≠ 0x2E := by
  decide +revert

theorem digitChar_zero : digitChar 0 = 0x30 := rfl

theorem digitChar_eq_zero_iff (d : Fin 10) : digitChar d = 0x30 ↔ d = 0 := by
  decide +revert

namespace Scan

variable {scan next : Scan} {sign : Sign} {whole fraction : List (Fin 10)} {d : Fin 10}

theorem run_append {str : List UChar} (ended : scan.run str = .ok next) (rest : List UChar) :
    scan.run (str ++ rest) = next.run rest := by
  induction str generalizing scan with
  | nil =>
    obtain rfl := Except.ok.inj ended
    rfl
  | cons ch str ih =>
    rw [run] at ended
    rw [List.cons_append, run]
    cases stepped : scan.step ch with
    | error result => rw [stepped] at ended; exact absurd ended (by simp)
    | ok following =>
      rw [stepped] at ended
      exact ih ended

theorem run_cons {ch : UChar} (stepped : scan.step ch = .ok next) (rest : List UChar) :
    scan.run (ch :: rest) = next.run rest := by
  rw [run, stepped]

/-- What has been read of the digits: 18 of them are kept. -/
def collected (sign : Sign) (whole fraction : List (Fin 10)) (state : State) : Scan where
  exponent := 0
  exponentSign := .positive
  numberOfDigits := min 18 (whole.length + fraction.length)
  numberOfDigitsAfterDot := min 18 (whole.length + fraction.length) - min 18 whole.length
  numberOfExtraDigits := whole.length - 18
  sign := sign
  state := state
  accumulator := numeral ((whole ++ fraction).take 18)

theorem numeral_take_concat (digits : List (Fin 10)) (d : Fin 10) :
    numeral ((digits ++ [d]).take 18) =
      if digits.length < 18 then numeral (digits.take 18) * 10 + d
      else numeral (digits.take 18) := by
  split_ifs with few
  · rw [List.take_of_length_le (by simp; omega), List.take_of_length_le (by omega), numeral_concat]
  · rw [List.take_append_of_le_length (not_lt.mp few)]

theorem wholeDigit_collected (sign : Sign) (whole : List (Fin 10)) (d : Fin 10) :
    (collected sign whole [] .digit).wholeDigit (digitChar d) =
      collected sign (whole ++ [d]) [] .digit := by
  have digits := numeral_take_concat whole d
  unfold wholeDigit collected
  simp only [List.append_nil, List.length_append, List.length_singleton, List.length_nil,
    Nat.add_zero, Nat.sub_self, digitOf_digitChar, digits]
  by_cases few : whole.length < 18
  · have small : ((min 18 whole.length : Nat) : Int) < precision := by
      unfold precision
      omega
    simp only [small, few, if_true]
    congr 1 <;> omega
  · have large : ¬ ((min 18 whole.length : Nat) : Int) < precision := by
      unfold precision
      omega
    simp only [large, few, if_false]
    congr 1 <;> omega

theorem fractionDigit_collected (sign : Sign) (whole fraction : List (Fin 10)) (d : Fin 10)
    (state : State) :
    (collected sign whole fraction state).fractionDigit (digitChar d) =
      collected sign whole (fraction ++ [d]) state := by
  have digits := numeral_take_concat (whole ++ fraction) d
  unfold fractionDigit collected
  simp only [List.length_append, List.length_singleton, digitOf_digitChar,
    ← List.append_assoc, digits]
  by_cases few : whole.length + fraction.length < 18
  · have small : ((min 18 (whole.length + fraction.length) : Nat) : Int) < precision := by
      unfold precision
      omega
    simp only [small, few, if_true]
    congr 1 <;> omega
  · have large : ¬ ((min 18 (whole.length + fraction.length) : Nat) : Int) < precision := by
      unfold precision
      omega
    simp only [large, few, if_false]
    congr 1 <;> omega

/-! ## The parts of a text -/

/-- What is left of the integer digits. -/
def significant (digits : List (Fin 10)) : List (Fin 10) := digits.dropWhile (· = 0)

/-- The state behind the integer digits. -/
def wholeState (digits : List (Fin 10)) : State :=
  if significant digits = [] then .zero else .digit

theorem run_digits (sign : Sign) (whole digits : List (Fin 10)) :
    (collected sign whole [] .digit).run (digits.map digitChar) =
      .ok (collected sign (whole ++ digits) [] .digit) := by
  induction digits generalizing whole with
  | nil => simp [run]
  | cons d digits ih =>
    have stepped : (collected sign whole [] .digit).step (digitChar d) =
        .ok (collected sign (whole ++ [d]) [] .digit) := by
      rw [← wholeDigit_collected]
      exact if_pos (digitChar_isDigit d)
    rw [List.map_cons, run_cons stepped, ih, List.append_assoc, List.singleton_append]

theorem run_fraction (sign : Sign) (whole fraction digits : List (Fin 10)) :
    (collected sign whole fraction .dotDigit).run (digits.map digitChar) =
      .ok (collected sign whole (fraction ++ digits) .dotDigit) := by
  induction digits generalizing fraction with
  | nil => simp [run]
  | cons d digits ih =>
    have stepped : (collected sign whole fraction .dotDigit).step (digitChar d) =
        .ok (collected sign whole (fraction ++ [d]) .dotDigit) := by
      rw [← fractionDigit_collected]
      exact if_pos (digitChar_isDigit d)
    rw [List.map_cons, run_cons stepped, ih, List.append_assoc, List.singleton_append]

/-- A first digit other than zero. -/
theorem firstDigit_collected (state : State) (d : Fin 10) :
    (collected sign [] [] state).firstDigit (digitChar d) = collected sign [d] [] .digit := by
  rw [firstDigit, digitOf_digitChar]
  simp [collected, numeral]

/-- From the beginning, from behind a sign and from behind a zero. -/
theorem step_leading {state : State} (early : state = .start ∨ state = .sign ∨ state = .zero)
    (d : Fin 10) :
    (collected sign [] [] state).step (digitChar d) =
      .ok (if d = 0 then collected sign [] [] .zero else collected sign [d] [] .digit) := by
  have nonzero := digitChar_nonzero d
  obtain ⟨plus, minus, point⟩ := digitChar_ne d
  by_cases zero : d = 0
  · subst zero
    rcases early with rfl | rfl | rfl <;> rfl
  · have other : digitChar d ≠ 0x30 := mt (digitChar_eq_zero_iff d).mp zero
    rw [if_neg zero, ← firstDigit_collected state]
    simp only [zero, decide_false, Bool.not_false] at nonzero
    rcases early with rfl | rfl | rfl
    · exact if_pos nonzero
    · exact if_pos nonzero
    · exact (if_neg other).trans (if_pos nonzero)

theorem run_whole {state : State} (early : state = .start ∨ state = .sign ∨ state = .zero)
    {digits : List (Fin 10)} (some : digits ≠ []) :
    (collected sign [] [] state).run (digits.map digitChar) =
      .ok (collected sign (significant digits) [] (wholeState digits)) := by
  induction digits generalizing state with
  | nil => exact absurd rfl some
  | cons d digits ih =>
    rw [List.map_cons, run_cons (step_leading early d)]
    by_cases zero : d = 0
    · have skipped : significant (d :: digits) = significant digits :=
        List.dropWhile_cons_of_pos (by simpa using zero)
      rw [if_pos zero, wholeState, skipped]
      cases digits with
      | nil => rfl
      | cons d' digits => exact ih (.inr (.inr rfl)) (List.cons_ne_nil _ _)
    · have kept : significant (d :: digits) = d :: digits :=
        List.dropWhile_cons_of_neg (by simpa using zero)
      rw [if_neg zero, wholeState, kept, run_digits]
      rfl

/-- Without a sign a number is positive. -/
def signOf (written : Option Sign) : Sign :=
  if written = some .negative then .negative else .positive

theorem signOf_eq_negative (written : Option Sign) :
    signOf written = .negative ↔ written = some .negative := by
  unfold signOf
  split_ifs with minus <;> simp [minus]

theorem run_sign (written : Option Sign) :
    ∃ state, (state = .start ∨ state = .sign) ∧
      initial.run (signText written) = .ok (collected (signOf written) [] [] state) := by
  rcases written with _ | _ | _
  · exact ⟨.start, .inl rfl, rfl⟩
  · exact ⟨.sign, .inr rfl, rfl⟩
  · exact ⟨.sign, .inr rfl, rfl⟩

/-- The state behind all digits. -/
def digitsState (whole fraction : List (Fin 10)) : State :=
  if fraction = [] then wholeState whole else .dotDigit

/-- A point and the digits behind it, if there are any. -/
theorem run_point (sign : Sign) (whole fraction : List (Fin 10)) :
    (collected sign (significant whole) [] (wholeState whole)).run
        (if fraction = [] then [] else 0x2E :: fraction.map digitChar) =
      .ok (collected sign (significant whole) fraction (digitsState whole fraction)) := by
  cases fraction with
  | nil => rfl
  | cons d fraction =>
    have pointed : (collected sign (significant whole) [] (wholeState whole)).step 0x2E =
        .ok (collected sign (significant whole) [] .dot) := by
      unfold wholeState
      split_ifs <;> rfl
    have first : (collected sign (significant whole) [] .dot).step (digitChar d) =
        .ok (collected sign (significant whole) [d] .dotDigit) := by
      have digit := fractionDigit_collected sign (significant whole) [] d .dot
      refine (if_pos (digitChar_isDigit d)).trans ?_
      rw [digit]
      rfl
    rw [if_neg (List.cons_ne_nil _ _), run_cons pointed, List.map_cons, run_cons first, run_fraction]
    rfl

/-- The result for an exponent of more than 1041. -/
def tooLarge (scan : Scan) : Decimal :=
  if scan.accumulator ≠ 0 then
    if scan.exponentSign = .negative then .zero .positive else .infinity scan.sign
  else .zero scan.sign

/-- A scan with an exponent. -/
def withExponent (scan : Scan) (exponentSign : Sign) (digits : List (Fin 10)) : Scan :=
  { scan with exponent := numeral digits, exponentSign := exponentSign, state := .eDigit }

theorem step_exponentDigit (state : scan.state = .eDigit) (d : Fin 10) :
    scan.step (digitChar d) =
      if scan.exponent * 10 + (d : Nat) > exponentMax + precision then .error scan.tooLarge
      else .ok { scan with exponent := scan.exponent * 10 + (d : Nat), state := .eDigit } := by
  unfold step tooLarge
  simp only [state, digitChar_isDigit, if_true, digitOf_digitChar]
  split_ifs <;> rfl

theorem withExponent_step (scan : Scan) (exponentSign : Sign) (digits : List (Fin 10))
    (d : Fin 10) :
    (scan.withExponent exponentSign digits).step (digitChar d) =
      if numeral (digits ++ [d]) ≤ 1041 then .ok (scan.withExponent exponentSign (digits ++ [d]))
      else .error (scan.withExponent exponentSign digits).tooLarge := by
  have next : (numeral digits : Int) * 10 + (d : Nat) = numeral (digits ++ [d]) := by
    rw [numeral_concat]
    push_cast
    rfl
  have stepped := @step_exponentDigit (scan.withExponent exponentSign digits) rfl d
  have exponent : (scan.withExponent exponentSign digits).exponent = numeral digits := rfl
  rw [exponent, next] at stepped
  rw [stepped]
  by_cases fits : numeral (digits ++ [d]) ≤ 1041
  · have inside : ¬ (numeral (digits ++ [d]) : Int) > exponentMax + precision := by
      unfold exponentMax precision
      omega
    rw [if_neg inside, if_pos fits]
    rfl
  · have outside : (numeral (digits ++ [d]) : Int) > exponentMax + precision := by
      unfold exponentMax precision
      omega
    rw [if_pos outside, if_neg fits]

theorem run_exponentDigits (scan : Scan) (exponentSign : Sign) {digits : List (Fin 10)}
    (small : numeral digits ≤ 1041) (more : List (Fin 10)) :
    (scan.withExponent exponentSign digits).run (more.map digitChar) =
      if numeral (digits ++ more) ≤ 1041 then .ok (scan.withExponent exponentSign (digits ++ more))
      else .error (scan.withExponent exponentSign digits).tooLarge := by
  induction more generalizing digits with
  | nil => rw [List.append_nil, if_pos small]; rfl
  | cons d more ih =>
    have whole : digits ++ d :: more = digits ++ [d] ++ more := by simp
    rw [List.map_cons, run, withExponent_step, whole]
    by_cases fits : numeral (digits ++ [d]) ≤ 1041
    · rw [if_pos fits]
      exact ih fits
    · have larger : numeral (digits ++ [d]) ≤ numeral (digits ++ [d] ++ more) := by
        rw [numeral_append (digits ++ [d])]
        exact (Nat.le_mul_of_pos_right _ (by positivity)).trans (Nat.le_add_right ..)
      rw [if_neg fits, if_neg (by omega)]

theorem digitsState_cases (whole fraction : List (Fin 10)) :
    digitsState whole fraction = .zero ∨ digitsState whole fraction = .digit ∨
      digitsState whole fraction = .dotDigit := by
  unfold digitsState wholeState
  split_ifs <;> simp

/-- The marker and the sign behind it. -/
theorem run_marker {state : State} (digits : state = .zero ∨ state = .digit ∨ state = .dotDigit)
    (sign : Sign) (whole fraction : List (Fin 10)) (upper : Bool) (written : Option Sign)
    (d : Fin 10) (rest : List UChar) :
    (collected sign whole fraction state).run
        ((if upper then 0x45 else 0x65) :: signText written ++ digitChar d :: rest) =
      ((collected sign whole fraction state).withExponent (signOf written) [d]).run rest := by
  have marked : (collected sign whole fraction state).step (if upper then 0x45 else 0x65) =
      .ok (collected sign whole fraction .e) := by
    rcases digits with rfl | rfl | rfl <;> cases upper <;> rfl
  have value : ((0 * 10 + (d : Nat) : Nat) : Int) = (d : Nat) := by simp
  obtain ⟨plus, minus, -⟩ := digitChar_ne d
  have digit : isASCIIDigit (digitChar d) = true := digitChar_isDigit d
  rw [List.cons_append, run_cons marked]
  rcases written with _ | _ | _
  · refine run_cons ?_ rest
    refine (if_neg plus).trans ((if_neg minus).trans ((if_pos digit).trans ?_))
    rw [digitOf_digitChar, ← value]
    rfl
  · have signed : (collected sign whole fraction .e).step 0x2B =
        .ok (collected sign whole fraction .eSign) := rfl
    rw [signText, List.singleton_append, run_cons signed]
    refine run_cons ?_ rest
    refine (if_pos digit).trans ?_
    rw [digitOf_digitChar, ← value]
    rfl
  · have signed : (collected sign whole fraction .e).step 0x2D =
        .ok { collected sign whole fraction .eSign with exponentSign := .negative } := rfl
    rw [signText, List.singleton_append, run_cons signed]
    refine run_cons ?_ rest
    refine (if_pos digit).trans ?_
    rw [digitOf_digitChar, ← value]
    rfl

theorem run_exponentPart (sign : Sign) (whole fraction : List (Fin 10)) (part : ExponentPart) :
    (collected sign (significant whole) fraction (digitsState whole fraction)).run part.text =
      if numeral part.digits ≤ 1041 then
        .ok ((collected sign (significant whole) fraction (digitsState whole fraction)).withExponent
          (signOf part.sign) part.digits)
      else .error
        ((collected sign (significant whole) fraction (digitsState whole fraction)).withExponent
          (signOf part.sign) []).tooLarge := by
  obtain ⟨d, digits, same⟩ := List.exists_cons_of_ne_nil part.nonempty
  have small : numeral [d] ≤ 1041 := by
    have bound := numeral_lt [d]
    rw [List.length_singleton] at bound
    omega
  rw [ExponentPart.text, same, List.map_cons,
    run_marker (digitsState_cases whole fraction) sign (significant whole) fraction part.upper
      part.sign d (digits.map digitChar),
    run_exponentDigits _ _ small]
  rfl

end Scan

/-! ## The whole text -/

namespace Literal

open Scan

/-- What is read of the digits. -/
def scan (l : Literal) : Scan :=
  collected (signOf l.sign) (significant l.whole) l.fraction (digitsState l.whole l.fraction)

/-- How many digits are kept. -/
def kept (l : Literal) : Nat := min 18 ((significant l.whole).length + l.fraction.length)

/-- The exponent of the digits that are kept. -/
def resultExponent (l : Literal) : Int :=
  l.exponent + (significant l.whole).length - l.kept

/-- What `fromString` makes of a number that is written. -/
def read (l : Literal) : Decimal :=
  if 1041 < l.exponent.natAbs then
    if l.scan.accumulator ≠ 0 then
      if l.exponent < 0 then .zero .positive else .infinity (signOf l.sign)
    else .zero (signOf l.sign)
  else if l.fraction = [] ∧ l.exponentPart = none ∧ significant l.whole = [] then
    .zero (signOf l.sign)
  else l.scan.assemble l.resultExponent

/-- The text up to the exponent. -/
theorem run_significand (l : Literal) (rest : List UChar) :
    initial.run (signText l.sign ++ l.whole.map digitChar ++
        (if l.fraction = [] then [] else 0x2E :: l.fraction.map digitChar) ++ rest) =
      l.scan.run rest := by
  obtain ⟨state, early, signed⟩ := run_sign l.sign
  have whole := @run_whole (signOf l.sign) state (by tauto) l.whole l.nonempty
  rw [List.append_assoc, List.append_assoc, run_append signed, run_append whole,
    run_append (run_point (signOf l.sign) l.whole l.fraction)]
  rfl

theorem shift_eq (l : Literal) (exponent : Int) :
    exponent - l.scan.numberOfDigitsAfterDot + l.scan.numberOfExtraDigits =
      exponent + (significant l.whole).length - l.kept := by
  simp only [scan, collected, kept]
  omega

theorem number_natAbs (part : ExponentPart) : part.number.natAbs = numeral part.digits := by
  unfold ExponentPart.number
  split_ifs <;> simp

theorem fromString_text (l : Literal) : Decimal.fromString l.text = l.read := by
  have range : ¬ 1041 < (0 : Int).natAbs := by decide
  unfold Decimal.fromString text
  rw [run_significand]
  unfold read resultExponent exponent
  cases missing : l.exponentPart with
  | none =>
    have shifted := l.shift_eq 0
    simp only [Option.map_none, Option.getD_none, range, if_false, true_and]
    have ended : l.scan.run [] = .ok l.scan := rfl
    rw [ended]
    dsimp only
    unfold finish
    by_cases zero : l.fraction = [] ∧ significant l.whole = []
    · have state : l.scan.state = .zero := by
        simp [scan, collected, digitsState, wholeState, zero]
      rw [if_pos state, if_pos zero]
      rfl
    · have state : l.scan.state = .digit ∨ l.scan.state = .dotDigit := by
        by_cases fraction : l.fraction = []
        · have whole : significant l.whole ≠ [] := fun none => zero ⟨fraction, none⟩
          exact .inl (by simp [scan, collected, digitsState, wholeState, fraction, whole])
        · exact .inr (by simp [scan, collected, digitsState, fraction])
      have other : l.scan.state ≠ .zero := by
        rcases state with same | same <;> simp [same]
      have exponent : l.scan.exponent * (if l.scan.exponentSign = .negative then -1 else 1) = 0 :=
        zero_mul _
      rw [if_neg other, if_pos (by tauto), if_neg zero, exponent, shifted]
  | some part =>
    have sized := number_natAbs part
    simp only [Option.map_some, Option.getD_some, sized, reduceCtorEq, false_and, and_false,
      if_false]
    rw [scan, run_exponentPart]
    by_cases fits : numeral part.digits ≤ 1041
    · have finished : (l.scan.withExponent (signOf part.sign) part.digits).finish =
          l.scan.assemble (numeral part.digits *
              (if signOf part.sign = .negative then -1 else 1) -
            l.scan.numberOfDigitsAfterDot + l.scan.numberOfExtraDigits) := rfl
      have number : (numeral part.digits : Int) *
          (if signOf part.sign = .negative then -1 else 1) = part.number := by
        simp only [ExponentPart.number, signOf_eq_negative]
      rw [if_pos fits, if_neg (not_lt.mpr fits)]
      exact finished.trans (by rw [number, shift_eq]; rfl)
    · have negative : signOf part.sign = .negative ↔ part.number < 0 := by
        rw [signOf_eq_negative]
        unfold ExponentPart.number
        split_ifs with minus
        · simp only [minus, true_iff]
          omega
        · simp only [minus, false_iff]
          omega
      rw [if_neg fits, if_pos (not_le.mp fits)]
      simp only [← negative]
      rfl

end Literal

end NetRider.Platform
