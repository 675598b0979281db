import NetRider.Wtf.IntegralTypes

/-!
# What numbers in strings denote

`toIntegralType` keeps the value of a negative number positive until its digits end. Its guard
leaves room for one value above the maximum, the magnitude of the minimum, and does not look at
what that value wraps around to.
-/

namespace NetRider.Wtf

open NetRider.Lib.MachineInts

/-! ## Digits -/

/-- `c` is the digit of value `d`. -/
def Digit (c : UChar) (d : Nat) : Prop :=
  d < 10 ∧ c.toNat = 0x30 + d ∨
    10 ≤ d ∧ d < 36 ∧ (c.toNat = 0x61 + (d - 10) ∨ c.toNat = 0x41 + (d - 10))

/-- The number that digits denote behind another. -/
def numberAfter (base : Nat) (value : Int) (digits : List UChar) : Int :=
  digits.foldl (fun value c => base * value + digitValue c) value

def number (base : Nat) (digits : List UChar) : Int := numberAfter base 0 digits

variable {base : Nat} {c : UChar} {d : Nat} {value : Int} {digits rest : List UChar}

theorem digitValue_eq (digit : Digit c d) : digitValue c = d := by
  unfold Digit at digit
  unfold digitValue isASCIIDigit
  simp only [ge_iff_le, Bool.and_eq_true, decide_eq_true_eq, UInt16.le_iff_toNat_le,
    UInt16.reduceToNat]
  split_ifs <;> omega

theorem isCharacterAllowedInBase_iff (small : base ≤ 36) :
    isCharacterAllowedInBase c base = true ↔ ∃ d < base, Digit c d := by
  unfold isCharacterAllowedInBase Digit isASCIIDigit isASCIIAlpha isASCIIUpper
  simp only [ge_iff_le, gt_iff_lt, Bool.and_eq_true, Bool.or_eq_true, decide_eq_true_eq,
    UInt16.le_iff_toNat_le, UInt16.lt_iff_toNat_lt, UInt16.reduceToNat, if_neg (not_lt.mpr small)]
  constructor
  · intro allowed
    split_ifs at allowed with high digit alpha
    · exact ⟨c.toNat - 0x30, by simpa using allowed, by omega⟩
    · simp only [Bool.or_eq_true, Bool.and_eq_true, decide_eq_true_eq] at allowed
      rcases allowed with lower | upper
      · exact ⟨c.toNat - 0x61 + 10, by omega, by omega⟩
      · exact ⟨c.toNat - 0x41 + 10, by omega, by omega⟩
  · rintro ⟨d, less, digit⟩
    split_ifs with high ten alpha
    · omega
    · simp only [decide_eq_true_eq]
      omega
    · simp only [Bool.or_eq_true, Bool.and_eq_true, decide_eq_true_eq]
      omega
    · omega

theorem digitValue_lt (small : base ≤ 36) (allowed : isCharacterAllowedInBase c base = true) :
    digitValue c < base := by
  obtain ⟨d, less, digit⟩ := (isCharacterAllowedInBase_iff small).mp allowed
  rwa [digitValue_eq digit]

theorem digit_ascii (small : base ≤ 36) (allowed : isCharacterAllowedInBase c base = true) :
    0x30 ≤ c.toNat ∧ c.toNat ≤ 0x7A := by
  obtain ⟨d, less, digit⟩ := (isCharacterAllowedInBase_iff small).mp allowed
  unfold Digit at digit
  omega

theorem digit_not_blank {icu : Icu} (small : base ≤ 36)
    (allowed : isCharacterAllowedInBase c base = true) : isSpaceOrNewline icu c = false := by
  have range := digit_ascii small allowed
  unfold isSpaceOrNewline isASCIISpace
  rw [if_pos (by rw [UInt16.le_iff_toNat_le]; exact range.2.trans (by decide))]
  have late : ¬ c ≤ 0x20 := by
    rw [UInt16.le_iff_toNat_le]
    exact not_le.mpr (lt_of_lt_of_le (by decide) range.1)
  simp [late]

theorem numberAfter_cons : numberAfter base value (c :: digits) =
    numberAfter base (base * value + digitValue c) digits :=
  rfl

theorem le_numberAfter (positive : 0 < base) (start : 0 ≤ value) :
    value ≤ numberAfter base value digits := by
  induction digits generalizing value with
  | nil => exact le_rfl
  | cons c digits ih =>
    have grows : 1 * value ≤ base * value :=
      Int.mul_le_mul_of_nonneg_right (by omega) start
    have next := ih (by omega : 0 ≤ base * value + digitValue c)
    rw [numberAfter_cons]
    omega

/-! ## The limit of the guard -/

section Limit
variable (T : IntType) (base : Nat) (isNegative : Bool)

/-- The greatest value that the guard lets a digit lead to. The one above the maximum passes only
where it is no multiple of the base. -/
def limit : Int := if isNegative ∧ ¬ (base : Int) ∣ T.max + 1 then T.max + 1 else T.max

/-- No digit leads past the limit, from a value that has wrapped around. -/
def Within (value : Int) (digits : List UChar) : Prop :=
  ∀ shorter c rest, digits = shorter ++ c :: rest →
    base * (T.wrap (numberAfter base value shorter)).toInt + digitValue c ≤ limit T base isNegative

end Limit

variable {T : IntType} {isNegative : Bool}

theorem max_le_limit : T.max ≤ limit T base isNegative ∧ limit T base isNegative ≤ T.max + 1 := by
  unfold limit
  split_ifs <;> omega

theorem passesLimit_iff (digit : d < base) :
    passesLimit T base isNegative value d = true ↔ limit T base isNegative < base * value + d := by
  have split := Int.mul_ediv_add_emod T.max base
  have nonneg := Int.emod_nonneg T.max (by omega : (base : Int) ≠ 0)
  have less := Int.emod_lt_of_pos T.max (by omega : (0 : Int) < base)
  have divides : (base : Int) ∣ T.max + 1 ↔ T.max % base = base - 1 := by
    constructor
    · rintro ⟨k, whole⟩
      have wrapped : T.max = base * (k - 1) + (base - 1) := by
        rw [mul_sub, mul_one]
        omega
      rw [wrapped, Int.mul_add_emod_self_left, Int.emod_eq_of_lt (by omega) (by omega)]
    · intro last
      exact ⟨T.max / base + 1, by rw [mul_add, mul_one]; omega⟩
  unfold passesLimit maxMultiplier limit
  simp only [divides, Bool.or_eq_true, Bool.and_eq_true, decide_eq_true_eq, beq_iff_eq]
  clear divides
  generalize T.max / base = q at *
  generalize T.max % base = r at *
  rcases lt_trichotomy value q with below | rfl | above
  · have product : (base : Int) * value ≤ base * (q - 1) :=
      Int.mul_le_mul_of_nonneg_left (by omega) (by omega)
    rw [mul_sub, mul_one] at product
    split_ifs <;> omega
  · cases isNegative
    · simp only [Bool.toNat_false, Bool.false_eq_true, false_and, if_false, true_and,
        Nat.cast_zero]
      omega
    · simp only [Bool.toNat_true, true_and, Nat.cast_one]
      split_ifs <;> omega
  · have product : (base : Int) * (q + 1) ≤ base * value :=
      Int.mul_le_mul_of_nonneg_left (by omega) (by omega)
    rw [mul_add, mul_one] at product
    split_ifs <;> omega

theorem within_nil : Within T base isNegative value [] := by
  intro shorter c rest split
  simp at split

theorem within_cons : Within T base isNegative value (c :: digits) ↔
    base * (T.wrap value).toInt + digitValue c ≤ limit T base isNegative ∧
      Within T base isNegative (base * value + digitValue c) digits := by
  constructor
  · intro within
    refine ⟨within [] c digits rfl, ?_⟩
    rintro shorter e rest rfl
    exact within (c :: shorter) e rest rfl
  · rintro ⟨first, later⟩ shorter e rest split
    cases shorter with
    | nil =>
      cases split
      exact first
    | cons c' shorter =>
      cases split
      exact later shorter e rest rfl

/-- Below the limit nothing wraps around before the last digit. -/
theorem within_of_le (large : 2 ≤ base) (start : 0 ≤ value)
    (below : numberAfter base value digits ≤ limit T base isNegative) :
    Within T base isNegative value digits := by
  induction digits generalizing value with
  | nil => exact within_nil
  | cons c digits ih =>
    have product : 2 * value ≤ base * value := Int.mul_le_mul_of_nonneg_right (by omega) start
    have grows := @le_numberAfter base (base * value + digitValue c) digits (by omega) (by omega)
    have limited := @max_le_limit base T isNegative
    have positive := @max_pos T
    have least := @min_nonpos T
    rw [numberAfter_cons] at below
    rw [within_cons, toInt_wrap_of_fits ⟨by omega, by omega⟩]
    exact ⟨by omega, ih (by omega) below⟩

theorem le_of_within (same : limit T base isNegative = T.max) (start : 0 ≤ value)
    (fits : value ≤ T.max) (within : Within T base isNegative value digits) :
    numberAfter base value digits ≤ T.max := by
  induction digits generalizing value with
  | nil => exact fits
  | cons c digits ih =>
    have product : 0 ≤ base * value := Int.mul_nonneg (by omega) start
    rw [within_cons, toInt_wrap_of_fits ⟨min_nonpos.trans start, fits⟩, same] at within
    rw [numberAfter_cons]
    exact ih (by omega) within.1 within.2

/-! ## The digit loop -/

theorem digitLoop_stop (stops : ∀ c ∈ rest.head?, isCharacterAllowedInBase c base = false) :
    digitLoop T base isNegative value rest = some (value, rest) := by
  cases rest with
  | nil => rfl
  | cons c rest => rw [digitLoop, if_neg (by simp [stops c rfl])]

theorem digitLoop_iff {last : Int} {left : List UChar} (small : base ≤ 36)
    (all : ∀ c ∈ digits, isCharacterAllowedInBase c base = true)
    (stops : ∀ c ∈ rest.head?, isCharacterAllowedInBase c base = false) :
    digitLoop T base isNegative (T.wrap value).toInt (digits ++ rest) = some (last, left) ↔
      Within T base isNegative value digits ∧
        last = (T.wrap (numberAfter base value digits)).toInt ∧ left = rest := by
  induction digits generalizing value with
  | nil =>
    rw [List.nil_append, digitLoop_stop stops, Option.some.injEq, Prod.mk.injEq]
    constructor
    · rintro ⟨rfl, rfl⟩
      exact ⟨within_nil, rfl, rfl⟩
    · rintro ⟨-, rfl, rfl⟩
      exact ⟨rfl, rfl⟩
  | cons c digits ih =>
    have allowed := all c List.mem_cons_self
    have later := fun e member => all e (List.mem_cons_of_mem c member)
    have passes := @passesLimit_iff base _ (T.wrap value).toInt T isNegative
      (digitValue_lt small allowed)
    rw [List.cons_append, digitLoop, if_pos allowed, within_cons, numberAfter_cons]
    by_cases past : limit T base isNegative < base * (T.wrap value).toInt + digitValue c
    · rw [if_pos (passes.mpr past)]
      apply iff_of_false (by simp)
      rintro ⟨⟨first, -⟩, -⟩
      omega
    · rw [if_neg (passes.not.mpr past), wrap_mul_add, ih later]
      simp only [not_lt.mp past, true_and]

/-! ## Numerals -/

/-- A sign in front of the digits; '-' only for signed types. -/
def IsSign (T : IntType) (isNegative : Bool) (sign : List UChar) : Prop :=
  isNegative = true ∧ T.signed = true ∧ sign = [0x2D] ∨
    isNegative = false ∧ (sign = [] ∨ sign = [0x2B])

/-- White space, a sign, digits of the base and white space. -/
def Numeral (icu : Icu) (T : IntType) (base : Nat) (s : List UChar) (isNegative : Bool)
    (digits : List UChar) : Prop :=
  ∃ before sign after, s = before ++ (sign ++ (digits ++ after)) ∧
    (∀ c ∈ before, isSpaceOrNewline icu c = true) ∧ IsSign T isNegative sign ∧
    (digits ≠ [] ∧ ∀ c ∈ digits, ∃ d < base, Digit c d) ∧
    ∀ c ∈ after, isSpaceOrNewline icu c = true

def signed (isNegative : Bool) (magnitude : Int) : Int :=
  if isNegative then -magnitude else magnitude

/-- The string denotes the integer. -/
def Denotes (icu : Icu) (T : IntType) (base : Nat) (s : List UChar) (v : Int) : Prop :=
  ∃ isNegative digits, Numeral icu T base s isNegative digits ∧
    v = signed isNegative (number base digits)

variable {icu : Icu} {s data : List UChar} {v : Int}

theorem wrap_signed : (T.wrap (signed isNegative (T.wrap value).toInt)).toInt =
    (T.wrap (signed isNegative value)).toInt := by
  cases isNegative with
  | false => exact congrArg Value.toInt (wrap_toInt _)
  | true =>
    have negated := @wrap_mul_add T value (-1) 0
    simp only [add_zero, neg_mul, one_mul] at negated
    exact congrArg Value.toInt negated

theorem stops_of_blank (small : base ≤ 36) (blank : ∀ c ∈ rest, isSpaceOrNewline icu c = true) :
    ∀ c ∈ rest.head?, isCharacterAllowedInBase c base = false := by
  intro c head
  have space := blank c (List.mem_of_mem_head? head)
  rw [← Bool.not_eq_true]
  intro allowed
  rw [digit_not_blank small allowed] at space
  cases space

/-- The digits of a text and what follows them. -/
theorem exists_digits (base : Nat) (data : List UChar) : ∃ digits rest, data = digits ++ rest ∧
    (∀ c ∈ digits, isCharacterAllowedInBase c base = true) ∧
    ∀ c ∈ rest.head?, isCharacterAllowedInBase c base = false := by
  refine ⟨_, _, List.takeWhile_append_dropWhile.symm, fun c => List.mem_takeWhile_imp, ?_⟩
  intro c head
  have refused := List.head?_dropWhile_not (isCharacterAllowedInBase · base) data
  rw [Option.mem_def.mp head] at refused
  simpa using refused

theorem unsignedPart_iff (small : base ≤ 36) :
    unsignedPart icu T base isNegative data = some v ↔
      ∃ digits after, data = digits ++ after ∧
        (digits ≠ [] ∧ ∀ c ∈ digits, isCharacterAllowedInBase c base = true) ∧
        (∀ c ∈ after, isSpaceOrNewline icu c = true) ∧ Within T base isNegative 0 digits ∧
        v = (T.wrap (signed isNegative (number base digits))).toInt := by
  have loop : ∀ {digits rest : List UChar},
      (∀ c ∈ digits, isCharacterAllowedInBase c base = true) →
      (∀ c ∈ rest.head?, isCharacterAllowedInBase c base = false) → ∀ last left,
      digitLoop T base isNegative 0 (digits ++ rest) = some (last, left) ↔
        Within T base isNegative 0 digits ∧ last = (T.wrap (number base digits)).toInt ∧
          left = rest := by
    intro digits rest all stops last left
    rw [number, ← digitLoop_iff small all stops, toInt_wrap_of_fits ⟨min_nonpos, max_pos.le⟩]
  have value : ∀ digits, (if isNegative then (T.wrap (-(T.wrap (number base digits)).toInt)).toInt
      else (T.wrap (number base digits)).toInt) =
      (T.wrap (signed isNegative (number base digits))).toInt := by
    intro digits
    rw [← wrap_signed]
    cases isNegative with
    | false => exact congrArg Value.toInt (wrap_toInt _).symm
    | true => rfl
  unfold unsignedPart
  constructor
  · intro read
    obtain ⟨digits, rest, rfl, all, stops⟩ := exists_digits base data
    split at read
    · rename_i first
      split at read
      · rename_i last left run
        obtain ⟨within, rfl, rfl⟩ := (loop all stops _ _).mp run
        dsimp only at read
        rw [value] at read
        split at read <;> cases read
        rename_i blank
        refine ⟨digits, left, rfl, ⟨?_, all⟩, List.dropWhile_eq_nil_iff.mp blank, within, rfl⟩
        rintro rfl
        rw [List.nil_append] at first
        cases head : left.head? with
        | none =>
          rw [head] at first
          cases first
        | some c =>
          rw [head, Option.map_some, Option.getD_some, stops c head] at first
          cases first
      · cases read
    · cases read
  · rintro ⟨digits, after, rfl, ⟨nonempty, all⟩, blank, within, rfl⟩
    have head : ((digits ++ after).head?.map (isCharacterAllowedInBase · base)).getD false = true := by
      cases digits with
      | nil => contradiction
      | cons c digits => exact all c List.mem_cons_self
    have run := (loop all (stops_of_blank small blank) _ _).mpr ⟨within, rfl, rfl⟩
    rw [if_pos head, run]
    dsimp only
    rw [if_pos (List.dropWhile_eq_nil_iff.mpr blank), value]

theorem toIntegralType_parts (read : toIntegralType icu T base s = some v) :
    ∃ before sign isNegative data, s = before ++ (sign ++ data) ∧
      (∀ c ∈ before, isSpaceOrNewline icu c = true) ∧ IsSign T isNegative sign ∧
      unsignedPart icu T base isNegative data = some v := by
  have split := (@List.takeWhile_append_dropWhile _ (isSpaceOrNewline icu) s).symm
  have blank : ∀ c ∈ s.takeWhile (isSpaceOrNewline icu), isSpaceOrNewline icu c = true :=
    fun c => List.mem_takeWhile_imp
  unfold toIntegralType at read
  split at read
  · rename_i data minus
    rw [minus] at split
    split at read
    · rename_i sign
      exact ⟨_, [0x2D], true, data, split, blank, .inl ⟨rfl, sign, rfl⟩, read⟩
    · exact ⟨_, [], false, 0x2D :: data, split, blank, .inr ⟨rfl, .inl rfl⟩, read⟩
  · rename_i data plus
    rw [plus] at split
    exact ⟨_, [0x2B], false, data, split, blank, .inr ⟨rfl, .inr rfl⟩, read⟩
  · exact ⟨_, [], false, _, split, blank, .inr ⟨rfl, .inl rfl⟩, read⟩

/-- Neither blank nor a sign. -/
def StartsPlain (icu : Icu) (data : List UChar) : Prop :=
  ∃ c rest, data = c :: rest ∧ isSpaceOrNewline icu c = false ∧ c ≠ 0x2D ∧ c ≠ 0x2B

theorem startsPlain_digits (small : base ≤ 36) (nonempty : digits ≠ [])
    (all : ∀ c ∈ digits, isCharacterAllowedInBase c base = true) :
    StartsPlain icu (digits ++ rest) := by
  cases digits with
  | nil => contradiction
  | cons c digits =>
    have allowed := all c List.mem_cons_self
    have range := digit_ascii small allowed
    refine ⟨c, digits ++ rest, rfl, digit_not_blank small allowed, ?_, ?_⟩
    · rintro rfl
      exact absurd range.1 (by decide)
    · rintro rfl
      exact absurd range.1 (by decide)

theorem dropWhile_before {before sign : List UChar} (plain : StartsPlain icu data)
    (blank : ∀ c ∈ before, isSpaceOrNewline icu c = true) (isSign : IsSign T isNegative sign) :
    (before ++ (sign ++ data)).dropWhile (isSpaceOrNewline icu) = sign ++ data := by
  obtain ⟨c, rest, rfl, space, -⟩ := plain
  rw [List.dropWhile_append_of_pos blank]
  rcases isSign with ⟨-, -, rfl⟩ | ⟨-, rfl | rfl⟩
  · rw [List.singleton_append, List.dropWhile_cons_of_neg]
    simp [isSpaceOrNewline, isASCIISpace]
  · rw [List.nil_append, List.dropWhile_cons_of_neg (by simp [space])]
  · rw [List.singleton_append, List.dropWhile_cons_of_neg]
    simp [isSpaceOrNewline, isASCIISpace]

theorem toIntegralType_signed {before sign : List UChar} (plain : StartsPlain icu data)
    (blank : ∀ c ∈ before, isSpaceOrNewline icu c = true) (isSign : IsSign T isNegative sign) :
    toIntegralType icu T base (before ++ (sign ++ data)) =
      unsignedPart icu T base isNegative data := by
  rw [toIntegralType, dropWhile_before plain blank isSign]
  rcases isSign with ⟨rfl, canSign, rfl⟩ | ⟨rfl, rfl | rfl⟩
  · exact if_pos canSign
  · obtain ⟨c, rest, rfl, -, minus, plus⟩ := plain
    rw [List.nil_append]
    split
    · rename_i same
      exact absurd (List.cons.inj same).1 minus
    · rename_i same
      exact absurd (List.cons.inj same).1 plus
    · rfl
  · rfl

theorem allowed_iff (small : base ≤ 36) :
    (∀ c ∈ digits, ∃ d < base, Digit c d) ↔
      ∀ c ∈ digits, isCharacterAllowedInBase c base = true :=
  forall₂_congr fun _ _ => (isCharacterAllowedInBase_iff small).symm

/-- `toIntegralType` reads the numerals that stay within the limit, modulo the number of
values. -/
theorem toIntegralType_iff (small : base ≤ 36) :
    toIntegralType icu T base s = some v ↔
      ∃ isNegative digits, Numeral icu T base s isNegative digits ∧
        Within T base isNegative 0 digits ∧
        v = (T.wrap (signed isNegative (number base digits))).toInt := by
  constructor
  · intro read
    obtain ⟨before, sign, isNegative, data, rfl, blank, isSign, part⟩ := toIntegralType_parts read
    obtain ⟨digits, after, rfl, ⟨nonempty, all⟩, blank', within, rfl⟩ :=
      (unsignedPart_iff small).mp part
    exact ⟨isNegative, digits, ⟨before, sign, after, rfl, blank, isSign,
      ⟨nonempty, (allowed_iff small).mpr all⟩, blank'⟩, within, rfl⟩
  · rintro ⟨isNegative, digits, ⟨before, sign, after, rfl, blank, isSign, ⟨nonempty, all⟩, blank'⟩,
      within, rfl⟩
    rw [allowed_iff small] at all
    rw [toIntegralType_signed (startsPlain_digits small nonempty all) blank isSign,
      unsignedPart_iff small]
    exact ⟨digits, after, rfl, ⟨nonempty, all⟩, blank', within, rfl⟩

theorem isSign_unique {sign sign' data data' : List UChar} {isNegative isNegative' : Bool}
    (plain : StartsPlain icu data) (plain' : StartsPlain icu data')
    (isSign : IsSign T isNegative sign) (isSign' : IsSign T isNegative' sign')
    (same : sign ++ data = sign' ++ data') : isNegative = isNegative' ∧ data = data' := by
  obtain ⟨c, rest, rfl, -, minus, plus⟩ := plain
  obtain ⟨c', rest', rfl, -, minus', plus'⟩ := plain'
  rcases isSign with ⟨rfl, -, rfl⟩ | ⟨rfl, rfl | rfl⟩ <;>
    rcases isSign' with ⟨rfl, -, rfl⟩ | ⟨rfl, rfl | rfl⟩ <;>
    simp only [List.cons_append, List.nil_append, List.cons.injEq] at same ⊢ <;>
    simp_all

theorem digits_unique {rest' digits' : List UChar}
    (all : ∀ c ∈ digits, isCharacterAllowedInBase c base = true)
    (stops : ∀ c ∈ rest.head?, isCharacterAllowedInBase c base = false)
    (all' : ∀ c ∈ digits', isCharacterAllowedInBase c base = true)
    (stops' : ∀ c ∈ rest'.head?, isCharacterAllowedInBase c base = false)
    (same : digits ++ rest = digits' ++ rest') : digits = digits' := by
  have taken : ∀ {digits rest : List UChar},
      (∀ c ∈ digits, isCharacterAllowedInBase c base = true) →
      (∀ c ∈ rest.head?, isCharacterAllowedInBase c base = false) →
      (digits ++ rest).takeWhile (isCharacterAllowedInBase · base) = digits := by
    intro digits rest all stops
    rw [List.takeWhile_append_of_pos all]
    cases rest with
    | nil => simp
    | cons c rest => rw [List.takeWhile_cons_of_neg (by simp [stops c rfl]), List.append_nil]
  rw [← taken all stops, same, taken all' stops']

theorem Numeral.unique (small : base ≤ 36) {isNegative' : Bool} {digits' : List UChar}
    (left : Numeral icu T base s isNegative digits)
    (right : Numeral icu T base s isNegative' digits') :
    isNegative = isNegative' ∧ digits = digits' := by
  obtain ⟨before, sign, after, rfl, blank, isSign, ⟨nonempty, all⟩, blank'⟩ := left
  obtain ⟨before₂, sign₂, after₂, same, blank₂, isSign₂, ⟨nonempty₂, all₂⟩, blank₂'⟩ := right
  rw [allowed_iff small] at all all₂
  have plain := @startsPlain_digits base digits after icu small nonempty all
  have plain₂ := @startsPlain_digits base digits' after₂ icu small nonempty₂ all₂
  have dropped := congrArg (List.dropWhile (isSpaceOrNewline icu)) same
  rw [dropWhile_before plain blank isSign, dropWhile_before plain₂ blank₂ isSign₂] at dropped
  obtain ⟨rfl, behind⟩ := isSign_unique plain plain₂ isSign isSign₂ dropped
  exact ⟨rfl, digits_unique all (stops_of_blank small blank') all₂ (stops_of_blank small blank₂')
    behind⟩

/-! ## Exactness -/

namespace IntegralReading

/-- `ok` is set for the strings that denote a number of the type, which is then returned. -/
def Exact (icu : Icu) (T : IntType) (base : Nat) (s : List UChar) : Prop :=
  ∀ v, toIntegralType icu T base s = some v ↔ Denotes icu T base s v ∧ T.Fits v

/-- The minimum where the base divides it, which the guard refuses; where it does not, a number
below the minimum whose digits all stay within the limit, from what those in front of them wrap
around to. -/
def Slips (icu : Icu) (T : IntType) (base : Nat) (s : List UChar) : Prop :=
  ∃ digits, Numeral icu T base s true digits ∧
    ((base : Int) ∣ T.max + 1 ∧ number base digits = T.max + 1 ∨
      ¬ (base : Int) ∣ T.max + 1 ∧ T.max + 1 < number base digits ∧
        ∀ shorter c rest, digits = shorter ++ c :: rest →
          base * (T.wrap (number base shorter)).toInt + digitValue c ≤ T.max + 1)

theorem numeral_signed (numeral : Numeral icu T base s true digits) : T.signed = true := by
  obtain ⟨-, -, -, -, -, ⟨-, canSign, -⟩ | ⟨bad, -⟩, -⟩ := numeral
  · exact canSign
  · cases bad

theorem exact_of_not_numeral (small : base ≤ 36)
    (unread : ∀ isNegative digits, ¬ Numeral icu T base s isNegative digits) :
    Exact icu T base s := by
  intro v
  rw [toIntegralType_iff small]
  apply iff_of_false
  · rintro ⟨isNegative, digits, numeral, -⟩
    exact unread _ _ numeral
  · rintro ⟨⟨isNegative, digits, numeral, -⟩, -⟩
    exact unread _ _ numeral

theorem exact_iff (small : base ≤ 36) (numeral : Numeral icu T base s isNegative digits) :
    Exact icu T base s ↔ ∀ v, (Within T base isNegative 0 digits ∧
      v = (T.wrap (signed isNegative (number base digits))).toInt) ↔
        v = signed isNegative (number base digits) ∧ T.Fits v := by
  refine forall_congr' fun v => ?_
  have read : toIntegralType icu T base s = some v ↔ Within T base isNegative 0 digits ∧
      v = (T.wrap (signed isNegative (number base digits))).toInt := by
    rw [toIntegralType_iff small]
    constructor
    · rintro ⟨isNegative', digits', numeral', rest⟩
      obtain ⟨rfl, rfl⟩ := numeral.unique small numeral'
      exact rest
    · exact fun rest => ⟨_, _, numeral, rest⟩
  have denotes : Denotes icu T base s v ↔ v = signed isNegative (number base digits) := by
    constructor
    · rintro ⟨isNegative', digits', numeral', rfl⟩
      obtain ⟨rfl, rfl⟩ := numeral.unique small numeral'
      rfl
    · exact fun same => ⟨_, _, numeral, same⟩
  rw [read, denotes]

/-- A number is read rightly if it stays within the limit just when it is one of the type. -/
theorem exact_iff_within (small : base ≤ 36) (numeral : Numeral icu T base s isNegative digits) :
    Exact icu T base s ↔
      (Within T base isNegative 0 digits ↔ T.Fits (signed isNegative (number base digits))) := by
  rw [exact_iff small numeral]
  constructor
  · intro exact
    constructor
    · intro within
      obtain ⟨same, fits⟩ := (exact _).mp ⟨within, rfl⟩
      rwa [← same]
    · intro fits
      exact ((exact _).mpr ⟨rfl, fits⟩).1
  · intro same v
    constructor
    · rintro ⟨within, rfl⟩
      have fits := same.mp within
      rw [toInt_wrap_of_fits fits]
      exact ⟨rfl, fits⟩
    · rintro ⟨rfl, fits⟩
      exact ⟨same.mpr fits, (toInt_wrap_of_fits fits).symm⟩

theorem within_nonneg (large : 2 ≤ base) : Within T base false 0 digits ↔
    T.Fits (signed false (number base digits)) := by
  have same : limit T base false = T.max := by simp [limit]
  have nonneg := @le_numberAfter base 0 digits (by omega) le_rfl
  constructor
  · intro within
    exact ⟨min_nonpos.trans nonneg, le_of_within same le_rfl max_pos.le within⟩
  · rintro ⟨-, below⟩
    exact within_of_le large le_rfl (same ▸ below)

/-- **A negative number slips if its digits stay within the limit and it is none of the type, or
the other way round.** -/
theorem within_negative (large : 2 ≤ base) (canSign : T.signed = true) :
    (Within T base true 0 digits ↔ T.Fits (signed true (number base digits))) ↔
      ¬ ((base : Int) ∣ T.max + 1 ∧ number base digits = T.max + 1 ∨
        ¬ (base : Int) ∣ T.max + 1 ∧ T.max + 1 < number base digits ∧
          ∀ shorter c rest, digits = shorter ++ c :: rest →
            base * (T.wrap (number base shorter)).toInt + digitValue c ≤ T.max + 1) := by
  have nonneg : 0 ≤ number base digits := @le_numberAfter base 0 digits (by omega) le_rfl
  have fits : T.Fits (signed true (number base digits)) ↔ number base digits ≤ T.max + 1 := by
    have positive := @max_pos T
    rw [fits_signed canSign]
    simp only [signed, if_true]
    omega
  rw [fits]
  by_cases divides : (base : Int) ∣ T.max + 1
  · have same : limit T base true = T.max := by simp [limit, divides]
    have within : Within T base true 0 digits ↔ number base digits ≤ T.max :=
      ⟨le_of_within same le_rfl max_pos.le, fun below => within_of_le large le_rfl (same ▸ below)⟩
    simp only [divides, true_and, not_true, false_and, or_false]
    rw [within]
    omega
  · have same : limit T base true = T.max + 1 := by simp [limit, divides]
    have enough : number base digits ≤ T.max + 1 → Within T base true 0 digits :=
      fun below => within_of_le large le_rfl (same ▸ below)
    have spelled : Within T base true 0 digits ↔ ∀ shorter c rest, digits = shorter ++ c :: rest →
        base * (T.wrap (number base shorter)).toInt + digitValue c ≤ T.max + 1 := by
      rw [Within, same]
      rfl
    simp only [divides, not_false_eq_true, true_and, false_and, false_or]
    rw [← spelled]
    constructor
    · rintro iff ⟨beyond, within⟩
      exact absurd (iff.mp within) (not_le.mpr beyond)
    · intro safe
      refine ⟨fun within => ?_, enough⟩
      by_contra beyond
      exact safe ⟨not_le.mp beyond, within⟩

/-- **`toIntegralType` is exact on all strings but those that slip at the minimum.** -/
theorem toIntegralType_exact (large : 2 ≤ base) (small : base ≤ 36) :
    Exact icu T base s ↔ ¬ Slips icu T base s := by
  by_cases read : ∃ isNegative digits, Numeral icu T base s isNegative digits
  · obtain ⟨isNegative, digits, numeral⟩ := read
    rw [exact_iff_within small numeral]
    cases isNegative with
    | false =>
      refine iff_of_true (within_nonneg large) ?_
      rintro ⟨digits', numeral', -⟩
      cases (numeral.unique small numeral').1
    | true =>
      rw [within_negative large (numeral_signed numeral)]
      refine not_congr ⟨fun slips => ⟨digits, numeral, slips⟩, ?_⟩
      rintro ⟨digits', numeral', slips⟩
      obtain ⟨-, rfl⟩ := numeral.unique small numeral'
      exact slips
  · simp only [not_exists] at read
    refine iff_of_true (exact_of_not_numeral small read) ?_
    rintro ⟨digits, numeral, -⟩
    exact read _ _ numeral

theorem toIntegralType_exact_zero :
    Exact Icu.forASCII ⟨true, .w32⟩ 10 [0x2D, 0x30] ↔
      ¬ Slips Icu.forASCII ⟨true, .w32⟩ 10 [0x2D, 0x30] :=
  toIntegralType_exact (by decide) (by decide)

/-- `INT_MIN` in hexadecimal. -/
def leastHex : List UChar := 0x2D :: 0x38 :: List.replicate 7 0x30

/-- Ten times `INT_MIN` in decimal. -/
def tenLeast : List UChar := ascii "-21474836480"

/-- The minimum is refused, and ten times the minimum is read as zero. -/
theorem minimum_slips :
    ¬ Exact Icu.forASCII ⟨true, .w32⟩ 16 leastHex ∧
      ¬ Exact Icu.forASCII ⟨true, .w32⟩ 10 tenLeast := by
  constructor
  · intro exact
    have numeral : Numeral Icu.forASCII ⟨true, .w32⟩ 16 leastHex true leastHex.tail :=
      ⟨[], [0x2D], [], rfl, by simp, .inl ⟨rfl, rfl, rfl⟩,
        ⟨by decide, (allowed_iff (by decide)).mpr (List.all_eq_true.mp (by decide))⟩, by simp⟩
    have read := (exact (-2147483648)).mpr ⟨⟨true, _, numeral, by decide⟩, by decide⟩
    have refused : toIntegralType Icu.forASCII ⟨true, .w32⟩ 16 leastHex = none := by decide
    rw [refused] at read
    cases read
  · intro exact
    have read : toIntegralType Icu.forASCII ⟨true, .w32⟩ 10 tenLeast = some 0 := by decide
    obtain ⟨isNegative, digits, numeral, zero⟩ := ((exact 0).mp read).1
    have numeral' : Numeral Icu.forASCII ⟨true, .w32⟩ 10 tenLeast true tenLeast.tail :=
      ⟨[], [0x2D], [], rfl, by simp, .inl ⟨rfl, rfl, rfl⟩,
        ⟨by decide, (allowed_iff (by decide)).mpr (List.all_eq_true.mp (by decide))⟩, by simp⟩
    obtain ⟨rfl, rfl⟩ := numeral.unique (by decide) numeral'
    revert zero
    decide

end IntegralReading

end NetRider.Wtf
