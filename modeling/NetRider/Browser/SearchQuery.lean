import Mathlib
import NetRider.Browser.Tabs

/-!
# The search field

`cb_search` puts the text of the search field into the query of a url, with each blank made a
plus sign. The other side reads the query by the rules for forms.
-/

namespace NetRider.Browser

def blank : UInt8 := 0x20
def plus : UInt8 := 0x2B
def percent : UInt8 := 0x25
def ampersand : UInt8 := 0x26
def numberSign : UInt8 := 0x23

def searchBase : CString := cString "http://www.google.com/search?q="

def blankToPlus (c : UInt8) : UInt8 := if c = blank then plus else c

/-- The url that is loaded. -/
def cbSearch (search : CString) : CString := (searchBase ++ search).map blankToPlus

/-! ## The rules for forms -/

def hexValue (c : UInt8) : Option UInt8 :=
  if 0x30 ≤ c ∧ c ≤ 0x39 then some (c - 0x30)
  else if 0x41 ≤ c ∧ c ≤ 0x46 then some (c - 0x41 + 10)
  else if 0x61 ≤ c ∧ c ≤ 0x66 then some (c - 0x61 + 10)
  else none

/-- The byte of two hexadecimal digits. -/
def hexByte : CString → Option UInt8
  | high :: low :: _ => do
    let h ← hexValue high
    let l ← hexValue low
    some (16 * h + l)
  | _ => none

/-- For `fuel` bytes of the text. -/
def formDecode : Nat → CString → CString
  | fuel + 1, c :: rest =>
    if c = plus then blank :: formDecode fuel rest
    else if c = percent then
      match hexByte rest with
      | some byte => byte :: formDecode fuel (rest.drop 2)
      | none => percent :: formDecode fuel rest
    else c :: formDecode fuel rest
  | _, _ => []

def endsValue (c : UInt8) : Bool := c = ampersand ∨ c = numberSign

/-- The value of the parameter behind `searchBase`. -/
def queryValue (url : CString) : CString :=
  let value := (url.drop searchBase.length).takeWhile fun c => !endsValue c
  formDecode value.length value

/-! ## What comes back -/

/-- No byte of the text means something else in a form. -/
def Plain : CString → Prop
  | [] => True
  | c :: rest =>
    c ≠ plus ∧ endsValue c = false ∧ ¬ (c = percent ∧ (hexByte rest).isSome) ∧ Plain rest

/-- The value up to its end, as it stands in the url. -/
def valueOf (search : CString) : CString :=
  (search.map blankToPlus).takeWhile fun c => !endsValue c

theorem queryValue_cbSearch (search : CString) :
    queryValue (cbSearch search) = formDecode (valueOf search).length (valueOf search) := by
  have base : searchBase.map blankToPlus = searchBase := by decide
  have behind : (cbSearch search).drop searchBase.length = search.map blankToPlus := by
    rw [cbSearch, List.map_append, base, List.drop_left]
  rw [queryValue, behind]
  rfl

theorem formDecode_length_le (fuel : Nat) (value : CString) :
    (formDecode fuel value).length ≤ value.length := by
  induction fuel generalizing value with
  | zero => cases value <;> simp [formDecode]
  | succ fuel ih =>
    cases value with
    | nil => simp [formDecode]
    | cons c rest =>
      have whole := ih rest
      have behind := ih (rest.drop 2)
      rw [List.length_drop] at behind
      rw [formDecode]
      split_ifs
      · simpa using whole
      · cases hexByte rest with
        | none => simpa using whole
        | some byte =>
          simp only [List.length_cons]
          omega
      · simpa using whole

theorem hexValue_blankToPlus (c : UInt8) : hexValue (blankToPlus c) = hexValue c := by
  rw [blankToPlus]
  split_ifs with is
  · rw [is]
    decide
  · rfl

theorem hexValue_endsValue {c : UInt8} (digit : (hexValue c).isSome) : endsValue c = false := by
  by_contra ends
  simp only [endsValue, Bool.not_eq_false, decide_eq_true_eq] at ends
  rcases ends with rfl | rfl <;> exact absurd digit (by decide)

theorem endsValue_blankToPlus (c : UInt8) : endsValue (blankToPlus c) = endsValue c := by
  rw [blankToPlus]
  split_ifs with is
  · rw [is]
    decide
  · rfl

theorem valueOf_cons (c : UInt8) (rest : CString) :
    valueOf (c :: rest) = if endsValue c then [] else blankToPlus c :: valueOf rest := by
  simp only [valueOf, List.map_cons, List.takeWhile_cons, endsValue_blankToPlus]
  cases endsValue c <;> rfl

theorem hexByte_of_left {high : UInt8} (not : hexValue high = none) (rest : CString) :
    hexByte (high :: rest) = none := by
  cases rest with
  | nil => rfl
  | cons low rest => simp [hexByte, not]

theorem hexByte_of_right {low : UInt8} (not : hexValue low = none) (high : UInt8) (rest : CString) :
    hexByte (high :: low :: rest) = none := by
  simp [hexByte, not]

theorem hexValue_of_endsValue {c : UInt8} (ends : endsValue c = true) : hexValue c = none := by
  cases digit : hexValue c with
  | none => rfl
  | some value =>
    have goes_on := hexValue_endsValue (c := c) (by simp [digit])
    rw [ends] at goes_on
    contradiction

/-- Two digits stand in the url just where they are in the text. -/
theorem hexByte_valueOf (search : CString) : hexByte (valueOf search) = hexByte search := by
  cases search with
  | nil => rfl
  | cons high rest =>
    rw [valueOf_cons]
    cases ends : endsValue high with
    | true => exact (hexByte_of_left (hexValue_of_endsValue ends) rest).symm
    | false =>
      rw [if_neg Bool.false_ne_true]
      cases rest with
      | nil => rfl
      | cons low rest =>
        rw [valueOf_cons]
        cases ends' : endsValue low with
        | true =>
          rw [if_pos rfl, hexByte_of_right (hexValue_of_endsValue ends')]
          rfl
        | false =>
          rw [if_neg Bool.false_ne_true]
          simp only [hexByte, hexValue_blankToPlus]

theorem valueOf_length_le (search : CString) : (valueOf search).length ≤ search.length := by
  rw [valueOf]
  exact (List.takeWhile_prefix _).length_le.trans (List.length_map ..).le

theorem blankToPlus_ne_plus {c : UInt8} (not_blank : c ≠ blank) : blankToPlus c = c :=
  if_neg not_blank

/-- **Search.** The other side reads the text of the search field exactly if it has no plus sign,
no ampersand, no number sign and no percent sign with two hexadecimal digits behind it. -/
theorem queryValue_cbSearch_iff (search : CString) :
    queryValue (cbSearch search) = search ↔ Plain search := by
  rw [queryValue_cbSearch]
  induction search with
  | nil => exact ⟨fun _ => trivial, fun _ => rfl⟩
  | cons c rest ih =>
    rw [valueOf_cons, Plain]
    by_cases ends : endsValue c = true
    · -- the value ends here
      rw [if_pos ends]
      refine ⟨fun eq => ?_, fun plain => ?_⟩
      · exact absurd eq (by simp [formDecode])
      · exact absurd (plain.2.1.symm.trans ends) Bool.false_ne_true
    rw [if_neg ends, List.length_cons, formDecode]
    by_cases is_blank : c = blank
    · subst is_blank
      have is_plus : blankToPlus blank = plus := by decide
      have others : blank ≠ plus ∧ endsValue blank = false ∧ blank ≠ percent := by decide
      rw [is_plus, if_pos rfl, List.cons.injEq]
      simp only [ih, others, true_and, ne_eq, not_false_eq_true, false_and]
    rw [blankToPlus_ne_plus is_blank]
    by_cases is_plus : c = plus
    · rw [if_pos is_plus, List.cons.injEq]
      refine ⟨fun eq => absurd eq.1.symm is_blank, fun plain => absurd is_plus plain.1⟩
    rw [if_neg is_plus]
    by_cases is_percent : c = percent
    · rw [if_pos is_percent, hexByte_valueOf]
      cases digits : hexByte rest with
      | none =>
        simp only [is_percent, List.cons.injEq, true_and, ih]
        have others : percent ≠ plus ∧ endsValue percent = false := by decide
        simp [others]
      | some byte =>
        -- three bytes have become one
        refine ⟨fun eq => ?_, fun plain => ?_⟩
        · have shorter := congrArg List.length eq
          have decoded := formDecode_length_le (valueOf rest).length ((valueOf rest).drop 2)
          have value := valueOf_length_le rest
          have two : 2 ≤ rest.length := by
            cases rest with
            | nil => simp [hexByte] at digits
            | cons high rest =>
              cases rest with
              | nil => simp [hexByte] at digits
              | cons low rest => simp
          simp only [List.length_cons, List.length_drop] at shorter decoded
          omega
        · exact absurd ⟨is_percent, rfl⟩ plain.2.2.1
    · rw [if_neg is_percent, List.cons.injEq, ih]
      simp [is_plus, is_percent, ends]

/-- `C++` comes back with two blanks. -/
theorem plus_not_read_back :
    ¬ ∀ search : CString, 0 ∉ search → (cbSearch search).length < 1024 →
      queryValue (cbSearch search) = search := by
  intro round_trip
  exact absurd (round_trip (cString "C++") (by decide) (by decide)) (by decide)

end NetRider.Browser
