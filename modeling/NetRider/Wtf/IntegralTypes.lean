import NetRider.Lib.MachineInts
import NetRider.Wtf.Strings

/-!
# Numbers in strings

`toIntegralType`, for types of at least 32 bits. Arithmetic in a signed type wraps around.
-/

namespace NetRider.Wtf

open NetRider.Lib.MachineInts

def isCharacterAllowedInBase (c : UChar) (base : Nat) : Bool :=
  if c > 0x7F then false
  else if isASCIIDigit c then c.toNat - 0x30 < base
  else if isASCIIAlpha c then
    let base := if base > 36 then 36 else base
    (c ≥ 0x61 && c.toNat < 0x61 + base - 10) || (c ≥ 0x41 && c.toNat < 0x41 + base - 10)
  else false

def digitValue (c : UChar) : Nat :=
  if isASCIIDigit c then c.toNat - 0x30
  else if c ≥ 0x61 then c.toNat - 0x61 + 10
  else c.toNat - 0x41 + 10

variable (icu : Icu) (T : IntType) (base : Nat)

/-- `integralMax / base` -/
def maxMultiplier : Int := T.max / base

/-- The test for a digit that makes the value too large. -/
def passesLimit (isNegative : Bool) (value : Int) (digitValue : Nat) : Bool :=
  value > maxMultiplier T base ||
    (value == maxMultiplier T base && digitValue > T.max % base + isNegative.toNat)

/-- The digit loop of `toIntegralType`: the value and what follows the digits, unless the value
passes the limit. -/
def digitLoop (isNegative : Bool) : Int → List UChar → Option (Int × List UChar)
  | value, [] => some (value, [])
  | value, c :: data =>
    if isCharacterAllowedInBase c base then
      if passesLimit T base isNegative value (digitValue c) then none
      else digitLoop isNegative (T.wrap (base * value + digitValue c)).toInt data
    else some (value, c :: data)

/-- The part of `toIntegralType` behind the sign. -/
def unsignedPart (isNegative : Bool) (data : List UChar) : Option Int :=
  if (data.head?.map (isCharacterAllowedInBase · base)).getD false then
    match digitLoop T base isNegative 0 data with
    | some (value, rest) =>
      let value := if isNegative then (T.wrap (-value)).toInt else value
      if rest.dropWhile (isSpaceOrNewline icu) = [] then some value else none
    | none => none
  else none

/-- `toIntegralType`; `none` if it is not `ok`. -/
def toIntegralType (s : List UChar) : Option Int :=
  match s.dropWhile (isSpaceOrNewline icu) with
  | 0x2D :: data =>
    if T.signed then unsignedPart icu T base true data
    else unsignedPart icu T base false (0x2D :: data)
  | 0x2B :: data => unsignedPart icu T base false data
  | data => unsignedPart icu T base false data

def charactersToIntStrict (s : List UChar) : Option Int := toIntegralType icu ⟨true, .w32⟩ 10 s

def toInt64Strict (s : List UChar) : Option Int := toIntegralType icu ⟨true, .w64⟩ 10 s

def int64Max : Int := 2 ^ 63 - 1

def int64Min : Int := -2 ^ 63

/-! ## The range of a value -/

variable {icu T base}

theorem digitLoop_fits {isNegative : Bool} {value result : Int} {data rest : List UChar}
    (start : T.Fits value) (loops : digitLoop T base isNegative value data = some (result, rest)) :
    T.Fits result := by
  induction data generalizing value with
  | nil =>
    cases loops
    exact start
  | cons c data ih =>
    rw [digitLoop] at loops
    split_ifs at loops with allowed large
    · exact ih (T.wrap _).fits loops
    · cases loops
      exact start

theorem unsignedPart_fits {isNegative : Bool} {value : Int} {data : List UChar}
    (read : unsignedPart icu T base isNegative data = some value) : T.Fits value := by
  unfold unsignedPart at read
  split at read
  · cases loops : digitLoop T base isNegative 0 data with
    | none =>
      rw [loops] at read
      cases read
    | some result =>
      rw [loops] at read
      have fits := digitLoop_fits ⟨min_nonpos, max_pos.le⟩ loops
      cases isNegative with
      | true =>
        dsimp only at read
        split at read <;> cases read
        exact (T.wrap _).fits
      | false =>
        dsimp only at read
        split at read <;> cases read
        exact fits
  · cases read

theorem toIntegralType_fits {s : List UChar} {value : Int}
    (read : toIntegralType icu T base s = some value) : T.Fits value := by
  unfold toIntegralType at read
  split at read
  · split at read
    · exact unsignedPart_fits read
    · exact unsignedPart_fits read
  · exact unsignedPart_fits read
  · exact unsignedPart_fits read

theorem toInt64Strict_range {s : List UChar} {value : Int} (h : toInt64Strict icu s = some value) :
    int64Min ≤ value ∧ value ≤ int64Max :=
  toIntegralType_fits h

end NetRider.Wtf
