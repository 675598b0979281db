import NetRider.Blob.BlobResourceHandle
import NetRider.Wtf.IntegralReading

/-!
# Accepted range headers

With a dash right behind "bytes=" the header is accepted, whatever follows.
-/

namespace NetRider.Blob.RangeHeaders

open NetRider.Wtf NetRider.Lib.MachineInts IntegralReading

/-! ## White space around a number -/

variable {icu : Icu} {T : IntType} {base : Nat} {s digits range : List UChar} {isNegative : Bool}
  {v : Int} {parsed : ByteRange}

theorem exists_strip (icu : Icu) (s : List UChar) :
    ∃ before after, s = before ++ (stripWhiteSpace icu s ++ after) ∧
      (∀ c ∈ before, isSpaceOrNewline icu c = true) ∧
      ∀ c ∈ after, isSpaceOrNewline icu c = true := by
  refine ⟨s.takeWhile (isSpaceOrNewline icu),
    (s.dropWhile (isSpaceOrNewline icu)).rtakeWhile (isSpaceOrNewline icu), ?_,
    fun c => List.mem_takeWhile_imp, fun c => List.mem_rtakeWhile_imp⟩
  rw [stripWhiteSpace, List.rdropWhile_append_rtakeWhile, List.takeWhile_append_dropWhile]

theorem numeral_strip (small : base ≤ 36) :
    Numeral icu T base (stripWhiteSpace icu s) isNegative digits ↔
      Numeral icu T base s isNegative digits := by
  constructor
  · rintro ⟨before, sign, after, same, blank, isSign, isDigits, blank'⟩
    obtain ⟨front, back, split, blankFront, blankBack⟩ := exists_strip icu s
    refine ⟨front ++ before, sign, after ++ back, ?_, ?_, isSign, isDigits, ?_⟩
    · rw [split, same]
      simp only [List.append_assoc]
    · exact List.forall_mem_append.mpr ⟨blankFront, blank⟩
    · exact List.forall_mem_append.mpr ⟨blank', blankBack⟩
  · rintro ⟨before, sign, after, rfl, blank, isSign, ⟨nonempty, all⟩, blank'⟩
    have allowed := (allowed_iff small).mp all
    refine ⟨[], sign, [], ?_, by simp, isSign, ⟨nonempty, all⟩, by simp⟩
    rw [stripWhiteSpace, dropWhile_before (startsPlain_digits small nonempty allowed) blank isSign,
      List.rdropWhile, List.reverse_append, List.reverse_append, List.append_assoc,
      List.dropWhile_append_of_pos (by simpa using blank')]
    obtain ⟨front, c, rfl⟩ := (List.eq_nil_or_concat digits).resolve_left nonempty
    have plain := @digit_not_blank _ _ icu small (allowed c (by simp))
    rw [List.concat_eq_append, List.reverse_append, List.reverse_singleton, List.append_assoc,
      List.singleton_append, List.dropWhile_cons_of_neg (by simp [plain])]
    simp

/-! ## Ranges -/

/-- What is to be the case where `parseRange` returns true: the first position with the last one
or none, or the length that is written behind "bytes=-". -/
def WellFormed (icu : Icu) (range : List UChar) (parsed : ByteRange) : Prop :=
  0 ≤ parsed.rangeOffset ∧ (parsed.rangeEnd = -1 ∨ parsed.rangeOffset ≤ parsed.rangeEnd) ∧
      parsed.rangeSuffixLength = -1 ∨
    parsed.rangeOffset = -1 ∧ parsed.rangeEnd = -1 ∧ 0 ≤ parsed.rangeSuffixLength ∧
      Denotes icu ⟨true, .w64⟩ 10 (range.drop 7) parsed.rangeSuffixLength

/-- A dash is right behind "bytes=". -/
def IsSuffix (range : List UChar) : Prop := (range.drop 6).head? = some 0x2D

/-- A number that the type of the length holds is behind "bytes=-". -/
def NumberFollows (icu : Icu) (range : List UChar) : Prop :=
  ∃ v, Denotes icu ⟨true, .w64⟩ 10 (range.drop 7) v ∧ 0 ≤ v ∧ v ≤ int64Max

theorem denotes_strip (small : base ≤ 36) :
    Denotes icu T base (stripWhiteSpace icu s) v ↔ Denotes icu T base s v := by
  simp only [Denotes, numeral_strip small]

/-- The wrap past the minimum changes no number that is not negative. -/
theorem toInt64Strict_iff_of_nonneg (denotes : Denotes icu ⟨true, .w64⟩ 10 s v) (nonneg : 0 ≤ v)
    (fits : v ≤ int64Max) : toInt64Strict icu s = some v := by
  obtain ⟨isNegative, digits, numeral, same⟩ := denotes
  have exact : Exact icu ⟨true, .w64⟩ 10 s := by
    rw [toIntegralType_exact (by decide) (by decide)]
    rintro ⟨digits', numeral', slips⟩
    obtain ⟨rfl, rfl⟩ := numeral.unique (by decide) numeral'
    have positive : (0 : Int) < IntType.max ⟨true, .w64⟩ := max_pos
    simp only [signed, if_true] at same
    omega
  exact (exact v).mpr ⟨⟨isNegative, digits, numeral, same⟩, min_nonpos.trans nonneg, fits⟩

theorem findIdx_zero_iff : s.findIdx? (· == 0x2D) = some 0 ↔ s.head? = some 0x2D := by
  cases s with
  | nil => simp
  | cons c s => simp [List.findIdx?_cons]

/-- The suffix branch. -/
theorem parseRange_suffix (suffix : IsSuffix range) (accepted : parseRange icu range = some parsed) :
    parsed = { ByteRange.notSpecified with
      rangeSuffixLength := (toInt64Strict icu (stripWhiteSpace icu (range.drop 7))).getD (-1) } := by
  have dash := findIdx_zero_iff.mpr suffix
  unfold parseRange at accepted
  split at accepted
  · dsimp only at accepted
    rw [dash] at accepted
    simp only [if_true, zero_add, List.drop_drop] at accepted
    cases number : toInt64Strict icu (stripWhiteSpace icu (range.drop 7)) with
    | none =>
      erw [number] at accepted
      cases accepted
      rfl
    | some value =>
      erw [number] at accepted
      cases accepted
      rfl
  · cases accepted

/-- The branch of the first and last position. -/
theorem parseRange_positions (positions : ¬ IsSuffix range)
    (accepted : parseRange icu range = some parsed) :
    0 ≤ parsed.rangeOffset ∧ (parsed.rangeEnd = -1 ∨ parsed.rangeOffset ≤ parsed.rangeEnd) ∧
      parsed.rangeSuffixLength = -1 := by
  have dash := findIdx_zero_iff.not.mpr positions
  unfold parseRange at accepted
  split at accepted
  · dsimp only at accepted
    split at accepted
    · cases accepted
    · rename_i index found
      have behind : index ≠ 0 := by
        rintro rfl
        exact dash found
      rw [if_neg behind] at accepted
      split at accepted
      · cases accepted
      · split at accepted
        · cases accepted
        · split at accepted
          · cases accepted
          · rename_i checked
            cases accepted
            rw [not_or, not_not] at checked
            exact ⟨not_lt.mp checked.1, checked.2, rfl⟩
  · cases accepted

/-- **An accepted range is well formed just when no dash is right behind "bytes=" or a number
follows it.** -/
theorem parseRange_wellFormed_iff (accepted : parseRange icu range = some parsed) :
    WellFormed icu range parsed ↔ (IsSuffix range → NumberFollows icu range) := by
  by_cases suffix : IsSuffix range
  · rw [imp_iff_right suffix, parseRange_suffix suffix accepted]
    constructor
    · rintro (⟨offset, -⟩ | ⟨-, -, nonneg, denotes⟩)
      · cases offset
      · refine ⟨_, denotes, nonneg, ?_⟩
        dsimp only at nonneg ⊢
        cases number : toInt64Strict icu (stripWhiteSpace icu (range.drop 7)) with
        | none =>
          rw [number] at nonneg
          cases nonneg
        | some value => exact (toInt64Strict_range number).2
    · rintro ⟨v, denotes, nonneg, fits⟩
      have number := toInt64Strict_iff_of_nonneg ((denotes_strip (by decide)).mpr denotes) nonneg
        fits
      rw [number]
      exact .inr ⟨rfl, rfl, nonneg, denotes⟩
  · exact iff_of_true (.inl (parseRange_positions suffix accepted)) fun h => absurd h suffix

theorem parseRange_wellFormed_iff_500 :
    WellFormed Icu.forASCII (ascii "bytes=-500") ⟨-1, -1, 500⟩ ↔
      (IsSuffix (ascii "bytes=-500") → NumberFollows Icu.forASCII (ascii "bytes=-500")) :=
  parseRange_wellFormed_iff (by decide)

/-- Nothing behind the dash, and a negative number. -/
theorem suffix_without_length :
    ¬ (∀ range parsed, parseRange Icu.forASCII range = some parsed →
      WellFormed Icu.forASCII range parsed) ∧
    parseRange Icu.forASCII (ascii "bytes=-") = some .notSpecified ∧
    parseRange Icu.forASCII (ascii "bytes=--5") = some ⟨-1, -1, -5⟩ := by
  refine ⟨fun all => ?_, by decide, by decide⟩
  have wellFormed := all (ascii "bytes=--5") ⟨-1, -1, -5⟩ (by decide)
  rcases wellFormed with ⟨offset, -⟩ | ⟨-, -, nonneg, -⟩
  · revert offset
    decide
  · revert nonneg
    decide

end NetRider.Blob.RangeHeaders
