import NetRider.Wtf.MediaTimeSums

/-!
# One scale for another

When `setTimeScale` succeeds. It makes the scale smaller until the whole seconds fit, and adds the
rest of a second behind this test.
-/

namespace NetRider.Wtf

/-- The loop halves the scale as often as the whole part does not fit. -/
theorem settle_halvings {wholePart : Int} (fits : InInt64 wholePart) {timeScale : Int}
    (positive : 0 < timeScale) :
    ∃ halvings : Nat, (settle wholePart timeScale).1 = timeScale / 2 ^ halvings ∧
      InInt64 (wholePart * (timeScale / 2 ^ halvings)) ∧
      ∀ fewer < halvings, ¬ InInt64 (wholePart * (timeScale / 2 ^ fewer)) := by
  fun_induction settle wholePart timeScale with
  | case1 timeScale newWholePart product =>
    rw [safeMultiply_eq (by decide) (by decide) positive.le] at product
    split_ifs at product with inside
    refine ⟨0, by simp, by rwa [pow_zero, Int.ediv_one], ?_⟩
    intro fewer impossible
    omega
  | case2 timeScale product ih =>
    rw [safeMultiply_eq (by decide) (by decide) positive.le] at product
    split_ifs at product with outside
    have several : timeScale ≠ 1 := by
      rintro rfl
      rw [mul_one] at outside
      exact outside fits
    obtain ⟨halvings, scale, inside, before⟩ := ih (half_pos positive several)
    have further (count : Nat) : timeScale.tdiv 2 / 2 ^ count = timeScale / 2 ^ (count + 1) := by
      rw [Int.tdiv_eq_ediv_of_nonneg positive.le, Int.ediv_ediv_of_nonneg (by decide), pow_succ,
        mul_comm]
    rw [further] at scale inside
    refine ⟨halvings + 1, scale, inside, ?_⟩
    intro fewer less
    cases fewer with
    | zero => rwa [pow_zero, Int.ediv_one]
    | succ fewer =>
      rw [← further]
      exact before fewer (by omega)

namespace MediaTime

variable {t : MediaTime} {timeScale : Int}

/-- The scale is set without an overflow to one of at least 1, and the value is rounded toward
zero by less than one unit. -/
def Rescales (t : MediaTime) (timeScale : Int) : Prop :=
  ∃ rescaled, t.setTimeScale timeScale = some rescaled ∧ 1 ≤ rescaled.timeScale ∧
    |rescaled.ratio - t.ratio| < 1 / rescaled.timeScale ∧
    (0 ≤ rescaled.ratio ∧ rescaled.ratio ≤ t.ratio ∨
      t.ratio ≤ rescaled.ratio ∧ rescaled.ratio ≤ 0)

/-- On every halving of the scale on which the whole seconds fit, the whole value fits. -/
def RestFits (t : MediaTime) (timeScale : Int) : Prop :=
  ∀ halvings : Nat, InInt64 (t.timeValue.tdiv t.timeScale * (timeScale / 2 ^ halvings)) →
    InInt64 ((t.timeValue * (timeScale / 2 ^ halvings)).tdiv t.timeScale)

/-- On a smaller scale the value is nearer to zero. -/
theorem tdiv_between {v s c c' : Int} (positive : 0 < s) (nonneg : 0 ≤ c') (smaller : c' ≤ c) :
    0 ≤ (v * c').tdiv s ∧ (v * c').tdiv s ≤ (v * c).tdiv s ∨
      (v * c).tdiv s ≤ (v * c').tdiv s ∧ (v * c').tdiv s ≤ 0 := by
  have upward (v : Int) (sign : 0 ≤ v) :
      0 ≤ (v * c').tdiv s ∧ (v * c').tdiv s ≤ (v * c).tdiv s := by
    have least : 0 ≤ v * c' := mul_nonneg sign nonneg
    have most : v * c' ≤ v * c := mul_le_mul_of_nonneg_left smaller sign
    rw [Int.tdiv_eq_ediv_of_nonneg least, Int.tdiv_eq_ediv_of_nonneg (least.trans most)]
    exact ⟨Int.ediv_nonneg least positive.le, Int.ediv_le_ediv positive most⟩
  rcases le_total 0 v with sign | sign
  · exact .inl (upward v sign)
  · have mirrored := upward (-v) (neg_nonneg.mpr sign)
    simp only [neg_mul, Int.neg_tdiv] at mirrored
    exact .inr ⟨by omega, by omega⟩

/-- The rest fits on all halvings if it does on the scale on which the loop settles. -/
theorem restFits_iff (positive : 0 < t.timeScale) (target : 0 < timeScale) :
    t.RestFits timeScale ↔ InInt64 (t.rescaledValue timeScale) := by
  obtain ⟨settled, scale, inside, before⟩ := settle_halvings (wholeFits positive) target
  constructor
  · intro rest
    rw [rescaledValue, settledScale, scale]
    exact rest settled inside
  · intro fits halvings whole
    have later : settled ≤ halvings := by
      by_contra earlier
      exact before halvings (by omega) whole
    rw [rescaledValue, settledScale, scale] at fits
    refine between_fits fits (tdiv_between positive (by positivity) ?_)
    obtain ⟨more, rfl⟩ := Nat.exists_eq_add_of_le later
    rw [pow_add, ← Int.ediv_ediv_of_nonneg (by positivity)]
    exact Int.ediv_le_self _ (by positivity)

/-- The value on the new scale lies between zero and the exact one. -/
theorem rescaled_toward_zero (positive : 0 < t.timeScale) (target : 0 < timeScale)
    {rescaled : MediaTime} (value : rescaled.timeValue = t.rescaledValue timeScale)
    (scale : rescaled.timeScale = t.settledScale timeScale) :
    0 ≤ rescaled.ratio ∧ rescaled.ratio ≤ t.ratio ∨
      t.ratio ≤ rescaled.ratio ∧ rescaled.ratio ≤ 0 := by
  have above : (0 : ℚ) < t.timeScale := by exact_mod_cast positive
  have settled : (0 : ℚ) < t.settledScale timeScale := by
    exact_mod_cast settledScale_pos positive target
  unfold ratio
  rw [value, scale, div_le_div_iff₀ settled above, div_le_div_iff₀ above settled]
  have cut := whole_between positive (t.timeValue * t.settledScale timeScale)
  rw [← rescaledValue] at cut
  obtain ⟨least, most⟩ | ⟨least, most⟩ := cut
  · left
    refine ⟨div_nonneg ?_ settled.le, by exact_mod_cast most⟩
    exact_mod_cast nonneg_of_mul_nonneg_left least positive
  · right
    refine ⟨by exact_mod_cast least, div_nonpos_of_nonpos_of_nonneg ?_ settled.le⟩
    exact_mod_cast nonpos_of_mul_nonpos_left most positive

/-- **When the scale is set**: exactly when the rest of a second fits, too. -/
theorem rescales_iff (t : MediaTime) (timeScale : Int) (positive : 0 < t.timeScale)
    (requested : 0 < timeScale ∧ InInt32 timeScale) :
    t.Rescales timeScale ↔ t.RestFits timeScale := by
  obtain ⟨target, -, most⟩ := requested
  have small : timeScale ≤ maximumTimeScale := most
  rw [restFits_iff positive target, Rescales, setTimeScale_eq positive target small]
  constructor
  · rintro ⟨rescaled, set, -⟩
    unfold assign at set
    split_ifs at set with fits
    exact fits.1
  · intro fits
    have scale := settledScale_fits positive target small
    have settled := settledScale_pos positive target
    have above : (0 : ℚ) < t.settledScale timeScale := by exact_mod_cast settled
    refine ⟨_, assign_eq fits scale t, settled, ?_, rescaled_toward_zero positive target rfl rfl⟩
    have error := rescaledValue_error positive timeScale
    dsimp only [ratio]
    have apart : (t.rescaledValue timeScale : ℚ) / t.settledScale timeScale -
        t.timeValue / t.timeScale =
        (t.rescaledValue timeScale - t.ratio * t.settledScale timeScale) /
          t.settledScale timeScale := by
      rw [sub_div, mul_div_assoc, div_self above.ne', mul_one, ratio]
    rw [apart, abs_div, abs_of_pos above, div_lt_div_iff_of_pos_right above]
    exact error

/-- 1317624576693539401 seconds are the most that fit on scale 7. -/
def longTime : MediaTime := ⟨7905747460161236411, 6, 1, by decide, by decide⟩

theorem rescales_iff_half : (⟨3, 2, 1, by decide, by decide⟩ : MediaTime).Rescales 1 ↔
    (⟨3, 2, 1, by decide, by decide⟩ : MediaTime).RestFits 1 :=
  rescales_iff ⟨3, 2, 1, by decide, by decide⟩ 1 (by decide) (by decide)

theorem longTime_overflows : ¬ longTime.Rescales 7 := by
  rintro ⟨rescaled, set, -⟩
  rw [setTimeScale_eq (by decide) (by decide) (by decide)] at set
  have settled : longTime.settledScale 7 = 7 := by
    rw [settledScale, settle_of_fits (by decide) (by decide)]
  rw [assign, rescaledValue, settled, dif_neg (by decide)] at set
  exact Option.some_ne_none _ set.symm

end MediaTime

end NetRider.Wtf
