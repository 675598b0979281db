import NetRider.Gif.LZWContext

/-!
# The rows of a frame

Which rows `outputRow` fills when it is called for every row, in the order of the passes.
-/

namespace NetRider.Gif

open Progress

variable {frame : GIFFrameContext} {height ipass irow row : Nat}

/-! ## Every so many rows -/

/-- The rows below `height` from `start` on, `step` apart. -/
def every (height start step : Nat) : List Nat :=
  List.range' start ((height - start + (step - 1)) / step) step

theorem every_cons {start step : Nat} (positive : 0 < step) (inside : start < height) :
    every height start step = start :: every height (start + step) step := by
  have count : (height - start + (step - 1)) / step =
      (height - (start + step) + (step - 1)) / step + 1 := by
    by_cases last : height ≤ start + step
    · have none : (height - (start + step) + (step - 1)) / step = 0 :=
        Nat.div_eq_of_lt (by omega)
      rw [none, Nat.div_eq_of_lt_le] <;> omega
    · rw [← Nat.add_div_right _ positive]
      congr 1
      omega
  rw [every, count, List.range'_succ, every]

theorem every_nil {start step : Nat} (positive : 0 < step) (past : height ≤ start) :
    every height start step = [] := by
  rw [every, Nat.div_eq_of_lt (by omega), List.range'_zero]

theorem mem_every {start step : Nat} (positive : 0 < step) :
    row ∈ every height start step ↔ row < height ∧ ∃ n, row = start + step * n := by
  rw [every, List.mem_range']
  constructor
  · rintro ⟨n, few, rfl⟩
    have bound := (Nat.lt_div_iff_mul_lt positive).mp few
    exact ⟨by rw [Nat.mul_comm] at bound; omega, n, rfl⟩
  · rintro ⟨inside, n, rfl⟩
    refine ⟨n, (Nat.lt_div_iff_mul_lt positive).mpr ?_, rfl⟩
    rw [Nat.mul_comm]
    omega

theorem nodup_every {start step : Nat} (positive : 0 < step) :
    (every height start step).Nodup := List.nodup_range' step positive

/-! ## The order of the rows -/

/-- The first row of a pass and the distance of its rows. -/
def passStart : Nat → Nat
  | 2 => 4
  | 3 => 2
  | 4 => 1
  | _ => 0

def passStep : Nat → Nat
  | 1 => 8
  | 2 => 8
  | 3 => 4
  | _ => 2

/-- The rows of a pass. -/
def passRows (height pass : Nat) : List Nat := every height (passStart pass) (passStep pass)

/-- The rows in the order in which they come. -/
def rowOrder (frame : GIFFrameContext) : List Nat :=
  if frame.interlaced then
    passRows frame.height 1 ++ passRows frame.height 2 ++ passRows frame.height 3 ++
      passRows frame.height 4
  else List.range frame.height

theorem passStep_pos (pass : Nat) : 0 < passStep pass := by
  unfold passStep
  split <;> decide

/-- The pass of a row. -/
def passOf (row : Nat) : Nat :=
  if row % 8 = 0 then 1 else if row % 8 = 4 then 2 else if row % 4 = 2 then 3 else 4

theorem mem_passRows (pass : Nat) (among : 1 ≤ pass ∧ pass ≤ 4) :
    row ∈ passRows height pass ↔ row < height ∧ passOf row = pass := by
  rw [passRows, mem_every (passStep_pos pass)]
  refine and_congr_right fun _ => ?_
  obtain ⟨least, most⟩ := among
  unfold passOf
  constructor
  · rintro ⟨n, rfl⟩
    interval_cases pass <;> simp only [passStart, passStep] <;> split_ifs <;> omega
  · intro same
    interval_cases pass <;> simp only [passStart, passStep]
    · exact ⟨row / 8, by split_ifs at same <;> omega⟩
    · exact ⟨row / 8, by split_ifs at same <;> omega⟩
    · exact ⟨row / 4, by split_ifs at same <;> omega⟩
    · exact ⟨row / 2, by split_ifs at same <;> omega⟩

/-- Every row comes once. -/
theorem rowOrder_perm (frame : GIFFrameContext) :
    (rowOrder frame).Perm (List.range frame.height) := by
  unfold rowOrder
  split
  case isFalse => exact List.Perm.refl _
  case isTrue =>
    have one (pass : Nat) (among : 1 ≤ pass ∧ pass ≤ 4) {row : Nat} :=
      @mem_passRows frame.height row pass among
    rw [List.perm_ext_iff_of_nodup _ List.nodup_range]
    · intro row
      have cases : passOf row = 1 ∨ passOf row = 2 ∨ passOf row = 3 ∨ passOf row = 4 := by
        unfold passOf
        split_ifs <;> omega
      simp only [List.mem_append, one 1 (by decide), one 2 (by decide), one 3 (by decide),
        one 4 (by decide), List.mem_range]
      omega
    · have nodup (pass : Nat) : (passRows frame.height pass).Nodup :=
        nodup_every (passStep_pos pass)
      refine List.Nodup.append (List.Nodup.append (List.Nodup.append (nodup 1) (nodup 2) ?_)
        (nodup 3) ?_) (nodup 4) ?_ <;> intro row first second <;>
        simp only [List.mem_append, one 1 (by decide), one 2 (by decide), one 3 (by decide),
          one 4 (by decide)] at first second <;> omega

/-! ## The rows that are filled -/

theorem toInt_eq {n : Int} (least : -2147483648 ≤ n) (most : n < 2147483648) : toInt n = n := by
  rw [toInt, Int.bmod_def]
  split <;> omega

theorem toInt_toUnsigned {n : Int} (least : -2147483648 ≤ n) (most : n < 2147483648) :
    toInt (toUnsigned n) = n := by
  rw [toInt, toUnsigned, Int.bmod_def]
  split <;> omega

theorem toUnsigned_eq {n : Int} (nonneg : 0 ≤ n) (most : n < 4294967296) : toUnsigned n = n := by
  rw [toUnsigned]
  omega

theorem rowDupShift_bounds (pass : Nat) : 0 ≤ (rowDupShift pass).2 ∧
    (rowDupShift pass).2 ≤ (rowDupShift pass).1 ∧ (rowDupShift pass).1 ≤ 7 := by
  unfold rowDupShift
  split <;> decide

/-- Without replication only the row itself is filled. -/
theorem drows_single (plain : (frame.progressiveDisplay && frame.interlaced && ipass < 4) = false)
    (inside : irow < frame.height) (small : frame.height ≤ 2147483648) :
    drows frame ipass irow = (↑irow, ↑irow) := by
  have same : toInt irow = irow := toInt_eq (by omega) (by omega)
  simp only [drows, plain, same, Bool.false_eq_true, if_false]

/-- The rows that are filled hold the row, are rows of the frame and reach no further than the
shift upward and the replication downward. -/
theorem drows_bounds (inside : irow < frame.height) (small : frame.height ≤ 2147483648) :
    0 ≤ (drows frame ipass irow).1 ∧ (drows frame ipass irow).1 ≤ irow ∧
      (irow : Int) ≤ (drows frame ipass irow).2 ∧
      (drows frame ipass irow).2 < frame.height ∧
      irow - (rowDupShift ipass).2 ≤ (drows frame ipass irow).1 ∧
      (drows frame ipass irow).2 ≤ irow + (rowDupShift ipass).1 := by
  obtain ⟨shiftNonneg, shiftLe, dupLe⟩ := rowDupShift_bounds ipass
  cases replicated : frame.progressiveDisplay && frame.interlaced && decide (ipass < 4) with
  | false =>
    rw [drows_single replicated inside small]
    dsimp only
    omega
  | true =>
    have same : toInt irow = irow := toInt_eq (by omega) (by omega)
    have start : toInt (toUnsigned (irow - (rowDupShift ipass).2)) = irow - (rowDupShift ipass).2 :=
      toInt_toUnsigned (by omega) (by omega)
    have last : toInt ((frame.height : Int) - 1) = frame.height - 1 :=
      toInt_eq (by omega) (by omega)
    unfold drows
    simp only [replicated, same, start, last, if_true]
    generalize (rowDupShift ipass).1 = dup at *
    generalize (rowDupShift ipass).2 = shift at *
    by_cases fits : (irow : Int) - shift + dup < frame.height
    · -- the replicated rows are rows of the frame, and may be extended to the bottom edge
      have drowEnd : toInt (toUnsigned (irow - shift + dup)) = irow - shift + dup :=
        toInt_toUnsigned (by omega) (by omega)
      have below : toUnsigned ((frame.height : Int) - 1 - (irow - shift + dup)) =
        frame.height - 1 - (irow - shift + dup) := toUnsigned_eq (by omega) (by omega)
      rw [drowEnd, below]
      split
      case isTrue =>
        rw [toUnsigned_eq (by omega) (by omega), if_neg (by omega)]
        split <;> omega
      case isFalse =>
        rw [toUnsigned_eq (by omega) (by omega), if_neg (by omega)]
        split <;> omega
    · -- they reach past the bottom edge, where the unsigned difference is large
      have wrapped : toUnsigned (toInt (toUnsigned (irow - shift + dup))) = irow - shift + dup := by
        rw [toInt, toUnsigned, toUnsigned, Int.bmod_def]
        split <;> omega
      have below : ¬ toUnsigned ((frame.height : Int) - 1 -
          toInt (toUnsigned (irow - shift + dup))) ≤ shift := by
        rw [toInt, toUnsigned, toUnsigned, Int.bmod_def]
        split <;> omega
      have past : (irow : Int) - shift + dup ≥ frame.height := by omega
      simp only [if_neg below, wrapped, if_pos past]
      split <;> omega

/-- Where rows are replicated, the others that are filled belong to later passes. -/
theorem drows_later (inside : irow < frame.height) (small : frame.height ≤ 2147483648)
    (pass : frame.interlaced → passOf irow = ipass) (other : row ≠ irow)
    (first : (drows frame ipass irow).1 ≤ row) (last : (row : Int) ≤ (drows frame ipass irow).2) :
    frame.interlaced ∧ passOf irow < passOf row := by
  cases replicated : frame.progressiveDisplay && frame.interlaced && decide (ipass < 4) with
  | false =>
    rw [drows_single replicated inside small] at first last
    dsimp only at first last
    omega
  | true =>
    simp only [Bool.and_eq_true, decide_eq_true_eq] at replicated
    obtain ⟨⟨-, interlaced⟩, early⟩ := replicated
    refine ⟨interlaced, ?_⟩
    obtain ⟨-, -, -, -, least, most⟩ := @drows_bounds frame ipass irow inside small
    have same := pass interlaced
    have among : ipass = 1 ∨ ipass = 2 ∨ ipass = 3 := by
      unfold passOf at same
      split_ifs at same <;> omega
    unfold passOf at same ⊢
    obtain rfl | rfl | rfl := among <;> simp only [rowDupShift] at least most <;>
      split_ifs at same ⊢ <;> omega

/-! ## The next row -/

/-- The rows of the passes behind a pass. -/
def laterRows (height pass : Nat) : List Nat :=
  ((List.range' (pass + 1) (4 - pass)).map (passRows height)).flatten

/-- The rows from a row of a pass on. -/
def rowsFrom (height pass irow : Nat) : List Nat :=
  every height irow (passStep pass) ++ laterRows height pass

theorem laterRows_succ {pass : Nat} (earlier : pass < 4) :
    laterRows height pass = passRows height (pass + 1) ++ laterRows height (pass + 1) := by
  have count : 4 - pass = 4 - (pass + 1) + 1 := by omega
  rw [laterRows, count, List.range'_succ, List.map_cons, List.flatten_cons, laterRows]

theorem rowsFrom_first (frame : GIFFrameContext) (interlaced : frame.interlaced) :
    rowsFrom frame.height 1 0 = rowOrder frame := by
  rw [rowOrder, if_pos interlaced, rowsFrom, laterRows_succ (by decide),
    laterRows_succ (by decide), laterRows_succ (by decide)]
  simp [laterRows, passRows, passStart]

theorem nextInPass_eq {pass : Nat} (among : 1 ≤ pass ∧ pass ≤ 4) :
    nextInPass height pass irow =
      if irow + passStep pass ≥ height then (pass + 1, passStart (pass + 1))
      else (pass, irow + passStep pass) := by
  obtain ⟨least, most⟩ := among
  interval_cases pass <;> rfl

theorem passOf_among (row : Nat) : 1 ≤ passOf row ∧ passOf row ≤ 4 := by
  unfold passOf
  split_ifs <;> omega

theorem passOf_start {pass : Nat} (among : 1 ≤ pass ∧ pass ≤ 4) : passOf (passStart pass) = pass := by
  obtain ⟨least, most⟩ := among
  interval_cases pass <;> rfl

theorem passOf_step (row : Nat) : passOf (row + passStep (passOf row)) = passOf row := by
  obtain ⟨least, most⟩ := passOf_among row
  generalize same : passOf row = pass at *
  unfold passOf at same ⊢
  interval_cases pass <;> simp only [passStep] <;> split_ifs at same ⊢ <;> omega

/-- The loop ends at the next row of the order, or behind the last pass. -/
theorem nextRow_spec (positive : 0 < height) :
    ∀ {turns irow : Nat}, 5 ≤ turns + passOf irow →
      ∃ next, nextRow height turns (passOf irow) irow = goesOn next ∧ next.2 < height ∧
        (next = (5, 0) ∧ rowsFrom height (passOf irow) (irow + passStep (passOf irow)) = [] ∨
          passOf next.2 = next.1 ∧
            rowsFrom height (passOf irow) (irow + passStep (passOf irow)) =
              rowsFrom height next.1 next.2) := by
  intro turns
  induction turns with
  | zero =>
    intro irow enough
    have among := passOf_among irow
    omega
  | succ turns ih =>
    intro irow enough
    have among := passOf_among irow
    have step := passOf_step irow
    have stepPos := passStep_pos (passOf irow)
    rw [nextRow, nextInPass_eq among]
    generalize passOf irow = pass at *
    by_cases past : irow + passStep pass ≥ height
    · rw [if_pos past]
      have none : every height (irow + passStep pass) (passStep pass) = [] := every_nil stepPos past
      by_cases earlier : pass < 4
      · have next : passOf (passStart (pass + 1)) = pass + 1 := passOf_start (by omega)
        have rows : rowsFrom height pass (irow + passStep pass) =
            rowsFrom height (pass + 1) (passStart (pass + 1)) := by
          rw [rowsFrom, none, List.nil_append, laterRows_succ earlier, rowsFrom, passRows]
        rw [rows]
        dsimp only
        split
        case isFalse inside => exact ⟨_, rfl, by dsimp only; omega, .inr ⟨next, rfl⟩⟩
        case isTrue outside =>
          -- the next pass has no row: nothing changes when its first one is left out
          have further := @ih (passStart (pass + 1)) (by omega)
          rw [next] at further
          have empty : rowsFrom height (pass + 1) (passStart (pass + 1)) =
              rowsFrom height (pass + 1) (passStart (pass + 1) + passStep (pass + 1)) := by
            have nextPos := passStep_pos (pass + 1)
            rw [rowsFrom, rowsFrom, every_nil nextPos (by omega), every_nil nextPos (by omega)]
          rw [empty]
          exact further
      · have last : pass = 4 := by omega
        subst last
        refine ⟨(5, 0), ?_, positive, .inl ⟨rfl, ?_⟩⟩
        · simp [passStart]
        · rw [rowsFrom, none]
          rfl
    · rw [if_neg past]
      dsimp only
      rw [if_neg (by omega)]
      exact ⟨_, rfl, by dsimp only; omega, .inr ⟨step, rfl⟩⟩

end NetRider.Gif
