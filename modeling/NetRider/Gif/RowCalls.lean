import NetRider.Gif.OutputRow

/-!
# A frame handed out row by row

The calls of `outputRow` for the rows of a frame, when the client takes every row.
-/

namespace NetRider.Gif

open Progress

/-! ## One call -/

/-- A call: the row at which the decoder stood, and what it reported. -/
structure RowCall where
  irow : Nat
  reports : List Report

/-- The calls for successive rows, with the content of each. -/
def successiveCalls (frame : GIFFrameContext) (client : Client) :
    List (Nat → UInt8) → GIFLZWContext → Progress (List RowCall)
  | [], _ => goesOn []
  | content :: contents, c => do
    let (_, after) ← outputRow frame client { c with rowBuffer := content }
    let calls ← successiveCalls frame client contents after
    goesOn ({ irow := c.irow, reports := after.reports.drop c.reports.length } :: calls)

def Report.covers (report : Report) (row : Nat) : Bool :=
  report.rowNumber ≤ row ∧ row < report.rowNumber + report.repeatCount

def RowCall.covers (call : RowCall) (row : Nat) : Bool := call.reports.any (·.covers row)

/-- The last call whose range covers a row. -/
def lastCovering (calls : List RowCall) (row : Nat) : Option RowCall :=
  calls.reverse.find? (·.covers row)

/-- The range of a call is inside the frame and holds the row of the call. -/
def RowCall.InFrame (frame : GIFFrameContext) (call : RowCall) : Prop :=
  ∃ report, call.reports = [report] ∧ 0 ≤ report.rowNumber ∧ report.rowNumber ≤ call.irow ∧
    call.irow < report.rowNumber + report.repeatCount ∧
    report.rowNumber + report.repeatCount ≤ frame.height

variable {frame : GIFFrameContext} {client : Client}

/-- The decoder stands where the rows are the next ones. -/
def Expects (frame : GIFFrameContext) (c : GIFLZWContext) : List Nat → Prop
  | [] => True
  | row :: rows => c.irow = row ∧ row < frame.height ∧
    if frame.interlaced then passOf row = c.ipass ∧ row :: rows = rowsFrom frame.height c.ipass row
    else row :: rows = List.range' row (frame.height - row)

/-- What a call covers besides its row comes in a later pass. -/
def RowCall.Spares (frame : GIFFrameContext) (call : RowCall) : Prop :=
  ∀ row, call.covers row → row = call.irow ∨ frame.interlaced ∧ passOf call.irow < passOf row

theorem outputRow_call (small : frame.height ≤ 2147483648)
    (accepts : ∀ before report, client before report = true) {c : GIFLZWContext} {row : Nat}
    {rows : List Nat} (expects : Expects frame c (row :: rows)) :
    ∃ after report, outputRow frame client c = goesOn (true, after) ∧
      after.reports = c.reports ++ [report] ∧ Expects frame after rows ∧
      RowCall.InFrame frame ⟨row, [report]⟩ ∧ RowCall.Spares frame ⟨row, [report]⟩ := by
  obtain ⟨rfl, inside, position⟩ := expects
  have bounds := @drows_bounds frame c.ipass c.irow inside small
  have later := @drows_later frame c.ipass c.irow
  generalize filled : drows frame c.ipass c.irow = range at bounds later
  obtain ⟨drowStart, drowEnd⟩ := range
  obtain ⟨nonneg, start, last, below, -⟩ := bounds
  dsimp only at nonneg start last below
  have started : ¬ toUnsigned drowStart ≥ frame.height := by
    rw [toUnsigned_eq nonneg (by omega)]
    omega
  let report : Report :=
    { rowBuffer := (List.range frame.width).map c.rowBuffer
      rowNumber := drowStart
      repeatCount := drowEnd - drowStart + 1
      writeTransparentPixels := frame.progressiveDisplay && frame.interlaced && c.ipass > 1 }
  have inFrame : RowCall.InFrame frame ⟨c.irow, [report]⟩ :=
    ⟨report, rfl, nonneg, start, by dsimp only [report]; omega, by dsimp only [report]; omega⟩
  have spares : (frame.interlaced → passOf c.irow = c.ipass) →
      RowCall.Spares frame ⟨c.irow, [report]⟩ := by
    intro pass row covered
    by_cases same : row = c.irow
    · exact .inl same
    · right
      simp only [RowCall.covers, Report.covers, report, List.any_cons, List.any_nil, Bool.or_false,
        decide_eq_true_eq] at covered
      exact later inside small pass same covered.1 (by omega)
  cases interlaced : frame.interlaced with
  | false =>
    simp only [interlaced, Bool.false_eq_true, if_false] at position
    refine ⟨{ c with reports := c.reports ++ [report], irow := c.irow + 1 }, report, ?_, rfl, ?_,
      inFrame, spares (by simp [interlaced])⟩
    · simp only [outputRow, filled, if_neg started, accepts, interlaced]
      simp [report, interlaced]
    · have count : frame.height - c.irow = frame.height - (c.irow + 1) + 1 := by omega
      rw [count, List.range'_succ, List.cons.injEq] at position
      cases rows with
      | nil => trivial
      | cons next rows =>
        have more : frame.height - (c.irow + 1) = frame.height - (c.irow + 1) - 1 + 1 := by
          have length := congrArg List.length position.2
          simp only [List.length_cons, List.length_range'] at length
          omega
        have rest := position.2
        rw [more, List.range'_succ, List.cons.injEq] at rest
        obtain ⟨rfl, rest⟩ := rest
        refine ⟨rfl, by omega, ?_⟩
        rw [interlaced, if_neg Bool.false_ne_true]
        exact position.2
  | true =>
    simp only [interlaced, if_true] at position
    obtain ⟨pass, position⟩ := position
    have positive : 0 < frame.height := by omega
    have among := passOf_among c.irow
    obtain ⟨next, found, nextInside, ending⟩ :=
      @nextRow_spec frame.height positive 5 c.irow (by omega)
    rw [pass] at found ending
    refine ⟨{ c with reports := c.reports ++ [report], ipass := next.1, irow := next.2 }, report,
      ?_, rfl, ?_, inFrame, spares fun _ => pass⟩
    · simp only [outputRow, filled, if_neg started, accepts, interlaced]
      simp [report, interlaced, found]
    · rw [rowsFrom, every_cons (passStep_pos c.ipass) inside, List.cons_append, List.cons.injEq]
        at position
      obtain ⟨-, position⟩ := position
      obtain ⟨-, done⟩ | ⟨nextPass, more⟩ := ending
      · rw [rowsFrom, ← position] at done
        rw [done]
        trivial
      · rw [rowsFrom, ← position] at more
        cases rows with
        | nil => trivial
        | cons first rows =>
          rw [rowsFrom, every_cons (passStep_pos next.1) nextInside, List.cons_append,
            List.cons.injEq] at more
          obtain ⟨rfl, more⟩ := more
          refine ⟨rfl, nextInside, ?_⟩
          rw [interlaced, if_pos rfl]
          refine ⟨nextPass, ?_⟩
          rw [rowsFrom, every_cons (passStep_pos next.1) nextInside, List.cons_append, more]

/-! ## The calls of a frame -/

theorem successiveCalls_spec (small : frame.height ≤ 2147483648)
    (accepts : ∀ before report, client before report = true) :
    ∀ {contents : List (Nat → UInt8)} {c : GIFLZWContext} {rows : List Nat},
      contents.length = rows.length → Expects frame c rows →
      ∃ calls, successiveCalls frame client contents c = goesOn calls ∧
        calls.map RowCall.irow = rows ∧
        ∀ call ∈ calls, RowCall.InFrame frame call ∧ RowCall.Spares frame call := by
  intro contents
  induction contents with
  | nil =>
    intro c rows same _
    have none := List.eq_nil_of_length_eq_zero same.symm
    subst none
    exact ⟨[], rfl, rfl, by simp⟩
  | cons content contents ih =>
    intro c rows same expects
    cases rows with
    | nil => simp at same
    | cons row rows =>
      have standing : Expects frame { c with rowBuffer := content } (row :: rows) := expects
      obtain ⟨after, report, call, reported, further, inFrame, spares⟩ :=
        outputRow_call small accepts standing
      obtain ⟨calls, run, order, each⟩ := ih (by simpa using same) further
      have irow : c.irow = row := expects.1
      refine ⟨⟨row, [report]⟩ :: calls, ?_, by rw [List.map_cons, order], ?_⟩
      · rw [successiveCalls, call]
        simp only [pure_bind, run, reported, List.drop_left, irow]
      · intro other among
        obtain rfl | among := List.mem_cons.mp among
        · exact ⟨inFrame, spares⟩
        · exact each other among

/-- The rows come pass by pass. -/
theorem rowOrder_sorted (interlaced : frame.interlaced) :
    (rowOrder frame).Pairwise fun earlier later => passOf earlier ≤ passOf later := by
  have pass {pass row : Nat} (among : 1 ≤ pass ∧ pass ≤ 4)
      (member : row ∈ passRows frame.height pass) : passOf row = pass :=
    ((mem_passRows pass among).mp member).2
  have within (number : Nat) (among : 1 ≤ number ∧ number ≤ 4) :
      (passRows frame.height number).Pairwise fun earlier later => passOf earlier ≤ passOf later := by
    rw [List.pairwise_iff_forall_sublist]
    intro a b sub
    have first := pass among (sub.subset (List.mem_cons_self ..))
    have second := pass among (sub.subset (List.mem_cons_of_mem _ (List.mem_cons_self ..)))
    omega
  rw [rowOrder, if_pos interlaced]
  have one (row : Nat) := @pass 1 row (by decide)
  have two (row : Nat) := @pass 2 row (by decide)
  have three (row : Nat) := @pass 3 row (by decide)
  have four (row : Nat) := @pass 4 row (by decide)
  refine List.pairwise_append.mpr ⟨List.pairwise_append.mpr ⟨List.pairwise_append.mpr
    ⟨within 1 (by decide), within 2 (by decide), ?_⟩, within 3 (by decide), ?_⟩,
    within 4 (by decide), ?_⟩ <;> intro a first b second
  · rw [one a first, two b second]
    decide
  · rw [three b second]
    obtain first | first := List.mem_append.mp first
    · rw [one a first]
      decide
    · rw [two a first]
      decide
  · rw [four b second]
    exact (passOf_among a).2

/-- No call covers the row of an earlier one. -/
theorem calls_spare {calls : List RowCall} (order : calls.map RowCall.irow = rowOrder frame)
    (each : ∀ call ∈ calls, RowCall.Spares frame call) :
    calls.Pairwise fun earlier later => later.covers earlier.irow = false := by
  have nodup : (calls.map RowCall.irow).Nodup :=
    order ▸ (rowOrder_perm frame).nodup_iff.mpr List.nodup_range
  have distinct : calls.Pairwise fun earlier later => earlier.irow ≠ later.irow :=
    List.pairwise_map.mp nodup
  have sorted : calls.Pairwise fun earlier later =>
      frame.interlaced → passOf earlier.irow ≤ passOf later.irow := by
    by_cases interlaced : frame.interlaced
    · have ordered := rowOrder_sorted interlaced
      rw [← order] at ordered
      exact (List.pairwise_map.mp ordered).imp fun le _ => le
    · exact List.pairwise_of_forall fun _ _ given => absurd given interlaced
  have both := (distinct.and sorted).imp_of_mem
    (S := fun earlier later => later.covers earlier.irow = false)
  refine both ?_
  intro earlier later _ among apart
  by_contra covered
  obtain same | ⟨interlaced, pass⟩ := each later among earlier.irow (by simpa using covered)
  · exact apart.1 same
  · have least := apart.2 interlaced
    omega

/-- The last call that covers a row is the one for it. -/
theorem lastCovering_own {calls : List RowCall}
    (spare : calls.Pairwise fun earlier later => later.covers earlier.irow = false)
    (each : ∀ call ∈ calls, RowCall.InFrame frame call) {call : RowCall} (among : call ∈ calls) :
    lastCovering calls call.irow = some call := by
  obtain ⟨before, after, rfl⟩ := List.append_of_mem among
  have own : call.covers call.irow = true := by
    obtain ⟨report, reports, -, start, last, -⟩ := each call among
    simp [RowCall.covers, reports, Report.covers, start, last]
  have none : after.reverse.find? (·.covers call.irow) = none := by
    rw [List.find?_eq_none]
    intro later behind
    have apart := (List.pairwise_cons.mp (List.pairwise_append.mp spare).2.1).1 later
      (List.mem_reverse.mp behind)
    simp [apart]
  rw [lastCovering, List.reverse_append, List.reverse_cons, List.append_assoc, List.find?_append,
    none, List.singleton_append, List.find?_cons, own]
  rfl

theorem prepareToDecode_expects {prefixes : Nat → UInt16} {stack rowBuffer : Nat → UInt8}
    {c : GIFLZWContext} (nonempty : 1 ≤ frame.height)
    (prepared : prepareToDecode frame prefixes stack rowBuffer = some c) :
    Expects frame c (rowOrder frame) := by
  have start : c.irow = 0 ∧ (frame.interlaced → c.ipass = 1) := by
    unfold prepareToDecode at prepared
    split at prepared
    case isTrue => simp at prepared
    case isFalse =>
      dsimp only at prepared
      split at prepared
      case isTrue => simp at prepared
      case isFalse =>
        cases prepared
        exact ⟨rfl, fun interlaced => by simp [interlaced]⟩
  obtain ⟨irow, ipass⟩ := start
  by_cases interlaced : frame.interlaced
  · have first := rowsFrom_first frame interlaced
    rw [rowsFrom, every_cons (passStep_pos 1) nonempty, List.cons_append] at first
    rw [← first]
    refine ⟨irow, nonempty, ?_⟩
    rw [if_pos interlaced, ipass interlaced]
    refine ⟨rfl, ?_⟩
    rw [rowsFrom, every_cons (passStep_pos 1) nonempty, List.cons_append]
  · have count : frame.height = frame.height - 1 + 1 := by omega
    rw [rowOrder, if_neg interlaced, List.range_eq_range', count, List.range'_succ]
    refine ⟨irow, by omega, ?_⟩
    rw [if_neg interlaced, Nat.sub_zero, ← List.range'_succ, ← count]

/-- **The rows of a frame end up in place**: the calls for the rows of a frame come for every row
once, in the order of the passes; each reports one range inside the frame that holds its row, and
the last range over a row is the one reported for it. -/
theorem rows_in_place (frame : GIFFrameContext) (client : Client)
    (prefixes : Nat → UInt16) (stack rowBuffer : Nat → UInt8) (c : GIFLZWContext)
    (contents : List (Nat → UInt8)) (nonempty : 1 ≤ frame.height)
    (small : frame.height ≤ 2147483648)
    (prepared : prepareToDecode frame prefixes stack rowBuffer = some c)
    (accepts : ∀ before report, client before report = true)
    (all : contents.length = frame.height) :
    ∃ calls, successiveCalls frame client contents c = goesOn calls ∧
      calls.map RowCall.irow = rowOrder frame ∧
      (calls.map RowCall.irow).Perm (List.range frame.height) ∧
      (∀ call ∈ calls, RowCall.InFrame frame call) ∧
      ∀ row < frame.height, ∃ call ∈ calls, call.irow = row ∧ lastCovering calls row = some call := by
  have length := (rowOrder_perm frame).length_eq
  rw [List.length_range] at length
  obtain ⟨calls, run, order, each⟩ :=
    @successiveCalls_spec frame client small accepts contents c (rowOrder frame) (by omega)
      (prepareToDecode_expects nonempty prepared)
  refine ⟨calls, run, order, order ▸ rowOrder_perm frame, fun call among => (each call among).1, ?_⟩
  intro row inside
  have member : row ∈ calls.map RowCall.irow := by
    rw [order, (rowOrder_perm frame).mem_iff, List.mem_range]
    exact inside
  obtain ⟨call, among, rfl⟩ := List.mem_map.mp member
  exact ⟨call, among, rfl, lastCovering_own (calls_spare order fun call among => (each call among).2)
    (fun call among => (each call among).1) among⟩

/-- A frame for the next statements: eleven rows, interlaced and shown while they come. -/
def elevenRows : GIFFrameContext :=
  { width := 1, height := 11, datasize := 2, progressiveDisplay := true, interlaced := true }

theorem rows_in_place_eleven : ∃ c calls,
    prepareToDecode elevenRows (fun _ => 0) (fun _ => 0) (fun _ => 0) = some c ∧
      successiveCalls elevenRows (fun _ _ => true) (List.replicate 11 fun _ => 0) c = goesOn calls ∧
      calls.map RowCall.irow = [0, 8, 4, 2, 6, 10, 1, 3, 5, 7, 9] := by
  have start : ∃ c, prepareToDecode elevenRows (fun _ => 0) (fun _ => 0) (fun _ => 0) = some c :=
    ⟨_, rfl⟩
  obtain ⟨c, prepared⟩ := start
  obtain ⟨calls, run, order, -⟩ := rows_in_place elevenRows (fun _ _ => true) (fun _ => 0)
    (fun _ => 0) (fun _ => 0) c (List.replicate 11 fun _ => 0) (by decide) (by decide) prepared
    (fun _ _ => rfl) rfl
  exact ⟨c, calls, prepared, run, order.trans (by decide)⟩

end NetRider.Gif
