import NetRider.Graphics.Region

/-!
# Canonical shapes

A shape is a step function from `y` to the segments of a scan line, and a list of segments is a
step function from `x` to inside or outside. The merge keeps both canonical and computes its set
operation point by point.
-/

namespace NetRider.Graphics

open NetRider.Lib

/-! ## One scan line -/

/-- Segments of a scan line: it enters and leaves, from left to right. -/
structure Segments (segments : List Int) : Prop where
  sorted : segments.Pairwise (· < ·)
  even : odd segments = false

theorem Segments.nil : Segments [] := ⟨.nil, rfl⟩

namespace Shape

/-- The flag of a scan line that is inside of the first shape, and of the second. -/
def flagOf (in1 in2 : Bool) : Nat := in1.toNat + 2 * in2.toNat

/-- An operation computes `set` if its code and its rules for leftovers do. -/
structure Operation.Computes (op : Operation) (set : Bool → Bool → Bool) : Prop where
  code : ∀ in1 in2, set in1 in2 =
    xor (decide (flagOf in1 in2 = op.opCode)) (decide (0 = op.opCode))
  rest1 : ∀ in1, set in1 false = (op.shouldAddRemainingSegmentsFromSpan1 && in1)
  rest2 : ∀ in2, set false in2 = (op.shouldAddRemainingSegmentsFromSpan2 && in2)
  spans1 : op.shouldAddRemainingSpansFromShape1 = op.shouldAddRemainingSegmentsFromSpan1
  spans2 : op.shouldAddRemainingSpansFromShape2 = op.shouldAddRemainingSegmentsFromSpan2

theorem union_computes : unionOperation.Computes (· || ·) := by
  constructor <;> decide

theorem intersect_computes : intersectOperation.Computes (· && ·) := by
  constructor <;> decide

theorem subtract_computes : subtractOperation.Computes (fun in1 in2 => in1 && !in2) := by
  constructor <;> decide

variable {op : Operation} {set : Bool → Bool → Bool}

/-- A position is appended when the result is entered or left there. -/
theorem appended_iff (computes : op.Computes set) {in1 in2 in1' in2' : Bool}
    (crossed : flagOf in1' in2' ≠ flagOf in1 in2) :
    (flagOf in1' in2' = op.opCode ∨ flagOf in1 in2 = op.opCode) ↔
      xor (set in1 in2) (set in1' in2') = true := by
  rw [computes.code, computes.code]
  by_cases new : flagOf in1' in2' = op.opCode
  · have old : flagOf in1 in2 ≠ op.opCode := fun old => crossed (new.trans old.symm)
    simp [new, old]
  · by_cases old : flagOf in1 in2 = op.opCode <;> simp [new, old]

/-- One round of the merge, in which the scan line crosses a position of the first shape, of the
second, or of both. -/
theorem inside_round (computes : op.Computes set) (cross1 cross2 : Bool) {in1 in2 i1 i2 : Bool}
    {x p : Int} {rest : List Int} (crossed : (cross1 || cross2) = true)
    (before : p < x → i1 = false ∧ i2 = false)
    (ih : xor (set (xor in1 cross1) (xor in2 cross2)) (inside rest p) =
      set (xor (xor in1 cross1) i1) (xor (xor in2 cross2) i2)) :
    xor (set in1 in2) (inside (if flagOf (xor in1 cross1) (xor in2 cross2) = op.opCode ∨
        flagOf in1 in2 = op.opCode then x :: rest else rest) p) =
      set (xor in1 (xor (cross1 && decide (x ≤ p)) i1))
        (xor in2 (xor (cross2 && decide (x ≤ p)) i2)) := by
  have moved : flagOf (xor in1 cross1) (xor in2 cross2) ≠ flagOf in1 in2 := by
    revert crossed
    cases in1 <;> cases in2 <;> cases cross1 <;> cases cross2 <;> decide
  simp only [appended_iff computes moved]
  by_cases behind : x ≤ p
  · simp only [behind, decide_true, Bool.and_true]
    rw [← Bool.xor_assoc, ← Bool.xor_assoc, ← ih]
    cases set in1 in2 <;> cases set (xor in1 cross1) (xor in2 cross2) <;> simp [inside, behind]
  · obtain ⟨rfl, rfl⟩ := before (not_le.mp behind)
    have none : inside rest p = false := by
      simp only [Bool.xor_false] at ih
      revert ih
      cases set (xor in1 cross1) (xor in2 cross2) <;> cases inside rest p <;> simp
    split <;> simp [inside, behind, none]

theorem odd_round (computes : op.Computes set) {in1 in2 in1' in2' : Bool} {x : Int}
    {rest : List Int} (crossed : flagOf in1' in2' ≠ flagOf in1 in2) (ih : odd rest = set in1' in2') :
    odd (if flagOf in1' in2' = op.opCode ∨ flagOf in1 in2 = op.opCode then x :: rest else rest) =
      set in1 in2 := by
  simp only [appended_iff computes crossed]
  cases old : set in1 in2 <;> cases new : set in1' in2' <;> simp [odd, ih, new]

theorem remaining_left {α : Type} (from1 from2 : Bool) (rest : List α) :
    remaining from1 from2 rest [] = if from1 then rest else [] := by
  cases rest <;> cases from1 <;> simp [remaining]

theorem remaining_right {α : Type} (from1 from2 : Bool) (rest : List α) :
    remaining from1 from2 [] rest = if from2 then rest else [] := by
  cases rest <;> cases from2 <;> simp [remaining]

theorem mergeSegments_left (flag : Nat) (s1 : List Int) : mergeSegments op flag s1 [] =
    if op.shouldAddRemainingSegmentsFromSpan1 then s1 else [] := by
  rw [mergeSegments, remaining_left]
  simp

theorem mergeSegments_right (flag : Nat) (s2 : List Int) : mergeSegments op flag [] s2 =
    if op.shouldAddRemainingSegmentsFromSpan2 then s2 else [] := by
  rw [mergeSegments, remaining_right]
  simp

theorem xor_flag1 (in1 in2 : Bool) : flagOf in1 in2 ^^^ 1 = flagOf (!in1) in2 := by
  cases in1 <;> cases in2 <;> rfl

theorem xor_flag2 (in1 in2 : Bool) : flagOf in1 in2 ^^^ 2 = flagOf in1 (!in2) := by
  cases in1 <;> cases in2 <;> rfl

theorem mergeSegments_subset (flag : Nat) (s1 s2 : List Int) :
    ∀ x ∈ mergeSegments op flag s1 s2, x ∈ s1 ∨ x ∈ s2 := by
  fun_induction mergeSegments op flag s1 s2 with
  | case1 | case2 | case3 | case4 | case5 | case6 => grind
  | case7 flag s1 s2 _ =>
    intro x member
    unfold remaining at member
    split_ifs at member with first second
    · exact .inl member
    · exact .inr member
    · cases member

theorem mergeSegments_sorted (flag : Nat) {s1 s2 : List Int} (sorted1 : s1.Pairwise (· < ·))
    (sorted2 : s2.Pairwise (· < ·)) : (mergeSegments op flag s1 s2).Pairwise (· < ·) := by
  have subset : ∀ flag s1 s2, ∀ x ∈ mergeSegments op flag s1 s2, x ∈ s1 ∨ x ∈ s2 :=
    mergeSegments_subset
  fun_induction mergeSegments op flag s1 s2 with
  | case1 | case2 | case3 | case4 | case5 | case6 => grind only [List.pairwise_cons, List.mem_cons]
  | case7 flag s1 s2 _ =>
    unfold remaining
    split_ifs with first second
    · exact sorted1
    · exact sorted2
    · exact .nil

/-- The merge from any state of the flag. -/
theorem mergeSegments_inside (computes : op.Computes set) {s1 s2 : List Int} {in1 in2 : Bool}
    (sorted1 : s1.Pairwise (· < ·)) (sorted2 : s2.Pairwise (· < ·)) (leaves1 : odd s1 = in1)
    (leaves2 : odd s2 = in2) (p : Int) :
    xor (set in1 in2) (inside (mergeSegments op (flagOf in1 in2) s1 s2) p) =
      set (xor in1 (inside s1 p)) (xor in2 (inside s2 p)) := by
  induction h : s1.length + s2.length using Nat.strong_induction_on generalizing s1 s2 in1 in2 with
  | _ n ih =>
  cases s1 with
  | nil =>
    subst leaves1
    rw [mergeSegments_right]
    simp only [odd, inside, Bool.xor_false, computes.rest2]
    cases op.shouldAddRemainingSegmentsFromSpan2 <;> simp [inside]
  | cons x1 s1 =>
    cases s2 with
    | nil =>
      subst leaves2
      rw [mergeSegments_left]
      simp only [odd, inside, Bool.xor_false, computes.rest1]
      cases op.shouldAddRemainingSegmentsFromSpan1 <;> simp [inside]
    | cons x2 s2 =>
      obtain ⟨after1, tail1⟩ := List.pairwise_cons.mp sorted1
      obtain ⟨after2, tail2⟩ := List.pairwise_cons.mp sorted2
      have even1 : odd s1 = !in1 := by rw [← leaves1]; simp [odd]
      have even2 : odd s2 = !in2 := by rw [← leaves2]; simp [odd]
      have none1 : p < x1 → inside s1 p = false := fun before =>
        inside_before fun x member => before.trans (after1 x member)
      have none2 : p < x2 → inside s2 p = false := fun before =>
        inside_before fun x member => before.trans (after2 x member)
      simp only [List.length_cons] at h
      rw [mergeSegments]
      simp only [xor_flag1, xor_flag2]
      obtain first | rfl | second := lt_trichotomy x1 x2
      · have before : p < x1 → inside s1 p = false ∧ inside (x2 :: s2) p = false := by
          intro before
          simp [inside, none1 before, none2 (before.trans first), before.trans first]
        have round := inside_round computes true false rfl before
          (by simpa using ih _ (by simp; omega) tail1 sorted2 even1 leaves2 rfl)
        simpa [first, inside] using round
      · have before : p < x1 → inside s1 p = false ∧ inside s2 p = false :=
          fun before => ⟨none1 before, none2 before⟩
        have round := inside_round computes true true rfl before
          (by simpa using ih _ (by omega) tail1 tail2 even1 even2 rfl)
        simpa [inside] using round
      · have before : p < x2 → inside (x1 :: s1) p = false ∧ inside s2 p = false := by
          intro before
          simp [inside, none2 before, none1 (before.trans second), before.trans second]
        have round := inside_round computes false true rfl before
          (by simpa using ih _ (by simp; omega) sorted1 tail2 leaves1 even2 rfl)
        simpa [second, second.not_gt, inside] using round

theorem mergeSegments_odd (computes : op.Computes set) {s1 s2 : List Int} {in1 in2 : Bool}
    (leaves1 : odd s1 = in1) (leaves2 : odd s2 = in2) :
    odd (mergeSegments op (flagOf in1 in2) s1 s2) = set in1 in2 := by
  induction h : s1.length + s2.length using Nat.strong_induction_on generalizing s1 s2 in1 in2 with
  | _ n ih =>
  cases s1 with
  | nil =>
    subst leaves1
    rw [mergeSegments_right]
    simp only [odd, computes.rest2]
    cases op.shouldAddRemainingSegmentsFromSpan2 <;> simp [odd, leaves2]
  | cons x1 s1 =>
    cases s2 with
    | nil =>
      subst leaves2
      rw [mergeSegments_left]
      simp only [odd, computes.rest1]
      cases op.shouldAddRemainingSegmentsFromSpan1 <;> simp [odd, ← leaves1]
    | cons x2 s2 =>
      have even1 : odd s1 = !in1 := by rw [← leaves1]; simp [odd]
      have even2 : odd s2 = !in2 := by rw [← leaves2]; simp [odd]
      have crossed1 : flagOf (!in1) in2 ≠ flagOf in1 in2 := by cases in1 <;> cases in2 <;> decide
      have crossed2 : flagOf in1 (!in2) ≠ flagOf in1 in2 := by cases in1 <;> cases in2 <;> decide
      have crossed3 : flagOf (!in1) (!in2) ≠ flagOf in1 in2 := by
        cases in1 <;> cases in2 <;> decide
      simp only [List.length_cons] at h
      rw [mergeSegments]
      simp only [xor_flag1, xor_flag2]
      obtain first | rfl | second := lt_trichotomy x1 x2
      · rw [if_pos first]
        exact odd_round computes crossed1 (ih _ (by simp; omega) even1 leaves2 rfl)
      · rw [if_neg (lt_irrefl _), if_neg (lt_irrefl _)]
        exact odd_round computes crossed3 (ih _ (by omega) even1 even2 rfl)
      · rw [if_neg second.not_gt, if_pos second]
        exact odd_round computes crossed2 (ih _ (by simp; omega) leaves1 even2 rfl)

/-- One scan line: the merge gives segments of the set operation. -/
theorem mergeSegments_computes (computes : op.Computes set) {s1 s2 : List Int}
    (segments1 : Segments s1) (segments2 : Segments s2) :
    Segments (mergeSegments op 0 s1 s2) ∧
      ∀ x, inside (mergeSegments op 0 s1 s2) x = set (inside s1 x) (inside s2 x) := by
  have outside : set false false = false := by simpa using computes.rest1 false
  refine ⟨⟨?_, ?_⟩, ?_⟩
  · exact mergeSegments_sorted 0 segments1.sorted segments2.sorted
  · have parity := mergeSegments_odd computes segments1.even segments2.even
    exact parity.trans outside
  · intro x
    have merged := mergeSegments_inside computes segments1.sorted segments2.sorted segments1.even
      segments2.even x
    simpa [outside, flagOf] using merged

/-! ## The spans -/

/-- Spans in order, each with other segments than the one before, and the last with none. -/
structure WellFormed (shape : Shape) : Prop where
  canonical : Canonical [] shape
  ends : endValue [] shape = []
  segments : ∀ span ∈ shape, Segments span.2

theorem valueAt_segments {spans : Shape} {s : List Int} (current : Segments s)
    (segments : ∀ span ∈ spans, Segments span.2) (y : Int) : Segments (valueAt s spans y) := by
  induction spans generalizing s with
  | nil => exact current
  | cons span spans ih =>
    obtain ⟨first, rest⟩ := List.forall_mem_cons.mp segments
    rw [valueAt]
    split_ifs with behind
    · exact ih first rest
    · exact current

theorem WellFormed.value {shape : Shape} (ok : shape.WellFormed) (y : Int) :
    Segments (valueAt [] shape y) :=
  valueAt_segments .nil ok.segments y

/-- The points of a shape. -/
def points (shape : Shape) : Set IntPoint := {p | inside (valueAt [] shape p.y) p.x = true}

theorem canCoalesce_iff (shape : Shape) (segments : List Int) :
    shape.canCoalesce segments = true ↔ shape ≠ [] ∧ endValue [] shape = segments := by
  cases shape using List.reverseRecOn with
  | nil => simp [canCoalesce]
  | append_singleton shape span => simp [canCoalesce, endValue_append]

theorem appendSpan_eq {shape : Shape} {y : Int} {segments : List Int}
    (changed : endValue [] shape ≠ segments) :
    shape.appendSpan y segments = shape ++ [(y, segments)] := by
  apply if_neg
  intro coalesced
  exact changed ((canCoalesce_iff shape segments).mp coalesced).2

/-- A round appends a span exactly if it changes the segments. -/
theorem addSpan_eq (result : Shape) (y : Int) (s1 s2 : List Int) :
    addSpan op result y s1 s2 =
      if mergeSegments op 0 s1 s2 = endValue [] result then result
      else result ++ [(y, mergeSegments op 0 s1 s2)] := by
  unfold addSpan
  generalize mergeSegments op 0 s1 s2 = segments
  by_cases same : segments = endValue [] result
  · subst same
    cases result with
    | nil => simp [endValue]
    | cons span spans =>
      have coalesced : canCoalesce (span :: spans) (endValue [] (span :: spans)) = true :=
        (canCoalesce_iff _ _).mpr ⟨List.cons_ne_nil _ _, rfl⟩
      simp [appendSpan, coalesced]
  · have nonempty : (!segments.isEmpty || !result.isEmpty) = true := by
      cases result with
      | nil => simpa [endValue] using same
      | cons span spans => simp
    rw [if_neg same]
    simp only [nonempty, if_true]
    exact appendSpan_eq (Ne.symm same)

/-- The remaining spans of a canonical shape are all appended. -/
theorem appendSpans_eq {result spans : Shape} (canonical : Canonical (endValue [] result) spans) :
    result.appendSpans spans = result ++ spans := by
  induction spans generalizing result with
  | nil => simp [appendSpans]
  | cons span spans ih =>
    obtain ⟨changed, _, canonical⟩ := canonical
    have appended : result.appendSpan span.1 span.2 = result ++ [span] :=
      appendSpan_eq changed.symm
    have rest : (result ++ [span]).appendSpans spans = result ++ [span] ++ spans := by
      apply ih
      rwa [endValue_append]
    simp only [appendSpans, List.foldl_cons] at rest ⊢
    rw [appended, rest, List.append_assoc]
    rfl

/-- What the loop still appends when the scan line is in `s1` and `s2`. -/
structure MergesTo (op : Operation) (s1 s2 : List Int) (spans1 spans2 rest : Shape) : Prop where
  canonical : Canonical (mergeSegments op 0 s1 s2) rest
  value : ∀ y, valueAt (mergeSegments op 0 s1 s2) rest y =
    mergeSegments op 0 (valueAt s1 spans1 y) (valueAt s2 spans2 y)
  ends : endValue (mergeSegments op 0 s1 s2) rest = []
  segments : ∀ span ∈ rest, Segments span.2
  behind : ∀ y, (∀ span ∈ spans1, y < span.1) → (∀ span ∈ spans2, y < span.1) →
    ∀ span ∈ rest, y < span.1

/-- One side of a round at `y`: it goes on to its next span, or has none before or at `y`. -/
structure Advances (y : Int) (s : List Int) (spans : Shape) (s' : List Int) (spans' : Shape) :
    Prop where
  value : ∀ p, valueAt s spans p = if y ≤ p then valueAt s' spans' p else s
  after : ∀ span ∈ spans', y < span.1

theorem Advances.next {y : Int} {s s' : List Int} {spans : Shape}
    (canonical : Canonical s ((y, s') :: spans)) : Advances y s ((y, s') :: spans) s' spans :=
  ⟨fun _ => rfl, canonical.2.1⟩

theorem Advances.stay {y : Int} {s : List Int} {spans : Shape}
    (after : ∀ span ∈ spans, y < span.1) : Advances y s spans s spans := by
  refine ⟨?_, after⟩
  intro p
  split_ifs with behind
  · rfl
  · exact valueAt_before fun span member => (not_le.mp behind).trans (after span member)

theorem MergesTo.round (computes : op.Computes set) {y : Int} {s1 s2 s1' s2' : List Int}
    {spans1 spans2 spans1' spans2' rest : Shape} (side1 : Advances y s1 spans1 s1' spans1')
    (side2 : Advances y s2 spans2 s2' spans2') (segments1 : Segments s1') (segments2 : Segments s2')
    (here : ∀ p, (∀ span ∈ spans1, p < span.1) → (∀ span ∈ spans2, p < span.1) → p < y)
    (ih : MergesTo op s1' s2' spans1' spans2' rest) :
    MergesTo op s1 s2 spans1 spans2
      (if mergeSegments op 0 s1' s2' = mergeSegments op 0 s1 s2 then rest
        else (y, mergeSegments op 0 s1' s2') :: rest) := by
  have after := ih.behind y side1.after side2.after
  have value : ∀ p, (if y ≤ p then valueAt (mergeSegments op 0 s1' s2') rest p
      else mergeSegments op 0 s1 s2) =
        mergeSegments op 0 (valueAt s1 spans1 p) (valueAt s2 spans2 p) := by
    intro p
    rw [side1.value, side2.value]
    split_ifs with behind
    · exact ih.value p
    · rfl
  split_ifs with same
  · refine ⟨same ▸ ih.canonical, ?_, same ▸ ih.ends, ih.segments, ?_⟩
    · intro p
      rw [← value p, same]
      split_ifs with behind
      · rfl
      · exact valueAt_before fun span member => (not_le.mp behind).trans (after span member)
    · intro p before1 before2 span member
      exact (here p before1 before2).trans (after span member)
  · refine ⟨⟨same, after, ih.canonical⟩, value, ih.ends, ?_, ?_⟩
    · intro span member
      obtain rfl | member := List.mem_cons.mp member
      · exact (mergeSegments_computes computes segments1 segments2).1
      · exact ih.segments span member
    · intro p before1 before2 span member
      have first := here p before1 before2
      obtain rfl | member := List.mem_cons.mp member
      · exact first
      · exact first.trans (after span member)

theorem MergesTo.left {s1 : List Int} {spans1 : Shape} (canonical : Canonical s1 spans1)
    (ends : endValue s1 spans1 = []) (segments : ∀ span ∈ spans1, Segments span.2) :
    MergesTo op s1 [] spans1 []
      (if op.shouldAddRemainingSegmentsFromSpan1 then spans1 else []) := by
  cases adds : op.shouldAddRemainingSegmentsFromSpan1 with
  | true =>
    have same : ∀ s, mergeSegments op 0 s [] = s := by simp [mergeSegments_left, adds]
    exact ⟨by rwa [same], fun y => by rw [same, valueAt, same]; rfl, by rwa [same], segments,
      fun _ before _ => before⟩
  | false =>
    have none : ∀ s, mergeSegments op 0 s [] = [] := by simp [mergeSegments_left, adds]
    exact ⟨trivial, fun y => by rw [none, valueAt, none]; rfl, none _, by simp, by simp⟩

theorem MergesTo.right {s2 : List Int} {spans2 : Shape} (canonical : Canonical s2 spans2)
    (ends : endValue s2 spans2 = []) (segments : ∀ span ∈ spans2, Segments span.2) :
    MergesTo op [] s2 [] spans2
      (if op.shouldAddRemainingSegmentsFromSpan2 then spans2 else []) := by
  cases adds : op.shouldAddRemainingSegmentsFromSpan2 with
  | true =>
    have same : ∀ s, mergeSegments op 0 [] s = s := by simp [mergeSegments_right, adds]
    exact ⟨by rwa [same], fun y => by rw [same, valueAt, same]; rfl, by rwa [same], segments,
      fun _ _ before => before⟩
  | false =>
    have none : ∀ s, mergeSegments op 0 [] s = [] := by simp [mergeSegments_right, adds]
    exact ⟨trivial, fun y => by rw [none, valueAt, none]; rfl, none _, by simp, by simp⟩

/-- The end of the loop. -/
theorem MergesTo.finish {s1 s2 : List Int} {spans1 spans2 rest result : Shape}
    (merged : endValue [] result = mergeSegments op 0 s1 s2)
    (merges : MergesTo op s1 s2 spans1 spans2 rest) :
    ∃ rest', result.appendSpans rest = result ++ rest' ∧
      MergesTo op s1 s2 spans1 spans2 rest' :=
  ⟨rest, appendSpans_eq (merged ▸ merges.canonical), merges⟩

theorem addSpan_append (result rest : Shape) (y : Int) (s1 s2 : List Int) :
    addSpan op result y s1 s2 ++ rest =
      result ++ if mergeSegments op 0 s1 s2 = endValue [] result then rest
        else (y, mergeSegments op 0 s1 s2) :: rest := by
  rw [addSpan_eq]
  split_ifs with same
  · rfl
  · rw [List.append_assoc]
    rfl

theorem addSpan_endValue (result : Shape) (y : Int) (s1 s2 : List Int) :
    endValue [] (addSpan op result y s1 s2) = mergeSegments op 0 s1 s2 := by
  rw [addSpan_eq]
  split_ifs with same
  · exact same.symm
  · exact endValue_append _ _ _

/-- What the loop does if it is in `s1` and `s2` and has come to `result`. -/
theorem mergeSpans_appends (computes : op.Computes set) {spans1 spans2 result : Shape}
    {s1 s2 : List Int} (merged : endValue [] result = mergeSegments op 0 s1 s2)
    (canonical1 : Canonical s1 spans1) (canonical2 : Canonical s2 spans2)
    (ends1 : endValue s1 spans1 = []) (ends2 : endValue s2 spans2 = [])
    (segments1 : ∀ span ∈ spans1, Segments span.2) (segments2 : ∀ span ∈ spans2, Segments span.2)
    (current1 : Segments s1) (current2 : Segments s2) :
    ∃ rest, mergeSpans op spans1 spans2 s1 s2 result = result ++ rest ∧
      MergesTo op s1 s2 spans1 spans2 rest := by
  induction h : spans1.length + spans2.length using Nat.strong_induction_on
    generalizing spans1 spans2 s1 s2 result with
  | _ n ih =>
  cases spans1 with
  | nil =>
    obtain rfl : s1 = [] := ends1
    have finish := MergesTo.finish merged (MergesTo.right canonical2 ends2 segments2)
    rw [mergeSpans, remaining_right, computes.spans2]
    · exact finish
    · simp
  | cons span1 spans1 =>
    cases spans2 with
    | nil =>
      obtain rfl : s2 = [] := ends2
      have finish := MergesTo.finish merged (MergesTo.left canonical1 ends1 segments1)
      rw [mergeSpans, remaining_left, computes.spans1]
      · exact finish
      · simp
    | cons span2 spans2 =>
      obtain ⟨y1, new1⟩ := span1
      obtain ⟨y2, new2⟩ := span2
      have next1 := Advances.next canonical1
      have next2 := Advances.next canonical2
      have segments1' := List.forall_mem_cons.mp segments1
      have segments2' := List.forall_mem_cons.mp segments2
      simp only [List.length_cons] at h
      rw [mergeSpans]
      obtain first | rfl | second := lt_trichotomy y1 y2
      · rw [if_pos first]
        have stay2 : Advances y1 s2 ((y2, new2) :: spans2) s2 ((y2, new2) :: spans2) := by
          apply Advances.stay
          intro span member
          obtain rfl | member := List.mem_cons.mp member
          · exact first
          · exact first.trans (next2.after span member)
        obtain ⟨rest, run, merges⟩ := ih _ (by simp; omega)
          (addSpan_endValue result y1 new1 s2) canonical1.2.2 canonical2 ends1 ends2 segments1'.2
          segments2 segments1'.1 current2 rfl
        refine ⟨_, run.trans (addSpan_append ..), ?_⟩
        rw [merged]
        exact merges.round computes next1 stay2 segments1'.1 current2
          fun p before _ => before _ List.mem_cons_self
      · rw [if_neg (lt_irrefl _), if_neg (lt_irrefl _)]
        obtain ⟨rest, run, merges⟩ := ih _ (by omega)
          (addSpan_endValue result y1 new1 new2) canonical1.2.2 canonical2.2.2 ends1 ends2
          segments1'.2 segments2'.2 segments1'.1 segments2'.1 rfl
        refine ⟨_, run.trans (addSpan_append ..), ?_⟩
        rw [merged]
        exact merges.round computes next1 next2 segments1'.1 segments2'.1
          fun p before _ => before _ List.mem_cons_self
      · rw [if_neg second.not_gt, if_pos second]
        have stay1 : Advances y2 s1 ((y1, new1) :: spans1) s1 ((y1, new1) :: spans1) := by
          apply Advances.stay
          intro span member
          obtain rfl | member := List.mem_cons.mp member
          · exact second
          · exact second.trans (next1.after span member)
        obtain ⟨rest, run, merges⟩ := ih _ (by simp; omega)
          (addSpan_endValue result y2 s1 new2) canonical1 canonical2.2.2 ends1 ends2 segments1
          segments2'.2 current1 segments2'.1 rfl
        refine ⟨_, run.trans (addSpan_append ..), ?_⟩
        rw [merged]
        exact merges.round computes stay1 next2 current1 segments2'.1
          fun p _ before => before _ List.mem_cons_self

/-- **The merge is exact.** It keeps shapes well-formed, and a point is in the result as the
operation says. -/
theorem mergeSpans_computes (computes : op.Computes set) {shape1 shape2 : Shape}
    (ok1 : shape1.WellFormed) (ok2 : shape2.WellFormed) :
    (mergeSpans op shape1 shape2 [] [] []).WellFormed ∧
      ∀ y x, inside (valueAt [] (mergeSpans op shape1 shape2 [] [] []) y) x =
        set (inside (valueAt [] shape1 y) x) (inside (valueAt [] shape2 y) x) := by
  have nothing : mergeSegments op 0 [] [] = [] := by simp [mergeSegments_left]
  have start : endValue [] ([] : Shape) = mergeSegments op 0 [] [] := nothing.symm
  obtain ⟨rest, run, merges⟩ := mergeSpans_appends computes start ok1.canonical ok2.canonical
    ok1.ends ok2.ends ok1.segments ok2.segments .nil .nil
  rw [run, List.nil_append]
  have canonical := merges.canonical
  have value := merges.value
  have ends := merges.ends
  rw [nothing] at canonical value ends
  refine ⟨⟨canonical, ends, merges.segments⟩, ?_⟩
  intro y x
  rw [value]
  exact (mergeSegments_computes computes (ok1.value y) (ok2.value y)).2 x

end Shape

end NetRider.Graphics
