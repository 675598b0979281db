import NetRider.Graphics.RegionShape

/-!
# What a shape says about its points

`containsPoint`, `rects`, `bounds` and `compareShapes` walk over the spans. On a well-formed shape
they answer as its set of points does.
-/

namespace NetRider.Graphics

open NetRider.Lib

def IntRect.points (rect : IntRect) : Set IntPoint := {p | rect.containsPoint p = true}

theorem IntRect.mem_points {rect : IntRect} {p : IntPoint} :
    p ∈ rect.points ↔ (rect.x ≤ p.x ∧ p.x < rect.maxX) ∧ rect.y ≤ p.y ∧ p.y < rect.maxY := by
  simp [points, containsPoint, and_assoc]

namespace Shape

/-- **Shapes are canonical.** The points determine the shape. -/
theorem WellFormed.ext {shape shape' : Shape} (ok : shape.WellFormed) (ok' : shape'.WellFormed)
    (same : shape.points = shape'.points) : shape = shape' := by
  apply canonical_ext ok.canonical ok'.canonical
  intro y
  apply inside_ext (ok.value y).sorted (ok'.value y).sorted
  intro x
  have point : (⟨x, y⟩ : IntPoint) ∈ shape.points ↔ (⟨x, y⟩ : IntPoint) ∈ shape'.points := by rw [same]
  exact Bool.eq_iff_iff.mpr point

theorem WellFormed.nil : WellFormed [] := ⟨trivial, rfl, nofun⟩

theorem points_nil : points [] = ∅ := by
  ext p
  simp [points, valueAt, inside]

/-! ## Points -/

theorem segmentsContain_iff {segments : List Int} (ok : Segments segments) (p : Int) :
    segmentsContain segments p = true ↔ inside segments p = true := by
  fun_induction segmentsContain segments p with
  | case1 x maxX rest p outside =>
    have before : ∀ q ∈ x :: maxX :: rest, p < q := by
      intro q member
      obtain rfl | member := List.mem_cons.mp member
      · exact outside
      · exact lt_trans outside (List.rel_of_pairwise_cons ok.sorted member)
    simp [inside_before before]
  | case2 x maxX rest p left right =>
    rw [inside_pair ok.sorted]
    simp [not_lt.mp left, right]
  | case3 x maxX rest p left right ih =>
    have tail : Segments rest := ⟨ok.sorted.of_cons.of_cons, by simpa [odd] using ok.even⟩
    rw [inside_pair ok.sorted, ih tail]
    simp [not_lt.mp right]
  | case4 segments p short =>
    cases segments with
    | nil => simp [inside]
    | cons x rest =>
      cases rest with
      | nil => exact absurd ok.even (by simp [odd])
      | cons maxX rest => exact absurd rfl (short x maxX rest)

/-- The walk from a span on. -/
theorem containsPoint_iff {spans : Shape} {y : Int} {s : List Int}
    (ordered : ∀ span ∈ spans, y < span.1) (canonical : Canonical s spans)
    (ends : endValue s spans = []) (current : Segments s)
    (segments : ∀ span ∈ spans, Segments span.2) (p : IntPoint) :
    containsPoint ((y, s) :: spans) p = true ↔
      y ≤ p.y ∧ inside (valueAt s spans p.y) p.x = true := by
  induction spans generalizing y s with
  | nil =>
    obtain rfl : s = [] := ends
    simp [containsPoint, valueAt, inside]
  | cons next spans ih =>
    obtain ⟨maxY, s'⟩ := next
    obtain ⟨first, rest⟩ := List.forall_mem_cons.mp segments
    have walk := ih canonical.2.1 canonical.2.2 ends first rest
    rw [containsPoint]
    split_ifs with above below
    · simp [above]
    · have inSpan : y ≤ p.y := not_lt.mp above
      rw [walk, valueAt, if_pos below]
      simp [below, inSpan]
    · have stop : containsPoint ((maxY, s') :: spans) p = false := by
        rw [← Bool.not_eq_true, walk]
        exact fun h => below h.1
      rw [stop, Bool.or_false, segmentsContain_iff current, valueAt, if_neg below]
      simp [not_lt.mp above]

/-- `Region::contains` without the bounds. -/
theorem mem_points_iff {shape : Shape} (ok : shape.WellFormed) (p : IntPoint) :
    p ∈ shape.points ↔ shape.containsPoint p = true := by
  cases shape with
  | nil => simp [points_nil, containsPoint]
  | cons span spans =>
    obtain ⟨first, rest⟩ := List.forall_mem_cons.mp ok.segments
    rw [containsPoint_iff ok.canonical.2.1 ok.canonical.2.2 ok.ends first rest]
    change inside (valueAt [] (span :: spans) p.y) p.x = true ↔ _
    rw [valueAt]
    split_ifs with behind
    · simp [behind]
    · simp [inside, behind]

/-! ## Rectangles -/

/-- The rectangles cover a set, and no point twice. -/
structure Covers (rects : List IntRect) (S : Set IntPoint) : Prop where
  cover : ∀ p, p ∈ S ↔ ∃ rect ∈ rects, p ∈ rect.points
  disjoint : rects.Pairwise fun rect rect' => Disjoint rect.points rect'.points

theorem Covers.congr {rects : List IntRect} {S S' : Set IntPoint} (covers : Covers rects S)
    (same : ∀ p, p ∈ S' ↔ p ∈ S) : Covers rects S' :=
  ⟨fun p => (same p).trans (covers.cover p), covers.disjoint⟩

theorem Covers.append {rects rects' : List IntRect} {S S' : Set IntPoint} (covers : Covers rects S)
    (covers' : Covers rects' S') (disjoint : Disjoint S S') :
    Covers (rects ++ rects') (S ∪ S') := by
  constructor
  · intro p
    rw [Set.mem_union, covers.cover, covers'.cover]
    simp only [List.mem_append, or_and_right, exists_or]
  · rw [List.pairwise_append]
    refine ⟨covers.disjoint, covers'.disjoint, ?_⟩
    intro rect member rect' member'
    apply disjoint.mono
    · exact fun p inRect => (covers.cover p).mpr ⟨rect, member, inRect⟩
    · exact fun p inRect => (covers'.cover p).mpr ⟨rect', member', inRect⟩

theorem Covers.single (rect : IntRect) : Covers [rect] rect.points :=
  ⟨by simp, List.pairwise_singleton _ _⟩

theorem Covers.empty : Covers [] ∅ := ⟨by simp, .nil⟩

/-- The rectangles of one span. -/
theorem segmentRects_covers {segments : List Int} (ok : Segments segments) (y height : Int) :
    Covers (segmentRects y height segments)
      {p | inside segments p.x = true ∧ y ≤ p.y ∧ p.y < y + height} := by
  fun_induction segmentRects y height segments with
  | case1 x maxX rest ih =>
    have tail : Segments rest := ⟨ok.sorted.of_cons.of_cons, by simpa [odd] using ok.even⟩
    have both := (Covers.single ⟨x, y, maxX - x, height⟩).append (ih tail) ?_
    · apply both.congr
      intro p
      change inside (x :: maxX :: rest) p.x = true ∧ _ ↔
        p ∈ IntRect.points _ ∨ (inside rest p.x = true ∧ _)
      rw [inside_pair ok.sorted, IntRect.mem_points]
      simp [IntRect.maxX, IntRect.maxY, or_and_right]
    · rw [Set.disjoint_left]
      intro p inRect inRest
      rw [IntRect.mem_points] at inRect
      have before : ∀ q ∈ rest, p.x < q := by
        intro q member
        have right : p.x < maxX := by simpa [IntRect.maxX] using inRect.1.2
        exact right.trans (List.rel_of_pairwise_cons ok.sorted.of_cons member)
      exact absurd inRest.1 (by simp [inside_before before])
  | case2 segments short =>
    cases segments with
    | nil => simpa [inside] using Covers.empty
    | cons x rest =>
      cases rest with
      | nil => exact absurd ok.even (by simp [odd])
      | cons maxX rest => exact absurd rfl (short x maxX rest)

theorem rects_covers {spans : Shape} {y : Int} {s : List Int}
    (ordered : ∀ span ∈ spans, y < span.1) (canonical : Canonical s spans)
    (ends : endValue s spans = []) (current : Segments s)
    (segments : ∀ span ∈ spans, Segments span.2) :
    Covers (rects ((y, s) :: spans)) {p | y ≤ p.y ∧ inside (valueAt s spans p.y) p.x = true} := by
  induction spans generalizing y s with
  | nil =>
    obtain rfl : s = [] := ends
    simpa [rects, valueAt, inside] using Covers.empty
  | cons next spans ih =>
    obtain ⟨maxY, s'⟩ := next
    obtain ⟨first, rest⟩ := List.forall_mem_cons.mp segments
    have height : y < maxY := ordered _ List.mem_cons_self
    have both := (segmentRects_covers current y (maxY - y)).append
      (ih canonical.2.1 canonical.2.2 ends first rest) ?_
    · apply both.congr
      intro p
      change y ≤ p.y ∧ inside (valueAt s ((maxY, s') :: spans) p.y) p.x = true ↔
        (inside s p.x = true ∧ y ≤ p.y ∧ p.y < y + (maxY - y)) ∨ (maxY ≤ p.y ∧ _)
      rw [valueAt, add_sub_cancel]
      by_cases below : maxY ≤ p.y
      · simp [below, height.le.trans below, not_lt.mpr below]
      · simp [below, not_le.mp below, and_comm]
    · rw [Set.disjoint_left]
      intro p inFirst inRest
      have below : p.y < y + (maxY - y) := inFirst.2.2
      have above : maxY ≤ p.y := inRest.1
      omega

theorem WellFormed.rects_cover {shape : Shape} (ok : shape.WellFormed) :
    Covers shape.rects shape.points := by
  cases shape with
  | nil => simpa [rects, points_nil] using Covers.empty
  | cons span spans =>
    obtain ⟨first, rest⟩ := List.forall_mem_cons.mp ok.segments
    apply (rects_covers ok.canonical.2.1 ok.canonical.2.2 ok.ends first rest).congr
    intro p
    change inside (valueAt [] (span :: spans) p.y) p.x = true ↔ _ ∧ _
    rw [valueAt]
    split_ifs with behind
    · simp [behind]
    · simp [inside, behind]

end Shape

/-! ## Bounds -/

/-- `bounds` is the smallest rectangle around the points. -/
structure TightBox (bounds : IntRect) (S : Set IntPoint) : Prop where
  covers : S ⊆ bounds.points
  least : ∀ rect : IntRect, S ⊆ rect.points → bounds.points ⊆ rect.points

/-- The points touch every side of the rectangle around them. -/
structure Touches (bounds : IntRect) (S : Set IntPoint) : Prop where
  covers : S ⊆ bounds.points
  left : ∃ p ∈ S, p.x = bounds.x
  right : ∃ p ∈ S, p.x + 1 = bounds.maxX
  top : ∃ p ∈ S, p.y = bounds.y
  bottom : ∃ p ∈ S, p.y + 1 = bounds.maxY

theorem Touches.tight {bounds : IntRect} {S : Set IntPoint} (touches : Touches bounds S) :
    TightBox bounds S := by
  refine ⟨touches.covers, ?_⟩
  intro rect around p member
  obtain ⟨left, inLeft, hleft⟩ := touches.left
  obtain ⟨right, inRight, hright⟩ := touches.right
  obtain ⟨top, inTop, htop⟩ := touches.top
  obtain ⟨bottom, inBottom, hbottom⟩ := touches.bottom
  have hl := IntRect.mem_points.mp (around inLeft)
  have hr := IntRect.mem_points.mp (around inRight)
  have ht := IntRect.mem_points.mp (around inTop)
  have hb := IntRect.mem_points.mp (around inBottom)
  rw [IntRect.mem_points] at member ⊢
  omega

theorem Touches.unique {bounds bounds' : IntRect} {S : Set IntPoint} (touches : Touches bounds S)
    (touches' : Touches bounds' S) : bounds = bounds' := by
  have side : ∀ {b b' : IntRect}, Touches b S → Touches b' S →
      b'.x ≤ b.x ∧ b.maxX ≤ b'.maxX ∧ b'.y ≤ b.y ∧ b.maxY ≤ b'.maxY := by
    intro b b' touches touches'
    obtain ⟨left, inLeft, hleft⟩ := touches.left
    obtain ⟨right, inRight, hright⟩ := touches.right
    obtain ⟨top, inTop, htop⟩ := touches.top
    obtain ⟨bottom, inBottom, hbottom⟩ := touches.bottom
    have hl := IntRect.mem_points.mp (touches'.covers inLeft)
    have hr := IntRect.mem_points.mp (touches'.covers inRight)
    have ht := IntRect.mem_points.mp (touches'.covers inTop)
    have hb := IntRect.mem_points.mp (touches'.covers inBottom)
    omega
  have one := side touches touches'
  have other := side touches' touches
  obtain ⟨x, y, width, height⟩ := bounds
  obtain ⟨x', y', width', height'⟩ := bounds'
  simp only [IntRect.maxX, IntRect.maxY] at one other
  simp only [IntRect.mk.injEq]
  omega

/-- A side of a rectangle with points has a length. -/
theorem Touches.nonempty {bounds : IntRect} {S : Set IntPoint} (touches : Touches bounds S) :
    0 < bounds.width ∧ 0 < bounds.height := by
  obtain ⟨p, member, _⟩ := touches.left
  have inBounds := IntRect.mem_points.mp (touches.covers member)
  simp only [IntRect.maxX, IntRect.maxY] at inBounds
  omega

namespace Shape

theorem segments_head {spans : Shape} {x : Int} (h : (segments spans).head? = some x) :
    ∃ span ∈ spans, span.2.head? = some x := by
  induction spans with
  | nil => cases h
  | cons span spans ih =>
    cases first : span.2 with
    | nil =>
      have rest : (segments spans).head? = some x := by simpa [segments, first] using h
      obtain ⟨span', member, head⟩ := ih rest
      exact ⟨span', List.mem_cons_of_mem _ member, head⟩
    | cons x' xs =>
      have head : x' = x := by simpa [segments, first] using h
      exact ⟨span, List.mem_cons_self, by rw [first, ← head]; rfl⟩

theorem previous_last {Last : Int → Prop} {previous segments : List Int}
    (last : ∀ x, segments.getLast? = some x → Last x)
    (before : ∀ x, previous.getLast? = some x → Last x) :
    ∀ x, (previous ++ segments).getLast? = some x → Last x := by
  intro x h
  rw [List.getLast?_append, Option.or_eq_some_iff] at h
  obtain own | ⟨_, earlier⟩ := h
  · exact last x own
  · exact before x earlier

/-- The loop of `bounds`: what it ends with bounds all spans but the last, and is the first and
the last segment of some span. -/
theorem boundsLoop_spec {First Last : Int → Prop} {spans : Shape} {minX maxX : Int}
    {previous : List Int} (firsts : ∀ span ∈ spans, ∀ x, span.2.head? = some x → First x)
    (lasts : ∀ span ∈ spans, ∀ x, span.2.getLast? = some x → Last x)
    (before : ∀ x, previous.getLast? = some x → Last x) :
    let result := boundsLoop minX maxX previous spans
    (result.1 ≤ minX ∧ maxX ≤ result.2) ∧
    ((result.1 = minX ∨ First result.1) ∧ (result.2 = maxX ∨ Last result.2)) ∧
    ∀ span ∈ spans.dropLast, (∀ x, span.2.head? = some x → result.1 ≤ x) ∧
      ∀ x, span.2.getLast? = some x → x ≤ result.2 := by
  fun_induction boundsLoop minX maxX previous spans with
  | case1 | case2 => simp
  | case3 minX maxX previous span next rest first last hlast hfirst ih =>
    have last' := previous_last (lasts span List.mem_cons_self) before
    obtain ⟨⟨least, greatest⟩, ⟨isFirst, isLast⟩, inner⟩ :=
      ih (fun span member => firsts span (List.mem_cons_of_mem _ member))
        (fun span member => lasts span (List.mem_cons_of_mem _ member)) last'
    obtain ⟨span', member', head'⟩ := segments_head hfirst
    have firstOk : First first := firsts span' member' first head'
    have lastOk : Last last := last' last hlast
    generalize boundsLoop _ _ _ _ = result at least greatest isFirst isLast inner ⊢
    refine ⟨⟨?_, ?_⟩, ⟨?_, ?_⟩, ?_⟩
    · split_ifs at least <;> omega
    · split_ifs at greatest <;> omega
    · split_ifs at isFirst with smaller
      · exact .inr (isFirst.elim (fun same => same ▸ firstOk) id)
      · exact isFirst
    · split_ifs at isLast with larger
      · exact .inr (isLast.elim (fun same => same ▸ lastOk) id)
      · exact isLast
    · rw [List.dropLast_cons_of_ne_nil (List.cons_ne_nil _ _), List.forall_mem_cons]
      refine ⟨⟨?_, ?_⟩, inner⟩
      · intro x head
        have same : first = x := by simpa [segments, List.head?_append, head] using hfirst.symm
        split_ifs at least <;> omega
      · intro x end_
        have same : last = x := by simpa [List.getLast?_append, end_] using hlast.symm
        split_ifs at greatest <;> omega
  | case4 minX maxX previous span next rest absent ih =>
    have last' := previous_last (lasts span List.mem_cons_self) before
    obtain ⟨bounds, isSome, inner⟩ :=
      ih (fun span member => firsts span (List.mem_cons_of_mem _ member))
        (fun span member => lasts span (List.mem_cons_of_mem _ member)) last'
    refine ⟨bounds, isSome, ?_⟩
    rw [List.dropLast_cons_of_ne_nil (List.cons_ne_nil _ _), List.forall_mem_cons]
    refine ⟨?_, inner⟩
    -- a span with segments has a first and a last one
    have empty : span.2 = [] := by
      by_contra nonempty
      apply absent (span.2.head nonempty) (span.2.getLast nonempty)
      · simp [segments, List.head?_append, List.head?_eq_some_head nonempty]
      · simp [List.getLast?_append, List.getLast?_eq_some_getLast nonempty]
    simp [empty]

theorem segments_first {s : List Int} {x : Int} (ok : Segments s) (head : s.head? = some x) :
    inside s x = true := by
  obtain ⟨rest, rfl⟩ := List.head?_eq_some_iff.mp head
  exact inside_first fun _ => List.rel_of_pairwise_cons ok.sorted

theorem segments_last {s : List Int} {x : Int} (ok : Segments s) (last : s.getLast? = some x) :
    inside s (x - 1) = true := by
  obtain ⟨rest, rfl⟩ := List.getLast?_eq_some_iff.mp last
  have before : ∀ q ∈ rest, q ≤ x - 1 := by
    intro q member
    have less := (List.pairwise_append.mp ok.sorted).2.2 q member x (List.mem_singleton_self x)
    omega
  have parity : odd rest = true := by
    have all : ∀ q ∈ rest ++ [x], q ≤ x := by
      intro q member
      obtain member | member := List.mem_append.mp member
      · exact (before q member).trans (by omega)
      · exact (List.mem_singleton.mp member).le
    have even := (inside_behind all).trans ok.even
    rw [inside_append, inside_behind fun q member => all q (List.mem_append_left _ member)] at even
    simpa [inside] using even
  have below : ¬ x ≤ x - 1 := by omega
  rw [inside_append, inside_behind before, parity]
  simp [inside, below]

theorem segments_range {s : List Int} {x : Int} (ok : Segments s) (within : inside s x = true) :
    ∃ first last, s.head? = some first ∧ s.getLast? = some last ∧ first ≤ x ∧ x < last := by
  have nonempty : s ≠ [] := by
    rintro rfl
    cases within
  refine ⟨s.head nonempty, s.getLast nonempty, List.head?_eq_some_head nonempty,
    List.getLast?_eq_some_getLast nonempty, ?_, ?_⟩
  · by_contra before
    have all : ∀ q ∈ s, x < q := by
      intro q member
      have least : s.head nonempty ≤ q := by
        cases s with
        | nil => contradiction
        | cons first rest =>
          obtain rfl | member := List.mem_cons.mp member
          · exact le_rfl
          · exact (List.rel_of_pairwise_cons ok.sorted member).le
      omega
    rw [inside_before all] at within
    cases within
  · by_contra behind
    have all : ∀ q ∈ s, q ≤ x := by
      intro q member
      rw [← List.dropLast_append_getLast nonempty] at member
      have split := ok.sorted
      rw [← List.dropLast_append_getLast nonempty, List.pairwise_append] at split
      obtain member | member := List.mem_append.mp member
      · have less := split.2.2 q member _ (List.mem_singleton_self _)
        omega
      · have same := List.mem_singleton.mp member
        omega
    rw [inside_behind all, ok.even] at within
    cases within

/-- The last change of a canonical list is a real one. -/
theorem valueAt_before_last {spans : Shape} {v : List Int} {last : Int × List Int}
    (canonical : Canonical v spans) (hlast : spans.getLast? = some last) :
    (∀ span ∈ spans, span.1 ≤ last.1) ∧ valueAt v spans (last.1 - 1) ≠ endValue v spans := by
  induction spans generalizing v with
  | nil => cases hlast
  | cons span spans ih =>
    cases spans with
    | nil =>
      obtain rfl : span = last := by simpa using hlast
      constructor
      · simp
      · rw [valueAt, if_neg (by omega)]
        exact canonical.1.symm
    | cons next spans =>
      rw [List.getLast?_cons_cons] at hlast
      obtain ⟨ordered, real⟩ := ih canonical.2.2 hlast
      have first : span.1 < next.1 := canonical.2.1 next List.mem_cons_self
      have second := ordered next List.mem_cons_self
      constructor
      · intro span' member
        obtain rfl | member := List.mem_cons.mp member
        · omega
        · exact ordered span' member
      · rw [valueAt, if_pos (by omega)]
        exact real

/-- The points of a span with segments. -/
theorem WellFormed.point {shape : Shape} (ok : shape.WellFormed) {span : Int × List Int}
    (member : span ∈ shape) {x : Int} (within : inside span.2 x = true) :
    (⟨x, span.1⟩ : IntPoint) ∈ shape.points := by
  change inside (valueAt [] shape span.1) x = true
  rw [valueAt_of_mem ok.canonical member]
  exact within

/-- A span with segments is not the last one. -/
theorem WellFormed.mem_dropLast {shape : Shape} (ok : shape.WellFormed) {span : Int × List Int}
    (member : span ∈ shape) (nonempty : span.2 ≠ []) : span ∈ shape.dropLast := by
  cases shape using List.reverseRecOn with
  | nil => cases member
  | append_singleton shape last =>
    rw [List.dropLast_concat]
    obtain member | member := List.mem_append.mp member
    · exact member
    · obtain rfl := List.mem_singleton.mp member
      have ends := ok.ends
      rw [endValue_append] at ends
      exact absurd ends nonempty

/-- A point lies in a span between the first and the last one, and between its first and its last
segment. -/
theorem WellFormed.point_span {shape : Shape} (ok : shape.WellFormed) {p : IntPoint}
    (member : p ∈ shape.points) :
    ∃ span ∈ shape.dropLast, ∃ first last, span.2.head? = some first ∧
      span.2.getLast? = some last ∧ first ≤ p.x ∧ p.x < last := by
  have within : inside (valueAt [] shape p.y) p.x = true := member
  obtain ⟨first, last, hfirst, hlast, left, right⟩ := segments_range (ok.value p.y) within
  obtain none | ⟨span, member, same⟩ := valueAt_mem [] shape p.y
  · rw [none] at hfirst
    cases hfirst
  · rw [← same] at hfirst hlast
    have nonempty : span.2 ≠ [] := by
      intro empty
      rw [empty] at hfirst
      cases hfirst
    exact ⟨span, ok.mem_dropLast member nonempty, first, last, hfirst, hlast, left, right⟩

theorem WellFormed.head_point {shape : Shape} (ok : shape.WellFormed) {y : Int}
    (nonempty : valueAt [] shape y ≠ []) : ∃ p ∈ shape.points, p.y = y :=
  ⟨⟨_, y⟩, segments_first (ok.value y) (List.head?_eq_some_head nonempty), rfl⟩

/-- **Bounds are tight.** -/
theorem bounds_touches {shape : Shape} (ok : shape.WellFormed) (nonempty : shape ≠ [])
    (range : ∀ p ∈ shape.points, intMin ≤ p.x ∧ p.x < intMax) :
    Touches shape.bounds shape.points := by
  obtain ⟨span, spans, rfl⟩ := List.exists_cons_of_ne_nil nonempty
  have hlast := List.getLast?_eq_some_getLast nonempty
  generalize (span :: spans).getLast nonempty = last at hlast
  obtain ⟨ordered, real⟩ := valueAt_before_last ok.canonical hlast
  rw [ok.ends] at real
  have top : valueAt [] (span :: spans) span.1 = span.2 := valueAt_first ok.canonical.2.1
  obtain ⟨p, inShape, -⟩ := ok.head_point (top ▸ ok.canonical.1)
  obtain ⟨some_, inner, first, end_, hfirst, hend, left, right⟩ := ok.point_span inShape
  obtain ⟨-, ⟨isFirst, isLast⟩, bounded⟩ := @boundsLoop_spec
    (fun x => ∃ p ∈ points (span :: spans), p.x = x)
    (fun x => ∃ p ∈ points (span :: spans), p.x + 1 = x) (span :: spans) intMax intMin []
    (fun span member x head => ⟨⟨x, span.1⟩, ok.point member (segments_first
      (ok.segments span member) head), rfl⟩)
    (fun span member x last => ⟨⟨x - 1, span.1⟩, ok.point member (segments_last
      (ok.segments span member) last), by simp⟩)
    nofun
  have box : bounds (span :: spans) = ⟨(boundsLoop intMax intMin [] (span :: spans)).1, span.1,
      (boundsLoop intMax intMin [] (span :: spans)).2 -
        (boundsLoop intMax intMin [] (span :: spans)).1, last.1 - span.1⟩ := by
    simp only [bounds, List.head?_cons, hlast]
  rw [box]
  generalize boundsLoop intMax intMin [] (span :: spans) = result at isFirst isLast bounded ⊢
  have inRange := range p inShape
  refine ⟨?_, ?_, ?_, ?_, ?_⟩
  · intro q member
    obtain ⟨span', inner', first', last', hfirst', hlast', left', right'⟩ := ok.point_span member
    have hmin := (bounded span' inner').1 first' hfirst'
    have hmax := (bounded span' inner').2 last' hlast'
    have above : span.1 ≤ q.y := by
      by_contra above
      have none : valueAt [] (span :: spans) q.y = [] := if_neg above
      have within : inside (valueAt [] (span :: spans) q.y) q.x = true := member
      rw [none] at within
      cases within
    have below : q.y < last.1 := by
      by_contra below
      have none : valueAt [] (span :: spans) q.y = [] := by
        rw [valueAt_behind fun span member => (ordered span member).trans (not_lt.mp below), ok.ends]
      have within : inside (valueAt [] (span :: spans) q.y) q.x = true := member
      rw [none] at within
      cases within
    rw [IntRect.mem_points]
    simp only [IntRect.maxX, IntRect.maxY]
    omega
  · obtain same | found := isFirst
    · have := (bounded some_ inner).1 first hfirst
      omega
    · exact found
  · obtain same | found := isLast
    · have := (bounded some_ inner).2 end_ hend
      omega
    · simpa [IntRect.maxX] using found
  · exact ok.head_point (top ▸ ok.canonical.1)
  · obtain ⟨q, member, same⟩ := ok.head_point real
    refine ⟨q, member, ?_⟩
    simp only [IntRect.maxY]
    omega

/-! ## Comparing -/

/-- One scan line of `contains`. -/
theorem compareSegments_sound {as bs : List Int} (ok : Segments as) (ok' : Segments bs)
    (passed : compareSegments compareContainsOperation as bs = none) {p : Int}
    (within : inside bs p = true) : inside as p = true := by
  fun_induction compareSegments compareContainsOperation as bs with
  | case1 aX aMaxX as bX bMaxX bs ih1 ih2 ih3 =>
    have tail : Segments as := ⟨ok.sorted.of_cons.of_cons, by simpa [odd] using ok.even⟩
    have tail' : Segments bs := ⟨ok'.sorted.of_cons.of_cons, by simpa [odd] using ok'.even⟩
    have left : ¬ bX < aX := by
      intro outside
      simp [compareContainsOperation, outside] at passed
    simp only [compareContainsOperation, ite_self, if_neg left, Option.orElse_eq_orElse,
      Option.orElse_eq_or, Option.none_or] at passed
    rw [inside_pair ok.sorted]
    rw [inside_pair ok'.sorted] at within
    split_ifs at passed with first second
    · exact .inr (ih1 tail ok' passed (by rwa [inside_pair ok'.sorted]))
    · obtain here | later := within
      · exact .inl ⟨(not_lt.mp left).trans here.1, here.2.trans second⟩
      · simpa [inside_pair ok.sorted] using ih2 ok tail' passed later
    · obtain here | later := within
      · exact .inl ⟨(not_lt.mp left).trans here.1, here.2.trans_le (not_lt.mp first)⟩
      · exact .inr (ih3 tail tail' passed later)
  | case2 as bs short =>
    have empty : bs = [] := by
      by_contra nonempty
      simp [compareContainsOperation, nonempty] at passed
    rw [empty] at within
    cases within

/-- The scan line function `f` from a span on. -/
structure Tail (f : Int → List Int) (y : Int) (s : List Int) (spans : Shape) : Prop where
  ordered : ∀ span ∈ spans, y < span.1
  canonical : Canonical s spans
  ends : endValue s spans = []
  current : Segments s
  segments : ∀ span ∈ spans, Segments span.2
  value : ∀ p, y ≤ p → f p = valueAt s spans p

theorem WellFormed.tail {span : Int × List Int} {spans : Shape}
    (ok : WellFormed (span :: spans)) :
    Tail (valueAt [] (span :: spans)) span.1 span.2 spans where
  ordered := ok.canonical.2.1
  canonical := ok.canonical.2.2
  ends := ok.ends
  current := ok.segments span List.mem_cons_self
  segments member inSpans := ok.segments member (List.mem_cons_of_mem _ inSpans)
  value _ behind := if_pos behind

variable {f g : Int → List Int} {y y' aY bY : Int} {s s' as bs : List Int}
  {spans aRest bRest : Shape}

theorem Tail.next (tail : Tail f y s ((y', s') :: spans)) : Tail f y' s' spans where
  ordered := tail.canonical.2.1
  canonical := tail.canonical.2.2
  ends := tail.ends
  current := tail.segments _ List.mem_cons_self
  segments span member := tail.segments span (List.mem_cons_of_mem _ member)
  value p behind := by
    have first : y < y' := tail.ordered _ List.mem_cons_self
    rw [tail.value p (first.le.trans behind), valueAt, if_pos behind]

theorem Tail.here (tail : Tail f y s ((y', s') :: spans)) {p : Int} (behind : y ≤ p)
    (before : p < y') : f p = s := by
  rw [tail.value p behind, valueAt, if_neg (not_le.mpr before)]

/-- The scan line at `p` goes only through points of the other shape. -/
def Within (f g : Int → List Int) (p : Int) : Prop := ∀ x, inside (f p) x = true → inside (g p) x = true

/-- The loop of `contains`: as long as it goes on, the second shape is contained up to the line. -/
theorem compareSpans_sound {aHad bHad : Bool} (a : Tail g aY as aRest) (b : Tail f bY bs bRest)
    (checked : ∀ p < bY, Within f g p)
    (progress : (∀ p < aY, Within f g p) ∨ (aHad = false ∧ bs ≠ []))
    (passed : compareSpans compareContainsOperation ((aY, as) :: aRest) ((bY, bs) :: bRest) aHad
      bHad = none) : ∀ p, Within f g p := by
  induction h : aRest.length + bRest.length using Nat.strong_induction_on
    generalizing aY as aRest bY bs bRest aHad bHad with
  | _ n ih =>
  cases bRest with
  | nil =>
    intro p
    by_cases before : p < bY
    · exact checked p before
    · intro x within
      obtain rfl : bs = [] := b.ends
      rw [b.value p (not_lt.mp before)] at within
      cases within
  | cons bNext bRest =>
    obtain ⟨bMaxY, bs'⟩ := bNext
    cases aRest with
    | nil => simp [compareSpans, compareContainsOperation] at passed
    | cons aNext aRest =>
      obtain ⟨aMaxY, as'⟩ := aNext
      have aHeight : aY < aMaxY := a.ordered _ List.mem_cons_self
      have bHeight : bY < bMaxY := b.ordered _ List.mem_cons_self
      have above : ¬ (bY < aY ∧ aHad = false ∧ bs ≠ []) := by
        intro outside
        rw [compareSpans, if_pos outside] at passed
        simp [compareContainsOperation] at passed
      simp only [compareSpans, if_neg above, compareContainsOperation, ite_self,
        Option.orElse_eq_orElse, Option.orElse_eq_or, Option.none_or, Option.or_eq_none_iff]
        at passed
      obtain ⟨line, rest⟩ := passed
      have start : ∀ p, p < aY ∨ p < bY → Within f g p := by
        intro p before
        obtain all | initial := progress
        · exact before.elim (all p) (checked p)
        · have below : ¬ bY < aY := fun first => above ⟨first, initial⟩
          exact checked p (by omega)
      have done : ∀ p, p < aMaxY → p < bMaxY → Within f g p := by
        intro p hp hp'
        by_cases before : p < aY ∨ p < bY
        · exact start p before
        · have overlap : bMaxY > aY ∧ bY < aMaxY := by omega
          rw [if_pos overlap] at line
          intro x within
          rw [b.here (by omega) hp'] at within
          rw [a.here (by omega) hp]
          exact compareSegments_sound a.current b.current line within
      simp only [List.length_cons] at h
      split_ifs at rest with first second
      · exact ih _ (by simp; omega) a.next b checked
          (.inl fun p before => done p before (before.trans first)) rest rfl
      · exact ih _ (by simp; omega) a b.next (fun p before => done p (before.trans second) before)
          (.inl fun p before => start p (.inl before)) rest rfl
      · exact ih _ (by omega) a.next b.next (fun p before => done p (by omega) before)
          (.inl fun p before => done p before (by omega)) rest rfl

theorem or_ne_true {a b : Option Bool} (left : a ≠ some true) (right : b ≠ some true) :
    (a <|> b) ≠ some true := by
  cases a with
  | none => exact right
  | some value => exact left

theorem compareSegments_false {as bs : List Int} :
    compareSegments compareContainsOperation as bs ≠ some true := by
  fun_induction compareSegments compareContainsOperation as bs with
  | case1 => grind [compareContainsOperation]
  | case2 => grind [compareContainsOperation]

/-- `contains` returns early only where it fails. -/
theorem compareSpans_false {a b : Shape} {aHad bHad : Bool} :
    compareSpans compareContainsOperation a b aHad bHad ≠ some true := by
  fun_induction compareSpans compareContainsOperation a b aHad bHad with
  | case1 aY as aMaxY as' aRest bY bs bMaxY bs' bRest aHad bHad ih1 ih2 ih3 =>
    apply or_ne_true
    · simp [compareContainsOperation]
    · apply or_ne_true
      · simp [compareContainsOperation]
      · apply or_ne_true
        · split_ifs
          · exact compareSegments_false
          · nofun
        · split_ifs
          · assumption
          · assumption
          · assumption
  | case2 =>
    apply or_ne_true
    · simp [compareContainsOperation]
    · simp [compareContainsOperation]

theorem compareShapes_sound {a b : Shape} (ok : a.WellFormed) (ok' : b.WellFormed)
    (passed : compareShapes compareContainsOperation a b = true) : b.points ⊆ a.points := by
  have continued : compareSpans compareContainsOperation a b false false = none := by
    cases result : compareSpans compareContainsOperation a b false false with
    | none => rfl
    | some value =>
      cases value with
      | true => exact absurd result compareSpans_false
      | false => simp [compareShapes, result] at passed
  cases b with
  | nil => simp [points_nil]
  | cons bSpan bRest =>
    cases a with
    | nil =>
      cases bRest with
      | nil => exact absurd ok'.ends ok'.canonical.1
      | cons next bRest => simp [compareSpans, compareContainsOperation] at continued
    | cons aSpan aRest =>
      have all := compareSpans_sound ok.tail ok'.tail (fun p before => ?_)
        (.inr ⟨rfl, ok'.canonical.1⟩) continued
      · exact fun p member => all p.y p.x member
      · intro x within
        rw [valueAt, if_neg (not_le.mpr before)] at within
        cases within

end Shape

end NetRider.Graphics
