import NetRider.Graphics.RegionQueries

/-!
# Regions are a set algebra

`Denotes`: the shape of a region is well-formed and has the points of a set, and its bounds touch
them. Every operation keeps this for its operation on sets. `Expression` is a region as it is made
from rectangles.
-/

namespace NetRider.Graphics

open NetRider.Lib

namespace Shape

/-! ## Shapes of one rectangle -/

theorem ofRect_points {rect : IntRect} (width : 0 < rect.width) : (ofRect rect).points = rect.points := by
  ext p
  change inside (valueAt [] (ofRect rect) p.y) p.x = true ↔ _
  have sorted : [rect.x, rect.maxX].Pairwise (· < ·) := by
    simp only [List.pairwise_pair, IntRect.maxX]
    omega
  rw [IntRect.mem_points]
  simp only [ofRect, valueAt]
  split_ifs with top bottom
  · simp [inside, not_lt.mpr bottom]
  · rw [inside_pair sorted]
    simp [inside, top, not_le.mp bottom]
  · simp [inside, top]

theorem ofRect_wellFormed {rect : IntRect} (width : 0 < rect.width) (height : 0 < rect.height) :
    (ofRect rect).WellFormed := by
  have right : rect.x < rect.maxX := by simp only [IntRect.maxX]; omega
  have below : rect.y < rect.maxY := by simp only [IntRect.maxY]; omega
  constructor
  · simp [ofRect, Canonical, below]
  · rfl
  · simp only [ofRect, List.forall_mem_cons, List.not_mem_nil]
    refine ⟨⟨?_, rfl⟩, .nil, ?_⟩
    · simpa using right
    · simp

theorem spansFrom_length (index : Nat) (shape : Shape) :
    (spansFrom index shape).length = shape.length := by
  induction shape generalizing index with
  | nil => rfl
  | cons span spans ih => simp [spansFrom, ih]

/-- `isRect` also says yes to the empty shape. -/
theorem WellFormed.isRect {shape : Shape} (ok : shape.WellFormed) (rect : shape.isRect = true) :
    shape = [] ∨ ∃ rect : IntRect, 0 < rect.width ∧ 0 < rect.height ∧ shape = ofRect rect := by
  simp only [Shape.isRect, spans, spansFrom_length, Bool.and_eq_true, decide_eq_true_eq] at rect
  obtain ⟨two, segments⟩ := rect
  match shape, ok, two, segments with
  | [], _, _, _ => exact .inl rfl
  | [span], ok, _, _ => exact absurd ok.ends ok.canonical.1
  | [(y, s), (maxY, s')], ok, _, segments =>
    right
    obtain rfl : s' = [] := ok.ends
    have current := ok.segments _ List.mem_cons_self
    have height : y < maxY := ok.canonical.2.1 _ List.mem_cons_self
    match s, current, segments, ok.canonical.1 with
    | [x], current, _, _ => exact absurd current.even (by simp [odd])
    | [x, maxX], current, _, _ =>
      have width : x < maxX := by simpa using current.sorted
      refine ⟨⟨x, y, maxX - x, maxY - y⟩, ?_, ?_, ?_⟩
      · exact Int.sub_pos_of_lt width
      · exact Int.sub_pos_of_lt height
      · simp [ofRect, IntRect.maxX, IntRect.maxY]

/-! ## Equality -/

theorem spansFrom_inj {index : Nat} {a b : Shape} (sameSpans : spansFrom index a = spansFrom index b)
    (sameSegments : segments a = segments b) : a = b := by
  induction a generalizing index b with
  | nil =>
    cases b with
    | nil => rfl
    | cons span spans => cases sameSpans
  | cons span spans ih =>
    cases b with
    | nil => cases sameSpans
    | cons span' spans' =>
      obtain ⟨y, s⟩ := span
      obtain ⟨y', s'⟩ := span'
      simp only [spansFrom, List.cons.injEq, Prod.mk.injEq, and_true] at sameSpans
      obtain ⟨rfl, rest⟩ := sameSpans
      simp only [segments, List.flatMap_cons] at sameSegments
      have length : s.length = s'.length := by
        cases spans with
        | nil =>
          cases spans' with
          | nil => simpa using congrArg List.length sameSegments
          | cons => cases rest
        | cons next spans =>
          cases spans' with
          | nil => cases rest
          | cons next' spans' =>
            simp only [spansFrom, List.cons.injEq, Prod.mk.injEq] at rest
            omega
      obtain ⟨rfl, tails⟩ := List.append_inj sameSegments length
      rw [ih rest tails]

theorem equal_iff {a b : Shape} : a.equal b = true ↔ a = b := by
  constructor
  · intro h
    simp only [equal, Bool.and_eq_true, beq_iff_eq] at h
    exact spansFrom_inj h.1 h.2
  · rintro rfl
    simp [equal]

/-! ## Translation -/

theorem inside_translate (s : List Int) (dx x : Int) :
    inside (s.map (· + dx)) x = inside s (x - dx) := by
  induction s with
  | nil => rfl
  | cons q s ih => simp [inside, ih, Int.add_le_iff_le_sub]

theorem odd_map (s : List Int) (dx : Int) : odd (s.map (· + dx)) = odd s := by
  induction s with
  | nil => rfl
  | cons q s ih => simp [odd, ih]

theorem valueAt_translate (v : List Int) (shape : Shape) (offset : IntSize) (y : Int) :
    valueAt (v.map (· + offset.width)) (shape.translate offset) y =
      (valueAt v shape (y - offset.height)).map (· + offset.width) := by
  induction shape generalizing v with
  | nil => rfl
  | cons span spans ih =>
    simp only [translate, List.map_cons, valueAt, Int.add_le_iff_le_sub]
    split_ifs with behind
    · exact ih span.2
    · rfl

theorem endValue_translate (v : List Int) (shape : Shape) (offset : IntSize) :
    endValue (v.map (· + offset.width)) (shape.translate offset) =
      (endValue v shape).map (· + offset.width) := by
  induction shape generalizing v with
  | nil => rfl
  | cons span spans ih => exact ih span.2

theorem canonical_translate {v : List Int} {shape : Shape} (canonical : Canonical v shape)
    (offset : IntSize) : Canonical (v.map (· + offset.width)) (shape.translate offset) := by
  induction shape generalizing v with
  | nil => trivial
  | cons span spans ih =>
    refine ⟨?_, ?_, ih canonical.2.2⟩
    · intro same
      exact canonical.1 (List.map_injective_iff.mpr (add_left_injective _) same)
    · intro moved member
      obtain ⟨span', member', rfl⟩ := List.mem_map.mp member
      have ordered := canonical.2.1 span' member'
      simpa using ordered

theorem WellFormed.translate {shape : Shape} (ok : shape.WellFormed) (offset : IntSize) :
    (shape.translate offset).WellFormed := by
  refine ⟨canonical_translate ok.canonical offset, ?_, ?_⟩
  · have ends := endValue_translate [] shape offset
    rwa [ok.ends] at ends
  · intro moved member
    obtain ⟨span, member', rfl⟩ := List.mem_map.mp member
    have segments := ok.segments span member'
    refine ⟨?_, (odd_map _ _).trans segments.even⟩
    rw [List.pairwise_map]
    exact segments.sorted.imp fun less => by omega

theorem points_translate (shape : Shape) (offset : IntSize) (p : IntPoint) :
    p ∈ (shape.translate offset).points ↔
      (⟨p.x - offset.width, p.y - offset.height⟩ : IntPoint) ∈ shape.points := by
  change inside (valueAt [] (shape.translate offset) p.y) p.x = true ↔ inside _ _ = true
  have moved := valueAt_translate [] shape offset p.y
  rw [List.map_nil] at moved
  rw [moved, inside_translate]

end Shape

theorem IntRect.points_touch {rect : IntRect} (width : 0 < rect.width) (height : 0 < rect.height) :
    Touches rect rect.points := by
  have corner : ∀ x y, rect.x ≤ x ∧ x < rect.maxX → rect.y ≤ y ∧ y < rect.maxY →
      (⟨x, y⟩ : IntPoint) ∈ rect.points := fun x y inX inY => mem_points.mpr ⟨inX, inY⟩
  have right : rect.x < rect.maxX := by simp only [maxX]; omega
  have below : rect.y < rect.maxY := by simp only [maxY]; omega
  constructor
  · exact subset_rfl
  · exact ⟨_, corner rect.x rect.y (by omega) (by omega), rfl⟩
  · exact ⟨_, corner (rect.maxX - 1) rect.y (by omega) (by omega), by simp⟩
  · exact ⟨_, corner rect.x rect.y (by omega) (by omega), rfl⟩
  · exact ⟨_, corner rect.x (rect.maxY - 1) (by omega) (by omega), by simp⟩

theorem IntRect.contains_subset {rect other : IntRect} (h : rect.contains other = true) :
    other.points ⊆ rect.points := by
  simp only [contains, Bool.and_eq_true, decide_eq_true_eq] at h
  intro p member
  rw [mem_points] at member ⊢
  omega

namespace Region

/-- The region has the points of `S` in canonical form. -/
structure Denotes (r : Region) (S : Set IntPoint) : Prop where
  shape : r.shape.WellFormed
  points : r.shape.points = S
  bounds : S = ∅ ∧ r.bounds.width = 0 ∧ r.bounds.height = 0 ∨ Touches r.bounds S
  range : ∀ p ∈ S, intMin ≤ p.x ∧ p.x < intMax

variable {r region : Region} {S T : Set IntPoint}

theorem Denotes.isEmpty_iff (d : r.Denotes S) : r.bounds.isEmpty = true ↔ S = ∅ := by
  simp only [IntRect.isEmpty, Bool.or_eq_true, decide_eq_true_eq]
  obtain ⟨empty, width, height⟩ | touches := d.bounds
  · simp [empty, width]
  · have size := touches.nonempty
    obtain ⟨p, member, _⟩ := touches.left
    constructor
    · omega
    · intro empty
      rw [empty] at member
      cases member

theorem Denotes.covers (d : r.Denotes S) : S ⊆ r.bounds.points := by
  obtain ⟨rfl, -⟩ | touches := d.bounds
  · exact Set.empty_subset _
  · exact touches.covers

theorem Denotes.tight (d : r.Denotes S) : TightBox r.bounds S := by
  obtain ⟨rfl, width, -⟩ | touches := d.bounds
  · refine ⟨Set.empty_subset _, ?_⟩
    intro rect _ p member
    rw [IntRect.mem_points, IntRect.maxX] at member
    omega
  · exact touches.tight

theorem Denotes.not_intersects (d : r.Denotes S) (d' : region.Denotes T)
    (apart : r.bounds.intersects region.bounds = false) : S ∩ T = ∅ := by
  rw [Set.eq_empty_iff_forall_notMem]
  rintro p ⟨inS, inT⟩
  have one := IntRect.mem_points.mp (d.covers inS)
  have other := IntRect.mem_points.mp (d'.covers inT)
  have size : r.bounds.isEmpty = false := by
    rw [← Bool.not_eq_true, d.isEmpty_iff]
    exact fun empty => (empty ▸ inS : p ∈ (∅ : Set IntPoint))
  have size' : region.bounds.isEmpty = false := by
    rw [← Bool.not_eq_true, d'.isEmpty_iff]
    exact fun empty => (empty ▸ inT : p ∈ (∅ : Set IntPoint))
  have meet : r.bounds.intersects region.bounds = true := by
    simp only [IntRect.intersects, size, size', Bool.not_false, Bool.true_and, Bool.and_eq_true,
      decide_eq_true_eq]
    omega
  rw [meet] at apart
  cases apart

theorem Denotes.ofShape {shape : Shape} (ok : shape.WellFormed)
    (range : ∀ p ∈ shape.points, intMin ≤ p.x ∧ p.x < intMax) :
    Denotes ⟨shape.bounds, shape⟩ shape.points := by
  refine ⟨ok, rfl, ?_, range⟩
  by_cases empty : shape = []
  · subst empty
    exact .inl ⟨Shape.points_nil, rfl, rfl⟩
  · exact .inr (Shape.bounds_touches ok empty range)

theorem Denotes.rect {rect : IntRect} (width : 0 < rect.width) (height : 0 < rect.height)
    (left : intMin ≤ rect.x) (right : rect.maxX ≤ intMax) : (ofRect rect).Denotes rect.points := by
  refine ⟨Shape.ofRect_wellFormed width height, Shape.ofRect_points width,
    .inr (IntRect.points_touch width height), ?_⟩
  intro p member
  rw [IntRect.mem_points] at member
  omega

/-- A region of one rectangle is its bounds. -/
theorem Denotes.isRect (d : r.Denotes S) (rect : r.isRect = true) : r.bounds.points ⊆ S := by
  obtain ⟨rfl, width, -⟩ | touches := d.bounds
  · intro p member
    rw [IntRect.mem_points, IntRect.maxX] at member
    omega
  · obtain empty | ⟨rect, width, height, same⟩ := d.shape.isRect rect
    · obtain ⟨p, member, _⟩ := touches.left
      rw [← d.points, empty, Shape.points_nil] at member
      cases member
    · have points := d.points
      rw [same, Shape.ofRect_points width] at points
      rw [touches.unique (points ▸ IntRect.points_touch width height), points]

/-! ## The operations -/

theorem intersect_points {a b : Shape} (ok : a.WellFormed) (ok' : b.WellFormed) :
    (a.intersectShapes b).WellFormed ∧ (a.intersectShapes b).points = a.points ∩ b.points := by
  obtain ⟨merged, same⟩ := Shape.mergeSpans_computes Shape.intersect_computes ok ok'
  refine ⟨merged, ?_⟩
  ext p
  exact (Bool.eq_iff_iff.mp (same p.y p.x)).trans Bool.and_eq_true_iff

theorem subtract_points {a b : Shape} (ok : a.WellFormed) (ok' : b.WellFormed) :
    (a.subtractShapes b).WellFormed ∧ (a.subtractShapes b).points = a.points \ b.points := by
  obtain ⟨merged, same⟩ := Shape.mergeSpans_computes Shape.subtract_computes ok ok'
  refine ⟨merged, ?_⟩
  ext p
  apply (Bool.eq_iff_iff.mp (same p.y p.x)).trans
  rw [Bool.and_eq_true_iff, Bool.not_eq_true', ← Bool.not_eq_true]
  rfl

theorem union_points {a b : Shape} (ok : a.WellFormed) (ok' : b.WellFormed) :
    (a.unionShapes b).WellFormed ∧ (a.unionShapes b).points = a.points ∪ b.points := by
  cases a with
  | nil =>
    have same : Shape.unionShapes [] b = b := rfl
    rw [same, Shape.points_nil, Set.empty_union]
    exact ⟨ok', rfl⟩
  | cons span spans =>
    obtain ⟨merged, same⟩ := Shape.mergeSpans_computes Shape.union_computes ok ok'
    refine ⟨merged, ?_⟩
    ext p
    exact (Bool.eq_iff_iff.mp (same p.y p.x)).trans Bool.or_eq_true_iff

theorem Denotes.intersect (d : r.Denotes S) (d' : region.Denotes T) :
    (r.intersect region).Denotes (S ∩ T) := by
  unfold Region.intersect
  split_ifs with empty apart
  · obtain rfl := d.isEmpty_iff.mp empty
    rwa [Set.empty_inter]
  · rw [d.not_intersects d' (by simpa using apart)]
    exact ⟨.nil, Shape.points_nil, .inl ⟨rfl, rfl, rfl⟩, nofun⟩
  · obtain ⟨ok, points⟩ := intersect_points d.shape d'.shape
    rw [d.points, d'.points] at points
    rw [← points]
    apply Denotes.ofShape ok
    rw [points]
    exact fun p member => d.range p member.1

theorem Denotes.subtract (d : r.Denotes S) (d' : region.Denotes T) :
    (r.subtract region).Denotes (S \ T) := by
  unfold Region.subtract
  split_ifs with empty empty' apart
  · obtain rfl := d.isEmpty_iff.mp empty
    rwa [Set.empty_sdiff]
  · obtain rfl := d'.isEmpty_iff.mp empty'
    rwa [Set.sdiff_empty]
  · have disjoint := d.not_intersects d' (by simpa using apart)
    rwa [sdiff_eq_self_iff_disjoint.mpr (Set.disjoint_iff_inter_eq_empty.mpr disjoint).symm]
  · obtain ⟨ok, points⟩ := subtract_points d.shape d'.shape
    rw [d.points, d'.points] at points
    rw [← points]
    apply Denotes.ofShape ok
    rw [points]
    exact fun p member => d.range p member.1

theorem unite_touches {a b : IntRect} (touches : Touches a S) (touches' : Touches b T) :
    Touches (a.unite b) (S ∪ T) := by
  obtain ⟨width, height⟩ := touches.nonempty
  obtain ⟨width', height'⟩ := touches'.nonempty
  have rect : a.unite b = ⟨min a.x b.x, min a.y b.y, max a.maxX b.maxX - min a.x b.x,
      max a.maxY b.maxY - min a.y b.y⟩ := by
    simp [IntRect.unite, IntRect.isEmpty, not_le.mpr width, not_le.mpr height, not_le.mpr width',
      not_le.mpr height']
  obtain ⟨left, inLeft, hleft⟩ := touches.left
  obtain ⟨right, inRight, hright⟩ := touches.right
  obtain ⟨top, inTop, htop⟩ := touches.top
  obtain ⟨bottom, inBottom, hbottom⟩ := touches.bottom
  obtain ⟨left', inLeft', hleft'⟩ := touches'.left
  obtain ⟨right', inRight', hright'⟩ := touches'.right
  obtain ⟨top', inTop', htop'⟩ := touches'.top
  obtain ⟨bottom', inBottom', hbottom'⟩ := touches'.bottom
  rw [rect]
  constructor
  · rintro p (inS | inT)
    · have inA := IntRect.mem_points.mp (touches.covers inS)
      rw [IntRect.mem_points]
      simp only [IntRect.maxX, IntRect.maxY] at inA ⊢
      omega
    · have inB := IntRect.mem_points.mp (touches'.covers inT)
      rw [IntRect.mem_points]
      simp only [IntRect.maxX, IntRect.maxY] at inB ⊢
      omega
  · obtain first | second := le_total a.x b.x
    · exact ⟨left, .inl inLeft, by simp only [min_eq_left first]; omega⟩
    · exact ⟨left', .inr inLeft', by simp only [min_eq_right second]; omega⟩
  · obtain first | second := le_total a.maxX b.maxX
    · exact ⟨right', .inr inRight', by simp only [IntRect.maxX] at *; omega⟩
    · exact ⟨right, .inl inRight, by simp only [IntRect.maxX] at *; omega⟩
  · obtain first | second := le_total a.y b.y
    · exact ⟨top, .inl inTop, by simp only [min_eq_left first]; omega⟩
    · exact ⟨top', .inr inTop', by simp only [min_eq_right second]; omega⟩
  · obtain first | second := le_total a.maxY b.maxY
    · exact ⟨bottom', .inr inBottom', by simp only [IntRect.maxY] at *; omega⟩
    · exact ⟨bottom, .inl inBottom, by simp only [IntRect.maxY] at *; omega⟩

theorem Denotes.unite (d : r.Denotes S) (d' : region.Denotes T) :
    (r.unite region).Denotes (S ∪ T) := by
  unfold Region.unite
  split_ifs with empty inner outer contained
  · obtain rfl := d'.isEmpty_iff.mp empty
    rwa [Set.union_empty]
  · rw [Bool.and_eq_true] at inner
    have subset : T ⊆ S :=
      (d'.covers.trans (IntRect.contains_subset inner.2)).trans (d.isRect inner.1)
    rwa [Set.union_eq_left.mpr subset]
  · rw [Bool.and_eq_true] at outer
    have subset : S ⊆ T :=
      (d.covers.trans (IntRect.contains_subset outer.2)).trans (d'.isRect outer.1)
    rwa [Set.union_eq_right.mpr subset]
  · simp only [contains, Bool.and_eq_true] at contained
    have subset : T ⊆ S := by
      rw [← d.points, ← d'.points]
      exact Shape.compareShapes_sound d.shape d'.shape contained.2.2
    rwa [Set.union_eq_left.mpr subset]
  · obtain ⟨ok, points⟩ := union_points d.shape d'.shape
    refine ⟨ok, by rw [points, d.points, d'.points], .inr ?_, ?_⟩
    · have touches' : Touches region.bounds T :=
        d'.bounds.resolve_left fun none => empty (d'.isEmpty_iff.mpr none.1)
      obtain ⟨rfl, width, -⟩ | touches := d.bounds
      · have other : r.bounds.unite region.bounds = region.bounds := by
          have size : region.bounds.isEmpty = false := Bool.eq_false_of_not_eq_true empty
          simp only [IntRect.unite, size]
          simp [IntRect.isEmpty, width]
        rwa [other, Set.empty_union]
      · exact unite_touches touches touches'
    · rintro p (inS | inT)
      · exact d.range p inS
      · exact d'.range p inT

/-- The points of a set that is moved. -/
def moved (S : Set IntPoint) (offset : IntSize) : Set IntPoint :=
  {p | (⟨p.x - offset.width, p.y - offset.height⟩ : IntPoint) ∈ S}

theorem Denotes.translate (d : r.Denotes S) (offset : IntSize)
    (range : ∀ p ∈ moved S offset, intMin ≤ p.x ∧ p.x < intMax) :
    (r.translate offset).Denotes (moved S offset) := by
  refine ⟨d.shape.translate offset, ?_, ?_, range⟩
  · ext p
    rw [← d.points]
    exact Shape.points_translate r.shape offset p
  · obtain ⟨rfl, width, height⟩ | touches := d.bounds
    · exact .inl ⟨rfl, width, height⟩
    · right
      have move : ∀ p ∈ S, (⟨p.x + offset.width, p.y + offset.height⟩ : IntPoint) ∈ moved S offset := by
        intro p member
        simpa [moved] using member
      obtain ⟨left, inLeft, hleft⟩ := touches.left
      obtain ⟨right, inRight, hright⟩ := touches.right
      obtain ⟨top, inTop, htop⟩ := touches.top
      obtain ⟨bottom, inBottom, hbottom⟩ := touches.bottom
      simp only [IntRect.maxX, IntRect.maxY] at hright hbottom
      constructor
      · intro p member
        have inBounds := IntRect.mem_points.mp (touches.covers member)
        rw [IntRect.mem_points]
        simp only [IntRect.maxX, IntRect.maxY, Region.translate, IntRect.move] at inBounds ⊢
        omega
      · exact ⟨_, move left inLeft, by simp [Region.translate, IntRect.move, hleft]⟩
      · refine ⟨_, move right inRight, ?_⟩
        simp only [Region.translate, IntRect.move, IntRect.maxX]
        omega
      · exact ⟨_, move top inTop, by simp [Region.translate, IntRect.move, htop]⟩
      · refine ⟨_, move bottom inBottom, ?_⟩
        simp only [Region.translate, IntRect.move, IntRect.maxY]
        omega

end Region

/-! ## Regions made from rectangles -/

/-- How a region is made. -/
inductive Expression
  | rect (rect : IntRect)
  | unite (a b : Expression)
  | intersect (a b : Expression)
  | subtract (a b : Expression)
  | translate (a : Expression) (offset : IntSize)

namespace Expression

def region : Expression → Region
  | rect r => .ofRect r
  | unite a b => a.region.unite b.region
  | intersect a b => a.region.intersect b.region
  | subtract a b => a.region.subtract b.region
  | translate a offset => a.region.translate offset

/-- The set of points that the region stands for. -/
def points : Expression → Set IntPoint
  | rect r => r.points
  | unite a b => a.points ∪ b.points
  | intersect a b => a.points ∩ b.points
  | subtract a b => a.points \ b.points
  | translate a offset => Region.moved a.points offset

/-- The rectangles are not empty, and rectangles and translated regions have coordinates that are
`int`. -/
def Small : Expression → Prop
  | rect r => (0 < r.width ∧ 0 < r.height) ∧ intMin ≤ r.x ∧ r.maxX ≤ intMax ∧ intMin ≤ r.y ∧
      r.maxY ≤ intMax
  | unite a b | intersect a b | subtract a b => a.Small ∧ b.Small
  | translate a offset => a.Small ∧ ∀ p ∈ Region.moved a.points offset,
      (intMin ≤ p.x ∧ p.x < intMax) ∧ intMin ≤ p.y ∧ p.y < intMax

/-- No empty region is moved. -/
def MovesPoints : Expression → Prop
  | rect _ => True
  | unite a b | intersect a b | subtract a b => a.MovesPoints ∧ b.MovesPoints
  | translate a offset => a.MovesPoints ∧ (a.region.isEmpty = false ∨ offset = ⟨0, 0⟩)

theorem denotes {e : Expression} (small : e.Small) : e.region.Denotes e.points := by
  induction e with
  | rect r => exact .rect small.1.1 small.1.2 small.2.1 small.2.2.1
  | unite a b ih ih' => exact (ih small.1).unite (ih' small.2)
  | intersect a b ih ih' => exact (ih small.1).intersect (ih' small.2)
  | subtract a b ih ih' => exact (ih small.1).subtract (ih' small.2)
  | translate a offset ih =>
    exact (ih small.1).translate offset fun p member => (small.2 p member).1

/-- Without translations of empty regions there is one empty region. -/
theorem empty_bounds {e : Expression} (small : e.Small) (moves : e.MovesPoints)
    (empty : e.region.shape = []) : e.region.bounds = .zero := by
  induction e with
  | rect r => cases empty
  | unite a b ih ih' =>
    have d := denotes small
    simp only [region, Region.unite] at empty d ⊢
    split_ifs at empty d ⊢ with none inner outer contained
    · exact ih small.1 moves.1 empty
    · exact ih small.1 moves.1 empty
    · exact ih' small.2 moves.2 empty
    · exact ih small.1 moves.1 empty
    · -- the second region has points, so the union has
      have union : a.points ∪ b.points = ∅ := by
        rw [← Shape.points_nil, ← empty]
        exact d.points.symm
      exact absurd ((denotes small.2).isEmpty_iff.mpr (Set.union_empty_iff.mp union).2) none
  | intersect a b ih ih' =>
    simp only [region, Region.intersect] at empty ⊢
    split_ifs at empty ⊢ with none apart
    · exact ih small.1 moves.1 empty
    · rfl
    · simp only at empty ⊢
      rw [empty]
      rfl
  | subtract a b ih ih' =>
    simp only [region, Region.subtract] at empty ⊢
    split_ifs at empty ⊢ with none none' apart
    · exact ih small.1 moves.1 empty
    · exact ih small.1 moves.1 empty
    · exact ih small.1 moves.1 empty
    · simp only at empty ⊢
      rw [empty]
      rfl
  | translate a offset ih =>
    have zero := ih small.1 moves.1 (List.map_eq_nil_iff.mp empty)
    obtain points | rfl := moves.2
    · rw [Region.isEmpty, zero] at points
      cases points
    · simp [region, Region.translate, zero, IntRect.move, IntRect.zero]

theorem equal_iff {a b : Expression} (small : a.Small) (small' : b.Small) (moves : a.MovesPoints)
    (moves' : b.MovesPoints) : a.region.equal b.region = true ↔ a.points = b.points := by
  have d := denotes small
  have d' := denotes small'
  simp only [Region.equal, Bool.and_eq_true, beq_iff_eq, Shape.equal_iff]
  constructor
  · rintro ⟨-, shape⟩
    rw [← d.points, ← d'.points, shape]
  · intro same
    have shape : a.region.shape = b.region.shape :=
      d.shape.ext d'.shape (d.points.trans (same.trans d'.points.symm))
    refine ⟨?_, shape⟩
    obtain ⟨none, -⟩ | touches := d.bounds
    · have empty : a.region.shape = [] := by
        apply d.shape.ext .nil
        rw [d.points, none, Shape.points_nil]
      rw [empty_bounds small moves empty, empty_bounds small' moves' (shape ▸ empty)]
    · obtain ⟨none, -⟩ | touches' := d'.bounds
      · obtain ⟨p, member, _⟩ := touches.left
        rw [same, none] at member
        cases member
      · exact touches.unique (same ▸ touches')

/-- **Regions are an exact and canonical set algebra.** Points, rectangles and bounds of a region
are those of its set. Two regions are equal if and only if their sets are, as long as no empty
region was moved on the way. -/
theorem region_exact (a b : Expression) (small : a.Small) (small' : b.Small) :
    (∀ p, a.region.containsPoint p = true ↔ p ∈ a.points) ∧
    Shape.Covers a.region.rects a.points ∧
    TightBox a.region.bounds a.points ∧
    (a.MovesPoints → b.MovesPoints →
      (a.region.equal b.region = true ↔ a.points = b.points)) := by
  have d := denotes small
  refine ⟨?_, ?_, d.tight, fun moves moves' => equal_iff small small' moves moves'⟩
  · intro p
    rw [Region.containsPoint, Bool.and_eq_true, ← Shape.mem_points_iff d.shape, d.points]
    exact and_iff_right_of_imp fun member => d.covers member
  · have covers := d.shape.rects_cover
    rwa [d.points] at covers

/-- A square without its corner, and the same from two rectangles. -/
theorem region_exact_corner :
    ∃ a b : Expression, a.Small ∧ b.Small ∧ a.region.rects = [⟨0, 0, 1, 1⟩, ⟨0, 1, 2, 1⟩] ∧
      Shape.Covers a.region.rects a.points ∧ a.region.equal b.region = true ∧
      a.points = b.points := by
  let a : Expression := .subtract (.rect ⟨0, 0, 2, 2⟩) (.rect ⟨1, 0, 1, 1⟩)
  let b : Expression := .unite (.rect ⟨0, 0, 1, 2⟩) (.rect ⟨0, 1, 2, 1⟩)
  have small : a.Small := by simp [a, Small, IntRect.maxX, IntRect.maxY, intMin, intMax]
  have small' : b.Small := by simp [b, Small, IntRect.maxX, IntRect.maxY, intMin, intMax]
  have equal : a.region.equal b.region = true := by decide +kernel
  obtain ⟨-, covers, -, equality⟩ := region_exact a b small small'
  refine ⟨a, b, small, small', by decide +kernel, covers, equal, ?_⟩
  exact (equality ⟨trivial, trivial⟩ ⟨trivial, trivial⟩).mp equal

/-- Two squares with no point in common. -/
def apart : Expression := .intersect (.rect ⟨0, 0, 1, 1⟩) (.rect ⟨5, 5, 1, 1⟩)

theorem apart_small : apart.Small := by
  simp [apart, Small, IntRect.maxX, IntRect.maxY, intMin, intMax]

theorem apart_empty : apart.points = ∅ := by
  ext p
  constructor
  · rintro ⟨first, second⟩
    simp only [points, IntRect.mem_points, IntRect.maxX, IntRect.maxY] at first second
    omega
  · intro member
    cases member

/-- The empty region that was moved differs from the one that was not. -/
theorem region_differs_movedEmpty :
    ∃ a b : Expression, a.Small ∧ b.Small ∧ a.points = b.points ∧
      a.region.equal b.region = false := by
  refine ⟨apart, .translate apart ⟨1, 1⟩, apart_small, ⟨apart_small, ?_⟩, ?_, ?_⟩
  · rw [apart_empty]
    nofun
  · change apart.points = Region.moved apart.points ⟨1, 1⟩
    rw [apart_empty]
    rfl
  · decide

end Expression

end NetRider.Graphics
