import Mathlib

/-!
# Lists of ranges

A set of elements of a linear order as a list of ranges. The list is canonical when the ranges are
in order and no two of them touch. `absorb` adds a range; the result is the least canonical list
that covers both.
-/

namespace NetRider.Lib

/-- From `start` on, up to but without `stop`. -/
structure Range (α : Type*) where
  start : α
  stop : α
  deriving DecidableEq, Repr

variable {α : Type*} [LinearOrder α]

namespace Range

variable (range other : Range α)

def points : Set α := {x | range.start ≤ x ∧ x < range.stop}

/-- The ranges have an element or an end in common. -/
def Touches : Prop := range.start ≤ other.stop ∧ other.start ≤ range.stop

instance : Decidable (range.Touches other) := inferInstanceAs (Decidable (_ ∧ _))

def hull : Range α := ⟨min range.start other.start, max range.stop other.stop⟩

def Within : Prop := other.start ≤ range.start ∧ range.stop ≤ other.stop

end Range

/-! ## Canonical lists -/

namespace RangeList

structure Canonical (ranges : List (Range α)) : Prop where
  ordered : ∀ range ∈ ranges, range.start ≤ range.stop
  apart : ranges.Pairwise fun range next => range.stop < next.start

def points (ranges : List (Range α)) : Set α := {x | ∃ range ∈ ranges, x ∈ range.points}

/-- Every range of the first list lies within one of the second. -/
def CoveredBy (ranges ranges' : List (Range α)) : Prop :=
  ∀ range ∈ ranges, ∃ range' ∈ ranges', range.Within range'

variable {range other : Range α} {ranges ranges' : List (Range α)}

theorem points_cons : points (range :: ranges) = range.points ∪ points ranges := by
  ext x
  simp [points]

theorem Canonical.nil : Canonical ([] : List (Range α)) := ⟨by simp, .nil⟩

theorem Canonical.tail (canonical : Canonical (range :: ranges)) : Canonical ranges :=
  ⟨fun other member => canonical.ordered other (List.mem_cons_of_mem _ member),
    canonical.apart.of_cons⟩

theorem Canonical.head (canonical : Canonical (range :: ranges)) : range.start ≤ range.stop :=
  canonical.ordered range List.mem_cons_self

theorem Canonical.behind (canonical : Canonical (range :: ranges)) (member : other ∈ ranges) :
    range.stop < other.start :=
  List.rel_of_pairwise_cons canonical.apart member

/-- Ranges of a canonical list that touch are the same. -/
theorem Canonical.unique (canonical : Canonical ranges) (member : range ∈ ranges)
    (member' : other ∈ ranges) (touches : range.Touches other) : range = other := by
  induction ranges with
  | nil => cases member
  | cons first rest ih =>
    obtain rfl | later := List.mem_cons.mp member
    · obtain rfl | later' := List.mem_cons.mp member'
      · rfl
      · exact absurd touches.2 (not_le.mpr (canonical.behind later'))
    · obtain rfl | later' := List.mem_cons.mp member'
      · exact absurd touches.1 (not_le.mpr (canonical.behind later))
      · exact ih canonical.tail later later'

theorem within_touches {large large' : Range α} (within : range.Within large)
    (within' : other.Within large') (touches : range.Touches other) : large.Touches large' :=
  ⟨within.1.trans (touches.1.trans within'.2), within'.1.trans (touches.2.trans within.2)⟩

theorem CoveredBy.refl (ranges : List (Range α)) : CoveredBy ranges ranges :=
  fun range member => ⟨range, member, le_rfl, le_rfl⟩

/-- In canonical lists that cover each other a range of the first is one of the second. -/
theorem Canonical.mem_of_covers (canonical : Canonical ranges) (covered : CoveredBy ranges ranges')
    (covered' : CoveredBy ranges' ranges) (member : range ∈ ranges) : range ∈ ranges' := by
  obtain ⟨large, member', within⟩ := covered range member
  obtain ⟨larger, member'', within'⟩ := covered' large member'
  have touches : range.Touches larger :=
    ⟨(canonical.ordered range member).trans (within.2.trans within'.2),
      (within'.1.trans within.1).trans (canonical.ordered range member)⟩
  obtain rfl := canonical.unique member member'' touches
  have same : range = large := by
    cases range
    cases large
    exact congrArg₂ Range.mk (le_antisymm within'.1 within.1) (le_antisymm within.2 within'.2)
  exact same ▸ member'

theorem Canonical.sorted (canonical : Canonical ranges) :
    ranges.Pairwise fun range next => range.start < next.start := by
  refine canonical.apart.imp_of_mem ?_
  intro range next member _ apart
  exact (canonical.ordered range member).trans_lt apart

/-- Canonical lists that cover each other are the same. -/
theorem Canonical.ext (canonical : Canonical ranges) (canonical' : Canonical ranges')
    (covered : CoveredBy ranges ranges') (covered' : CoveredBy ranges' ranges) :
    ranges = ranges' := by
  have asymmetric : Std.Asymm fun range next : Range α => range.start < next.start :=
    ⟨fun _ _ less => lt_asymm less⟩
  exact canonical.sorted.eq_of_mem_iff canonical'.sorted fun range =>
    ⟨canonical.mem_of_covers covered covered', canonical'.mem_of_covers covered' covered⟩

/-! ## Adding a range -/

def absorb (added : Range α) : List (Range α) → List (Range α)
  | [] => [added]
  | range :: rest =>
    if added.Touches range then absorb (added.hull range) rest
    else if added.stop < range.start then added :: range :: rest
    else range :: absorb added rest

variable {added : Range α}

theorem hull_ordered (ordered : added.start ≤ added.stop) :
    (added.hull range).start ≤ (added.hull range).stop :=
  (min_le_left ..).trans (ordered.trans (le_max_left ..))

theorem hull_points (touches : added.Touches range) :
    (added.hull range).points = added.points ∪ range.points := by
  obtain ⟨first, second⟩ := touches
  ext x
  simp only [Range.points, Range.hull, Set.mem_ofPred_eq, Set.mem_union, min_le_iff, lt_max_iff]
  constructor
  · rintro ⟨from_ | from_, before | before⟩
    · exact .inl ⟨from_, before⟩
    · obtain inside | behind := lt_or_ge x added.stop
      · exact .inl ⟨from_, inside⟩
      · exact .inr ⟨second.trans behind, before⟩
    · obtain inside | behind := lt_or_ge x range.stop
      · exact .inr ⟨from_, inside⟩
      · exact .inl ⟨first.trans behind, before⟩
    · exact .inr ⟨from_, before⟩
  · rintro (inside | inside)
    · exact ⟨.inl inside.1, .inl inside.2⟩
    · exact ⟨.inr inside.1, .inr inside.2⟩

theorem absorb_points (canonical : Canonical ranges) (ordered : added.start ≤ added.stop) :
    points (absorb added ranges) = added.points ∪ points ranges := by
  induction ranges generalizing added with
  | nil => exact points_cons
  | cons range rest ih =>
    rw [absorb]
    split_ifs with touches before
    · rw [ih canonical.tail (hull_ordered ordered), hull_points touches,
        points_cons, Set.union_assoc]
    · exact points_cons
    · rw [points_cons, points_cons, ih canonical.tail ordered, Set.union_left_comm]

/-- What is in front of all ranges stays in front. -/
theorem absorb_behind {bound : α} (first : bound < added.start)
    (all : ∀ range ∈ ranges, bound < range.start) :
    ∀ range ∈ absorb added ranges, bound < range.start := by
  induction ranges generalizing added with
  | nil => simpa [absorb] using first
  | cons range rest ih =>
    obtain ⟨next, later⟩ := List.forall_mem_cons.mp all
    rw [absorb]
    split_ifs with touches before
    · exact ih (lt_min first next) later
    · exact List.forall_mem_cons.mpr ⟨first, all⟩
    · exact List.forall_mem_cons.mpr ⟨next, ih first later⟩

theorem absorb_canonical (canonical : Canonical ranges) (ordered : added.start ≤ added.stop) :
    Canonical (absorb added ranges) := by
  induction ranges generalizing added with
  | nil => exact ⟨by simpa [absorb] using ordered, by simp [absorb]⟩
  | cons range rest ih =>
    rw [absorb]
    split_ifs with touches before
    · exact ih canonical.tail (hull_ordered ordered)
    · refine ⟨List.forall_mem_cons.mpr ⟨ordered, canonical.ordered⟩, canonical.apart.cons ?_⟩
      refine List.forall_mem_cons.mpr ⟨before, fun other member => ?_⟩
      exact before.trans (canonical.head.trans_lt (canonical.behind member))
    · have rest_canonical := ih canonical.tail ordered
      have behind : range.stop < added.start := by
        by_contra meets
        exact touches ⟨(not_lt.mp meets), not_lt.mp before⟩
      refine ⟨List.forall_mem_cons.mpr ⟨canonical.head, rest_canonical.ordered⟩, ?_⟩
      exact rest_canonical.apart.cons (absorb_behind behind fun other => canonical.behind)

/-- The result covers what was there and what is added. -/
theorem absorb_covers (added : Range α) (ranges : List (Range α)) :
    CoveredBy (added :: ranges) (absorb added ranges) := by
  induction ranges generalizing added with
  | nil => exact CoveredBy.refl _
  | cons range rest ih =>
    rw [absorb]
    split_ifs with touches before
    · obtain ⟨whole, later⟩ := List.forall_mem_cons.mp (ih (added.hull range))
      obtain ⟨large, member, within⟩ := whole
      refine List.forall_mem_cons.mpr ⟨⟨large, member, ?_, ?_⟩,
        List.forall_mem_cons.mpr ⟨⟨large, member, ?_, ?_⟩, later⟩⟩
      · exact within.1.trans (min_le_left ..)
      · exact (le_max_left ..).trans within.2
      · exact within.1.trans (min_le_right ..)
      · exact (le_max_right ..).trans within.2
    · exact CoveredBy.refl _
    · obtain ⟨first, later⟩ := List.forall_mem_cons.mp (ih added)
      have more : ∀ {small : Range α}, (∃ large ∈ absorb added rest, small.Within large) →
          ∃ large ∈ range :: absorb added rest, small.Within large := by
        rintro small ⟨large, member, within⟩
        exact ⟨large, List.mem_cons_of_mem _ member, within⟩
      refine List.forall_mem_cons.mpr ⟨more first, List.forall_mem_cons.mpr ⟨?_, ?_⟩⟩
      · exact ⟨range, List.mem_cons_self, le_rfl, le_rfl⟩
      · exact fun other member => more (later other member)

/-- A canonical list that covers what was there and what is added covers the result. -/
theorem absorb_least (canonical : Canonical ranges') (covered : CoveredBy (added :: ranges) ranges') :
    CoveredBy (absorb added ranges) ranges' := by
  induction ranges generalizing added with
  | nil => exact covered
  | cons range rest ih =>
    obtain ⟨first, others⟩ := List.forall_mem_cons.mp covered
    obtain ⟨second, later⟩ := List.forall_mem_cons.mp others
    rw [absorb]
    split_ifs with touches before
    · obtain ⟨large, member, within⟩ := first
      obtain ⟨large', member', within'⟩ := second
      obtain rfl := canonical.unique member member' (within_touches within within' touches)
      refine ih (List.forall_mem_cons.mpr ⟨⟨large, member, ?_, ?_⟩, later⟩)
      · exact le_min within.1 within'.1
      · exact max_le within.2 within'.2
    · exact covered
    · exact List.forall_mem_cons.mpr ⟨second, ih (List.forall_mem_cons.mpr ⟨first, later⟩)⟩

/-! ## Adding a list -/

theorem foldl_absorb_canonical (canonical : Canonical ranges)
    (ordered : ∀ range ∈ ranges', range.start ≤ range.stop) :
    Canonical (ranges'.foldl (fun ranges added => absorb added ranges) ranges) := by
  induction ranges' generalizing ranges with
  | nil => exact canonical
  | cons added rest ih =>
    obtain ⟨first, later⟩ := List.forall_mem_cons.mp ordered
    exact ih (absorb_canonical canonical first) later

theorem foldl_absorb_points (canonical : Canonical ranges)
    (ordered : ∀ range ∈ ranges', range.start ≤ range.stop) :
    points (ranges'.foldl (fun ranges added => absorb added ranges) ranges) =
      points ranges ∪ points ranges' := by
  induction ranges' generalizing ranges with
  | nil => simp [points]
  | cons added rest ih =>
    obtain ⟨first, later⟩ := List.forall_mem_cons.mp ordered
    rw [List.foldl_cons, ih (absorb_canonical canonical first) later,
      absorb_points canonical first, points_cons, Set.union_comm added.points, Set.union_assoc]

theorem CoveredBy.trans {ranges'' : List (Range α)} (covered : CoveredBy ranges ranges')
    (covered' : CoveredBy ranges' ranges'') : CoveredBy ranges ranges'' := by
  intro range member
  obtain ⟨large, member', within⟩ := covered range member
  obtain ⟨larger, member'', within'⟩ := covered' large member'
  exact ⟨larger, member'', within'.1.trans within.1, within.2.trans within'.2⟩

theorem foldl_absorb_covers (ranges ranges' : List (Range α)) :
    CoveredBy (ranges ++ ranges') (ranges'.foldl (fun ranges added => absorb added ranges) ranges) := by
  induction ranges' generalizing ranges with
  | nil =>
    rw [List.append_nil]
    exact CoveredBy.refl _
  | cons added rest ih =>
    obtain ⟨first, later⟩ := List.forall_mem_append.mp (ih (absorb added ranges))
    obtain ⟨new, old⟩ := List.forall_mem_cons.mp (absorb_covers added ranges)
    refine List.forall_mem_append.mpr ⟨CoveredBy.trans old first, List.forall_mem_cons.mpr ⟨?_, later⟩⟩
    obtain ⟨large, member, within⟩ := new
    obtain ⟨larger, member', within'⟩ := first large member
    exact ⟨larger, member', within'.1.trans within.1, within.2.trans within'.2⟩

theorem foldl_absorb_least {canonical_ranges : List (Range α)} (canonical : Canonical canonical_ranges)
    (covered : CoveredBy (ranges ++ ranges') canonical_ranges) :
    CoveredBy (ranges'.foldl (fun ranges added => absorb added ranges) ranges) canonical_ranges := by
  induction ranges' generalizing ranges with
  | nil => rwa [List.append_nil] at covered
  | cons added rest ih =>
    obtain ⟨old, others⟩ := List.forall_mem_append.mp covered
    obtain ⟨new, later⟩ := List.forall_mem_cons.mp others
    refine ih (List.forall_mem_append.mpr ⟨?_, later⟩)
    exact absorb_least canonical (List.forall_mem_cons.mpr ⟨new, old⟩)

/-- Adding all ranges of a canonical list gives that list exactly if it covered the first one. -/
theorem foldl_absorb_eq_iff (canonical : Canonical ranges) (canonical' : Canonical ranges') :
    ranges'.foldl (fun ranges added => absorb added ranges) ranges = ranges' ↔
      CoveredBy ranges ranges' := by
  have covers := foldl_absorb_covers ranges ranges'
  obtain ⟨old, new⟩ := List.forall_mem_append.mp covers
  constructor
  · intro same
    rw [same] at old
    exact old
  · intro covered
    have least := foldl_absorb_least canonical'
      (List.forall_mem_append.mpr ⟨covered, CoveredBy.refl ranges'⟩)
    exact (foldl_absorb_canonical canonical canonical'.ordered).ext canonical' least new

end RangeList

end NetRider.Lib
