import Mathlib
import NetRider.Lib.RangeList

/-!
# Time ranges

`PlatformTimeRanges` keeps a vector of ranges of times. The code's times are `double`; only their
order matters here, so they are any bounded linear order: the numbers with both infinities, and no
NaN.
-/

namespace NetRider.Graphics.PlatformTimeRanges

open NetRider.Lib (Range)
open NetRider.Lib.RangeList

variable {α : Type*} [LinearOrder α]

/-! ## `PlatformTimeRanges::Range` -/

def isPointInRange (range : Range α) (point : α) : Bool := range.start ≤ point ∧ point < range.stop

def isOverlappingRange (self range : Range α) : Bool :=
  isPointInRange self range.start || isPointInRange self range.stop ||
    isPointInRange range self.start

def isContiguousWithRange (self range : Range α) : Bool :=
  range.start = self.stop || range.stop = self.start

def unionWithOverlappingOrContiguousRange (self range : Range α) : Range α :=
  ⟨min self.start range.start, max self.stop range.stop⟩

def isBeforeRange (self range : Range α) : Bool := range.start ≥ self.stop

/-! ## The ranges -/

/-- The loop of `add`, with the ranges in front of `overlappingArcIndex` and the others, and the
insertion behind it. -/
def addLoop (addedRange : Range α) : List (Range α) → List (Range α) → List (Range α)
  | before, [] => before ++ [addedRange]
  | before, range :: rest =>
    if isOverlappingRange addedRange range || isContiguousWithRange addedRange range then
      addLoop (unionWithOverlappingOrContiguousRange addedRange range) before rest
    else
      match before.getLast? with
      | none =>
        if isBeforeRange addedRange range then before ++ addedRange :: range :: rest
        else addLoop addedRange (before ++ [range]) rest
      | some previous =>
        if isBeforeRange previous addedRange && isBeforeRange addedRange range then
          before ++ addedRange :: range :: rest
        else addLoop addedRange (before ++ [range]) rest

def add (ranges : List (Range α)) (start stop : α) : List (Range α) := addLoop ⟨start, stop⟩ [] ranges

/-- `copy`, which both the copy constructor and `operator=` call. -/
def copy (ranges other : List (Range α)) : List (Range α) :=
  other.foldl (fun ranges range => add ranges range.start range.stop) ranges

/-- The copy constructor. -/
def copyOf (other : List (Range α)) : List (Range α) := copy [] other

/-- `operator=`. -/
def assign (ranges other : List (Range α)) : List (Range α) := copy ranges other

def unionWith (ranges other : List (Range α)) : List (Range α) :=
  other.foldl (fun unioned range => add unioned range.start range.stop) (copyOf ranges)

/-- The loop of `invert`. -/
def invertLoop (inverted : List (Range α)) : List (Range α) → List (Range α)
  | range :: next :: rest => invertLoop (add inverted range.stop next.start) (next :: rest)
  | _ => inverted

variable [BoundedOrder α]

def invert (ranges : List (Range α)) : List (Range α) :=
  match ranges.head?, ranges.getLast? with
  | some first, some last =>
    let inverted := if first.start ≠ ⊥ then add [] ⊥ first.start else []
    let inverted := invertLoop inverted ranges
    if last.stop ≠ ⊤ then add inverted last.stop ⊤ else inverted
  | _, _ => add [] ⊥ ⊤

def intersectWith (ranges other : List (Range α)) : List (Range α) :=
  let invertedOther := invert (copyOf other)
  invert (unionWith (invert ranges) invertedOther)

/-! ## Adding -/

section

variable {α : Type*} [LinearOrder α] {added range : Range α} {ranges ranges' before rest : List (Range α)}

theorem touches_iff (ordered : added.start ≤ added.stop) (ordered' : range.start ≤ range.stop) :
    (isOverlappingRange added range || isContiguousWithRange added range) = true ↔
      added.Touches range := by
  simp only [isOverlappingRange, isContiguousWithRange, isPointInRange, Range.Touches,
    Bool.or_eq_true, decide_eq_true_eq]
  constructor
  · rintro (((⟨first, second⟩ | ⟨first, second⟩) | ⟨first, second⟩) | (same | same))
    · exact ⟨first.trans ordered', second.le⟩
    · exact ⟨first, ordered'.trans second.le⟩
    · exact ⟨second.le, first.trans ordered⟩
    · exact ⟨(ordered.trans same.ge).trans ordered', same.le⟩
    · exact ⟨same.ge, (ordered'.trans same.le).trans ordered⟩
  · rintro ⟨first, second⟩
    obtain inside | same := second.lt_or_eq
    · obtain left | right := le_total added.start range.start
      · exact .inl (.inl (.inl ⟨left, inside⟩))
      · obtain inside' | same' := first.lt_or_eq
        · exact .inl (.inr ⟨right, inside'⟩)
        · exact .inr (.inr same'.symm)
    · exact .inr (.inl same)

/-- The loop stops at the first range behind the added one. -/
theorem addLoop_eq (canonical : Canonical (before ++ rest)) (ordered : added.start ≤ added.stop)
    (behind : ∀ range ∈ before, range.stop < added.start) :
    addLoop added before rest = before ++ absorb added rest := by
  induction rest generalizing before added with
  | nil => rfl
  | cons range rest ih =>
    have range_ordered : range.start ≤ range.stop := canonical.ordered range (by simp)
    have shifted : before ++ range :: rest = (before ++ [range]) ++ rest := by simp
    have touches := touches_iff ordered range_ordered
    rw [addLoop, absorb]
    by_cases meets : added.Touches range
    · rw [if_pos (touches.mpr meets), if_pos meets]
      refine ih ?_ (hull_ordered ordered) ?_
      · refine ⟨fun other member => canonical.ordered other ?_, canonical.apart.sublist ?_⟩
        · obtain first | later := List.mem_append.mp member
          · exact List.mem_append_left _ first
          · exact List.mem_append_right _ (List.mem_cons_of_mem _ later)
        · exact List.Sublist.append_left (List.sublist_cons_self ..) _
      · intro other member
        refine lt_min (behind other member) ?_
        exact (List.pairwise_append.mp canonical.apart).2.2 other member range List.mem_cons_self
    · rw [if_neg (mt touches.mp meets), if_neg meets]
      have next : ¬ added.stop < range.start →
          addLoop added (before ++ [range]) rest = before ++ range :: absorb added rest := by
        intro not_before
        rw [ih (shifted ▸ canonical) ordered ?_]
        · simp
        · simp only [List.forall_mem_append, List.forall_mem_singleton]
          refine ⟨behind, ?_⟩
          by_contra reaches
          exact meets ⟨not_lt.mp reaches, not_lt.mp not_before⟩
      have stops : isBeforeRange added range = true ↔ added.stop < range.start := by
        simp only [isBeforeRange, decide_eq_true_eq]
        refine ⟨fun from_ => ?_, le_of_lt⟩
        exact lt_of_le_of_ne from_ fun same =>
          meets ⟨(ordered.trans same.le).trans range_ordered, same.ge⟩
      cases last : before.getLast? with
      | none =>
        simp only [stops]
        split_ifs with less
        · rfl
        · exact next less
      | some previous =>
        have previous_before : isBeforeRange previous added = true := by
          simpa [isBeforeRange] using (behind previous (List.mem_of_getLast? last)).le
        simp only [previous_before, Bool.true_and, stops]
        split_ifs with less
        · rfl
        · exact next less

theorem add_eq (canonical : Canonical ranges) {start stop : α} (ordered : start ≤ stop) :
    add ranges start stop = absorb ⟨start, stop⟩ ranges :=
  addLoop_eq canonical ordered (by simp)

theorem copy_eq (canonical : Canonical ranges) (ordered : ∀ range ∈ ranges', range.start ≤ range.stop) :
    copy ranges ranges' = ranges'.foldl (fun ranges added => absorb added ranges) ranges := by
  rw [copy]
  induction ranges' generalizing ranges with
  | nil => rfl
  | cons added rest ih =>
    obtain ⟨first, later⟩ := List.forall_mem_cons.mp ordered
    rw [List.foldl_cons, List.foldl_cons, add_eq canonical first]
    exact ih (absorb_canonical canonical first) later

/-- What every operation keeps, and the set of the result. -/
structure Denotes (ranges : List (Range α)) (S : Set α) : Prop where
  canonical : Canonical ranges
  points : points ranges = S

variable {S T : Set α}

theorem Denotes.empty : Denotes ([] : List (Range α)) ∅ := ⟨.nil, by simp [NetRider.Lib.RangeList.points]⟩

theorem Denotes.add (d : Denotes ranges S) {start stop : α} (ordered : start ≤ stop) :
    Denotes (add ranges start stop) (S ∪ Set.Ico start stop) := by
  rw [add_eq d.canonical ordered]
  refine ⟨absorb_canonical d.canonical ordered, ?_⟩
  rw [absorb_points d.canonical ordered, d.points, Set.union_comm]
  rfl

theorem Denotes.copy (d : Denotes ranges S) (d' : Denotes ranges' T) :
    Denotes (copy ranges ranges') (S ∪ T) := by
  rw [copy_eq d.canonical d'.canonical.ordered]
  refine ⟨foldl_absorb_canonical d.canonical d'.canonical.ordered, ?_⟩
  rw [foldl_absorb_points d.canonical d'.canonical.ordered, d.points, d'.points]

theorem copyOf_eq (canonical : Canonical ranges) : copyOf ranges = ranges := by
  rw [copyOf, copy_eq .nil canonical.ordered, foldl_absorb_eq_iff .nil canonical]
  simp [CoveredBy]

theorem assign_eq (canonical : Canonical ranges) (canonical' : Canonical ranges') :
    assign ranges ranges' = ranges' ↔ CoveredBy ranges ranges' := by
  rw [assign, copy_eq canonical canonical'.ordered]
  exact foldl_absorb_eq_iff canonical canonical'

theorem Denotes.unionWith (d : Denotes ranges S) (d' : Denotes ranges' T) :
    Denotes (unionWith ranges ranges') (S ∪ T) := by
  rw [PlatformTimeRanges.unionWith, copyOf_eq d.canonical]
  exact d.copy d'

/-! ## Inverting -/

/-- Between the first range and the last one. -/
def gaps : List (Range α) → Set α
  | range :: next :: rest => Set.Ico range.stop next.start ∪ gaps (next :: rest)
  | _ => ∅

theorem Denotes.invertLoop (d : Denotes ranges S) (canonical : Canonical ranges') :
    Denotes (invertLoop ranges ranges') (S ∪ gaps ranges') := by
  induction ranges' generalizing ranges S with
  | nil => simpa [PlatformTimeRanges.invertLoop, gaps] using d
  | cons range rest ih =>
    cases rest with
    | nil => simpa [PlatformTimeRanges.invertLoop, gaps] using d
    | cons next rest =>
      have gap : range.stop ≤ next.start := (canonical.behind List.mem_cons_self).le
      rw [PlatformTimeRanges.invertLoop, gaps, ← Set.union_assoc]
      exact ih (d.add gap) canonical.tail

theorem gaps_ge (canonical : Canonical (range :: ranges)) {x : α} (gap : x ∈ gaps (range :: ranges)) :
    range.stop ≤ x := by
  induction ranges generalizing range with
  | nil => cases gap
  | cons next rest ih =>
    rcases gap with here | later
    · exact here.1
    · have apart : range.stop < next.start := canonical.behind List.mem_cons_self
      exact (apart.le.trans canonical.tail.head).trans (ih canonical.tail later)

/-- What is outside of all ranges is in front of them, in a gap or behind them. -/
theorem outside_iff {last : Range α} (canonical : Canonical (range :: ranges))
    (ends : (range :: ranges).getLast? = some last) (x : α) :
    x ∉ points (range :: ranges) ↔ x < range.start ∨ x ∈ gaps (range :: ranges) ∨ last.stop ≤ x := by
  induction ranges generalizing range with
  | nil =>
    obtain rfl : range = last := by simpa using ends
    simp [gaps, NetRider.Lib.RangeList.points, Range.points, or_iff_not_imp_left]
  | cons next rest ih =>
    have ends' : (next :: rest).getLast? = some last := by
      rwa [List.getLast?_cons_cons] at ends
    have apart : range.stop < next.start := canonical.behind List.mem_cons_self
    have others := ih canonical.tail ends'
    have last_behind : range.stop ≤ last.stop := by
      have member := List.mem_of_getLast? ends'
      exact (canonical.behind member).le.trans (canonical.ordered last (List.mem_cons_of_mem _ member))
    rw [points_cons, Set.mem_union, not_or, others, gaps, Set.mem_union]
    change ¬ (range.start ≤ x ∧ x < range.stop) ∧ _ ↔ _ ∨ (range.stop ≤ x ∧ x < next.start ∨ _) ∨ _
    constructor
    · rintro ⟨outside, before | gap | behind⟩
      · obtain left | right := lt_or_ge x range.start
        · exact .inl left
        · exact .inr (.inl (.inl ⟨not_lt.mp fun inside => outside ⟨right, inside⟩, before⟩))
      · exact .inr (.inl (.inr gap))
      · exact .inr (.inr behind)
    · rintro (left | (⟨from_, before⟩ | gap) | behind)
      · refine ⟨fun inside => absurd left (not_lt.mpr inside.1), .inl ?_⟩
        exact left.trans (canonical.head.trans_lt apart)
      · exact ⟨fun inside => absurd inside.2 (not_lt.mpr from_), .inl before⟩
      · have behind := apart.le.trans (canonical.tail.head.trans (gaps_ge canonical.tail gap))
        exact ⟨fun inside => absurd inside.2 (not_lt.mpr behind), .inr (.inl gap)⟩
      · exact ⟨fun inside => absurd inside.2 (not_lt.mpr (last_behind.trans behind)),
          .inr (.inr behind)⟩

end

section

variable {α : Type*} [LinearOrder α] [BoundedOrder α] {ranges ranges' : List (Range α)} {S T : Set α}

theorem Denotes.below (d : Denotes ranges S) : S ⊆ Set.Iio ⊤ := by
  rw [← d.points]
  rintro x ⟨range, -, inside⟩
  exact inside.2.trans_le le_top

theorem gaps_below (ranges : List (Range α)) : gaps ranges ⊆ Set.Iio ⊤ := by
  induction ranges with
  | nil => exact Set.empty_subset _
  | cons range rest ih =>
    cases rest with
    | nil => exact Set.empty_subset _
    | cons next rest =>
      refine Set.union_subset (fun x inside => ?_) ih
      exact inside.2.trans_le le_top

theorem Denotes.invert (d : Denotes ranges S) : Denotes (invert ranges) (Set.Iio ⊤ \ S) := by
  cases ranges with
  | nil =>
    have whole := Denotes.empty.add (bot_le (a := (⊤ : α)))
    have same : Set.Iio (⊤ : α) \ S = ∅ ∪ Set.Ico ⊥ ⊤ := by
      rw [← d.points, ← Denotes.empty.points]
      ext x
      simp [NetRider.Lib.RangeList.points]
    rw [same]
    exact whole
  | cons range rest =>
    cases ends : (range :: rest).getLast? with
    | none => simp at ends
    | some last =>
      have front : Denotes (if range.start ≠ ⊥ then PlatformTimeRanges.add [] ⊥ range.start else [])
          (Set.Iio range.start) := by
        split_ifs with start
        · have added := Denotes.empty.add (bot_le (a := range.start))
          rwa [Set.empty_union, Set.Ico_bot] at added
        · rw [not_not.mp start, Set.Iio_bot]
          exact .empty
      have middle := front.invertLoop d.canonical
      have outside : Set.Iio ⊤ \ S =
          (Set.Iio range.start ∪ gaps (range :: rest)) ∪ Set.Ico last.stop ⊤ := by
        ext x
        rw [← d.points, Set.mem_sdiff, outside_iff d.canonical ends]
        constructor
        · rintro ⟨below, left | gap | behind⟩
          · exact .inl (.inl left)
          · exact .inl (.inr gap)
          · exact .inr ⟨behind, below⟩
        · rintro ((left | gap) | behind)
          · exact ⟨lt_of_lt_of_le left le_top, .inl left⟩
          · exact ⟨gaps_below _ gap, .inr (.inl gap)⟩
          · exact ⟨behind.2, .inr (.inr behind.1)⟩
      rw [PlatformTimeRanges.invert, List.head?_cons, ends, outside]
      dsimp only
      by_cases stop : last.stop ≠ ⊤
      · rw [if_pos stop]
        exact middle.add le_top
      · rw [if_neg stop]
        rw [not_not.mp stop, Set.Ico_self, Set.union_empty]
        exact middle

theorem Denotes.intersectWith (d : Denotes ranges S) (d' : Denotes ranges' T) :
    Denotes (intersectWith ranges ranges') (S ∩ T) := by
  have other := d'.invert
  rw [← copyOf_eq d'.canonical] at other
  have both := (d.invert.unionWith other).invert
  have same : Set.Iio ⊤ \ (Set.Iio ⊤ \ S ∪ Set.Iio ⊤ \ T) = S ∩ T := by
    rw [← Set.sdiff_inter, Set.sdiff_sdiff_right_self]
    exact Set.inter_eq_right.mpr (Set.inter_subset_left.trans d.below)
  rwa [same] at both

end

/-! ## Runs -/

/-- How ranges are made from the empty object. -/
inductive Made (α : Type*)
  | empty
  | add (ranges : Made α) (start stop : α)
  | unionWith (ranges other : Made α)
  | intersectWith (ranges other : Made α)
  | invert (ranges : Made α)

variable {α : Type*} [LinearOrder α] [BoundedOrder α]

namespace Made

def ranges : Made α → List (Range α)
  | empty => []
  | add made start stop => PlatformTimeRanges.add made.ranges start stop
  | unionWith made other => PlatformTimeRanges.unionWith made.ranges other.ranges
  | intersectWith made other => PlatformTimeRanges.intersectWith made.ranges other.ranges
  | invert made => PlatformTimeRanges.invert made.ranges

/-- The set that the ranges stand for, with complements in the set of `all` times. -/
def times (all : Set α) : Made α → Set α
  | empty => ∅
  | add made start stop => made.times all ∪ Set.Ico start stop
  | unionWith made other => made.times all ∪ other.times all
  | intersectWith made other => made.times all ∩ other.times all
  | invert made => all \ made.times all

/-- `ASSERT(start <= end)`. -/
def Ordered : Made α → Prop
  | empty => True
  | add made start stop => made.Ordered ∧ start ≤ stop
  | unionWith made other | intersectWith made other => made.Ordered ∧ other.Ordered
  | invert made => made.Ordered

/-- **Time ranges.** The ranges are in order, no two of them touch, and they hold exactly the times
of their set, where a complement is taken among the times before infinity. -/
theorem ranges_denote (made : Made α) (ordered : made.Ordered) :
    Canonical made.ranges ∧ points made.ranges = made.times (Set.Iio ⊤) := by
  have denotes : Denotes made.ranges (made.times (Set.Iio ⊤)) := by
    induction made with
    | empty => exact .empty
    | add made start stop ih => exact (ih ordered.1).add ordered.2
    | unionWith made other ih ih' => exact (ih ordered.1).unionWith (ih' ordered.2)
    | intersectWith made other ih ih' => exact (ih ordered.1).intersectWith (ih' ordered.2)
    | invert made ih => exact (ih ordered).invert
  exact ⟨denotes.canonical, denotes.points⟩

/-- Two ranges with a gap, inverted. -/
theorem ranges_denote_inverted :
    points (invert (add (add empty 1 ⊤) ⊥ 0) : Made EReal).ranges =
      (invert (add (add empty 1 ⊤) ⊥ 0) : Made EReal).times (Set.Iio ⊤) := by
  have ordered : (invert (add (add empty 1 ⊤) ⊥ 0) : Made EReal).Ordered :=
    ⟨⟨trivial, le_top⟩, bot_le⟩
  exact (ranges_denote _ ordered).2

/-- Infinity is outside of the empty object and outside of its inverse. -/
theorem infinity_not_inverted :
    ¬ ∀ made : Made EReal, made.Ordered → points made.ranges = made.times Set.univ := by
  intro exact_
  have whole := exact_ (invert empty) trivial
  have infinity : (⊤ : EReal) ∈ (invert empty : Made EReal).times Set.univ := ⟨trivial, id⟩
  rw [← whole] at infinity
  obtain ⟨range, -, inside⟩ := infinity
  exact not_top_lt inside.2

end Made

/-! ## Assigning -/

/-- The ranges of an object after any operations on any objects. -/
inductive Reachable : List (Range α) → Prop
  | empty : Reachable []
  | add {ranges start stop} : Reachable ranges → start ≤ stop → Reachable (add ranges start stop)
  | unionWith {ranges other} : Reachable ranges → Reachable other → Reachable (unionWith ranges other)
  | intersectWith {ranges other} :
    Reachable ranges → Reachable other → Reachable (intersectWith ranges other)
  | invert {ranges} : Reachable ranges → Reachable (invert ranges)
  | copyOf {other} : Reachable other → Reachable (copyOf other)
  | assign {ranges other} : Reachable ranges → Reachable other → Reachable (assign ranges other)

variable {ranges other : List (Range α)}

theorem Reachable.canonical (reachable : Reachable ranges) : Canonical ranges := by
  have of : ∀ {ranges : List (Range α)}, Canonical ranges → Denotes ranges (points ranges) :=
    fun canonical => ⟨canonical, rfl⟩
  induction reachable with
  | empty => exact .nil
  | add _ ordered ih => exact ((of ih).add ordered).canonical
  | unionWith _ _ ih ih' => exact ((of ih).unionWith (of ih')).canonical
  | intersectWith _ _ ih ih' => exact ((of ih).intersectWith (of ih')).canonical
  | invert _ ih => exact (of ih).invert.canonical
  | copyOf _ ih => exact (copyOf_eq ih).symm ▸ ih
  | assign _ _ ih ih' => exact ((of ih).copy (of ih')).canonical

/-- **Assigning.** The ranges are those of the other object exactly if each range that was there
before lies within one of the other's. -/
theorem assign_iff (reachable : Reachable ranges) (reachable' : Reachable other) :
    assign ranges other = other ↔ CoveredBy ranges other :=
  assign_eq reachable.canonical reachable'.canonical

theorem assign_empty : assign [] (add [] 0 1 : List (Range EReal)) = add [] 0 1 :=
  (assign_iff .empty (.add .empty zero_le_one)).mpr (by simp [CoveredBy])

/-- The range that was there stays. -/
theorem old_range_stays :
    ¬ ∀ ranges other : List (Range EReal), Reachable ranges → Reachable other →
      assign ranges other = other := by
  intro assigns
  have reachable : Reachable (add [] 0 1 : List (Range EReal)) := .add .empty zero_le_one
  have same := assigns _ [] reachable .empty
  have covered := (assign_eq reachable.canonical .nil).mp same
  obtain ⟨range, member, -⟩ := covered ⟨0, 1⟩ List.mem_cons_self
  cases member

end NetRider.Graphics.PlatformTimeRanges
