import Mathlib
import NetRider.Graphics.RegionAlgebra

/-!
# Comparing regions

`compareShapes` for both of its operations: where it returns early, and where it does not. A
region contains another one by its points, except for an empty one beside its bounds.
-/

namespace NetRider.Graphics

open NetRider.Lib

namespace Shape

def compareIntersectsOperation : CompareOperation := ⟨false, none, none, some true⟩

variable {f g : Int → List Int} {aY bY : Int} {as bs : List Int} {a b aRest bRest : Shape}

theorem segments_tail {x maxX : Int} {segments : List Int} (ok : Segments (x :: maxX :: segments)) :
    Segments segments :=
  ⟨ok.sorted.of_cons.of_cons, by simpa [odd] using ok.even⟩

/-- Segments with fewer than two ends are none. -/
theorem segments_short (ok : Segments as)
    (short : ∀ x maxX rest, as = x :: maxX :: rest → False) : as = [] := by
  cases as with
  | nil => rfl
  | cons x rest =>
    cases rest with
    | nil => exact absurd ok.even (by simp [odd])
    | cons maxX rest => exact absurd rfl (short x maxX rest)

theorem first_inside (ok : Segments bs) (some_ : bs ≠ []) : ∃ x, inside bs x = true := by
  cases bs with
  | nil => exact absurd rfl some_
  | cons x rest => exact ⟨x, inside_first fun _ => List.rel_of_pairwise_cons ok.sorted⟩

/-! ## Containing -/

/-- One scan line where `contains` fails. The points below `low` have been compared. -/
theorem compareSegments_complete (ok : Segments as) (ok' : Segments bs) {low : Int}
    (right : ∀ x ∈ as, low < x) (right' : ∀ x ∈ bs.drop 1, low < x)
    (failed : compareSegments compareContainsOperation as bs = some false) :
    ∃ x, low ≤ x ∧ inside bs x = true ∧ inside as x = false := by
  fun_induction compareSegments compareContainsOperation as bs generalizing low with
  | case1 aX aMaxX as bX bMaxX bs ih1 ih2 ih3 =>
    have aWidth : aX < aMaxX := List.rel_of_pairwise_cons ok.sorted List.mem_cons_self
    have bWidth : bX < bMaxX := List.rel_of_pairwise_cons ok'.sorted List.mem_cons_self
    have behind : ∀ x ∈ as, aMaxX < x := fun x => List.rel_of_pairwise_cons ok.sorted.of_cons
    have behind' : ∀ x ∈ bs, bMaxX < x := fun x => List.rel_of_pairwise_cons ok'.sorted.of_cons
    obtain ⟨lowA, lowAs⟩ := List.forall_mem_cons.mp right
    obtain ⟨lowB, lowBs⟩ := List.forall_mem_cons.mp right'
    have low_max : low < aMaxX := lowA.trans aWidth
    -- a point behind the first segment of `as`
    have later : ∀ {bs' : List Int}, (∃ x, aMaxX ≤ x ∧ inside bs' x = true ∧ inside as x = false) →
        ∃ x, low ≤ x ∧ inside bs' x = true ∧ inside (aX :: aMaxX :: as) x = false := by
      rintro bs' ⟨x, from_, inB, outA⟩
      refine ⟨x, low_max.le.trans from_, inB, ?_⟩
      rw [← Bool.not_eq_true, inside_pair ok.sorted]
      rintro (first | rest)
      · exact absurd first.2 (not_lt.mpr from_)
      · rw [outA] at rest
        contradiction
    by_cases outside : bX < aX
    · refine ⟨max bX low, le_max_right .., ?_, ?_⟩
      · exact (inside_pair ok'.sorted).mpr (.inl ⟨le_max_left .., max_lt bWidth lowB⟩)
      · have before : max bX low < aX := max_lt outside lowA
        apply inside_before
        simp only [List.forall_mem_cons]
        exact ⟨before, before.trans aWidth,
          fun x member => before.trans (aWidth.trans (behind x member))⟩
    · simp only [compareContainsOperation, ite_self, if_neg outside, Option.orElse_eq_orElse,
        Option.orElse_eq_or, Option.none_or] at failed
      split_ifs at failed with first second
      · refine later (ih1 (segments_tail ok) ok' behind ?_ failed)
        exact List.forall_mem_cons.mpr ⟨first, fun x member => first.trans (behind' x member)⟩
      · have rest : ∀ x ∈ bs.drop 1, low < x := fun x member => lowBs x (List.mem_of_mem_drop member)
        obtain ⟨x, from_, inB, outA⟩ := ih2 ok (segments_tail ok') right rest failed
        exact ⟨x, from_, (inside_pair ok'.sorted).mpr (.inr inB), outA⟩
      · have same : aMaxX = bMaxX := le_antisymm (not_lt.mp second) (not_lt.mp first)
        have rest : ∀ x ∈ bs.drop 1, aMaxX < x :=
          fun x member => same ▸ behind' x (List.mem_of_mem_drop member)
        obtain ⟨x, from_, inB, outA⟩ :=
          later (ih3 (segments_tail ok) (segments_tail ok') behind rest failed)
        exact ⟨x, from_, (inside_pair ok'.sorted).mpr (.inr inB), outA⟩
  | case2 as bs short =>
    have some_ : bs ≠ [] := by
      rintro rfl
      simp [compareContainsOperation] at failed
    cases bs with
    | nil => exact absurd rfl some_
    | cons bX rest =>
      cases rest with
      | nil => exact absurd ok'.even (by simp [odd])
      | cons bMaxX rest =>
        have empty : as = [] := segments_short ok fun x maxX rest' eq => short x maxX rest' bX bMaxX rest eq rfl
        have bWidth : bX < bMaxX := List.rel_of_pairwise_cons ok'.sorted List.mem_cons_self
        refine ⟨max bX low, le_max_right .., ?_, by rw [empty]; rfl⟩
        exact (inside_pair ok'.sorted).mpr
          (.inl ⟨le_max_left .., max_lt bWidth (right' _ List.mem_cons_self)⟩)

theorem exists_below (xs : List Int) : ∃ low, ∀ x ∈ xs, low < x := by
  induction xs with
  | nil => exact ⟨0, by simp⟩
  | cons x xs ih =>
    obtain ⟨low, below⟩ := ih
    refine ⟨min low (x - 1), List.forall_mem_cons.mpr ⟨by omega, fun y member => ?_⟩⟩
    have := below y member
    omega

theorem compareSegments_outside (ok : Segments as) (ok' : Segments bs)
    (failed : compareSegments compareContainsOperation as bs = some false) :
    ∃ x, inside bs x = true ∧ inside as x = false := by
  obtain ⟨low, below⟩ := exists_below (as ++ bs)
  obtain ⟨x, -, inB, outA⟩ := compareSegments_complete ok ok'
    (fun x member => below x (List.mem_append_left _ member))
    (fun x member => below x (List.mem_append_right _ (List.mem_of_mem_drop member))) failed
  exact ⟨x, inB, outA⟩

/-- The line at `p` is empty in one shape and not in the other. -/
theorem not_within {p : Int} {segments : List Int} (ok : Segments segments) (some_ : segments ≠ [])
    (inB : f p = segments) (outA : g p = []) : ¬ Within f g p := by
  obtain ⟨x, within⟩ := first_inside ok some_
  intro all
  have contained := all x (inB ▸ within)
  rw [outA] at contained
  cases contained

/-- The loop of `contains` where it fails. `above`: of the lines of the second shape's span in
front of the first shape's one is known to be free if the flag says so. `reach`: the second
shape's span ends behind the start of the first's, unless that is the very first. -/
theorem compareSpans_complete {aHad bHad : Bool} (a : Tail g aY as aRest) (b : Tail f bY bs bRest)
    (above : bY < aY → aHad = false → bRest ≠ [] → ∃ p, f p = bs ∧ g p = [])
    (reach : (∀ p < aY, g p = []) ∨ ∀ next ∈ bRest.head?, aY < next.1)
    (failed : compareSpans compareContainsOperation ((aY, as) :: aRest) ((bY, bs) :: bRest) aHad
      bHad = some false) : ∃ p, ¬ Within f g p := by
  induction h : aRest.length + bRest.length using Nat.strong_induction_on
    generalizing aY as aRest bY bs bRest aHad bHad with
  | _ n ih =>
  cases bRest with
  | nil =>
    cases aRest with
    | nil => simp [compareSpans, compareContainsOperation] at failed
    | cons aNext aRest => simp [compareSpans, compareContainsOperation] at failed
  | cons bNext bRest =>
    obtain ⟨bMaxY, bs'⟩ := bNext
    have bHeight : bY < bMaxY := b.ordered _ List.mem_cons_self
    have lines : ∀ {p}, bY ≤ p → p < bMaxY → f p = bs := b.here
    cases aRest with
    | nil =>
      -- the first shape is at its end: the next line of the second one is outside
      obtain rfl : as = [] := a.ends
      have free : ∀ p, aY ≤ p → g p = [] := fun p behind => a.value p behind
      by_cases some_ : bs = []
      · have next : bs' ≠ [] := some_ ▸ b.canonical.1
        have line : f bMaxY = bs' := by
          cases bRest with
          | nil => exact absurd b.ends next
          | cons last bRest =>
            exact b.next.here le_rfl (b.next.ordered _ List.mem_cons_self)
        refine ⟨bMaxY, not_within (b.segments _ List.mem_cons_self) next line ?_⟩
        obtain before | far := reach
        · exact (lt_or_ge bMaxY aY).elim (before _) (free _)
        · exact free _ (far _ rfl).le
      · obtain before | far := reach
        · refine ⟨bY, not_within b.current some_ (lines le_rfl bHeight) ?_⟩
          exact (lt_or_ge bY aY).elim (before _) (free _)
        · refine ⟨max bY aY, not_within b.current some_ (lines (le_max_left ..) ?_)
            (free _ (le_max_right ..))⟩
          exact max_lt bHeight (far _ rfl)
    | cons aNext aRest =>
      obtain ⟨aMaxY, as'⟩ := aNext
      have aHeight : aY < aMaxY := a.ordered _ List.mem_cons_self
      by_cases outside : bY < aY ∧ aHad = false ∧ bs ≠ []
      · obtain ⟨p, inB, outA⟩ := above outside.1 outside.2.1 (List.cons_ne_nil _ _)
        exact ⟨p, not_within b.current outside.2.2 inB outA⟩
      simp only [compareSpans, if_neg outside, compareContainsOperation, ite_self,
        Option.orElse_eq_orElse, Option.orElse_eq_or, Option.none_or] at failed
      rw [Option.or_eq_some_iff] at failed
      obtain here | ⟨-, rest⟩ := failed
      · split_ifs at here with overlap
        obtain ⟨x, inB, outA⟩ := compareSegments_outside a.current b.current here
        refine ⟨max aY bY, fun all => ?_⟩
        rw [Within, lines (le_max_right ..) (max_lt overlap.1 bHeight),
          a.here (le_max_left ..) (max_lt aHeight overlap.2)] at all
        exact absurd (all x inB) (by rw [outA]; exact Bool.false_ne_true)
      simp only [List.length_cons] at h
      split_ifs at rest with first second
      · refine ih _ (by simp; omega) a.next b ?_ (.inr ?_) rest rfl
        · intro before none _
          have empty : as = [] := by simpa using none
          refine ⟨max bY aY, lines (le_max_left ..) (max_lt bHeight (aHeight.trans first)), ?_⟩
          rw [a.here (le_max_right ..) (max_lt before aHeight), empty]
        · rintro next ⟨⟩
          exact first
      · refine ih _ (by simp; omega) a b.next ?_ ?_ rest rfl
        · intro before _ some_
          obtain empty | far := reach
          · cases bRest with
            | nil => exact absurd rfl some_
            | cons last bRest =>
              exact ⟨bMaxY, b.next.here le_rfl (b.next.ordered _ List.mem_cons_self), empty _ before⟩
          · exact absurd before (not_lt.mpr (far _ rfl).le)
        · obtain empty | far := reach
          · exact .inl empty
          · right
            intro next member
            exact (far _ rfl).trans (b.next.ordered _ (List.mem_of_mem_head? member))
      · have same : aMaxY = bMaxY := le_antisymm (not_lt.mp second) (not_lt.mp first)
        refine ih _ (by omega) a.next b.next ?_ (.inr ?_) rest rfl
        · intro before
          omega
        · intro next member
          exact same ▸ b.next.ordered _ (List.mem_of_mem_head? member)

theorem compareShapes_contains_iff (ok : a.WellFormed) (ok' : b.WellFormed) :
    compareShapes compareContainsOperation a b = true ↔ b.points ⊆ a.points := by
  refine ⟨compareShapes_sound ok ok', fun subset => ?_⟩
  by_contra failed
  have early : compareSpans compareContainsOperation a b false false = some false := by
    cases result : compareSpans compareContainsOperation a b false false with
    | none =>
      rw [compareShapes, result] at failed
      exact absurd rfl failed
    | some value =>
      cases value with
      | true => exact absurd result compareSpans_false
      | false => rfl
  have all : ∀ p, Within (valueAt [] b) (valueAt [] a) p := fun p x within =>
    subset (show (⟨x, p⟩ : IntPoint) ∈ b.points from within)
  cases b with
  | nil => cases a <;> simp [compareSpans, compareContainsOperation] at early
  | cons bSpan bRest =>
    have bFirst : ∀ {p}, p < bSpan.1 → valueAt [] (bSpan :: bRest) p = [] := by
      intro p before
      rw [valueAt, if_neg (not_le.mpr before)]
    cases a with
    | nil =>
      have some_ : bSpan.2 ≠ [] := ok'.canonical.1
      cases bRest with
      | nil => exact absurd ok'.ends some_
      | cons next bRest =>
        have line := ok'.tail.here le_rfl (ok'.tail.ordered _ List.mem_cons_self)
        exact not_within (ok'.segments _ List.mem_cons_self) some_ line rfl (all bSpan.1)
    | cons aSpan aRest =>
      have aFirst : ∀ p < aSpan.1, valueAt [] (aSpan :: aRest) p = [] := by
        intro p before
        rw [valueAt, if_neg (not_le.mpr before)]
      have above : bSpan.1 < aSpan.1 → false = false → bRest ≠ [] →
          ∃ p, valueAt [] (bSpan :: bRest) p = bSpan.2 ∧ valueAt [] (aSpan :: aRest) p = [] := by
        intro before _ some_
        cases bRest with
        | nil => exact absurd rfl some_
        | cons next bRest =>
          exact ⟨bSpan.1, ok'.tail.here le_rfl (ok'.tail.ordered _ List.mem_cons_self),
            aFirst _ before⟩
      obtain ⟨p, outside⟩ := compareSpans_complete ok.tail ok'.tail above (.inl aFirst) early
      exact outside (all p)

/-! ## Intersecting -/

/-- One scan line where `intersects` succeeds. -/
theorem compareSegments_overlap (ok : Segments as) (ok' : Segments bs)
    (found : compareSegments compareIntersectsOperation as bs = some true) :
    ∃ x, inside as x = true ∧ inside bs x = true := by
  fun_induction compareSegments compareIntersectsOperation as bs with
  | case1 aX aMaxX as bX bMaxX bs ih1 ih2 ih3 =>
    have aWidth : aX < aMaxX := List.rel_of_pairwise_cons ok.sorted List.mem_cons_self
    have bWidth : bX < bMaxX := List.rel_of_pairwise_cons ok'.sorted List.mem_cons_self
    simp only [inside_pair ok.sorted, inside_pair ok'.sorted]
    by_cases overlap : bMaxX > aX ∧ bX < aMaxX
    · refine ⟨max aX bX, .inl ⟨le_max_left .., ?_⟩, .inl ⟨le_max_right .., ?_⟩⟩
      · exact max_lt aWidth overlap.2
      · exact max_lt overlap.1 bWidth
    simp only [compareIntersectsOperation, if_neg overlap, ite_self, Option.orElse_eq_orElse,
      Option.orElse_eq_or, Option.none_or] at found
    split_ifs at found with first second
    · obtain ⟨x, inA, inB⟩ := ih1 (segments_tail ok) ok' found
      exact ⟨x, .inr inA, (inside_pair ok'.sorted).mp inB⟩
    · obtain ⟨x, inA, inB⟩ := ih2 ok (segments_tail ok') found
      exact ⟨x, (inside_pair ok.sorted).mp inA, .inr inB⟩
    · obtain ⟨x, inA, inB⟩ := ih3 (segments_tail ok) (segments_tail ok') found
      exact ⟨x, .inr inA, .inr inB⟩
  | case2 as bs short => simp [compareIntersectsOperation] at found

/-- One scan line where `intersects` finds nothing. -/
theorem compareSegments_apart (ok : Segments as) (ok' : Segments bs)
    (passed : compareSegments compareIntersectsOperation as bs = none) {x : Int}
    (inA : inside as x = true) (inB : inside bs x = true) : False := by
  fun_induction compareSegments compareIntersectsOperation as bs with
  | case1 aX aMaxX as bX bMaxX bs ih1 ih2 ih3 =>
    have behind : ∀ {x}, inside as x = true → aMaxX < x := by
      intro x within
      by_contra before
      rw [inside_before] at within
      · contradiction
      · intro q member
        exact (not_lt.mp before).trans_lt (List.rel_of_pairwise_cons ok.sorted.of_cons member)
    have behind' : ∀ {x}, inside bs x = true → bMaxX < x := by
      intro x within
      by_contra before
      rw [inside_before] at within
      · contradiction
      · intro q member
        exact (not_lt.mp before).trans_lt (List.rel_of_pairwise_cons ok'.sorted.of_cons member)
    by_cases overlap : bMaxX > aX ∧ bX < aMaxX
    · simp [compareIntersectsOperation, overlap] at passed
    simp only [compareIntersectsOperation, if_neg overlap, ite_self, Option.orElse_eq_orElse,
      Option.orElse_eq_or, Option.none_or] at passed
    have inA' := (inside_pair ok.sorted).mp inA
    have inB' := (inside_pair ok'.sorted).mp inB
    split_ifs at passed with first second
    · obtain here | later := inA'
      · obtain here' | later' := inB'
        · omega
        · have := behind' later'
          omega
      · exact ih1 (segments_tail ok) ok' passed later inB
    · obtain here' | later' := inB'
      · obtain here | later := inA'
        · omega
        · have := behind later
          omega
      · exact ih2 ok (segments_tail ok') passed inA later'
    · obtain here | later := inA'
      · obtain here' | later' := inB'
        · omega
        · have := behind' later'
          omega
      · obtain here' | later' := inB'
        · have := behind later
          omega
        · exact ih3 (segments_tail ok) (segments_tail ok') passed later later'
  | case2 as bs short =>
    cases as with
    | nil => cases inA
    | cons aX rest =>
      cases rest with
      | nil => exact absurd ok.even (by simp [odd])
      | cons aMaxX rest =>
        have empty : bs = [] :=
          segments_short ok' fun x maxX rest' eq => short aX aMaxX rest x maxX rest' rfl eq
        rw [empty] at inB
        cases inB

/-- The scan line at `p` has no point of both shapes. -/
def Apart (f g : Int → List Int) (p : Int) : Prop :=
  ∀ x, inside (g p) x = true → inside (f p) x = true → False

/-- The loop of `intersects` where it succeeds. -/
theorem compareSpans_overlap {aHad bHad : Bool} (a : Tail g aY as aRest) (b : Tail f bY bs bRest)
    (found : compareSpans compareIntersectsOperation ((aY, as) :: aRest) ((bY, bs) :: bRest) aHad
      bHad = some true) : ∃ p, ¬ Apart f g p := by
  induction h : aRest.length + bRest.length using Nat.strong_induction_on
    generalizing aY as aRest bY bs bRest aHad bHad with
  | _ n ih =>
  cases aRest with
  | nil => simp [compareSpans, compareIntersectsOperation] at found
  | cons aNext aRest =>
  cases bRest with
  | nil => simp [compareSpans, compareIntersectsOperation] at found
  | cons bNext bRest =>
    obtain ⟨aMaxY, as'⟩ := aNext
    obtain ⟨bMaxY, bs'⟩ := bNext
    have aHeight : aY < aMaxY := a.ordered _ List.mem_cons_self
    have bHeight : bY < bMaxY := b.ordered _ List.mem_cons_self
    simp only [compareSpans, compareIntersectsOperation, ite_self, Option.orElse_eq_orElse,
      Option.orElse_eq_or, Option.none_or] at found
    rw [Option.or_eq_some_iff] at found
    obtain here | ⟨-, rest⟩ := found
    · split_ifs at here with overlap
      obtain ⟨x, inA, inB⟩ := compareSegments_overlap a.current b.current here
      refine ⟨max aY bY, fun apart => apart x ?_ ?_⟩
      · rwa [a.here (le_max_left ..) (max_lt aHeight overlap.2)]
      · rwa [b.here (le_max_right ..) (max_lt overlap.1 bHeight)]
    simp only [List.length_cons] at h
    split_ifs at rest with first second
    · exact ih _ (by simp; omega) a.next b rest rfl
    · exact ih _ (by simp; omega) a b.next rest rfl
    · exact ih _ (by omega) a.next b.next rest rfl

/-- The loop of `intersects` where it finds nothing. -/
theorem compareSpans_apart {aHad bHad : Bool} (a : Tail g aY as aRest) (b : Tail f bY bs bRest)
    (checked : ∀ p, p < aY ∨ p < bY → Apart f g p)
    (passed : compareSpans compareIntersectsOperation ((aY, as) :: aRest) ((bY, bs) :: bRest) aHad
      bHad = none) : ∀ p, Apart f g p := by
  induction h : aRest.length + bRest.length using Nat.strong_induction_on
    generalizing aY as aRest bY bs bRest aHad bHad with
  | _ n ih =>
  cases aRest with
  | nil =>
    intro p x inA
    by_cases before : p < aY
    · exact checked p (.inl before) x inA
    · obtain rfl : as = [] := a.ends
      rw [a.value p (not_lt.mp before)] at inA
      cases inA
  | cons aNext aRest =>
  cases bRest with
  | nil =>
    intro p x inA inB
    by_cases before : p < bY
    · exact checked p (.inr before) x inA inB
    · obtain rfl : bs = [] := b.ends
      rw [b.value p (not_lt.mp before)] at inB
      cases inB
  | cons bNext bRest =>
    obtain ⟨aMaxY, as'⟩ := aNext
    obtain ⟨bMaxY, bs'⟩ := bNext
    simp only [compareSpans, compareIntersectsOperation, ite_self, Option.orElse_eq_orElse,
      Option.orElse_eq_or, Option.none_or, Option.or_eq_none_iff] at passed
    obtain ⟨line, rest⟩ := passed
    have done : ∀ p, p < aMaxY → p < bMaxY → Apart f g p := by
      intro p hp hp'
      by_cases before : p < aY ∨ p < bY
      · exact checked p before
      · have overlap : bMaxY > aY ∧ bY < aMaxY := by omega
        rw [if_pos overlap] at line
        intro x inA inB
        rw [a.here (by omega) hp] at inA
        rw [b.here (by omega) hp'] at inB
        exact compareSegments_apart a.current b.current line inA inB
    simp only [List.length_cons] at h
    split_ifs at rest with first second
    · refine ih _ (by simp; omega) a.next b ?_ rest rfl
      rintro p (before | before)
      · exact done p before (before.trans first)
      · exact checked p (.inr before)
    · refine ih _ (by simp; omega) a b.next ?_ rest rfl
      rintro p (before | before)
      · exact checked p (.inl before)
      · exact done p (before.trans second) before
    · refine ih _ (by omega) a.next b.next ?_ rest rfl
      rintro p (before | before)
      · exact done p before (by omega)
      · exact done p (by omega) before

/-- `intersects` returns early only where it succeeds. -/
theorem compareSegments_true : compareSegments compareIntersectsOperation as bs ≠ some false := by
  fun_induction compareSegments compareIntersectsOperation as bs with
  | case1 => grind [compareIntersectsOperation]
  | case2 => grind [compareIntersectsOperation]

theorem or_ne_false {first second : Option Bool} (left : first ≠ some false)
    (right : second ≠ some false) : (first <|> second) ≠ some false := by
  cases first with
  | none => exact right
  | some value => exact left

theorem compareSpans_true {aHad bHad : Bool} :
    compareSpans compareIntersectsOperation a b aHad bHad ≠ some false := by
  fun_induction compareSpans compareIntersectsOperation a b aHad bHad with
  | case1 aY as aMaxY as' aRest bY bs bMaxY bs' bRest aHad bHad ih1 ih2 ih3 =>
    apply or_ne_false
    · simp [compareIntersectsOperation]
    · apply or_ne_false
      · simp [compareIntersectsOperation]
      · apply or_ne_false
        · split_ifs
          · exact compareSegments_true
          · simp
        · split_ifs
          · assumption
          · assumption
          · assumption
  | case2 => simp [compareIntersectsOperation]

theorem compareShapes_intersects_iff (ok : a.WellFormed) (ok' : b.WellFormed) :
    compareShapes compareIntersectsOperation a b = true ↔ ∃ p, p ∈ a.points ∧ p ∈ b.points := by
  cases a with
  | nil => cases b <;> simp [compareShapes, compareSpans, compareIntersectsOperation, points_nil]
  | cons aSpan aRest =>
  cases b with
  | nil => simp [compareShapes, compareSpans, compareIntersectsOperation, points_nil]
  | cons bSpan bRest =>
    constructor
    · intro found
      have early : compareSpans compareIntersectsOperation (aSpan :: aRest) (bSpan :: bRest) false
          false = some true := by
        cases result : compareSpans compareIntersectsOperation (aSpan :: aRest) (bSpan :: bRest)
            false false with
        | none =>
          rw [compareShapes, result] at found
          cases found
        | some value =>
          cases value with
          | true => rfl
          | false => exact absurd result compareSpans_true
      obtain ⟨p, together⟩ := compareSpans_overlap ok.tail ok'.tail early
      rw [Apart] at together
      push Not at together
      obtain ⟨x, inA, inB, -⟩ := together
      exact ⟨⟨x, p⟩, inA, inB⟩
    · rintro ⟨p, inA, inB⟩
      by_contra missed
      have passed : compareSpans compareIntersectsOperation (aSpan :: aRest) (bSpan :: bRest) false
          false = none := by
        cases result : compareSpans compareIntersectsOperation (aSpan :: aRest) (bSpan :: bRest)
            false false with
        | none => rfl
        | some value =>
          rw [compareShapes, result] at missed
          cases value with
          | true => exact absurd rfl missed
          | false => exact absurd result compareSpans_true
      refine compareSpans_apart ok.tail ok'.tail ?_ passed p.y p.x inA inB
      rintro p (before | before) x inA inB
      · rw [valueAt, if_neg (not_le.mpr before)] at inA
        cases inA
      · rw [valueAt, if_neg (not_le.mpr before)] at inB
        cases inB

end Shape

namespace Region

variable {r region : Region} {S T : Set IntPoint}

def intersects (r region : Region) : Bool :=
  r.bounds.intersects region.bounds &&
    Shape.compareShapes Shape.compareIntersectsOperation r.shape region.shape

theorem Denotes.intersects_iff (d : r.Denotes S) (d' : region.Denotes T) :
    r.intersects region = true ↔ ∃ p, p ∈ S ∧ p ∈ T := by
  rw [intersects, Bool.and_eq_true, Shape.compareShapes_intersects_iff d.shape d'.shape, d.points,
    d'.points]
  refine and_iff_right_of_imp ?_
  rintro ⟨p, inS, inT⟩
  have first := IntRect.mem_points.mp (d.covers inS)
  have second := IntRect.mem_points.mp (d'.covers inT)
  have some_ : ∀ {rect : IntRect}, (rect.x ≤ p.x ∧ p.x < rect.maxX) ∧ rect.y ≤ p.y ∧ p.y < rect.maxY →
      rect.isEmpty = false := by
    intro rect within
    simp only [IntRect.maxX, IntRect.maxY] at within
    simp only [IntRect.isEmpty, Bool.or_eq_false_iff, decide_eq_false_iff_not]
    omega
  simp only [IntRect.intersects, some_ first, some_ second, Bool.not_false, Bool.true_and,
    Bool.and_eq_true, decide_eq_true_eq]
  omega

theorem bounds_contain {bounds bounds' : IntRect} (touches : Touches bounds' T)
    (covers : T ⊆ bounds.points) : bounds.contains bounds' = true := by
  obtain ⟨left, inLeft, hleft⟩ := touches.left
  obtain ⟨right, inRight, hright⟩ := touches.right
  obtain ⟨top, inTop, htop⟩ := touches.top
  obtain ⟨bottom, inBottom, hbottom⟩ := touches.bottom
  have hl := IntRect.mem_points.mp (covers inLeft)
  have hr := IntRect.mem_points.mp (covers inRight)
  have ht := IntRect.mem_points.mp (covers inTop)
  have hb := IntRect.mem_points.mp (covers inBottom)
  simp only [IntRect.contains, Bool.and_eq_true, decide_eq_true_eq]
  omega

theorem Denotes.contains_iff (d : r.Denotes S) (d' : region.Denotes T) :
    r.contains region = true ↔ T ⊆ S ∧ r.bounds.contains region.bounds = true := by
  rw [contains, Bool.and_eq_true, Shape.compareShapes_contains_iff d.shape d'.shape, d.points,
    d'.points]
  exact and_comm

end Region

namespace Expression

/-- What the points say about containing and intersecting. -/
def ComparesRightly (a b : Expression) : Prop :=
  (a.region.contains b.region = true ↔ ∀ p ∈ b.points, p ∈ a.points) ∧
    (a.region.intersects b.region = true ↔ ∃ p, p ∈ a.points ∧ p ∈ b.points)

/-- **Comparing.** `contains` and `intersects` answer by the points exactly if the second region
is not empty, or its empty bounds are within those of the first one. -/
theorem compares_rightly_iff (a b : Expression) (small : a.Small) (small' : b.Small) :
    a.ComparesRightly b ↔
      b.region.isEmpty = false ∨ a.region.bounds.contains b.region.bounds = true := by
  have d := denotes small
  have d' := denotes small'
  rw [ComparesRightly, and_iff_left (d.intersects_iff d'), d.contains_iff d']
  by_cases empty : b.points = ∅
  · have is_empty : b.region.isEmpty = true := d'.isEmpty_iff.mpr empty
    rw [is_empty, empty]
    simp
  · have not_empty : b.region.isEmpty = false :=
      Bool.eq_false_of_not_eq_true fun is_empty => empty (d'.isEmpty_iff.mp is_empty)
    refine iff_of_true (and_iff_left_of_imp fun subset => ?_) (.inl not_empty)
    have touches := d'.bounds.resolve_left fun none => empty none.1
    exact Region.bounds_contain touches (subset.trans d.covers)

/-- A square and one half of it. -/
theorem compares_rightly_half :
    ComparesRightly (.rect ⟨0, 0, 2, 2⟩) (.rect ⟨0, 0, 2, 1⟩) := by
  refine (compares_rightly_iff _ _ ?_ ?_).mpr (.inl rfl)
  · simp [Small, IntRect.maxX, IntRect.maxY, intMin, intMax]
  · simp [Small, IntRect.maxX, IntRect.maxY, intMin, intMax]

/-- The square at (5, 5) does not contain the empty region, whose bounds are at the origin. -/
theorem empty_not_contained : ¬ ComparesRightly (.rect ⟨5, 5, 1, 1⟩) apart := by
  intro compares
  have contained : (Region.ofRect ⟨5, 5, 1, 1⟩).contains apart.region = true := by
    refine compares.1.mpr fun p member => ?_
    rw [apart_empty] at member
    cases member
  exact absurd contained (by decide)

end Expression

end NetRider.Graphics
