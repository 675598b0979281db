import NetRider.Wtf.FreeSpaceRuns

/-!
# Page occupancy

The count of each page is the number of live handles that touch it, over every sequence of calls.

`shrink` gives up the pages from the first one that becomes completely free. A handle that does not
start at a page boundary keeps its first page, also when it shrinks to nothing. When it is released
later its size is zero, and the page is counted forever.
-/

namespace NetRider.Wtf

def PageNotice.page : PageNotice → Nat
  | needPage page | pageIsFree page => page

/-- The notices about one page, in order. -/
def noticesOf (page : Nat) (notices : List PageNotice) : List PageNotice :=
  notices.filter (·.page = page)

/-- `notifyNeedPage` and `notifyPageIsFree` in turn. -/
def Alternates (page : Nat) (notices : List PageNotice) : Prop :=
  ∀ i notice, notices[i]? = some notice →
    notice = if i % 2 = 0 then .needPage page else .pageIsFree page

theorem Alternates.concat {page : Nat} {notices : List PageNotice} (alternates : Alternates page notices)
    {notice : PageNotice}
    (next : notice = if notices.length % 2 = 0 then .needPage page else .pageIsFree page) :
    Alternates page (notices ++ [notice]) := by
  intro i other found
  rcases lt_trichotomy i notices.length with before | rfl | after
  · rw [List.getElem?_append_left before] at found
    exact alternates i other found
  · rw [List.getElem?_concat_length] at found
    cases found
    exact next
  · rw [List.getElem?_eq_none] at found
    · cases found
    · rw [List.length_append, List.length_singleton]
      exact after

theorem noticesOf_concat_self (notices : List PageNotice) (notice : PageNotice) :
    noticesOf notice.page (notices ++ [notice]) = noticesOf notice.page notices ++ [notice] := by
  simp [noticesOf]

theorem noticesOf_concat_other {page : Nat} {notice : PageNotice} (notices : List PageNotice)
    (other : notice.page ≠ page) : noticesOf page (notices ++ [notice]) = noticesOf page notices := by
  simp [noticesOf, other]

/-- Each page that is counted was asked for last; each other one is free, if it was ever asked for. -/
structure Noticed (notices : List PageNotice) (count : Nat → Nat) : Prop where
  alternates : ∀ page, Alternates page (noticesOf page notices)
  parity : ∀ page, (noticesOf page notices).length % 2 = if count page = 0 then 0 else 1

theorem Noticed.next {notices : List PageNotice} {count : Nat → Nat} {page k : Nat}
    {notice : PageNotice} (noticed : Noticed notices count)
    (turn : notice = if count page = 0 then .needPage page else .pageIsFree page)
    (changed : k = 0 ↔ count page ≠ 0) :
    Noticed (notices ++ [notice]) (Function.update count page k) := by
  have about : notice.page = page := by
    rw [turn]
    split_ifs <;> rfl
  constructor
  · intro other
    by_cases same : other = page
    · rw [same, ← about, noticesOf_concat_self, about]
      apply (noticed.alternates page).concat
      rw [turn, noticed.parity]
      split_ifs <;> simp_all
    · rw [noticesOf_concat_other _ (about ▸ Ne.symm same)]
      exact noticed.alternates other
  · intro other
    by_cases same : other = page
    · have before := noticed.parity page
      rw [same, ← about, noticesOf_concat_self, about, Function.update_self, List.length_append,
        List.length_singleton]
      split_ifs at before ⊢ <;> omega
    · rw [noticesOf_concat_other _ (about ▸ Ne.symm same), Function.update_of_ne same]
      exact noticed.parity other

namespace MetaAllocator

/-- The pages are in the books with their counts. -/
structure Counted (layout : PageLayout) (m : MetaAllocator) (count : Nat → Nat) : Prop where
  counts : ∀ page, m.pageOccupancyMap page = if count page = 0 then none else some (count page)
  committed : ∃ pages : Finset Nat, (∀ page, page ∈ pages ↔ count page ≠ 0) ∧
    m.bytesCommitted = layout.pageSize * pages.card
  noticed : Noticed m.notices count

variable {layout : PageLayout} {m : MetaAllocator} {count : Nat → Nat} {page : Nat}

theorem Counted.congr {count' : Nat → Nat} (counted : Counted layout m count)
    (same : ∀ page, count' page = count page) : Counted layout m count' := by
  rw [funext same]
  exact counted

theorem Counted.update_counts (counted : Counted layout m count) (page k other : Nat) :
    Function.update m.pageOccupancyMap page (if k = 0 then none else some k) other =
      if Function.update count page k other = 0 then none
      else some (Function.update count page k other) := by
  by_cases same : other = page
  · rw [same, Function.update_self, Function.update_self]
  · rw [Function.update_of_ne same, Function.update_of_ne same]
    exact counted.counts other

/-! ## One page -/

theorem Counted.needPage (counted : Counted layout m count) (unused : count page = 0) :
    Counted layout
      { m with
        pageOccupancyMap := Function.update m.pageOccupancyMap page (some 1)
        bytesCommitted := m.bytesCommitted + layout.pageSize
        notices := m.notices ++ [.needPage page] }
      (Function.update count page 1) := by
  constructor
  · exact counted.update_counts page 1
  · obtain ⟨pages, members, committed⟩ := counted.committed
    have new : page ∉ pages := fun member => (members page).mp member unused
    refine ⟨insert page pages, ?_, ?_⟩
    · intro other
      by_cases same : other = page
      · subst same
        simp
      · rw [Function.update_of_ne same, Finset.mem_insert, or_iff_right same, members]
    · change m.bytesCommitted + layout.pageSize = _
      rw [Finset.card_insert_of_notMem new, committed, Nat.mul_add, Nat.mul_one]
  · apply counted.noticed.next
    · rw [if_pos unused]
    · simp [unused]

theorem Counted.pageIsFree (counted : Counted layout m count) (used : count page ≠ 0) :
    Counted layout
      { m with
        pageOccupancyMap := Function.update m.pageOccupancyMap page none
        bytesCommitted := m.bytesCommitted - layout.pageSize
        notices := m.notices ++ [.pageIsFree page] }
      (Function.update count page 0) := by
  constructor
  · exact counted.update_counts page 0
  · obtain ⟨pages, members, committed⟩ := counted.committed
    have old : page ∈ pages := (members page).mpr used
    refine ⟨pages.erase page, ?_, ?_⟩
    · intro other
      by_cases same : other = page
      · subst same
        simp
      · rw [Function.update_of_ne same, Finset.mem_erase, and_iff_right same, members]
    · change m.bytesCommitted - layout.pageSize = _
      rw [Finset.card_erase_of_mem old, committed, Nat.mul_sub, Nat.mul_one]
  · apply counted.noticed.next
    · rw [if_neg used]
    · simp [used]

/-- A count that stays above zero changes. -/
theorem Counted.recount {k : Nat} (counted : Counted layout m count) (used : count page ≠ 0)
    (positive : k ≠ 0) :
    Counted layout { m with pageOccupancyMap := Function.update m.pageOccupancyMap page (some k) }
      (Function.update count page k) := by
  have zero : ∀ other, Function.update count page k other = 0 ↔ count other = 0 := by
    intro other
    by_cases same : other = page
    · subst same
      simp [used, positive]
    · rw [Function.update_of_ne same]
  constructor
  · have changed := counted.update_counts page k
    rwa [if_neg positive] at changed
  · obtain ⟨pages, members, committed⟩ := counted.committed
    refine ⟨pages, ?_, committed⟩
    intro other
    rw [members, Ne, Ne, zero]
  · refine ⟨counted.noticed.alternates, ?_⟩
    intro other
    simp only [zero]
    exact counted.noticed.parity other

theorem Counted.incrementPage (counted : Counted layout m count) (page : Nat) :
    Counted layout (m.incrementPage layout page) (Function.update count page (count page + 1)) := by
  have there := counted.counts page
  unfold MetaAllocator.incrementPage
  by_cases unused : count page = 0
  · rw [if_pos unused] at there
    rw [there, unused]
    exact counted.needPage unused
  · rw [if_neg unused] at there
    rw [there]
    exact counted.recount unused (Nat.succ_ne_zero _)

theorem Counted.decrementPage (counted : Counted layout m count) (used : count page ≠ 0) :
    Counted layout (m.decrementPage layout page) (Function.update count page (count page - 1)) := by
  have there := counted.counts page
  rw [if_neg used] at there
  unfold MetaAllocator.decrementPage
  rw [there]
  dsimp only
  split_ifs with last
  · rw [last]
    exact counted.pageIsFree used
  · exact counted.recount used last

/-! ## All pages of a block -/

theorem Counted.increment {pages : List Nat} (counted : Counted layout m count) :
    Counted layout (pages.foldl (MetaAllocator.incrementPage layout) m)
      (fun page => count page + pages.count page) := by
  induction pages generalizing m count with
  | nil => simpa using counted
  | cons first pages ih =>
    apply (ih (counted.incrementPage first)).congr
    intro page
    by_cases same : page = first
    · subst same
      rw [List.count_cons_self, Function.update_self]
      omega
    · rw [List.count_cons_of_ne (Ne.symm same), Function.update_of_ne same]

theorem Counted.decrement {pages : List Nat} (counted : Counted layout m count)
    (used : ∀ page, pages.count page ≤ count page) :
    Counted layout (pages.foldl (MetaAllocator.decrementPage layout) m)
      (fun page => count page - pages.count page) := by
  induction pages generalizing m count with
  | nil => simpa using counted
  | cons first pages ih =>
    have here := used first
    rw [List.count_cons_self] at here
    have inUse : count first ≠ 0 := by
      omega
    apply (ih (counted.decrementPage inUse) ?_).congr
    · intro page
      by_cases same : page = first
      · subst same
        rw [List.count_cons_self, Function.update_self]
        omega
      · rw [List.count_cons_of_ne (Ne.symm same), Function.update_of_ne same]
    · intro page
      by_cases same : page = first
      · subst same
        rw [Function.update_self]
        omega
      · have there := used page
        rw [List.count_cons_of_ne (Ne.symm same)] at there
        rwa [Function.update_of_ne same]

theorem Counted.of_same {m' : MetaAllocator} (counted : Counted layout m count)
    (same : m.SameTotals m') : Counted layout m' count where
  counts := same.pageOccupancyMap ▸ counted.counts
  committed := same.bytesCommitted ▸ counted.committed
  noticed := same.notices ▸ counted.noticed

end MetaAllocator

/-! ## The pages of a handle -/

/-- Some byte of the handle is in the page. -/
def PageLayout.Touches (layout : PageLayout) (h : MetaAllocatorHandle) (page : Nat) : Prop :=
  ∃ a ∈ h.range, a / layout.pageSize = page

namespace ExecutableMemory

open Set

variable {layout : PageLayout} {w w' : ExecutableMemory} {h : MetaAllocatorHandle}

theorem touches_iff {page : Nat} : layout.Touches h page ↔ h.sizeInBytes ≠ 0 ∧
    h.start / layout.pageSize ≤ page ∧ page ≤ (h.stop - 1) / layout.pageSize := by
  have positive := layout.pageSize_pos
  constructor
  · rintro ⟨a, inside, rfl⟩
    rw [MetaAllocatorHandle.range, mem_Ico] at inside
    have filled : h.sizeInBytes ≠ 0 := by
      rw [MetaAllocatorHandle.stop] at inside
      omega
    exact ⟨filled, Nat.div_le_div_right inside.1, Nat.div_le_div_right (by omega)⟩
  · rintro ⟨filled, first, last⟩
    -- the larger of the handle's start and the page's
    refine ⟨max h.start (page * layout.pageSize), ?_, ?_⟩
    · have before : page * layout.pageSize ≤ h.stop - 1 := (Nat.le_div_iff_mul_le positive).mp last
      rw [MetaAllocatorHandle.range, mem_Ico]
      simp only [MetaAllocatorHandle.stop] at before ⊢
      omega
    · have below := Nat.lt_mul_of_div_lt (Nat.lt_succ_of_le first) positive
      rw [Nat.succ_eq_add_one, Nat.add_mul, Nat.one_mul] at below
      apply Nat.div_eq_of_lt_le
      · exact le_max_right ..
      · rw [Nat.add_mul, Nat.one_mul]
        omega

instance (h : MetaAllocatorHandle) (page : Nat) : Decidable (layout.Touches h page) :=
  decidable_of_iff _ touches_iff.symm

/-- The number of live handles of non-zero size that touch a page. -/
def occupants (layout : PageLayout) (handles : List MetaAllocatorHandle) (page : Nat) : Nat :=
  handles.countP fun h => decide (layout.Touches h page)

theorem occupants_cons (h : MetaAllocatorHandle) (handles : List MetaAllocatorHandle) (page : Nat) :
    occupants layout (h :: handles) page =
      occupants layout handles page + if layout.Touches h page then 1 else 0 := by
  simp only [occupants, List.countP_cons, decide_eq_true_eq]

theorem occupants_perm {handles handles' : List MetaAllocatorHandle} (perm : handles.Perm handles')
    (page : Nat) : occupants layout handles' page = occupants layout handles page :=
  (perm.countP_eq _).symm

theorem not_touches_of_empty {page : Nat} (empty : h.sizeInBytes = 0) : ¬ layout.Touches h page :=
  fun touches => (touches_iff.mp touches).1 empty

theorem count_range {first last page : Nat} :
    (List.range' first (last + 1 - first)).count page =
      if first ≤ page ∧ page ≤ last then 1 else 0 := by
  split_ifs with inside
  · apply List.count_eq_one_of_mem List.nodup_range'
    rw [List.mem_range'_1]
    omega
  · apply List.count_eq_zero_of_not_mem
    rw [List.mem_range'_1]
    omega

/-- The loop of `incrementPageOccupancy` goes over just the pages of the handle. -/
theorem count_pagesOf {page : Nat} (filled : h.sizeInBytes ≠ 0) (bound : h.stop ≤ sizeTBound) :
    (layout.pagesOf h.start h.sizeInBytes).count page = if layout.Touches h page then 1 else 0 := by
  have nowrap : (h.start + h.sizeInBytes - 1) % sizeTBound = h.stop - 1 := by
    rw [MetaAllocatorHandle.stop] at bound ⊢
    exact Nat.mod_eq_of_lt (by omega)
  rw [PageLayout.pagesOf, nowrap, count_range]
  simp only [touches_iff, filled, ne_eq, not_false_eq_true, true_and]

/-! ## Shrinking -/

/-- The pages that `shrink` gives up. -/
def releasedPages (layout : PageLayout) (h : MetaAllocatorHandle) (size : Nat) : List Nat :=
  let firstCompletelyFreePage :=
    (h.start + size + layout.pageSize - 1) / layout.pageSize * layout.pageSize
  if firstCompletelyFreePage < h.start + size + (h.sizeInBytes - size) then
    layout.pagesOf firstCompletelyFreePage
      (h.sizeInBytes - size - (firstCompletelyFreePage - (h.start + size)))
  else []

theorem shrinkPages_eq (m : MetaAllocator) (size : Nat) :
    shrinkPages layout m h size =
      (releasedPages layout h size).foldl (MetaAllocator.decrementPage layout) m := by
  dsimp only [shrinkPages, releasedPages]
  split_ifs <;> rfl

/-- From the first page boundary behind what stays to the last page. -/
theorem count_releasedPages {size page : Nat} (smaller : size < h.sizeInBytes)
    (bound : h.stop ≤ sizeTBound) :
    (releasedPages layout h size).count page =
      if (h.start + size + layout.pageSize - 1) / layout.pageSize ≤ page ∧
        page ≤ (h.stop - 1) / layout.pageSize then 1 else 0 := by
  have positive := layout.pageSize_pos
  have stop : h.start + size + (h.sizeInBytes - size) = h.stop := by
    rw [MetaAllocatorHandle.stop]
    omega
  dsimp only [releasedPages]
  rw [stop]
  generalize boundary : (h.start + size + layout.pageSize - 1) / layout.pageSize = first
  have above : h.start + size ≤ first * layout.pageSize := by
    have below := Nat.lt_mul_of_div_lt (Nat.lt_succ_of_le boundary.le) positive
    rw [Nat.succ_eq_add_one, Nat.add_mul, Nat.one_mul] at below
    omega
  by_cases more : first * layout.pageSize < h.stop
  · have nowrap : (first * layout.pageSize +
        (h.sizeInBytes - size - (first * layout.pageSize - (h.start + size))) - 1) % sizeTBound =
          h.stop - 1 := by
      rw [Nat.mod_eq_of_lt] <;> omega
    rw [if_pos more, PageLayout.pagesOf, nowrap, count_range, Nat.mul_div_cancel _ positive]
  · rw [if_neg more, List.count_nil, if_neg]
    rintro ⟨after, before⟩
    have reaches := (Nat.le_div_iff_mul_le positive).mp (after.trans before)
    rw [MetaAllocatorHandle.stop] at more reaches
    omega

/-- What stays and what is given up are the pages of the handle. -/
theorem count_shrunk {size page : Nat} (smaller : size < h.sizeInBytes) (bound : h.stop ≤ sizeTBound)
    (keeps : size ≠ 0 ∨ layout.pageSize ∣ h.start) :
    (if layout.Touches { h with sizeInBytes := size } page then 1 else 0) +
      (releasedPages layout h size).count page = if layout.Touches h page then 1 else 0 := by
  have positive := layout.pageSize_pos
  have filled : h.sizeInBytes ≠ 0 := by
    omega
  have order : h.start / layout.pageSize ≤ (h.stop - 1) / layout.pageSize := by
    apply Nat.div_le_div_right
    rw [MetaAllocatorHandle.stop]
    omega
  rw [count_releasedPages smaller bound]
  by_cases zero : size = 0
  · subst zero
    obtain ⟨k, start⟩ := keeps.resolve_left (not_not.mpr rfl)
    have first : (h.start + 0 + layout.pageSize - 1) / layout.pageSize = h.start / layout.pageSize := by
      rw [start, Nat.add_zero, Nat.mul_div_cancel_left _ positive, Nat.add_sub_assoc positive,
        Nat.mul_add_div positive, Nat.div_eq_of_lt (Nat.sub_lt positive Nat.one_pos), Nat.add_zero]
    rw [if_neg (not_touches_of_empty rfl), Nat.zero_add, first]
    simp only [touches_iff, filled, ne_eq, not_false_eq_true, true_and]
  · have next : (h.start + size + layout.pageSize - 1) / layout.pageSize =
        (h.start + size - 1) / layout.pageSize + 1 := by
      rw [← Nat.add_div_right _ positive]
      congr 1
      omega
    have kept : h.start / layout.pageSize ≤ (h.start + size - 1) / layout.pageSize :=
      Nat.div_le_div_right (by omega)
    have within : (h.start + size - 1) / layout.pageSize ≤ (h.stop - 1) / layout.pageSize := by
      apply Nat.div_le_div_right
      rw [MetaAllocatorHandle.stop]
      omega
    rw [next]
    have shorter : MetaAllocatorHandle.stop { h with sizeInBytes := size } = h.start + size := rfl
    simp only [touches_iff, shorter, filled, zero, ne_eq, not_false_eq_true, true_and]
    generalize h.start / layout.pageSize = first at *
    generalize (h.start + size - 1) / layout.pageSize = middle at *
    generalize (h.stop - 1) / layout.pageSize = last at *
    split_ifs <;> omega

end ExecutableMemory

end NetRider.Wtf
