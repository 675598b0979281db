import NetRider.Wtf.PageOccupancy

/-!
# The pages over every sequence of calls
-/

namespace NetRider.Wtf.ExecutableMemory

open Set

variable {layout : PageLayout} {w w' : ExecutableMemory} {m m' : MetaAllocator}

/-- **The counts, the bytes and the notices agree with the live handles.** -/
structure PagesOk (layout : PageLayout) (w : ExecutableMemory) : Prop where
  counts : ∀ page, w.allocator.pageOccupancyMap page =
    if occupants layout w.handles page = 0 then none else some (occupants layout w.handles page)
  committed : ∃ pages : Finset Nat, (∀ page, page ∈ pages ↔ w.allocator.pageOccupancyMap page ≠ none) ∧
    w.allocator.bytesCommitted = layout.pageSize * pages.card
  alternates : ∀ page, Alternates page (noticesOf page w.allocator.notices)
  released : w.handles = [] → w.allocator.bytesCommitted = 0

abbrev PagesCounted (layout : PageLayout) (w : ExecutableMemory) : Prop :=
  w.allocator.Counted layout (occupants layout w.handles)

theorem PagesCounted.ok (counted : w.PagesCounted layout) : w.PagesOk layout := by
  constructor
  · exact counted.counts
  · obtain ⟨pages, members, committed⟩ := counted.committed
    refine ⟨pages, ?_, committed⟩
    intro page
    rw [members, counted.counts]
    split_ifs with unused <;> simp [unused]
  · exact counted.noticed.alternates
  · intro none_
    obtain ⟨pages, members, committed⟩ := counted.committed
    have empty : pages = ∅ := by
      apply Finset.eq_empty_of_forall_notMem
      intro page member
      apply (members page).mp member
      rw [none_]
      rfl
    rw [committed, empty, Finset.card_empty, Nat.mul_zero]

/-- An allocation does not wrap, and a handle that starts within a page does not shrink to nothing. -/
def KeepsPages (layout : PageLayout) (w : ExecutableMemory) : Action → Prop
  | .shrink i size _ =>
    size = 0 → ∀ h ∈ w.handles[i]?, h.sizeInBytes = 0 ∨ layout.pageSize ∣ h.start
  | a => Fits layout w a

theorem KeepsPages.fits {a : Action} (keeps : KeepsPages layout w a) : Fits layout w a := by
  cases a with
  | shrink => trivial
  | addFreshFreeSpace | allocate | release => exact keeps

theorem handle_bound {h : MetaAllocatorHandle} (ok : w.FreeSpaceOk) (aligned : w.Aligned layout)
    (member : h ∈ w.handles) (filled : h.sizeInBytes ≠ 0) : h.stop ≤ sizeTBound := by
  have last : h.stop - 1 ∈ liveSpace w.handles := by
    refine ⟨h, member, ?_⟩
    rw [MetaAllocatorHandle.range, mem_Ico, MetaAllocatorHandle.stop]
    omega
  have bound := (aligned.reserved_pos (ok.inside last)).2
  omega

/-! ## What the calls do to the pages -/

section

variable {count : Nat → Nat}

theorem Counted.occupy {h : MetaAllocatorHandle} {handles : List MetaAllocatorHandle}
    (counted : m.Counted layout (occupants layout handles)) (filled : h.sizeInBytes ≠ 0)
    (bound : h.stop ≤ sizeTBound) :
    (m.occupy layout h.start h.sizeInBytes).1.Counted layout (occupants layout (h :: handles)) := by
  have after : MetaAllocator.Counted layout (m.incrementPageOccupancy layout h.start h.sizeInBytes) _ :=
    counted.increment
  apply MetaAllocator.Counted.congr (m := (m.occupy layout h.start h.sizeInBytes).1)
    ⟨after.counts, after.committed, after.noticed⟩
  intro page
  rw [occupants_cons, count_pagesOf filled bound]

theorem Counted.extend {start numberOfPages rounded : Nat} {node : NodeId}
    (counted : m.Counted layout count) :
    (m.extend layout start numberOfPages rounded node).Counted layout count := by
  have same : MetaAllocator.Counted layout
      { m with bytesReserved := m.bytesReserved + numberOfPages * layout.pageSize } count :=
    ⟨counted.counts, counted.committed, counted.noticed⟩
  dsimp only [MetaAllocator.extend]
  split_ifs
  · exact same.of_same (MetaAllocator.addFreeSpace_sameTotals ..)
  · exact same

theorem Counted.released {start size : Nat} {node : NodeId} (counted : m.Counted layout count) :
    (m.addFreeSpaceFromReleasedHandle start size node).Counted layout count := by
  have same : MetaAllocator.Counted layout { m with bytesAllocated := m.bytesAllocated - size } count :=
    ⟨counted.counts, counted.committed, counted.noticed⟩
  exact same.of_same (MetaAllocator.addFreeSpace_sameTotals ..)

/-- What is given up goes out of the books. -/
theorem Counted.leave {pages : List Nat} {kept : Nat → Nat} (counted : m.Counted layout count)
    (split : ∀ page, kept page + pages.count page = count page) :
    (pages.foldl (MetaAllocator.decrementPage layout) m).Counted layout kept := by
  apply (counted.decrement _).congr
  · intro page
    rw [← split, Nat.add_sub_cancel]
  · intro page
    rw [← split]
    exact Nat.le_add_left ..

end

theorem PagesCounted.step {a : Action} (ok : w.FreeSpaceOk) (aligned : w.Aligned layout)
    (counted : w.PagesCounted layout) (keeps : KeepsPages layout w a)
    (effect : Effect layout w a w') : w'.PagesCounted layout := by
  have ok' := ok.step aligned keeps.fits effect
  have aligned' := aligned.step effect
  cases effect with
  | @fresh region node fresh new =>
    have same : MetaAllocator.Counted layout { w.allocator with
        bytesReserved := w.allocator.bytesReserved + region.sizeInBytes } _ :=
      ⟨counted.counts, counted.committed, counted.noticed⟩
    exact same.of_same (MetaAllocator.addFreeSpace_sameTotals ..)
  | nothing => exact counted
  | @found size rounded n newSpace node positive rounds finds =>
    have same : w.allocator.SameTotals
        (w.allocator.findAndRemoveFreeSpace layout rounded (some n)).2 :=
      w.allocator.findAndRemoveFreeSpace_sameTotals ..
    exact Counted.occupy (counted.of_same same) positive.ne' (handle_bound ok' aligned' List.mem_cons_self positive.ne')
  | extended positive rounds offers new =>
    exact Counted.occupy (Counted.extend counted) positive.ne'
      (handle_bound ok' aligned' List.mem_cons_self positive.ne')
  | @shrunk i size node h h' allocator handle le new shrinks =>
    have member := List.mem_of_getElem? handle
    obtain ⟨rounded, rounds, rfl, ⟨equal, rfl⟩ | ⟨different, rfl⟩⟩ := shrink_cases shrinks
    · subst equal
      apply MetaAllocator.Counted.congr counted
      intro page
      change occupants layout (w.handles.set i h) page = _
      rw [occupants_perm (set_perm handle h), occupants_perm (perm_of_getElem? handle)]
    · have multiple := aligned.granules h member
      have smaller : rounded < h.sizeInBytes :=
        lt_of_le_of_ne (PageLayout.roundUp_le rounds multiple le) different
      have whole : rounded ≠ 0 ∨ layout.pageSize ∣ h.start := by
        by_cases zero : size = 0
        · right
          exact (keeps zero h handle).resolve_left (Nat.ne_of_gt (Nat.zero_lt_of_lt smaller))
        · left
          have positive := PageLayout.le_roundUp rounds
          omega
      have bound := handle_bound ok aligned member (Nat.ne_of_gt (Nat.zero_lt_of_lt smaller))
      apply Counted.released
      rw [shrinkPages_eq]
      apply Counted.leave counted
      intro page
      rw [occupants_perm (set_perm handle _), ← occupants_perm (perm_of_getElem? handle),
        occupants_cons, occupants_cons, Nat.add_assoc, count_shrunk smaller bound whole]
  | @released i node h handle new =>
    have member := List.mem_of_getElem? handle
    dsimp only [MetaAllocator.release]
    split_ifs with filled
    · apply Counted.released
      apply Counted.leave counted
      intro page
      rw [← occupants_perm (perm_of_getElem? handle), occupants_cons,
        count_pagesOf filled (handle_bound ok aligned member filled)]
    · apply MetaAllocator.Counted.congr counted
      intro page
      rw [← occupants_perm (perm_of_getElem? handle), occupants_cons,
        if_neg (not_touches_of_empty (not_not.mp filled)), Nat.add_zero]

theorem create_counted : create.PagesCounted layout where
  counts := fun _ => rfl
  committed := ⟨∅, fun page => by simp [create, occupants], rfl⟩
  noticed := by
    constructor
    · intro page i notice found
      cases found
    · intro page
      rfl

theorem reached_counted (reached : Lib.Reach (step layout) (KeepsPages layout) create w) :
    w.FreeSpaceOk ∧ w.Aligned layout ∧ w.PagesCounted layout := by
  apply Lib.Reach.invariant _ _ reached
  · exact ⟨create_ok, ⟨List.forall_mem_nil _, List.forall_mem_nil _⟩, create_counted⟩
  · rintro s a t ⟨ok, aligned, counted⟩ keeps stepped
    have effect := step_effect ok aligned stepped
    exact ⟨ok.step aligned keeps.fits effect, aligned.step effect,
      counted.step ok aligned keeps effect⟩

/-! ## A page that stays -/

theorem decrement_other {pages : List Nat} {page : Nat} (other : page ∉ pages) (m : MetaAllocator) :
    (pages.foldl (MetaAllocator.decrementPage layout) m).pageOccupancyMap page =
      m.pageOccupancyMap page := by
  induction pages generalizing m with
  | nil => rfl
  | cons first pages ih =>
    obtain ⟨different, rest⟩ := not_or.mp (List.mem_cons.not.mp other)
    rw [List.foldl_cons, ih rest, MetaAllocator.decrementPage]
    cases m.pageOccupancyMap first with
    | none => rfl
    | some count =>
      dsimp only
      split_ifs <;> exact Function.update_of_ne different ..

theorem increment_other {pages : List Nat} {page : Nat} (other : page ∉ pages) (m : MetaAllocator) :
    (pages.foldl (MetaAllocator.incrementPage layout) m).pageOccupancyMap page =
      m.pageOccupancyMap page := by
  induction pages generalizing m with
  | nil => rfl
  | cons first pages ih =>
    obtain ⟨different, rest⟩ := not_or.mp (List.mem_cons.not.mp other)
    rw [List.foldl_cons, ih rest, MetaAllocator.incrementPage]
    cases m.pageOccupancyMap first <;> exact Function.update_of_ne different ..

/-- A page's count determines how many handles touch it. -/
theorem PagesOk.occupants_eq {page : Nat} (ok : w.PagesOk layout) (ok' : w'.PagesOk layout)
    (same : w'.allocator.pageOccupancyMap page = w.allocator.pageOccupancyMap page) :
    occupants layout w'.handles page = occupants layout w.handles page := by
  rw [ok.counts, ok'.counts] at same
  split_ifs at same with first second second
  · rw [first, second]
  · exact Option.some.inj same

/-- The first page of a handle that shrinks to nothing is not given up. -/
theorem first_page_stays {h : MetaAllocatorHandle} (filled : h.sizeInBytes ≠ 0)
    (bound : h.stop ≤ sizeTBound) (within : ¬ layout.pageSize ∣ h.start) :
    h.start / layout.pageSize ∉ releasedPages layout h 0 := by
  have positive := layout.pageSize_pos
  rw [← List.count_eq_zero, count_releasedPages (Nat.pos_of_ne_zero filled) bound, if_neg]
  rintro ⟨first, -⟩
  apply within
  -- rounding up to a page is rounding down only at a boundary
  have above := Nat.lt_mul_of_div_lt (Nat.lt_succ_of_le first) positive
  have split := Nat.div_add_mod h.start layout.pageSize
  rw [Nat.succ_eq_add_one, Nat.add_mul, Nat.one_mul, Nat.mul_comm] at above
  exact Nat.dvd_of_mod_eq_zero (by omega)

/-- No handle is in a page that is fresh. -/
theorem Fresh.unoccupied {region : Region} (ok : w.FreeSpaceOk) (fresh : w.Fresh layout region) :
    occupants layout w.handles (region.start / layout.pageSize) = 0 := by
  have positive := layout.pageSize_pos
  obtain ⟨k, start⟩ := fresh.2.2.2.1
  have one := Nat.le_of_dvd fresh.2.1 fresh.2.2.2.2.1
  apply List.countP_eq_zero.mpr
  intro h member
  rw [decide_eq_true_eq]
  rintro ⟨a, here, page⟩
  have reserved : a ∈ reservedSpace w.reserved := ok.inside ⟨h, member, here⟩
  have inside : a ∈ region.range := by
    have split := Nat.div_add_mod a layout.pageSize
    have small := Nat.mod_lt a positive
    rw [page, start, Nat.mul_div_cancel_left _ positive, ← start] at split
    rw [Region.range, mem_Ico]
    omega
  exact fresh.disjoint.notMem_of_mem_left inside reserved

/-- The last page of a handle that wraps comes before its first. -/
theorem pagesOf_wrapped {region : Region} {size rounded : Nat} (fresh : w.Fresh layout region)
    (rounds : layout.roundUp size = some rounded)
    (large : sizeTBound ≤ rounded + layout.pageSize - 1) : layout.pagesOf region.start rounded = [] := by
  have positive := layout.pageSize_pos
  have ⟨first, filled, bound, ⟨k, start⟩, _, _⟩ := fresh
  have after := Nat.le_of_dvd first fresh.2.2.2.1
  have whole : layout.allocationGranule ∣ sizeTBound :=
    Nat.pow_dvd_pow 2 ((layout.granule_le_page.trans_lt layout.log_lt).le.trans (Nat.le_add_right 32 32))
  have small : size ≤ sizeTBound := by
    rw [PageLayout.roundUp] at rounds
    split_ifs at rounds with guard
    omega
  have limit := PageLayout.roundUp_le rounds whole small
  have wraps : (region.start + rounded - 1) % sizeTBound = region.start + rounded - 1 - sizeTBound := by
    rw [Nat.mod_eq_sub_mod (by omega), Nat.mod_eq_of_lt (by omega)]
  have before : (region.start + rounded - 1 - sizeTBound) / layout.pageSize <
      region.start / layout.pageSize := by
    rw [Nat.div_lt_iff_lt_mul positive, Nat.div_mul_cancel fresh.2.2.2.1]
    omega
  rw [PageLayout.pagesOf, wraps, Nat.sub_eq_zero_of_le before]
  rfl

theorem extend_pageOccupancyMap (m : MetaAllocator) (start numberOfPages rounded : Nat)
    (node : NodeId) :
    (m.extend layout start numberOfPages rounded node).pageOccupancyMap = m.pageOccupancyMap := by
  dsimp only [MetaAllocator.extend]
  split_ifs
  · exact (MetaAllocator.addFreeSpace_sameTotals ..).pageOccupancyMap
  · rfl

theorem not_ok_of_lost_page {a : Action} (ok : w.FreeSpaceOk) (aligned : w.Aligned layout)
    (counted : w.PagesCounted layout) (stepped : w.step layout a = some w')
    (loses : ¬ KeepsPages layout w a) : ¬ w'.PagesOk layout := by
  intro after
  have effect := step_effect ok aligned stepped
  cases effect with
  | fresh | released => exact absurd trivial loses
  | @nothing size found newSpace node none_ =>
    exact not_ok_of_wrapped ok aligned stepped loses ok
  | found => exact absurd trivial loses
  | @extended size rounded start numberOfPages node positive rounds offers new =>
    have wraps : ¬ Fits layout w (.allocate size none (some (start, numberOfPages)) node) := loses
    have large := large_of_wraps rounds wraps
    have none_ : layout.pagesOf start rounded = [] := pagesOf_wrapped offers.1 rounds large
    have kept : ((w.allocator.extend layout start numberOfPages rounded node).occupy layout start
        rounded).1.pageOccupancyMap (start / layout.pageSize) =
          w.allocator.pageOccupancyMap (start / layout.pageSize) := by
      change (((w.allocator.extend layout start numberOfPages rounded node).incrementPageOccupancy
        layout start rounded).pageOccupancyMap _) = _
      rw [MetaAllocator.incrementPageOccupancy, none_, List.foldl_nil, extend_pageOccupancyMap]
    have same := counted.ok.occupants_eq after kept
    have touches : layout.Touches ⟨start, rounded⟩ (start / layout.pageSize) :=
      ⟨start, mem_Ico.mpr ⟨le_rfl, Nat.lt_add_of_pos_right positive⟩, rfl⟩
    rw [Fresh.unoccupied ok offers.1, occupants_cons, if_pos touches] at same
    cases same
  | @shrunk i size node h h' allocator handle le new shrinks =>
    have member := List.mem_of_getElem? handle
    obtain ⟨zero, lost⟩ := Classical.not_imp.mp loses
    have kept : ¬ (h.sizeInBytes = 0 ∨ layout.pageSize ∣ h.start) := by
      intro keeps
      apply lost
      intro other same
      cases handle.symm.trans same
      exact keeps
    obtain ⟨filled, within⟩ := not_or.mp kept
    subst zero
    obtain ⟨rounded, rounds, rfl, result⟩ := shrink_cases shrinks
    obtain rfl : rounded = 0 :=
      Nat.le_zero.mp (PageLayout.roundUp_le rounds (Nat.dvd_zero _) le_rfl)
    obtain ⟨equal, -⟩ | ⟨-, rfl⟩ := result
    · exact filled equal.symm
    · have stays := first_page_stays filled (handle_bound ok aligned member filled) within
      have same : ((shrinkPages layout w.allocator h 0).addFreeSpaceFromReleasedHandle (h.start + 0)
          (h.sizeInBytes - 0) node).pageOccupancyMap (h.start / layout.pageSize) =
            w.allocator.pageOccupancyMap (h.start / layout.pageSize) := by
        have released : (shrinkPages layout w.allocator h 0).pageOccupancyMap (h.start / layout.pageSize) =
            w.allocator.pageOccupancyMap (h.start / layout.pageSize) := by
          rw [shrinkPages_eq, decrement_other stays]
        rw [← released]
        exact congrFun (MetaAllocator.addFreeSpace_sameTotals ..).pageOccupancyMap _
      have touches : layout.Touches h (h.start / layout.pageSize) :=
        ⟨h.start, mem_Ico.mpr ⟨le_rfl, Nat.lt_add_of_pos_right (Nat.pos_of_ne_zero filled)⟩, rfl⟩
      have equal := counted.ok.occupants_eq after same
      change occupants layout (w.handles.set i { h with sizeInBytes := 0 }) _ = _ at equal
      rw [occupants_perm (set_perm handle _), ← occupants_perm (perm_of_getElem? handle),
        occupants_cons, occupants_cons, if_pos touches, if_neg (not_touches_of_empty rfl)] at equal
      omega

/-- **The page books agree with the live handles until a handle that starts within a page shrinks to
nothing (or an allocation wraps), and then they do not.** -/
theorem page_occupancy (layout : PageLayout) :
    (∀ w, Lib.Reach (step layout) (KeepsPages layout) create w → w.PagesOk layout) ∧
      ∀ w a w', Lib.Reach (step layout) (KeepsPages layout) create w →
        w.step layout a = some w' → ¬ KeepsPages layout w a → ¬ w'.PagesOk layout := by
  constructor
  · intro w reached
    exact (reached_counted reached).2.2.ok
  · intro w a w' reached stepped loses
    obtain ⟨ok, aligned, counted⟩ := reached_counted reached
    exact not_ok_of_lost_page ok aligned counted stepped loses

instance (w : ExecutableMemory) : DecidablePred (KeepsPages layout w)
  | .shrink i size _ => inferInstanceAs (Decidable (size = 0 → ∀ h ∈ w.handles[i]?, _))
  | .allocate a b c d => inferInstanceAs (Decidable (Fits layout w (.allocate a b c d)))
  | .addFreshFreeSpace .. | .release .. => isTrue trivial

/-- Two handles in one page, and both are released. -/
def releaseBoth : List Action :=
  [.allocate 100 none (some (4096, 1)) 0, .allocate 40 (some 0) none 1, .shrink 0 32 1, .release 1 1,
    .release 0 2]

/-- The second one shrinks to nothing first. -/
def shrinkToNothing : List Action :=
  [.allocate 100 none (some (4096, 1)) 0, .allocate 40 (some 0) none 1, .shrink 0 0 1, .release 1 1,
    .release 0 1]

theorem page_occupancy_small_pages :
    (∃ w, Lib.Reach (step smallPages) (KeepsPages smallPages) create w ∧
      w.allocator.notices = [.needPage 1, .pageIsFree 1] ∧ w.PagesOk smallPages) ∧
    ∃ w w', Lib.Reach (step smallPages) (KeepsPages smallPages) create w ∧
      step smallPages w (.shrink 0 0 1) = some w' ∧ ¬ w'.PagesOk smallPages := by
  have occupancy := page_occupancy smallPages
  constructor
  · have ends : (Lib.run (fun w a => if KeepsPages smallPages w a then step smallPages w a else none)
        create releaseBoth).map (·.allocator.notices) = some [.needPage 1, .pageIsFree 1] := by
      decide
    obtain ⟨w, ran, notices⟩ := Option.map_eq_some_iff.mp ends
    have reached := Lib.Reach.of_run .start ran
    exact ⟨w, reached, notices, occupancy.1 w reached⟩
  · have ends : (Lib.run (fun w a => if KeepsPages smallPages w a then step smallPages w a else none)
        create (shrinkToNothing.take 2)).map (fun w => (decide (KeepsPages smallPages w (.shrink 0 0 1)),
          (step smallPages w (.shrink 0 0 1)).isSome)) = some (false, true) := by
      decide
    obtain ⟨w, ran, same⟩ := Option.map_eq_some_iff.mp ends
    obtain ⟨loses, stepped⟩ := Prod.mk.inj same
    obtain ⟨w', stepped⟩ := Option.isSome_iff_exists.mp stepped
    have reached := Lib.Reach.of_run .start ran
    exact ⟨w, w', reached, stepped,
      occupancy.2 w _ w' reached stepped (of_decide_eq_false loses)⟩

/-- Every handle is released, and the page is still committed. -/
theorem page_lost :
    ∃ w, Lib.run (step smallPages) create shrinkToNothing = some w ∧ w.handles = [] ∧
      w.allocator.bytesCommitted = 4096 ∧ ¬ w.PagesOk smallPages := by
  have ends : (Lib.run (step smallPages) create shrinkToNothing).map
      (fun w => (w.handles.length, w.allocator.bytesCommitted)) = some (0, 4096) := by
    decide
  obtain ⟨w, ran, same⟩ := Option.map_eq_some_iff.mp ends
  obtain ⟨length, committed⟩ := Prod.mk.inj same
  have none_ := List.eq_nil_of_length_eq_zero length
  refine ⟨w, ran, none_, committed, ?_⟩
  intro ok
  rw [ok.released none_] at committed
  cases committed

end NetRider.Wtf.ExecutableMemory
