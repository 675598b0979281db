import NetRider.Wtf.FreeSpaceInvariant

/-!
# The free space over every sequence of calls
-/

namespace NetRider.Wtf.ExecutableMemory

open Set

variable {layout : PageLayout} {w w' : ExecutableMemory}

/-- What else the calls rely on. -/
structure Aligned (layout : PageLayout) (w : ExecutableMemory) : Prop where
  regions : ∀ region ∈ w.reserved, 0 < region.start ∧ region.start + region.sizeInBytes < sizeTBound
  granules : ∀ h ∈ w.handles, layout.allocationGranule ∣ h.sizeInBytes

theorem Aligned.reserved_pos {a : Nat} (aligned : w.Aligned layout)
    (inside : a ∈ reservedSpace w.reserved) : 0 < a ∧ a < sizeTBound := by
  obtain ⟨region, member, here⟩ := inside
  have bounds := aligned.regions region member
  rw [Region.range, mem_Ico] at here
  omega

/-! ## What a call does -/

inductive Effect (layout : PageLayout) (w : ExecutableMemory) : Action → ExecutableMemory → Prop
  | fresh {region : Region} {node : NodeId} (fresh : w.Fresh layout region)
      (new : node ∉ w.allocator.freeNodes) :
      Effect layout w (.addFreshFreeSpace region node)
        ⟨w.allocator.addFreshFreeSpace region.start region.sizeInBytes node, w.handles,
          region :: w.reserved⟩
  | nothing {size : Nat} {found : Option NodeId} {newSpace : MetaAllocator.NewSpace} {node : NodeId}
      (none_ : size = 0 ∨ newSpace = none) : Effect layout w (.allocate size found newSpace node) w
  | found {size rounded : Nat} {n : NodeId} {newSpace : MetaAllocator.NewSpace} {node : NodeId}
      (positive : 0 < rounded) (rounds : layout.roundUp size = some rounded)
      (finds : w.allocator.Finds rounded (some n)) :
      Effect layout w (.allocate size (some n) newSpace node)
        ⟨((w.allocator.findAndRemoveFreeSpace layout rounded (some n)).2.occupy layout
            (w.allocator.findAndRemoveFreeSpace layout rounded (some n)).1 rounded).1,
          ⟨(w.allocator.findAndRemoveFreeSpace layout rounded (some n)).1, rounded⟩ :: w.handles,
          w.reserved⟩
  | extended {size rounded start numberOfPages : Nat} {node : NodeId} (positive : 0 < rounded)
      (rounds : layout.roundUp size = some rounded)
      (offers : w.Offers layout rounded (some (start, numberOfPages)))
      (new : node ∉ w.allocator.freeNodes) :
      Effect layout w (.allocate size none (some (start, numberOfPages)) node)
        ⟨((w.allocator.extend layout start numberOfPages rounded node).occupy layout start rounded).1,
          ⟨start, rounded⟩ :: w.handles, ⟨start, numberOfPages * layout.pageSize⟩ :: w.reserved⟩
  | shrunk {i size : Nat} {node : NodeId} {h h' : MetaAllocatorHandle} {allocator : MetaAllocator}
      (handle : w.handles[i]? = some h) (le : size ≤ h.sizeInBytes)
      (new : node ∉ w.allocator.freeNodes)
      (shrinks : w.allocator.shrink layout h size node = some (allocator, h')) :
      Effect layout w (.shrink i size node) ⟨allocator, w.handles.set i h', w.reserved⟩
  | released {i : Nat} {node : NodeId} {h : MetaAllocatorHandle} (handle : w.handles[i]? = some h)
      (new : node ∉ w.allocator.freeNodes) :
      Effect layout w (.release i node)
        ⟨w.allocator.release layout h node, w.handles.eraseIdx i, w.reserved⟩

theorem found_ne_null {rounded : Nat} {n : NodeId} (ok : w.FreeSpaceOk) (aligned : w.Aligned layout)
    (positive : 0 < rounded) (finds : w.allocator.Finds rounded (some n)) :
    (w.allocator.findAndRemoveFreeSpace layout rounded (some n)).1 ≠ 0 := by
  have takes : w.allocator.Takes (w.allocator.findAndRemoveFreeSpace layout rounded (some n)).2 _ _ :=
    ok.indexed.findAndRemoveFreeSpace positive finds
  have inside := takes.inside.trans (ok.complement.subset.trans sdiff_subset)
  have start := inside (mem_Ico.mpr ⟨le_rfl, Nat.lt_add_of_pos_right positive⟩)
  exact (aligned.reserved_pos start).1.ne'

theorem allocate_effect {size : Nat} {found : Option NodeId} {newSpace : MetaAllocator.NewSpace}
    {node : NodeId} (ok : w.FreeSpaceOk) (aligned : w.Aligned layout)
    (stepped : w.step layout (.allocate size found newSpace node) = some w') :
    Effect layout w (.allocate size found newSpace node) w' := by
  dsimp only [step] at stepped
  by_cases zero : size = 0
  · rw [if_pos zero] at stepped
    cases stepped
    exact .nothing (.inl zero)
  rw [if_neg zero] at stepped
  cases rounds : layout.roundUp size with
  | none =>
    rw [rounds] at stepped
    cases stepped
  | some rounded =>
    have positive : 0 < rounded := (Nat.pos_of_ne_zero zero).trans_le (PageLayout.le_roundUp rounds)
    have allocates : w.allocator.allocate layout size found newSpace node =
        some (w.allocator.allocateRounded layout rounded found newSpace node) := by
      rw [MetaAllocator.allocate, if_neg zero, rounds, Option.map_some]
    rw [rounds] at stepped
    simp only [Option.bind_eq_bind, Option.bind_some, allocates] at stepped
    split_ifs at stepped with enabled
    obtain ⟨finds, offers, new⟩ := enabled
    cases found with
    | some n =>
      have there := found_ne_null ok aligned positive finds
      simp only [MetaAllocator.allocateRounded, if_pos there] at stepped
      cases stepped
      exact .found positive rounds finds
    | none =>
      cases newSpace with
      | none =>
        cases stepped
        exact .nothing (.inr rfl)
      | some space =>
        cases stepped
        exact .extended positive rounds offers new

theorem step_effect {a : Action} (ok : w.FreeSpaceOk) (aligned : w.Aligned layout)
    (stepped : w.step layout a = some w') : Effect layout w a w' := by
  cases a with
  | addFreshFreeSpace region node =>
    dsimp only [step] at stepped
    split_ifs at stepped with enabled
    cases stepped
    exact .fresh enabled.1 enabled.2
  | allocate size found newSpace node => exact allocate_effect ok aligned stepped
  | shrink i size node =>
    dsimp only [step] at stepped
    cases handle : w.handles[i]? with
    | none =>
      rw [handle] at stepped
      cases stepped
    | some h =>
      rw [handle] at stepped
      dsimp only at stepped
      split_ifs at stepped with enabled
      obtain ⟨⟨allocator, h'⟩, shrinks, result⟩ := Option.bind_eq_some_iff.mp stepped
      cases result
      exact .shrunk handle enabled.1 enabled.2 shrinks
  | release i node =>
    dsimp only [step] at stepped
    cases handle : w.handles[i]? with
    | none =>
      rw [handle] at stepped
      cases stepped
    | some h =>
      rw [handle] at stepped
      dsimp only at stepped
      split_ifs at stepped with enabled
      cases stepped
      exact .released handle enabled

/-! ## Each call keeps the invariant -/

section

variable {m m' : MetaAllocator} {h : MetaAllocatorHandle} {handles : List MetaAllocatorHandle}
  {reserved : List Region}

theorem occupy_sameSpace (layout : PageLayout) (m : MetaAllocator) (start size : Nat) :
    m.SameSpace (m.occupy layout start size).1 := by
  have same := (m.incrementPageOccupancy_sameBooks layout start size).space
  exact ⟨same.nodes, same.sizes, same.starts, same.ends⟩

theorem occupy_bytesAllocated (m : MetaAllocator) (start size : Nat) :
    (m.occupy layout start size).1.bytesAllocated = m.bytesAllocated + size := by
  change (m.incrementPageOccupancy layout start size).bytesAllocated + size = _
  rw [(m.incrementPageOccupancy_sameBooks layout start size).allocated]

theorem occupy_bytesReserved (m : MetaAllocator) (start size : Nat) :
    (m.occupy layout start size).1.bytesReserved = m.bytesReserved :=
  (m.incrementPageOccupancy_sameBooks layout start size).reserved

theorem FreeSpaceOk.found {rounded : Nat} {n : NodeId} (ok : FreeSpaceOk ⟨m, handles, reserved⟩)
    (positive : 0 < rounded) (finds : m.Finds rounded (some n)) :
    FreeSpaceOk
      ⟨((m.findAndRemoveFreeSpace layout rounded (some n)).2.occupy layout
          (m.findAndRemoveFreeSpace layout rounded (some n)).1 rounded).1,
        ⟨(m.findAndRemoveFreeSpace layout rounded (some n)).1, rounded⟩ :: handles, reserved⟩ := by
  have takes : m.Takes (m.findAndRemoveFreeSpace layout rounded (some n)).2 _ _ :=
    ok.indexed.findAndRemoveFreeSpace positive finds
  have totals : m.SameTotals (m.findAndRemoveFreeSpace layout rounded (some n)).2 :=
    m.findAndRemoveFreeSpace_sameTotals ..
  apply ok.take (takes.then_same (occupy_sameSpace ..))
  · rw [occupy_bytesAllocated, totals.bytesAllocated]
  · rw [occupy_bytesReserved, totals.bytesReserved]

/-- A new region, with the handle at its start and the rest free. -/
theorem FreeSpaceOk.extended {region : Region} (ok : FreeSpaceOk ⟨m, handles, reserved⟩)
    (fresh : Disjoint region.range (reservedSpace reserved)) (first : h.start = region.start)
    (le : h.sizeInBytes ≤ region.sizeInBytes)
    (grows : m.Grows m' (Ico h.stop (region.start + region.sizeInBytes))
      (region.sizeInBytes - h.sizeInBytes))
    (allocated : m'.bytesAllocated = m.bytesAllocated + h.sizeInBytes)
    (reserves : m'.bytesReserved = m.bytesReserved + region.sizeInBytes) :
    FreeSpaceOk ⟨m', h :: handles, region :: reserved⟩ := by
  have whole : region.range = h.range ∪ Ico h.stop (region.start + region.sizeInBytes) := by
    rw [MetaAllocatorHandle.range, MetaAllocatorHandle.stop, first,
      Ico_union_Ico_eq_Ico (Nat.le_add_right ..) (Nat.add_le_add_left le _), Region.range]
  have apart : Disjoint h.range (Ico h.stop (region.start + region.sizeInBytes)) :=
    Ico_disjoint_Ico_same
  have inside : liveSpace handles ⊆ reservedSpace reserved := ok.inside
  have new : Disjoint h.range (reservedSpace reserved) := fresh.mono_left (whole ▸ subset_union_left)
  constructor
  · refine List.pairwise_cons.mpr ⟨?_, ok.disjoint⟩
    intro k member
    have within : k.range ⊆ liveSpace handles := fun a here => ⟨k, member, here⟩
    exact new.mono_right (within.trans inside)
  · change liveSpace (h :: handles) ⊆ reservedSpace (region :: reserved)
    rw [liveSpace_cons, reservedSpace_cons, whole]
    exact union_subset_union subset_union_left inside
  · exact grows.indexed
  · change m'.freeSpace = reservedSpace (region :: reserved) \ liveSpace (h :: handles)
    rw [grows.freeSpace, show m.freeSpace = _ from ok.complement, reservedSpace_cons, liveSpace_cons,
      whole]
    rw [whole] at fresh
    ext a
    have first := fun there => apart.notMem_of_mem_left (a := a) there
    have second := fun there => fresh.notMem_of_mem_left (a := a) there
    have third := fun there => inside (a := a) there
    simp only [mem_union, mem_sdiff] at first second third ⊢
    tauto
  · change m'.bytesAllocated = totalSize (h :: handles)
    rw [allocated, show m.bytesAllocated = totalSize handles from ok.bytesAllocated, Nat.add_comm]
    rfl
  · have before : m.bytesReserved = m.bytesAllocated + m.freeBytes := ok.bytesReserved
    have bytes := grows.freeBytes
    change m'.bytesReserved = m'.bytesAllocated + m'.freeBytes
    omega

theorem requested_covers {rounded numberOfPages : Nat}
    (fits : rounded + layout.pageSize - 1 < sizeTBound)
    (enough : MetaAllocator.requestedNumberOfPages layout rounded ≤ numberOfPages) :
    rounded ≤ numberOfPages * layout.pageSize := by
  have positive := layout.pageSize_pos
  rw [MetaAllocator.requestedNumberOfPages, Nat.mod_eq_of_lt fits] at enough
  have below := Nat.lt_mul_of_div_lt (Nat.lt_succ_of_le enough) positive
  rw [Nat.succ_eq_add_one, Nat.add_mul, Nat.one_mul] at below
  omega

theorem Fresh.disjoint {region : Region} (fresh : w.Fresh layout region) :
    Disjoint region.range (reservedSpace w.reserved) := by
  rw [Set.disjoint_left]
  rintro a here ⟨other, member, there⟩
  have apart := fresh.2.2.2.2.2 other member
  simp only [Region.range, mem_Ico] at here there
  omega

theorem extend_grows {start numberOfPages rounded : Nat} {node : NodeId} (ok : m.Indexed)
    (new : node ∉ m.freeNodes) (le : rounded ≤ numberOfPages * layout.pageSize)
    (disjoint : Disjoint (Ico start (start + numberOfPages * layout.pageSize)) m.freeSpace) :
    m.Grows (m.extend layout start numberOfPages rounded node)
      (Ico (start + rounded) (start + numberOfPages * layout.pageSize))
      (numberOfPages * layout.pageSize - rounded) := by
  dsimp only [MetaAllocator.extend]
  split_ifs with more
  · have same : m.SameSpace { m with bytesReserved := m.bytesReserved + numberOfPages * layout.pageSize } :=
      ⟨rfl, rfl, rfl, rfl⟩
    have stop : start + numberOfPages * layout.pageSize =
        start + rounded + (numberOfPages * layout.pageSize - rounded) := by
      omega
    rw [stop] at disjoint ⊢
    apply MetaAllocator.Grows.of_same same
    apply (same.indexed ok).addFreeSpace (Nat.sub_pos_of_lt more)
    · rw [same.freeSpace]
      exact disjoint.mono_left (Ico_subset_Ico_left (Nat.le_add_right ..))
    · rw [same.freeNodes]
      exact new
  · have equal : rounded = numberOfPages * layout.pageSize := by
      omega
    rw [← equal, Ico_self, Nat.sub_self]
    exact ⟨⟨ok.nodup, ok.key, ok.positive, ok.starts, ok.ends, ok.disjoint, ok.apart⟩,
      (union_empty _).symm, rfl⟩

theorem extend_bytes (layout : PageLayout) (m : MetaAllocator) (start numberOfPages rounded : Nat) (node : NodeId) :
    (m.extend layout start numberOfPages rounded node).bytesAllocated = m.bytesAllocated ∧
      (m.extend layout start numberOfPages rounded node).bytesReserved =
        m.bytesReserved + numberOfPages * layout.pageSize := by
  dsimp only [MetaAllocator.extend]
  split_ifs
  · have same := MetaAllocator.addFreeSpace_sameTotals
      { m with bytesReserved := m.bytesReserved + numberOfPages * layout.pageSize }
      (start + rounded) (numberOfPages * layout.pageSize - rounded) node
    exact ⟨same.bytesAllocated, same.bytesReserved⟩
  · exact ⟨rfl, rfl⟩

theorem Indexed.released {start size : Nat} {node : NodeId} (ok : m.Indexed) (positive : 0 < size)
    (disjoint : Disjoint (Ico start (start + size)) m.freeSpace) (new : node ∉ m.freeNodes) :
    m.Grows (m.addFreeSpaceFromReleasedHandle start size node) (Ico start (start + size)) size := by
  have same : m.SameSpace { m with bytesAllocated := m.bytesAllocated - size } :=
    ⟨rfl, rfl, rfl, rfl⟩
  apply MetaAllocator.Grows.of_same same
  apply (same.indexed ok).addFreeSpace positive
  · rw [same.freeSpace]
    exact disjoint
  · rw [same.freeNodes]
    exact new

theorem released_bytes (m : MetaAllocator) (start size : Nat) (node : NodeId) :
    (m.addFreeSpaceFromReleasedHandle start size node).bytesAllocated = m.bytesAllocated - size ∧
      (m.addFreeSpaceFromReleasedHandle start size node).bytesReserved = m.bytesReserved := by
  have same := MetaAllocator.addFreeSpace_sameTotals
    { m with bytesAllocated := m.bytesAllocated - size } start size node
  exact ⟨same.bytesAllocated, same.bytesReserved⟩

/-- The end of a handle goes back, after a change of the pages. -/
theorem FreeSpaceOk.released {size : Nat} {node : NodeId}
    (ok : FreeSpaceOk ⟨m, h :: handles, reserved⟩) (same : m.SameBooks m')
    (smaller : size < h.sizeInBytes) (new : node ∉ m.freeNodes) :
    FreeSpaceOk
      ⟨m'.addFreeSpaceFromReleasedHandle (h.start + size) (h.sizeInBytes - size) node,
        { h with sizeInBytes := size } :: handles, reserved⟩ := by
  have stop : h.stop = h.start + size + (h.sizeInBytes - size) := by
    rw [MetaAllocatorHandle.stop]
    omega
  have held : Disjoint h.range m.freeSpace := by
    rw [show m.freeSpace = _ from ok.complement, show liveSpace _ = _ from liveSpace_cons h handles]
    exact disjoint_sdiff_right.mono_left subset_union_left
  have bytes := released_bytes m' (h.start + size) (h.sizeInBytes - size) node
  apply ok.give smaller.le
  · apply MetaAllocator.Grows.of_same same.space
    rw [stop]
    apply Indexed.released (same.space.indexed ok.indexed) (Nat.sub_pos_of_lt smaller)
    · rw [same.space.freeSpace, ← stop]
      exact held.mono_left (Ico_subset_Ico_left (Nat.le_add_right ..))
    · rw [same.space.freeNodes]
      exact new
  · rw [bytes.1, same.allocated]
  · rw [bytes.2, same.reserved]

/-- The pages that `shrink` gives up. -/
def shrinkPages (layout : PageLayout) (m : MetaAllocator) (h : MetaAllocatorHandle) (size : Nat) :
    MetaAllocator :=
  let firstCompletelyFreePage :=
    (h.start + size + layout.pageSize - 1) / layout.pageSize * layout.pageSize
  if firstCompletelyFreePage < h.start + size + (h.sizeInBytes - size) then
    m.decrementPageOccupancy layout firstCompletelyFreePage
      (h.sizeInBytes - size - (firstCompletelyFreePage - (h.start + size)))
  else m

theorem shrinkPages_sameBooks (m : MetaAllocator) (h : MetaAllocatorHandle) (size : Nat) :
    m.SameBooks (shrinkPages layout m h size) := by
  dsimp only [shrinkPages]
  split_ifs
  · exact m.decrementPageOccupancy_sameBooks layout ..
  · exact ⟨⟨rfl, rfl, rfl, rfl⟩, rfl, rfl⟩

theorem shrink_cases {size : Nat} {node : NodeId} {h' : MetaAllocatorHandle}
    (shrinks : m.shrink layout h size node = some (m', h')) :
    ∃ rounded, layout.roundUp size = some rounded ∧ h' = { h with sizeInBytes := rounded } ∧
      (rounded = h.sizeInBytes ∧ m' = m ∨ rounded ≠ h.sizeInBytes ∧
        m' = (shrinkPages layout m h rounded).addFreeSpaceFromReleasedHandle (h.start + rounded)
          (h.sizeInBytes - rounded) node) := by
  obtain ⟨rounded, rounds, result⟩ := Option.map_eq_some_iff.mp shrinks
  refine ⟨rounded, rounds, ?_⟩
  split_ifs at result with equal
  · cases result
    exact ⟨by rw [equal], .inl ⟨equal, rfl⟩⟩
  · cases result
    exact ⟨rfl, .inr ⟨equal, rfl⟩⟩

/-- The handle at an index comes first. -/
theorem perm_of_getElem? {i : Nat} (handle : handles[i]? = some h) :
    handles.Perm (h :: handles.eraseIdx i) := by
  obtain ⟨bound, rfl⟩ := List.getElem?_eq_some_iff.mp handle
  exact (List.getElem_cons_eraseIdx_perm bound).symm

theorem set_perm {i : Nat} (handle : handles[i]? = some h) (h' : MetaAllocatorHandle) :
    (h' :: handles.eraseIdx i).Perm (handles.set i h') := by
  obtain ⟨bound, -⟩ := List.getElem?_eq_some_iff.mp handle
  exact (List.set_perm_cons_eraseIdx bound h').symm

end

/-- The sum of the size and the page size does not wrap, if new space is needed. -/
def Fits (layout : PageLayout) (_ : ExecutableMemory) : Action → Prop
  | .allocate size none (some _) _ =>
    ∀ rounded ∈ layout.roundUp size, rounded + layout.pageSize - 1 < sizeTBound
  | _ => True

theorem FreeSpaceOk.step {a : Action} (ok : w.FreeSpaceOk) (aligned : w.Aligned layout)
    (fits : Fits layout w a) (effect : Effect layout w a w') : w'.FreeSpaceOk := by
  cases effect with
  | @fresh region node fresh new =>
    have same : w.allocator.SameSpace
        { w.allocator with bytesReserved := w.allocator.bytesReserved + region.sizeInBytes } :=
      ⟨rfl, rfl, rfl, rfl⟩
    have totals := MetaAllocator.addFreeSpace_sameTotals
      { w.allocator with bytesReserved := w.allocator.bytesReserved + region.sizeInBytes }
      region.start region.sizeInBytes node
    apply ok.reserve fresh.disjoint _ totals.bytesAllocated totals.bytesReserved
    apply MetaAllocator.Grows.of_same same
    apply (same.indexed ok.indexed).addFreeSpace fresh.2.1 _ new
    rw [same.freeSpace, ok.complement]
    exact fresh.disjoint.mono_right sdiff_subset
  | nothing => exact ok
  | found positive rounds finds => exact ok.found positive finds
  | @extended size rounded start numberOfPages node positive rounds offers new =>
    have le := requested_covers (fits rounded rounds) offers.2
    have bytes := extend_bytes layout w.allocator start numberOfPages rounded node
    have apart : Disjoint (Ico start (start + numberOfPages * layout.pageSize))
        w.allocator.freeSpace := by
      rw [ok.complement]
      exact offers.1.disjoint.mono_right sdiff_subset
    have grows := extend_grows ok.indexed new le apart
    have same := occupy_sameSpace layout
      (w.allocator.extend layout start numberOfPages rounded node) start rounded
    apply ok.extended offers.1.disjoint rfl le
    · exact ⟨same.indexed grows.indexed, same.freeSpace.trans grows.freeSpace,
        same.freeBytes.trans grows.freeBytes⟩
    · rw [occupy_bytesAllocated, bytes.1]
    · rw [occupy_bytesReserved, bytes.2]
  | @shrunk i size node h h' allocator handle le new shrinks =>
    have ok' := ok.perm (perm_of_getElem? handle)
    obtain ⟨rounded, rounds, rfl, ⟨equal, rfl⟩ | ⟨different, rfl⟩⟩ := shrink_cases shrinks
    · subst equal
      exact ok'.perm (set_perm handle h)
    · have multiple := aligned.granules h (List.mem_of_getElem? handle)
      have smaller : rounded < h.sizeInBytes :=
        lt_of_le_of_ne (PageLayout.roundUp_le rounds multiple le) different
      apply FreeSpaceOk.perm _ (set_perm handle _)
      exact ok'.released (shrinkPages_sameBooks ..) smaller new
  | @released i node h handle new =>
    have ok' := ok.perm (perm_of_getElem? handle)
    dsimp only [MetaAllocator.release]
    split_ifs with filled
    · have freed := ok'.released
        (w.allocator.decrementPageOccupancy_sameBooks layout h.start h.sizeInBytes)
        (Nat.pos_of_ne_zero filled) new
      exact freed.drop rfl
    · exact ok'.drop (not_not.mp filled)

theorem Aligned.step {a : Action} (aligned : w.Aligned layout) (effect : Effect layout w a w') :
    w'.Aligned layout := by
  cases effect with
  | fresh fresh new =>
    refine ⟨?_, aligned.granules⟩
    exact List.forall_mem_cons.mpr ⟨⟨fresh.1, fresh.2.2.1⟩, aligned.regions⟩
  | nothing => exact aligned
  | found positive rounds finds =>
    refine ⟨aligned.regions, ?_⟩
    exact List.forall_mem_cons.mpr ⟨PageLayout.roundUp_dvd rounds, aligned.granules⟩
  | extended positive rounds offers new =>
    refine ⟨List.forall_mem_cons.mpr ⟨⟨offers.1.1, offers.1.2.2.1⟩, aligned.regions⟩, ?_⟩
    exact List.forall_mem_cons.mpr ⟨PageLayout.roundUp_dvd rounds, aligned.granules⟩
  | shrunk handle le new shrinks =>
    refine ⟨aligned.regions, ?_⟩
    obtain ⟨rounded, rounds, rfl, -⟩ := shrink_cases shrinks
    intro k member
    rcases List.mem_or_eq_of_mem_set member with old | rfl
    · exact aligned.granules k old
    · exact PageLayout.roundUp_dvd rounds
  | released handle new =>
    refine ⟨aligned.regions, ?_⟩
    intro k member
    exact aligned.granules k (List.mem_of_mem_eraseIdx member)

theorem create_ok : create.FreeSpaceOk := by
  have none_ : create.allocator.freeSpace = ∅ := by
    ext a
    simp [MetaAllocator.freeSpace, MetaAllocator.freeNodes, create, MetaAllocator.create]
  constructor
  · exact List.Pairwise.nil
  · rintro a ⟨h, member, -⟩
    cases member
  · refine ⟨List.nodup_nil, ?_, ?_, ?_, ?_, ?_, ?_⟩ <;>
      simp [MetaAllocator.freeNodes, create, MetaAllocator.create, Lib.Indexes]
  · rw [none_]
    ext a
    simp [reservedSpace, create]
  · rfl
  · rfl

theorem reached_ok (reached : Lib.Reach (step layout) (Fits layout) create w) :
    w.FreeSpaceOk ∧ w.Aligned layout := by
  apply Lib.Reach.invariant _ _ reached
  · exact ⟨create_ok, ⟨List.forall_mem_nil _, List.forall_mem_nil _⟩⟩
  · rintro s a t ⟨ok, aligned⟩ fits stepped
    have effect := step_effect ok aligned stepped
    exact ⟨ok.step aligned fits effect, aligned.step effect⟩

theorem large_of_wraps {size rounded : Nat} {space : Nat × Nat} {node : NodeId}
    (rounds : layout.roundUp size = some rounded)
    (wraps : ¬ Fits layout w (.allocate size none (some space) node)) :
    sizeTBound ≤ rounded + layout.pageSize - 1 := by
  by_contra small
  apply wraps
  intro other same
  cases rounds.symm.trans same
  exact not_le.mp small

/-- A handle from a sum that wrapped ends behind everything that is reserved. -/
theorem not_ok_of_wrapped {a : Action} (ok : w.FreeSpaceOk) (aligned : w.Aligned layout)
    (stepped : w.step layout a = some w') (wraps : ¬ Fits layout w a) : ¬ w'.FreeSpaceOk := by
  have effect := step_effect ok aligned stepped
  have aligned' := aligned.step effect
  cases effect with
  | fresh => exact absurd trivial wraps
  | @nothing size found newSpace node none_ =>
    exfalso
    rcases none_ with rfl | rfl
    · apply wraps
      cases found with
      | some n => trivial
      | none =>
        cases newSpace with
        | none => trivial
        | some space =>
          intro rounded rounds
          have zero := PageLayout.roundUp_le rounds (Nat.dvd_zero _) le_rfl
          have small := layout.pageSize_lt
          omega
    · cases found <;> exact wraps trivial
  | found => exact absurd trivial wraps
  | @extended size rounded start numberOfPages node positive rounds offers new =>
    intro ok'
    have large := large_of_wraps rounds wraps
    have after : layout.pageSize ≤ start := Nat.le_of_dvd offers.1.1 offers.1.2.2.2.1
    have last : start + rounded - 1 ∈ liveSpace (⟨start, rounded⟩ :: w.handles) := by
      refine ⟨⟨start, rounded⟩, List.mem_cons_self, ?_⟩
      simp only [MetaAllocatorHandle.range, MetaAllocatorHandle.stop, mem_Ico]
      omega
    have bound := (aligned'.reserved_pos (ok'.inside last)).2
    omega
  | shrunk => exact absurd trivial wraps
  | released => exact absurd trivial wraps

/-- **The free space invariant holds until the size of an allocation wraps, and then it breaks.** -/
theorem free_space_invariant (layout : PageLayout) :
    (∀ w, Lib.Reach (step layout) (Fits layout) create w → w.FreeSpaceOk) ∧
      ∀ w a w', Lib.Reach (step layout) (Fits layout) create w → w.step layout a = some w' →
        ¬ Fits layout w a → ¬ w'.FreeSpaceOk := by
  constructor
  · intro w reached
    exact (reached_ok reached).1
  · intro w a w' reached stepped wraps
    have ⟨ok, aligned⟩ := reached_ok reached
    exact not_ok_of_wrapped ok aligned stepped wraps

instance (w : ExecutableMemory) : DecidablePred (Fits layout w)
  | .allocate size none (some _) _ => inferInstanceAs (Decidable (∀ rounded ∈ layout.roundUp size, _))
  | .allocate _ (some _) _ _ | .allocate _ none none _ | .addFreshFreeSpace .. | .shrink ..
  | .release .. => isTrue trivial

theorem granule_le_small_page : 5 ≤ 12 := by decide

theorem small_page_lt : 12 < 32 := by decide

/-- Granules of 32 bytes, pages of 4096. -/
def smallPages : PageLayout := ⟨5, 12, granule_le_small_page, small_page_lt⟩

/-- Two handles in one page; one shrinks to nothing, the other is released. -/
def shrinkAndRelease : List Action :=
  [.allocate 100 none (some (4096, 1)) 0, .allocate 40 (some 0) none 1, .shrink 0 0 1, .release 1 1]

/-- One page is offered for nearly 2^64 bytes. -/
def wrapped : Action := .allocate (2 ^ 64 - 1024) none (some (4096, 1)) 0

theorem wrapped_runs : (step smallPages create wrapped).isSome := by decide

theorem wrapped_not_fits : ¬ Fits smallPages create wrapped := by decide

theorem free_space_invariant_small_pages :
    (∃ w, Lib.Reach (step smallPages) (Fits smallPages) create w ∧
      w.allocator.bytesReserved = 4096 ∧ w.handles.length = 1 ∧ w.FreeSpaceOk) ∧
    ∃ w, step smallPages create wrapped = some w ∧ ¬ w.FreeSpaceOk := by
  have invariant := free_space_invariant smallPages
  constructor
  · have ends : (Lib.run (fun w a => if Fits smallPages w a then step smallPages w a else none)
        create shrinkAndRelease).map (fun w => (w.allocator.bytesReserved, w.handles.length)) =
          some (4096, 1) := by
      decide
    obtain ⟨w, ran, same⟩ := Option.map_eq_some_iff.mp ends
    obtain ⟨reserved, count⟩ := Prod.mk.inj same
    have reached := Lib.Reach.of_run .start ran
    exact ⟨w, reached, reserved, count, invariant.1 w reached⟩
  · obtain ⟨w, stepped⟩ := Option.isSome_iff_exists.mp wrapped_runs
    exact ⟨w, stepped, invariant.2 create wrapped w .start stepped wrapped_not_fits⟩

/-- One page is reserved, and the handle ends far behind it. -/
theorem wrapped_allocation_outside :
    ∃ w, Lib.run (step smallPages) create [wrapped] = some w ∧ ¬ w.FreeSpaceOk := by
  obtain ⟨w, stepped⟩ := Option.isSome_iff_exists.mp wrapped_runs
  have aligned : create.Aligned smallPages := ⟨List.forall_mem_nil _, List.forall_mem_nil _⟩
  refine ⟨w, ?_, not_ok_of_wrapped create_ok aligned stepped wrapped_not_fits⟩
  simp only [Lib.run, stepped]

end NetRider.Wtf.ExecutableMemory
