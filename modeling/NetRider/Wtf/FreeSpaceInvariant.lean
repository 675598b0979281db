import NetRider.Wtf.FreeSpaceOps

/-!
# Free space and live handles

The free nodes are the complement of the live handles in the reserved regions, over every sequence
of calls.

`allocate` rounds the size up to pages in `size_t`. For a size in the last page below 2^64 the sum
wraps, and `allocateNewSpace` is asked for no pages at all.
-/

namespace NetRider.Wtf

open Set

def MetaAllocatorHandle.stop (h : MetaAllocatorHandle) : Nat := h.start + h.sizeInBytes

def MetaAllocatorHandle.range (h : MetaAllocatorHandle) : Set Nat := Ico h.start h.stop

def Region.range (region : Region) : Set Nat :=
  Ico region.start (region.start + region.sizeInBytes)

namespace PageLayout

variable {layout : PageLayout} {size rounded : Nat}

theorem allocationGranule_pos : 0 < layout.allocationGranule := Nat.two_pow_pos _

theorem pageSize_pos : 0 < layout.pageSize := Nat.two_pow_pos _

theorem granule_dvd_pageSize : layout.allocationGranule ∣ layout.pageSize :=
  Nat.pow_dvd_pow 2 layout.granule_le_page

theorem pageSize_lt : layout.pageSize < sizeTBound :=
  (Nat.pow_lt_pow_right (by decide) layout.log_lt).trans (by decide)

theorem roundUp_eq (h : layout.roundUp size = some rounded) :
    rounded = (size + layout.allocationGranule - 1) / layout.allocationGranule *
      layout.allocationGranule := by
  rw [roundUp] at h
  split_ifs at h
  exact (Option.some.inj h).symm

theorem roundUp_dvd (h : layout.roundUp size = some rounded) : layout.allocationGranule ∣ rounded := by
  rw [roundUp_eq h]
  exact Nat.dvd_mul_left ..

theorem le_roundUp (h : layout.roundUp size = some rounded) : size ≤ rounded := by
  rw [roundUp_eq h]
  have positive := layout.allocationGranule_pos
  have split := Nat.div_add_mod (size + layout.allocationGranule - 1) layout.allocationGranule
  have small := Nat.mod_lt (size + layout.allocationGranule - 1) positive
  rw [Nat.mul_comm] at split
  omega

/-- Rounding up stays below a multiple. -/
theorem roundUp_le {bound : Nat} (h : layout.roundUp size = some rounded)
    (multiple : layout.allocationGranule ∣ bound) (le : size ≤ bound) : rounded ≤ bound := by
  obtain ⟨k, rfl⟩ := multiple
  have positive := layout.allocationGranule_pos
  rw [roundUp_eq h, Nat.mul_comm]
  apply Nat.mul_le_mul_left
  have bounded : (size + layout.allocationGranule - 1) / layout.allocationGranule < k + 1 := by
    rw [Nat.div_lt_iff_lt_mul positive, Nat.add_mul, Nat.one_mul, Nat.mul_comm k]
    omega
  omega

end PageLayout

/-! ## What the page operations keep -/

namespace MetaAllocator

/-- The nodes and the indexes are the same. -/
structure SameSpace (m m' : MetaAllocator) : Prop where
  nodes : m'.nodes = m.nodes
  sizes : m'.freeSpaceSizeMap = m.freeSpaceSizeMap
  starts : m'.freeSpaceStartAddressMap = m.freeSpaceStartAddressMap
  ends : m'.freeSpaceEndAddressMap = m.freeSpaceEndAddressMap

/-- The nodes, the indexes and what is allocated and reserved are the same. -/
structure SameBooks (m m' : MetaAllocator) : Prop where
  space : m.SameSpace m'
  allocated : m'.bytesAllocated = m.bytesAllocated
  reserved : m'.bytesReserved = m.bytesReserved

variable {m m' : MetaAllocator}

theorem SameSpace.trans {m₁ m₂ m₃ : MetaAllocator} (first : m₁.SameSpace m₂)
    (second : m₂.SameSpace m₃) : m₁.SameSpace m₃ where
  nodes := second.nodes.trans first.nodes
  sizes := second.sizes.trans first.sizes
  starts := second.starts.trans first.starts
  ends := second.ends.trans first.ends

theorem SameBooks.trans {m₁ m₂ m₃ : MetaAllocator} (first : m₁.SameBooks m₂)
    (second : m₂.SameBooks m₃) : m₁.SameBooks m₃ where
  space := first.space.trans second.space
  allocated := second.allocated.trans first.allocated
  reserved := second.reserved.trans first.reserved

theorem SameSpace.freeNodes (same : m.SameSpace m') : m'.freeNodes = m.freeNodes := by
  rw [MetaAllocator.freeNodes, same.sizes, MetaAllocator.freeNodes]

theorem SameSpace.freeSpace (same : m.SameSpace m') : m'.freeSpace = m.freeSpace := by
  rw [MetaAllocator.freeSpace, same.freeNodes, same.nodes, MetaAllocator.freeSpace]

theorem SameSpace.freeBytes (same : m.SameSpace m') : m'.freeBytes = m.freeBytes := by
  rw [MetaAllocator.freeBytes, same.freeNodes, same.nodes, MetaAllocator.freeBytes]

theorem SameSpace.indexed (same : m.SameSpace m') (ok : m.Indexed) : m'.Indexed where
  nodup := same.freeNodes ▸ ok.nodup
  key := by
    rw [same.sizes, same.nodes]
    exact ok.key
  positive := by
    rw [same.freeNodes, same.nodes]
    exact ok.positive
  starts := by
    rw [same.freeNodes, same.nodes, same.starts]
    exact ok.starts
  ends := by
    rw [same.freeNodes, same.nodes, same.ends]
    exact ok.ends
  disjoint := by
    rw [same.freeNodes, same.nodes]
    exact ok.disjoint
  apart := by
    rw [same.freeNodes, same.nodes]
    exact ok.apart

theorem Grows.of_same {m₁ m₂ m₃ : MetaAllocator} {added : Set Nat} {bytes : Nat}
    (same : m₁.SameSpace m₂) (grows : m₂.Grows m₃ added bytes) : m₁.Grows m₃ added bytes where
  indexed := grows.indexed
  freeSpace := same.freeSpace ▸ grows.freeSpace
  freeBytes := same.freeBytes ▸ grows.freeBytes

theorem Takes.then_same {m₁ m₂ m₃ : MetaAllocator} {taken : Set Nat} {bytes : Nat}
    (takes : m₁.Takes m₂ taken bytes) (same : m₂.SameSpace m₃) : m₁.Takes m₃ taken bytes where
  indexed := same.indexed takes.indexed
  inside := takes.inside
  freeSpace := same.freeSpace.trans takes.freeSpace
  freeBytes := same.freeBytes ▸ takes.freeBytes

variable (layout : PageLayout)

theorem incrementPage_sameBooks (m : MetaAllocator) (page : Nat) :
    m.SameBooks (m.incrementPage layout page) := by
  unfold incrementPage
  split <;> exact ⟨⟨rfl, rfl, rfl, rfl⟩, rfl, rfl⟩

theorem decrementPage_sameBooks (m : MetaAllocator) (page : Nat) :
    m.SameBooks (m.decrementPage layout page) := by
  unfold decrementPage
  split
  · exact ⟨⟨rfl, rfl, rfl, rfl⟩, rfl, rfl⟩
  · split <;> exact ⟨⟨rfl, rfl, rfl, rfl⟩, rfl, rfl⟩

theorem foldl_sameBooks {op : MetaAllocator → Nat → MetaAllocator}
    (one : ∀ (m : MetaAllocator) (page : Nat), m.SameBooks (op m page)) (m : MetaAllocator) (pages : List Nat) :
    m.SameBooks (pages.foldl op m) := by
  induction pages generalizing m with
  | nil => exact ⟨⟨rfl, rfl, rfl, rfl⟩, rfl, rfl⟩
  | cons page pages ih => exact (one m page).trans (ih (op m page))

theorem incrementPageOccupancy_sameBooks (m : MetaAllocator) (address sizeInBytes : Nat) :
    m.SameBooks (m.incrementPageOccupancy layout address sizeInBytes) :=
  foldl_sameBooks (incrementPage_sameBooks layout) m _

theorem decrementPageOccupancy_sameBooks (m : MetaAllocator) (address sizeInBytes : Nat) :
    m.SameBooks (m.decrementPageOccupancy layout address sizeInBytes) :=
  foldl_sameBooks (decrementPage_sameBooks layout) m _

end MetaAllocator

/-! ## The invariant -/

namespace ExecutableMemory

variable {layout : PageLayout}

def liveSpace (handles : List MetaAllocatorHandle) : Set Nat := {a | ∃ h ∈ handles, a ∈ h.range}

def reservedSpace (reserved : List Region) : Set Nat := {a | ∃ region ∈ reserved, a ∈ region.range}

def totalSize (handles : List MetaAllocatorHandle) : Nat := (handles.map (·.sizeInBytes)).sum

theorem liveSpace_cons (h : MetaAllocatorHandle) (handles : List MetaAllocatorHandle) :
    liveSpace (h :: handles) = h.range ∪ liveSpace handles := by
  ext a
  simp [liveSpace]

theorem reservedSpace_cons (region : Region) (reserved : List Region) :
    reservedSpace (region :: reserved) = region.range ∪ reservedSpace reserved := by
  ext a
  simp [reservedSpace]

/-- **The free space is what is reserved and not handed out.** -/
structure FreeSpaceOk (w : ExecutableMemory) : Prop where
  disjoint : w.handles.Pairwise fun h k => Disjoint h.range k.range
  inside : liveSpace w.handles ⊆ reservedSpace w.reserved
  indexed : w.allocator.Indexed
  complement : w.allocator.freeSpace = reservedSpace w.reserved \ liveSpace w.handles
  bytesAllocated : w.allocator.bytesAllocated = totalSize w.handles
  bytesReserved : w.allocator.bytesReserved = w.allocator.bytesAllocated + w.allocator.freeBytes

variable {m m' : MetaAllocator} {h : MetaAllocatorHandle} {handles : List MetaAllocatorHandle}
  {reserved : List Region}

theorem FreeSpaceOk.perm {handles' : List MetaAllocatorHandle}
    (ok : FreeSpaceOk ⟨m, handles, reserved⟩) (perm : handles.Perm handles') :
    FreeSpaceOk ⟨m, handles', reserved⟩ := by
  have live : liveSpace handles' = liveSpace handles := by
    ext a
    simp only [liveSpace, mem_ofPred_eq, perm.mem_iff]
  constructor
  · exact (perm.pairwise_iff fun apart => apart.symm).mp ok.disjoint
  · exact live ▸ ok.inside
  · exact ok.indexed
  · exact live ▸ ok.complement
  · exact ok.bytesAllocated.trans (perm.map _).sum_eq
  · exact ok.bytesReserved

theorem FreeSpaceOk.take (ok : FreeSpaceOk ⟨m, handles, reserved⟩)
    (takes : m.Takes m' h.range h.sizeInBytes)
    (allocated : m'.bytesAllocated = m.bytesAllocated + h.sizeInBytes)
    (same : m'.bytesReserved = m.bytesReserved) : FreeSpaceOk ⟨m', h :: handles, reserved⟩ := by
  have inside : h.range ⊆ reservedSpace reserved \ liveSpace handles :=
    takes.inside.trans ok.complement.subset
  constructor
  · refine List.pairwise_cons.mpr ⟨?_, ok.disjoint⟩
    intro k member
    apply Disjoint.mono_left inside
    have within : k.range ⊆ liveSpace handles := fun a here => ⟨k, member, here⟩
    exact disjoint_sdiff_left.mono_right within
  · change liveSpace (h :: handles) ⊆ _
    rw [liveSpace_cons]
    exact union_subset (inside.trans sdiff_subset) ok.inside
  · exact takes.indexed
  · change m'.freeSpace = _ \ liveSpace (h :: handles)
    rw [takes.freeSpace, liveSpace_cons, union_comm, ← Set.sdiff_sdiff, ← ok.complement]
  · change m'.bytesAllocated = totalSize (h :: handles)
    rw [allocated, show m.bytesAllocated = totalSize handles from ok.bytesAllocated, Nat.add_comm]
    rfl
  · have reserves : m.bytesReserved = m.bytesAllocated + m.freeBytes := ok.bytesReserved
    have bytes := takes.freeBytes
    change m'.bytesReserved = m'.bytesAllocated + m'.freeBytes
    omega

/-- The end of a handle is given back. -/
theorem FreeSpaceOk.give {size : Nat} (ok : FreeSpaceOk ⟨m, h :: handles, reserved⟩)
    (smaller : size ≤ h.sizeInBytes)
    (grows : m.Grows m' (Ico (h.start + size) h.stop) (h.sizeInBytes - size))
    (allocated : m'.bytesAllocated = m.bytesAllocated - (h.sizeInBytes - size))
    (same : m'.bytesReserved = m.bytesReserved) :
    FreeSpaceOk ⟨m', { h with sizeInBytes := size } :: handles, reserved⟩ := by
  have whole : h.range = Ico h.start (h.start + size) ∪ Ico (h.start + size) h.stop := by
    rw [MetaAllocatorHandle.range, MetaAllocatorHandle.stop,
      Ico_union_Ico_eq_Ico (Nat.le_add_right ..) (Nat.add_le_add_left smaller _)]
  have part : Ico h.start (h.start + size) ⊆ h.range := whole ▸ subset_union_left
  have apart : Disjoint (Ico h.start (h.start + size)) (Ico (h.start + size) h.stop) :=
    Ico_disjoint_Ico_same
  obtain ⟨apartAll, rest⟩ := List.pairwise_cons.mp ok.disjoint
  have others : Disjoint h.range (liveSpace handles) := by
    rw [Set.disjoint_left]
    rintro a here ⟨k, member, there⟩
    exact (apartAll k member).notMem_of_mem_left here there
  have covered : h.range ∪ liveSpace handles ⊆ reservedSpace reserved := by
    rw [← liveSpace_cons]
    exact ok.inside
  constructor
  · refine List.pairwise_cons.mpr ⟨?_, rest⟩
    intro k member
    exact (apartAll k member).mono_left part
  · change liveSpace (_ :: handles) ⊆ _
    rw [liveSpace_cons]
    exact (union_subset_union_left _ part).trans covered
  · exact grows.indexed
  · have before : m.freeSpace = reservedSpace reserved \ liveSpace (h :: handles) := ok.complement
    change m'.freeSpace = _ \ liveSpace (_ :: handles)
    rw [grows.freeSpace, before, liveSpace_cons, liveSpace_cons]
    change _ = _ \ (Ico h.start (h.start + size) ∪ _)
    rw [whole] at others covered ⊢
    ext a
    have first := fun there => apart.notMem_of_mem_left (a := a) there
    have second := fun there => others.notMem_of_mem_left (a := a) there
    have third := fun there => covered (a := a) there
    simp only [mem_union, mem_sdiff] at first second third ⊢
    tauto
  · have total : m.bytesAllocated = totalSize (h :: handles) := ok.bytesAllocated
    change m'.bytesAllocated = totalSize (_ :: handles)
    simp only [totalSize, List.map_cons, List.sum_cons] at total ⊢
    omega
  · have reserves : m.bytesReserved = m.bytesAllocated + m.freeBytes := ok.bytesReserved
    have total : m.bytesAllocated = totalSize (h :: handles) := ok.bytesAllocated
    have bytes := grows.freeBytes
    change m'.bytesReserved = m'.bytesAllocated + m'.freeBytes
    simp only [totalSize, List.map_cons, List.sum_cons] at total
    omega

/-- A handle of size zero goes away. -/
theorem FreeSpaceOk.drop (ok : FreeSpaceOk ⟨m, h :: handles, reserved⟩) (empty : h.sizeInBytes = 0) :
    FreeSpaceOk ⟨m, handles, reserved⟩ := by
  have live : liveSpace (h :: handles) = liveSpace handles := by
    rw [liveSpace_cons, MetaAllocatorHandle.range, MetaAllocatorHandle.stop, empty, Nat.add_zero,
      Ico_self, empty_union]
  constructor
  · exact (List.pairwise_cons.mp ok.disjoint).2
  · exact live ▸ ok.inside
  · exact ok.indexed
  · exact live ▸ ok.complement
  · have total : m.bytesAllocated = totalSize (h :: handles) := ok.bytesAllocated
    rw [total]
    simp [totalSize, empty]
  · exact ok.bytesReserved

/-- New space is reserved, and is free. -/
theorem FreeSpaceOk.reserve {region : Region} (ok : FreeSpaceOk ⟨m, handles, reserved⟩)
    (fresh : Disjoint region.range (reservedSpace reserved))
    (grows : m.Grows m' region.range region.sizeInBytes)
    (same : m'.bytesAllocated = m.bytesAllocated)
    (reserves : m'.bytesReserved = m.bytesReserved + region.sizeInBytes) :
    FreeSpaceOk ⟨m', handles, region :: reserved⟩ := by
  have inside : liveSpace handles ⊆ reservedSpace reserved := ok.inside
  constructor
  · exact ok.disjoint
  · change _ ⊆ reservedSpace (region :: reserved)
    rw [reservedSpace_cons]
    exact inside.trans subset_union_right
  · exact grows.indexed
  · change m'.freeSpace = reservedSpace (region :: reserved) \ _
    rw [grows.freeSpace, show m.freeSpace = _ from ok.complement, reservedSpace_cons, union_sdiff_distrib,
      (fresh.mono_right inside).sdiff_eq_left, union_comm]
  · exact same.trans ok.bytesAllocated
  · have before : m.bytesReserved = m.bytesAllocated + m.freeBytes := ok.bytesReserved
    have bytes := grows.freeBytes
    change m'.bytesReserved = m'.bytesAllocated + m'.freeBytes
    omega

end ExecutableMemory

end NetRider.Wtf
