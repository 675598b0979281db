import NetRider.Wtf.FreeSpaceIndex

/-!
# Adding and finding free space

`addFreeSpace` in its four coalescing cases and `findAndRemoveFreeSpace` in its three carving cases.
-/

namespace NetRider.Wtf.MetaAllocator

open Set

variable {m : MetaAllocator} {n : NodeId}

/-! ## Facts about neighbours -/

theorem Indexed.last_mem (ok : m.Indexed) (free : n ∈ m.freeNodes) :
    (m.nodes n).stop - 1 ∈ (m.nodes n).range := by
  have positive := ok.positive n free
  simp only [FreeSpaceNode.range, FreeSpaceNode.stop, mem_Ico]
  omega

theorem Indexed.of_end {a : Nat} (ok : m.Indexed) (found : m.freeSpaceEndAddressMap a = some n) :
    n ∈ m.freeNodes ∧ (m.nodes n).stop = a :=
  (ok.ends a n).mp found

theorem Indexed.of_start {a : Nat} (ok : m.Indexed) (found : m.freeSpaceStartAddressMap a = some n) :
    n ∈ m.freeNodes ∧ (m.nodes n).start = a :=
  (ok.starts a n).mp found

/-- No node ends where another begins, so a node's start is not in the end map. -/
theorem Indexed.no_end_at_start (ok : m.Indexed) (free : n ∈ m.freeNodes) :
    m.freeSpaceEndAddressMap (m.nodes n).start = none :=
  ok.ends.absent fun k member => ok.apart k member n free

theorem Indexed.no_start_at_stop (ok : m.Indexed) (free : n ∈ m.freeNodes) :
    m.freeSpaceStartAddressMap (m.nodes n).stop = none :=
  ok.starts.absent fun k member same => ok.apart n free k member same.symm

theorem removeNode_start_none {a : Nat} (absent : m.freeSpaceStartAddressMap a = none) :
    (m.removeNode n).freeSpaceStartAddressMap a = none := by
  change Function.update m.freeSpaceStartAddressMap _ none a = none
  rw [Function.update_apply]
  split
  · rfl
  · exact absent

theorem removeNode_end_none {a : Nat} (absent : m.freeSpaceEndAddressMap a = none) :
    (m.removeNode n).freeSpaceEndAddressMap a = none := by
  change Function.update m.freeSpaceEndAddressMap _ none a = none
  rw [Function.update_apply]
  split
  · rfl
  · exact absent

theorem not_mem_removeNode : n ∉ (m.removeNode n).freeNodes :=
  fun member => (mem_removeNode.mp member).2 rfl

/-! ## Adding -/

/-- Free space was added, and the nodes are in order. -/
structure Grows (m m' : MetaAllocator) (added : Set Nat) (sizeInBytes : Nat) : Prop where
  indexed : m'.Indexed
  freeSpace : m'.freeSpace = m.freeSpace ∪ added
  freeBytes : m'.freeBytes = m.freeBytes + sizeInBytes

theorem Indexed.grows_insertNode {node : FreeSpaceNode} (ok : m.Indexed) (new : n ∉ m.freeNodes)
    (positive : 0 < node.sizeInBytes) (disjoint : Disjoint node.range m.freeSpace)
    (left : m.freeSpaceEndAddressMap node.start = none)
    (right : m.freeSpaceStartAddressMap node.stop = none) :
    m.Grows (m.insertNode n node) node.range node.sizeInBytes where
  indexed := ok.insertNode new positive disjoint left right
  freeSpace := freeSpace_insertNode new
  freeBytes := freeBytes_insertNode new

/-- A node is taken out and comes back larger. -/
theorem Grows.of_removed {m' : MetaAllocator} {grown added : Set Nat} {bytes : Nat}
    (ok : m.Indexed) (free : n ∈ m.freeNodes)
    (grows : (m.removeNode n).Grows m' grown ((m.nodes n).sizeInBytes + bytes))
    (whole : grown = (m.nodes n).range ∪ added) : m.Grows m' added bytes where
  indexed := grows.indexed
  freeSpace := by
    rw [grows.freeSpace, ok.freeSpace_removeNode free, whole, ← union_assoc,
      sdiff_union_of_subset (range_subset_freeSpace free)]
  freeBytes := by
    rw [grows.freeBytes, ok.freeBytes_removeNode free]
    omega

section

variable {start sizeInBytes : Nat} {left right node : NodeId}

theorem addFreeSpace_left (atLeft : m.freeSpaceEndAddressMap start = some left)
    (atRight : m.freeSpaceStartAddressMap (start + sizeInBytes) = none) (ok : m.Indexed) :
    m.addFreeSpace start sizeInBytes node =
      (m.removeNode left).insertNode left
        ⟨(m.nodes left).start, (m.nodes left).sizeInBytes + sizeInBytes⟩ := by
  obtain ⟨free, stop⟩ := ok.of_end atLeft
  have end_eq : (m.nodes left).start + ((m.nodes left).sizeInBytes + sizeInBytes) =
      start + sizeInBytes := by
    rw [← stop, FreeSpaceNode.stop, Nat.add_assoc]
  have starts : m.freeSpaceStartAddressMap =
      addEntry (removeEntry m.freeSpaceStartAddressMap (m.nodes left).start)
        (m.nodes left).start left :=
    (addEntry_removeEntry_self (ok.starts.find free)).symm
  simp only [addFreeSpace, atLeft, atRight]
  ext1
  case freeSpaceStartAddressMap => exact starts
  case freeSpaceEndAddressMap =>
    change addEntry _ (start + sizeInBytes) left = addEntry _ (_ + (_ + sizeInBytes)) left
    rw [end_eq]
    rfl
  all_goals rfl

theorem addFreeSpace_right (atLeft : m.freeSpaceEndAddressMap start = none)
    (atRight : m.freeSpaceStartAddressMap (start + sizeInBytes) = some right) (ok : m.Indexed) :
    m.addFreeSpace start sizeInBytes node =
      (m.removeNode right).insertNode right ⟨start, (m.nodes right).sizeInBytes + sizeInBytes⟩ := by
  obtain ⟨free, first⟩ := ok.of_start atRight
  have end_eq : start + ((m.nodes right).sizeInBytes + sizeInBytes) = (m.nodes right).stop := by
    rw [FreeSpaceNode.stop, first]
    omega
  have ends : m.freeSpaceEndAddressMap =
      addEntry (removeEntry m.freeSpaceEndAddressMap (m.nodes right).stop)
        (start + ((m.nodes right).sizeInBytes + sizeInBytes)) right := by
    rw [end_eq]
    exact (addEntry_removeEntry_self (ok.ends.find free)).symm
  simp only [addFreeSpace, atLeft, atRight]
  ext1
  case freeSpaceEndAddressMap => exact ends
  case freeSpaceStartAddressMap =>
    change addEntry (removeEntry _ (start + sizeInBytes)) start right =
      addEntry (removeEntry _ (m.nodes right).start) start right
    rw [first]
  all_goals rfl

theorem addFreeSpace_both (atLeft : m.freeSpaceEndAddressMap start = some left)
    (atRight : m.freeSpaceStartAddressMap (start + sizeInBytes) = some right) (ok : m.Indexed)
    (distinct : (m.nodes left).start ≠ start + sizeInBytes) :
    m.addFreeSpace start sizeInBytes node =
      ((m.removeNode left).removeNode right).insertNode left
        ⟨(m.nodes left).start,
          (m.nodes left).sizeInBytes + (sizeInBytes + (m.nodes right).sizeInBytes)⟩ := by
  obtain ⟨freeLeft, stop⟩ := ok.of_end atLeft
  obtain ⟨freeRight, first⟩ := ok.of_start atRight
  have end_eq : (m.nodes left).start +
      ((m.nodes left).sizeInBytes + (sizeInBytes + (m.nodes right).sizeInBytes)) =
      start + sizeInBytes + (m.nodes right).sizeInBytes := by
    rw [← stop, FreeSpaceNode.stop]
    omega
  have starts : removeEntry m.freeSpaceStartAddressMap (start + sizeInBytes) =
      addEntry (removeEntry (removeEntry m.freeSpaceStartAddressMap (m.nodes left).start)
        (start + sizeInBytes)) (m.nodes left).start left := by
    have commuted : removeEntry (removeEntry m.freeSpaceStartAddressMap (m.nodes left).start)
        (start + sizeInBytes) = removeEntry (removeEntry m.freeSpaceStartAddressMap
          (start + sizeInBytes)) (m.nodes left).start :=
      Function.update_comm distinct ..
    rw [commuted, addEntry_removeEntry_self]
    exact (Function.update_of_ne distinct ..).trans (ok.starts.find freeLeft)
  simp only [addFreeSpace, atLeft, atRight]
  ext1
  case freeSpaceStartAddressMap =>
    change _ = addEntry (removeEntry (removeEntry _ _) (m.nodes right).start) _ left
    rw [first]
    exact starts
  case freeSpaceEndAddressMap =>
    change addEntry (removeEntry _ (start + sizeInBytes + _)) (start + sizeInBytes + _) left =
      addEntry (removeEntry _ ((m.nodes right).start + _)) (_ + (_ + (sizeInBytes + _))) left
    rw [end_eq, first]
    rfl
  all_goals rfl

theorem grows_left (ok : m.Indexed) (positive : 0 < sizeInBytes)
    (disjoint : Disjoint (Ico start (start + sizeInBytes)) m.freeSpace)
    (atLeft : m.freeSpaceEndAddressMap start = some left)
    (atRight : m.freeSpaceStartAddressMap (start + sizeInBytes) = none) :
    m.Grows (m.addFreeSpace start sizeInBytes node) (Ico start (start + sizeInBytes)) sizeInBytes := by
  obtain ⟨free, stop⟩ := ok.of_end atLeft
  rw [FreeSpaceNode.stop] at stop
  have whole : Ico (m.nodes left).start
        ((m.nodes left).start + ((m.nodes left).sizeInBytes + sizeInBytes)) =
      (m.nodes left).range ∪ Ico start (start + sizeInBytes) := by
    rw [FreeSpaceNode.range, FreeSpaceNode.stop, stop, Ico_union_Ico_eq_Ico (by omega) (by omega)]
    congr 1
    omega
  rw [addFreeSpace_left atLeft atRight ok]
  apply Grows.of_removed ok free _ whole
  apply (ok.removeNode free).grows_insertNode not_mem_removeNode
  · exact Nat.add_pos_right _ positive
  · rw [ok.freeSpace_removeNode free]
    apply Disjoint.mono_left whole.subset
    exact disjoint_sdiff_right.union_left (disjoint.mono_right sdiff_subset)
  · exact removeNode_end_none (ok.no_end_at_start free)
  · apply removeNode_start_none
    rw [FreeSpaceNode.stop, ← Nat.add_assoc, stop]
    exact atRight

theorem grows_right (ok : m.Indexed) (positive : 0 < sizeInBytes)
    (disjoint : Disjoint (Ico start (start + sizeInBytes)) m.freeSpace)
    (atLeft : m.freeSpaceEndAddressMap start = none)
    (atRight : m.freeSpaceStartAddressMap (start + sizeInBytes) = some right) :
    m.Grows (m.addFreeSpace start sizeInBytes node) (Ico start (start + sizeInBytes)) sizeInBytes := by
  obtain ⟨free, first⟩ := ok.of_start atRight
  have stop : start + ((m.nodes right).sizeInBytes + sizeInBytes) = (m.nodes right).stop := by
    rw [FreeSpaceNode.stop, first]
    omega
  have whole : Ico start (start + ((m.nodes right).sizeInBytes + sizeInBytes)) =
      (m.nodes right).range ∪ Ico start (start + sizeInBytes) := by
    rw [FreeSpaceNode.range, first, union_comm, Ico_union_Ico_eq_Ico (by omega), stop]
    rw [FreeSpaceNode.stop]
    omega
  rw [addFreeSpace_right atLeft atRight ok]
  apply Grows.of_removed ok free _ whole
  apply (ok.removeNode free).grows_insertNode not_mem_removeNode
  · exact Nat.add_pos_right _ positive
  · rw [ok.freeSpace_removeNode free]
    apply Disjoint.mono_left whole.subset
    exact disjoint_sdiff_right.union_left (disjoint.mono_right sdiff_subset)
  · exact removeNode_end_none atLeft
  · apply removeNode_start_none
    rw [FreeSpaceNode.stop, stop]
    exact ok.no_start_at_stop free

theorem grows_both (ok : m.Indexed) (positive : 0 < sizeInBytes)
    (disjoint : Disjoint (Ico start (start + sizeInBytes)) m.freeSpace)
    (atLeft : m.freeSpaceEndAddressMap start = some left)
    (atRight : m.freeSpaceStartAddressMap (start + sizeInBytes) = some right) :
    m.Grows (m.addFreeSpace start sizeInBytes node) (Ico start (start + sizeInBytes)) sizeInBytes := by
  obtain ⟨freeLeft, stop⟩ := ok.of_end atLeft
  obtain ⟨freeRight, first⟩ := ok.of_start atRight
  rw [FreeSpaceNode.stop] at stop
  have distinct : right ≠ left := by
    rintro rfl
    omega
  have freeRight' : right ∈ (m.removeNode left).freeNodes := mem_removeNode.mpr ⟨freeRight, distinct⟩
  have total : (m.nodes left).start +
      ((m.nodes left).sizeInBytes + (sizeInBytes + (m.nodes right).sizeInBytes)) =
      (m.nodes right).stop := by
    rw [FreeSpaceNode.stop, first]
    omega
  have whole : Ico (m.nodes left).start ((m.nodes left).start +
        ((m.nodes left).sizeInBytes + (sizeInBytes + (m.nodes right).sizeInBytes))) =
      (m.nodes right).range ∪ ((m.nodes left).range ∪ Ico start (start + sizeInBytes)) := by
    rw [total, FreeSpaceNode.range, FreeSpaceNode.range, first, FreeSpaceNode.stop, FreeSpaceNode.stop,
      first, stop, Ico_union_Ico_eq_Ico (by omega) (by omega), union_comm,
      Ico_union_Ico_eq_Ico (by omega) (by omega)]
  have okLeft := ok.removeNode freeLeft
  rw [addFreeSpace_both atLeft atRight ok (by omega)]
  apply Grows.of_removed ok freeLeft _ rfl
  apply Grows.of_removed okLeft freeRight' _ whole
  have sizes : (m.nodes right).sizeInBytes + ((m.nodes left).sizeInBytes + sizeInBytes) =
      (m.nodes left).sizeInBytes + (sizeInBytes + (m.nodes right).sizeInBytes) := by
    omega
  rw [show (m.removeNode left).nodes = m.nodes from rfl, sizes]
  apply (okLeft.removeNode freeRight').grows_insertNode
  · exact fun member => not_mem_removeNode (mem_removeNode.mp member).1
  · exact Nat.add_pos_right _ (Nat.add_pos_left positive _)
  · rw [okLeft.freeSpace_removeNode freeRight', ok.freeSpace_removeNode freeLeft]
    apply Disjoint.mono_left whole.subset
    apply disjoint_sdiff_right.union_left
    apply Disjoint.mono_right sdiff_subset
    exact disjoint_sdiff_right.union_left (disjoint.mono_right sdiff_subset)
  · exact removeNode_end_none (removeNode_end_none (ok.no_end_at_start freeLeft))
  · apply removeNode_start_none
    apply removeNode_start_none
    rw [FreeSpaceNode.stop, total]
    exact ok.no_start_at_stop freeRight

/-- Whatever there is to coalesce with. -/
theorem Indexed.addFreeSpace (ok : m.Indexed) (positive : 0 < sizeInBytes)
    (disjoint : Disjoint (Ico start (start + sizeInBytes)) m.freeSpace)
    (new : node ∉ m.freeNodes) :
    m.Grows (m.addFreeSpace start sizeInBytes node) (Ico start (start + sizeInBytes)) sizeInBytes := by
  cases atLeft : m.freeSpaceEndAddressMap start with
  | some left =>
    cases atRight : m.freeSpaceStartAddressMap (start + sizeInBytes) with
    | some right => exact grows_both ok positive disjoint atLeft atRight
    | none => exact grows_left ok positive disjoint atLeft atRight
  | none =>
    cases atRight : m.freeSpaceStartAddressMap (start + sizeInBytes) with
    | some right => exact grows_right ok positive disjoint atLeft atRight
    | none =>
      have inserted : m.addFreeSpace start sizeInBytes node =
          m.insertNode node ⟨start, sizeInBytes⟩ := by
        simp only [MetaAllocator.addFreeSpace, atLeft, atRight]
        rfl
      rw [inserted]
      exact ok.grows_insertNode new positive disjoint atLeft atRight

/-- The pages and the totals are not touched. -/
structure SameTotals (m m' : MetaAllocator) : Prop where
  pageOccupancyMap : m'.pageOccupancyMap = m.pageOccupancyMap
  bytesAllocated : m'.bytesAllocated = m.bytesAllocated
  bytesReserved : m'.bytesReserved = m.bytesReserved
  bytesCommitted : m'.bytesCommitted = m.bytesCommitted
  notices : m'.notices = m.notices

theorem addFreeSpace_sameTotals (m : MetaAllocator) (start sizeInBytes : Nat) (node : NodeId) :
    m.SameTotals (m.addFreeSpace start sizeInBytes node) := by
  dsimp only [MetaAllocator.addFreeSpace]
  split <;> constructor <;> rfl

end

/-! ## Finding -/

/-- Space was taken out of the free space, and the nodes are in order. -/
structure Takes (m m' : MetaAllocator) (taken : Set Nat) (sizeInBytes : Nat) : Prop where
  indexed : m'.Indexed
  inside : taken ⊆ m.freeSpace
  freeSpace : m'.freeSpace = m.freeSpace \ taken
  freeBytes : m.freeBytes = m'.freeBytes + sizeInBytes

/-- A node is taken out and a part of it put back. -/
theorem Takes.of_rest {m' : MetaAllocator} {taken rest : Set Nat} {bytes restBytes : Nat}
    (ok : m.Indexed) (free : n ∈ m.freeNodes) (grows : (m.removeNode n).Grows m' rest restBytes)
    (whole : (m.nodes n).range = taken ∪ rest) (apart : Disjoint taken rest)
    (sizes : (m.nodes n).sizeInBytes = bytes + restBytes) : m.Takes m' taken bytes where
  indexed := grows.indexed
  inside := subset_union_left.trans (whole ▸ range_subset_freeSpace free)
  freeSpace := by
    have within : rest ⊆ m.freeSpace :=
      subset_union_right.trans (whole ▸ range_subset_freeSpace free)
    rw [grows.freeSpace, ok.freeSpace_removeNode free, whole]
    ext a
    have separate : a ∈ rest → a ∉ taken := fun inRest inTaken =>
      apart.notMem_of_mem_left inTaken inRest
    have known : a ∈ rest → a ∈ m.freeSpace := fun inRest => within inRest
    simp only [mem_union, mem_sdiff]
    tauto
  freeBytes := by
    rw [grows.freeBytes, ok.freeBytes_removeNode free, sizes]
    omega

section

variable {layout : PageLayout} {sizeInBytes : Nat}

theorem takes_exact (ok : m.Indexed) (free : n ∈ m.freeNodes) :
    m.Takes (m.removeNode n) (m.nodes n).range (m.nodes n).sizeInBytes where
  indexed := ok.removeNode free
  inside := range_subset_freeSpace free
  freeSpace := ok.freeSpace_removeNode free
  freeBytes := ok.freeBytes_removeNode free

theorem Indexed.no_end_inside {a : Nat} (ok : m.Indexed) (free : n ∈ m.freeNodes)
    (after : (m.nodes n).start < a) (before : a < (m.nodes n).stop) :
    m.freeSpaceEndAddressMap a = none := by
  apply ok.ends.absent
  intro k member same
  have other : k ≠ n := by
    rintro rfl
    omega
  have inside : (m.nodes k).stop - 1 ∈ (m.nodes n).range := by
    rw [FreeSpaceNode.range, mem_Ico]
    omega
  exact (ok.disjoint k member n free other).notMem_of_mem_left (ok.last_mem member) inside

theorem Indexed.no_start_inside {a : Nat} (ok : m.Indexed) (free : n ∈ m.freeNodes)
    (after : (m.nodes n).start < a) (before : a < (m.nodes n).stop) :
    m.freeSpaceStartAddressMap a = none := by
  apply ok.starts.absent
  intro k member same
  have other : k ≠ n := by
    rintro rfl
    omega
  have inside : (m.nodes k).start ∈ (m.nodes n).range := by
    rw [FreeSpaceNode.range, mem_Ico]
    omega
  exact (ok.disjoint k member n free other).notMem_of_mem_left (ok.start_mem member) inside

theorem takes_left (ok : m.Indexed) (free : n ∈ m.freeNodes) (positive : 0 < sizeInBytes)
    (smaller : sizeInBytes < (m.nodes n).sizeInBytes) :
    m.Takes ((m.removeNode n).insertNode n
        ⟨(m.nodes n).start + sizeInBytes, (m.nodes n).sizeInBytes - sizeInBytes⟩)
      (Ico (m.nodes n).start ((m.nodes n).start + sizeInBytes)) sizeInBytes := by
  have stop : (m.nodes n).start + sizeInBytes + ((m.nodes n).sizeInBytes - sizeInBytes) =
      (m.nodes n).stop := by
    rw [FreeSpaceNode.stop]
    omega
  have whole : (m.nodes n).range = Ico (m.nodes n).start ((m.nodes n).start + sizeInBytes) ∪
      Ico ((m.nodes n).start + sizeInBytes)
        ((m.nodes n).start + sizeInBytes + ((m.nodes n).sizeInBytes - sizeInBytes)) := by
    rw [Ico_union_Ico_eq_Ico (by omega) (by omega), stop, FreeSpaceNode.range]
  refine Takes.of_rest ok free ?_ whole Ico_disjoint_Ico_same
    (Nat.add_sub_cancel' smaller.le).symm
  apply (ok.removeNode free).grows_insertNode not_mem_removeNode
  · exact Nat.sub_pos_of_lt smaller
  · rw [ok.freeSpace_removeNode free]
    exact disjoint_sdiff_right.mono_left (subset_union_right.trans whole.symm.subset)
  · apply removeNode_end_none
    exact ok.no_end_inside free (Nat.lt_add_of_pos_right positive) (Nat.add_lt_add_left smaller _)
  · apply removeNode_start_none
    rw [FreeSpaceNode.stop, stop]
    exact ok.no_start_at_stop free

theorem takes_right (ok : m.Indexed) (free : n ∈ m.freeNodes) (positive : 0 < sizeInBytes)
    (smaller : sizeInBytes < (m.nodes n).sizeInBytes) :
    m.Takes ((m.removeNode n).insertNode n
        ⟨(m.nodes n).start, (m.nodes n).sizeInBytes - sizeInBytes⟩)
      (Ico ((m.nodes n).stop - sizeInBytes) (m.nodes n).stop) sizeInBytes := by
  have stop : (m.nodes n).start + ((m.nodes n).sizeInBytes - sizeInBytes) =
      (m.nodes n).stop - sizeInBytes := by
    rw [FreeSpaceNode.stop]
    omega
  have whole : (m.nodes n).range = Ico ((m.nodes n).stop - sizeInBytes) (m.nodes n).stop ∪
      Ico (m.nodes n).start ((m.nodes n).start + ((m.nodes n).sizeInBytes - sizeInBytes)) := by
    rw [stop, union_comm, Ico_union_Ico_eq_Ico (by omega) (by omega), FreeSpaceNode.range]
  refine Takes.of_rest ok free ?_ whole (stop ▸ Ico_disjoint_Ico_same.symm)
    (Nat.add_sub_cancel' smaller.le).symm
  apply (ok.removeNode free).grows_insertNode not_mem_removeNode
  · exact Nat.sub_pos_of_lt smaller
  · rw [ok.freeSpace_removeNode free]
    exact disjoint_sdiff_right.mono_left (subset_union_right.trans whole.symm.subset)
  · exact removeNode_end_none (ok.no_end_at_start free)
  · apply removeNode_start_none
    rw [FreeSpaceNode.stop, stop]
    exact ok.no_start_inside free (by omega) (by rw [FreeSpaceNode.stop]; omega)

/-- What was found is free, and taken out. -/
theorem Indexed.findAndRemoveFreeSpace (ok : m.Indexed) (positive : 0 < sizeInBytes)
    (finds : m.Finds sizeInBytes (some n)) :
    m.Takes (m.findAndRemoveFreeSpace layout sizeInBytes (some n)).2
      (Ico (m.findAndRemoveFreeSpace layout sizeInBytes (some n)).1
        ((m.findAndRemoveFreeSpace layout sizeInBytes (some n)).1 + sizeInBytes)) sizeInBytes := by
  obtain ⟨entry, member, rfl, fits, -⟩ := finds
  have free : entry.2 ∈ m.freeNodes := List.mem_map_of_mem member
  rw [ok.key entry member] at fits
  dsimp only [MetaAllocator.findAndRemoveFreeSpace]
  split_ifs with exact_ fewer
  · subst exact_
    exact takes_exact ok free
  · have carved : (m.removeNode entry.2).insertNode entry.2 ⟨(m.nodes entry.2).start + sizeInBytes,
          (m.nodes entry.2).sizeInBytes - sizeInBytes⟩ =
        ((((m.removeSize entry.2).removeStart (m.nodes entry.2).start).setNode entry.2
          ⟨(m.nodes entry.2).start + sizeInBytes,
            (m.nodes entry.2).sizeInBytes - sizeInBytes⟩).insertSize entry.2).addStart
          ((m.nodes entry.2).start + sizeInBytes) entry.2 := by
      ext1
      case freeSpaceEndAddressMap =>
        change addEntry (removeEntry m.freeSpaceEndAddressMap (m.nodes entry.2).stop)
          ((m.nodes entry.2).start + sizeInBytes +
            ((m.nodes entry.2).sizeInBytes - sizeInBytes)) entry.2 = m.freeSpaceEndAddressMap
        rw [Nat.add_assoc, Nat.add_sub_cancel' fits]
        exact addEntry_removeEntry_self (ok.ends.find free)
      all_goals rfl
    exact carved ▸ takes_left ok free positive (lt_of_le_of_ne fits (Ne.symm exact_))
  · have carved : (m.removeNode entry.2).insertNode entry.2 ⟨(m.nodes entry.2).start,
          (m.nodes entry.2).sizeInBytes - sizeInBytes⟩ =
        ((((m.removeSize entry.2).removeEnd (m.nodes entry.2).stop).setNode entry.2
          ⟨(m.nodes entry.2).start, (m.nodes entry.2).sizeInBytes - sizeInBytes⟩).insertSize
          entry.2).addEnd ((m.nodes entry.2).stop - sizeInBytes) entry.2 := by
      have stop : (m.nodes entry.2).start + ((m.nodes entry.2).sizeInBytes - sizeInBytes) =
          (m.nodes entry.2).stop - sizeInBytes := by
        rw [FreeSpaceNode.stop]
        omega
      ext1
      case freeSpaceStartAddressMap =>
        exact addEntry_removeEntry_self (ok.starts.find free)
      case freeSpaceEndAddressMap =>
        change addEntry (removeEntry m.freeSpaceEndAddressMap (m.nodes entry.2).stop)
          ((m.nodes entry.2).start + ((m.nodes entry.2).sizeInBytes - sizeInBytes)) entry.2 = _
        rw [stop]
        rfl
      all_goals rfl
    have within : sizeInBytes ≤ (m.nodes entry.2).stop :=
      fits.trans (Nat.le_add_left _ _)
    rw [Nat.sub_add_cancel within]
    exact carved ▸ takes_right ok free positive (lt_of_le_of_ne fits (Ne.symm exact_))

theorem findAndRemoveFreeSpace_sameTotals (m : MetaAllocator) (sizeInBytes : Nat)
    (found : Option NodeId) :
    m.SameTotals (m.findAndRemoveFreeSpace layout sizeInBytes found).2 := by
  cases found with
  | none => constructor <;> rfl
  | some n =>
    dsimp only [MetaAllocator.findAndRemoveFreeSpace]
    split_ifs <;> constructor <;> rfl

end

end NetRider.Wtf.MetaAllocator
