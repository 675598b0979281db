import NetRider.Lib.KeyIndex
import NetRider.Wtf.MetaAllocator

/-!
# The indexes over the free space nodes

The code changes the three indexes by hand, and only where they differ. Here it is shown that each
of its updates is a removal of nodes from all of them and an insertion of one node into all of them.
-/

namespace NetRider.Wtf

open Set

def FreeSpaceNode.range (node : FreeSpaceNode) : Set Nat := Ico node.start node.stop

theorem addEntry_of_none {V : Type} {map : Nat → Option V} {key : Nat} (free : map key = none)
    (value : V) : addEntry map key value = Function.update map key (some value) :=
  if_pos free

theorem addEntry_removeEntry {V : Type} (map : Nat → Option V) (key : Nat) (value : V) :
    addEntry (removeEntry map key) key value = Function.update map key (some value) := by
  rw [addEntry_of_none (by simp [removeEntry]), removeEntry, Function.update_idem]

theorem addEntry_removeEntry_self {V : Type} {map : Nat → Option V} {key : Nat} {value : V}
    (there : map key = some value) : addEntry (removeEntry map key) key value = map := by
  rw [addEntry_removeEntry, ← there, Function.update_eq_self]

namespace MetaAllocator

/-! ## What the indexes describe -/

structure Indexed (m : MetaAllocator) : Prop where
  nodup : m.freeNodes.Nodup
  key : ∀ entry ∈ m.freeSpaceSizeMap, entry.1 = (m.nodes entry.2).sizeInBytes
  positive : ∀ n ∈ m.freeNodes, 0 < (m.nodes n).sizeInBytes
  starts : Lib.Indexes m.freeSpaceStartAddressMap (fun n => (m.nodes n).start) {n | n ∈ m.freeNodes}
  ends : Lib.Indexes m.freeSpaceEndAddressMap (fun n => (m.nodes n).stop) {n | n ∈ m.freeNodes}
  disjoint : ∀ n ∈ m.freeNodes, ∀ k ∈ m.freeNodes, n ≠ k →
    Disjoint (m.nodes n).range (m.nodes k).range
  apart : ∀ n ∈ m.freeNodes, ∀ k ∈ m.freeNodes, (m.nodes n).stop ≠ (m.nodes k).start

def freeSpace (m : MetaAllocator) : Set Nat := {a | ∃ n ∈ m.freeNodes, a ∈ (m.nodes n).range}

def freeBytes (m : MetaAllocator) : Nat := (m.freeNodes.map fun n => (m.nodes n).sizeInBytes).sum

variable {m : MetaAllocator} {n : NodeId} {node : FreeSpaceNode}

theorem Indexed.start_mem (ok : m.Indexed) (free : n ∈ m.freeNodes) :
    (m.nodes n).start ∈ (m.nodes n).range := by
  have positive := ok.positive n free
  simp only [FreeSpaceNode.range, FreeSpaceNode.stop, mem_Ico]
  omega

theorem range_subset_freeSpace (free : n ∈ m.freeNodes) : (m.nodes n).range ⊆ m.freeSpace :=
  fun _ inside => ⟨n, free, inside⟩

/-! ## Removing a node -/

def removeNode (m : MetaAllocator) (n : NodeId) : MetaAllocator :=
  ((m.removeSize n).removeStart (m.nodes n).start).removeEnd (m.nodes n).stop

theorem freeNodes_removeSize (m : MetaAllocator) (n : NodeId) :
    (m.removeSize n).freeNodes = m.freeNodes.filter (· ≠ n) := by
  simp only [freeNodes, removeSize, List.filter_map]
  rfl

theorem mem_removeNode {k : NodeId} :
    k ∈ (m.removeNode n).freeNodes ↔ k ∈ m.freeNodes ∧ k ≠ n := by
  change k ∈ (m.removeSize n).freeNodes ↔ _
  rw [freeNodes_removeSize]
  simp

theorem members_removeNode :
    {k | k ∈ (m.removeNode n).freeNodes} = {k | k ∈ m.freeNodes} \ {n} :=
  Set.ext fun _ => mem_removeNode

theorem Indexed.removeNode (ok : m.Indexed) (free : n ∈ m.freeNodes) : (m.removeNode n).Indexed where
  nodup := by
    change (m.removeSize n).freeNodes.Nodup
    rw [freeNodes_removeSize]
    exact ok.nodup.filter _
  key := by
    intro entry member
    exact ok.key entry (List.mem_filter.mp member).1
  positive := by
    intro k member
    exact ok.positive k (mem_removeNode.mp member).1
  starts := by
    rw [members_removeNode]
    exact ok.starts.remove free
  ends := by
    rw [members_removeNode]
    exact ok.ends.remove free
  disjoint := by
    intro k first j second
    exact ok.disjoint k (mem_removeNode.mp first).1 j (mem_removeNode.mp second).1
  apart := by
    intro k first j second
    exact ok.apart k (mem_removeNode.mp first).1 j (mem_removeNode.mp second).1

theorem Indexed.freeSpace_removeNode (ok : m.Indexed) (free : n ∈ m.freeNodes) :
    (m.removeNode n).freeSpace = m.freeSpace \ (m.nodes n).range := by
  ext a
  constructor
  · rintro ⟨k, member, inside⟩
    obtain ⟨member, other⟩ := mem_removeNode.mp member
    exact ⟨⟨k, member, inside⟩, (ok.disjoint k member n free other).notMem_of_mem_left inside⟩
  · rintro ⟨⟨k, member, inside⟩, outside⟩
    refine ⟨k, mem_removeNode.mpr ⟨member, ?_⟩, inside⟩
    rintro rfl
    exact outside inside

theorem Indexed.freeBytes_removeNode (ok : m.Indexed) (free : n ∈ m.freeNodes) :
    m.freeBytes = (m.removeNode n).freeBytes + (m.nodes n).sizeInBytes := by
  have erased : (m.removeNode n).freeNodes = m.freeNodes.erase n := by
    change (m.removeSize n).freeNodes = _
    rw [freeNodes_removeSize, ok.nodup.erase_eq_filter]
    congr 1
    funext k
    by_cases same : k = n <;> simp [same]
  have perm : m.freeNodes.Perm (n :: (m.removeNode n).freeNodes) :=
    erased ▸ List.perm_cons_erase free
  have total := (perm.map fun k => (m.nodes k).sizeInBytes).sum_eq
  rw [List.map_cons, List.sum_cons, Nat.add_comm] at total
  exact total

/-! ## Inserting a node -/

def insertNode (m : MetaAllocator) (n : NodeId) (node : FreeSpaceNode) : MetaAllocator :=
  (((m.setNode n node).insertSize n).addStart node.start n).addEnd node.stop n

theorem freeNodes_insertNode : (m.insertNode n node).freeNodes = n :: m.freeNodes := rfl

theorem members_insertNode :
    {k | k ∈ (m.insertNode n node).freeNodes} = insert n {k | k ∈ m.freeNodes} :=
  Set.ext fun _ => List.mem_cons

theorem nodes_insertNode_of_mem {k : NodeId} (new : n ∉ m.freeNodes) (member : k ∈ m.freeNodes) :
    (m.insertNode n node).nodes k = m.nodes k := by
  apply Function.update_of_ne
  rintro rfl
  exact new member

theorem Indexed.insertNode (ok : m.Indexed) (new : n ∉ m.freeNodes) (positive : 0 < node.sizeInBytes)
    (disjoint : Disjoint node.range m.freeSpace) (left : m.freeSpaceEndAddressMap node.start = none)
    (right : m.freeSpaceStartAddressMap node.stop = none) : (m.insertNode n node).Indexed := by
  have start_mem : node.start ∈ node.range := by
    simp only [FreeSpaceNode.range, FreeSpaceNode.stop, mem_Ico]
    omega
  have noStart : m.freeSpaceStartAddressMap node.start = none := by
    apply ok.starts.absent
    intro k member same
    exact disjoint.notMem_of_mem_left start_mem (same ▸ ⟨k, member, ok.start_mem member⟩)
  have noEnd : m.freeSpaceEndAddressMap node.stop = none := by
    apply ok.ends.absent
    intro k member same
    have last : node.stop - 1 ∈ node.range ∧ node.stop - 1 ∈ (m.nodes k).range := by
      have filled := ok.positive k member
      simp only [FreeSpaceNode.range, FreeSpaceNode.stop, mem_Ico] at same ⊢
      omega
    exact disjoint.notMem_of_mem_left last.1 ⟨k, member, last.2⟩
  have others : ∀ k ∈ m.freeNodes, (m.insertNode n node).nodes k = m.nodes k :=
    fun k member => nodes_insertNode_of_mem new member
  have self : (m.insertNode n node).nodes n = node := Function.update_self ..
  constructor
  · rw [freeNodes_insertNode]
    exact List.nodup_cons.mpr ⟨new, ok.nodup⟩
  · intro entry member
    rcases List.mem_cons.mp member with rfl | old
    · rfl
    · rw [others entry.2 (List.mem_map_of_mem old)]
      exact ok.key entry old
  · rw [freeNodes_insertNode]
    intro k member
    rcases List.mem_cons.mp member with rfl | old
    · rwa [self]
    · rw [others k old]
      exact ok.positive k old
  · change Lib.Indexes (addEntry m.freeSpaceStartAddressMap node.start n) _ _
    rw [addEntry_of_none noStart, members_insertNode]
    exact ok.starts.insert noStart (congrArg _ self) fun k member => congrArg _ (others k member)
  · change Lib.Indexes (addEntry m.freeSpaceEndAddressMap node.stop n) _ _
    rw [addEntry_of_none noEnd, members_insertNode]
    exact ok.ends.insert noEnd (congrArg _ self) fun k member => congrArg _ (others k member)
  · rw [freeNodes_insertNode]
    intro k first j second different
    rcases List.mem_cons.mp first with rfl | oldFirst
    · rcases List.mem_cons.mp second with rfl | oldSecond
      · exact absurd rfl different
      · rw [self, others j oldSecond]
        exact disjoint.mono_right (range_subset_freeSpace oldSecond)
    · rcases List.mem_cons.mp second with rfl | oldSecond
      · rw [self, others k oldFirst]
        exact (disjoint.mono_right (range_subset_freeSpace oldFirst)).symm
      · rw [others k oldFirst, others j oldSecond]
        exact ok.disjoint k oldFirst j oldSecond different
  · rw [freeNodes_insertNode]
    intro k first j second equal
    rcases List.mem_cons.mp first with rfl | oldFirst
    · rcases List.mem_cons.mp second with rfl | oldSecond
      · rw [self, FreeSpaceNode.stop] at equal
        omega
      · rw [self, others j oldSecond] at equal
        exact ok.starts.unused right j oldSecond equal.symm
    · rcases List.mem_cons.mp second with rfl | oldSecond
      · rw [self, others k oldFirst] at equal
        exact ok.ends.unused left k oldFirst equal
      · rw [others k oldFirst, others j oldSecond] at equal
        exact ok.apart k oldFirst j oldSecond equal

theorem freeSpace_insertNode (new : n ∉ m.freeNodes) :
    (m.insertNode n node).freeSpace = m.freeSpace ∪ node.range := by
  have others : ∀ k ∈ m.freeNodes, (m.insertNode n node).nodes k = m.nodes k :=
    fun k member => nodes_insertNode_of_mem new member
  have self : (m.insertNode n node).nodes n = node := Function.update_self ..
  ext a
  constructor
  · rintro ⟨k, member, inside⟩
    rcases List.mem_cons.mp member with rfl | old
    · exact .inr (self ▸ inside)
    · exact .inl ⟨k, old, others k old ▸ inside⟩
  · rintro (⟨k, member, inside⟩ | inside)
    · exact ⟨k, List.mem_cons_of_mem _ member, (others k member).symm ▸ inside⟩
    · exact ⟨n, List.mem_cons_self, self.symm ▸ inside⟩

theorem freeBytes_insertNode (new : n ∉ m.freeNodes) :
    (m.insertNode n node).freeBytes = m.freeBytes + node.sizeInBytes := by
  have self : (m.insertNode n node).nodes n = node := Function.update_self ..
  have others : (m.freeNodes.map fun k => ((m.insertNode n node).nodes k).sizeInBytes) =
      m.freeNodes.map fun k => (m.nodes k).sizeInBytes := by
    apply List.map_congr_left
    intro k member
    rw [nodes_insertNode_of_mem new member]
  rw [freeBytes, freeNodes_insertNode, List.map_cons, List.sum_cons, self, others, Nat.add_comm,
    freeBytes]

end MetaAllocator

end NetRider.Wtf
