import Mathlib
import NetRider.Lib.Run

/-!
# MetaAllocator

The allocator of executable memory: its free space nodes with the three indexes over them, and the
pages that are in use.

* Addresses and sizes are natural numbers; where a sum can leave `size_t` it is taken modulo 2^64.
  Null is 0. A region that is reserved ends below 2^64.
* The tree is a list of its nodes, each with the key it was inserted under. Among several nodes of
  the least size that fits, any one may be found.
* The address of a new node, and what `allocateNewSpace` returns, are chosen by the environment.
-/

namespace NetRider.Wtf

def sizeTBound : Nat := 2 ^ 64

/-- The parameters of the constructor, with what it asserts. -/
structure PageLayout where
  logAllocationGranule : Nat
  logPageSize : Nat
  granule_le_page : logAllocationGranule ≤ logPageSize
  log_lt : logPageSize < 32

namespace PageLayout

variable (layout : PageLayout)

def allocationGranule : Nat := 2 ^ layout.logAllocationGranule

def pageSize : Nat := 2 ^ layout.logPageSize

/-- `none` is a crash. Clearing the low bits rounds down to a multiple. -/
def roundUp (sizeInBytes : Nat) : Option Nat :=
  if sizeTBound - 1 - layout.allocationGranule ≤ sizeInBytes then none
  else some ((sizeInBytes + layout.allocationGranule - 1) / layout.allocationGranule *
    layout.allocationGranule)

/-- The pages from the first to the last of a block. -/
def pagesOf (address sizeInBytes : Nat) : List Nat :=
  let firstPage := address / layout.pageSize
  let lastPage := (address + sizeInBytes - 1) % sizeTBound / layout.pageSize
  List.range' firstPage (lastPage + 1 - firstPage)

end PageLayout

abbrev NodeId := Nat

structure FreeSpaceNode where
  start : Nat
  sizeInBytes : Nat

def FreeSpaceNode.stop (node : FreeSpaceNode) : Nat := node.start + node.sizeInBytes

inductive PageNotice
  | needPage (page : Nat)
  | pageIsFree (page : Nat)
  deriving DecidableEq

/-- `HashMap::add` keeps an entry that is there. -/
def addEntry {V : Type} (map : Nat → Option V) (key : Nat) (value : V) : Nat → Option V :=
  if map key = none then Function.update map key (some value) else map

def removeEntry {V : Type} (map : Nat → Option V) (key : Nat) : Nat → Option V :=
  Function.update map key none

@[ext] structure MetaAllocator where
  nodes : NodeId → FreeSpaceNode
  freeSpaceSizeMap : List (Nat × NodeId)
  freeSpaceStartAddressMap : Nat → Option NodeId
  freeSpaceEndAddressMap : Nat → Option NodeId
  pageOccupancyMap : Nat → Option Nat
  bytesAllocated : Nat
  bytesReserved : Nat
  bytesCommitted : Nat
  notices : List PageNotice

structure MetaAllocatorHandle where
  start : Nat
  sizeInBytes : Nat

namespace MetaAllocator

def create : MetaAllocator :=
  { nodes := fun _ => ⟨0, 0⟩
    freeSpaceSizeMap := []
    freeSpaceStartAddressMap := fun _ => none
    freeSpaceEndAddressMap := fun _ => none
    pageOccupancyMap := fun _ => none
    bytesAllocated := 0
    bytesReserved := 0
    bytesCommitted := 0
    notices := [] }

/-- The nodes in the tree. -/
def freeNodes (m : MetaAllocator) : List NodeId := m.freeSpaceSizeMap.map Prod.snd

section

variable (m : MetaAllocator)

def setNode (n : NodeId) (node : FreeSpaceNode) : MetaAllocator :=
  { m with nodes := Function.update m.nodes n node }

/-- `m_freeSpaceSizeMap.insert(node)` -/
def insertSize (n : NodeId) : MetaAllocator :=
  { m with freeSpaceSizeMap := ((m.nodes n).sizeInBytes, n) :: m.freeSpaceSizeMap }

/-- `m_freeSpaceSizeMap.remove(node)` -/
def removeSize (n : NodeId) : MetaAllocator :=
  { m with freeSpaceSizeMap := m.freeSpaceSizeMap.filter (·.2 ≠ n) }

def addStart (address : Nat) (n : NodeId) : MetaAllocator :=
  { m with freeSpaceStartAddressMap := addEntry m.freeSpaceStartAddressMap address n }

def removeStart (address : Nat) : MetaAllocator :=
  { m with freeSpaceStartAddressMap := removeEntry m.freeSpaceStartAddressMap address }

def addEnd (address : Nat) (n : NodeId) : MetaAllocator :=
  { m with freeSpaceEndAddressMap := addEntry m.freeSpaceEndAddressMap address n }

def removeEnd (address : Nat) : MetaAllocator :=
  { m with freeSpaceEndAddressMap := removeEntry m.freeSpaceEndAddressMap address }

end

/-- `findLeastGreaterThanOrEqual` may return `found`. -/
def Finds (m : MetaAllocator) (sizeInBytes : Nat) : Option NodeId → Prop
  | none => ∀ entry ∈ m.freeSpaceSizeMap, entry.1 < sizeInBytes
  | some n => ∃ entry ∈ m.freeSpaceSizeMap, entry.2 = n ∧ sizeInBytes ≤ entry.1 ∧
      ∀ other ∈ m.freeSpaceSizeMap, sizeInBytes ≤ other.1 → entry.1 ≤ other.1

instance (m : MetaAllocator) (sizeInBytes : Nat) : DecidablePred (m.Finds sizeInBytes)
  | none => inferInstanceAs (Decidable (∀ entry ∈ _, _))
  | some _ => inferInstanceAs (Decidable (∃ entry ∈ _, _))

/-- `node` is the one that is allocated if there is nothing to coalesce with. -/
def addFreeSpace (m : MetaAllocator) (start sizeInBytes : Nat) (node : NodeId) : MetaAllocator :=
  let stop := start + sizeInBytes
  match m.freeSpaceEndAddressMap start, m.freeSpaceStartAddressMap stop with
  | some left, some right =>
    let leftNode := m.nodes left
    let rightSize := (m.nodes right).sizeInBytes
    let rightEnd := stop + rightSize
    m.removeSize left
      |>.removeEnd leftNode.stop
      |>.removeSize right
      |>.removeStart stop
      |>.removeEnd rightEnd
      |>.setNode left ⟨leftNode.start, leftNode.sizeInBytes + (sizeInBytes + rightSize)⟩
      |>.insertSize left
      |>.addEnd rightEnd left
  | some left, none =>
    let leftNode := m.nodes left
    m.removeSize left
      |>.removeEnd leftNode.stop
      |>.setNode left ⟨leftNode.start, leftNode.sizeInBytes + sizeInBytes⟩
      |>.insertSize left
      |>.addEnd stop left
  | none, some right =>
    let rightNode := m.nodes right
    m.removeSize right
      |>.removeStart stop
      |>.setNode right ⟨start, rightNode.sizeInBytes + sizeInBytes⟩
      |>.insertSize right
      |>.addStart start right
  | none, none =>
    m.setNode node ⟨start, sizeInBytes⟩
      |>.insertSize node
      |>.addStart start node
      |>.addEnd stop node

section

variable (layout : PageLayout)

/-- The start of the space that was found, or null. -/
def findAndRemoveFreeSpace (m : MetaAllocator) (sizeInBytes : Nat) (found : Option NodeId) :
    Nat × MetaAllocator :=
  match found with
  | none => (0, m)
  | some n =>
    let node := m.nodes n
    let m := m.removeSize n
    if node.sizeInBytes = sizeInBytes then
      (node.start, (m.removeStart node.start).removeEnd node.stop)
    else
      let firstPage := node.start / layout.pageSize
      let lastPage := (node.stop - 1) / layout.pageSize
      let lastPageForLeftAllocation := (node.start + sizeInBytes - 1) / layout.pageSize
      let firstPageForRightAllocation := (node.stop - sizeInBytes) / layout.pageSize
      if lastPageForLeftAllocation - firstPage + 1 ≤ lastPage - firstPageForRightAllocation + 1 then
        let next : FreeSpaceNode := ⟨node.start + sizeInBytes, node.sizeInBytes - sizeInBytes⟩
        (node.start, m.removeStart node.start
          |>.setNode n next
          |>.insertSize n
          |>.addStart next.start n)
      else
        let result := node.stop - sizeInBytes
        (result, m.removeEnd node.stop
          |>.setNode n ⟨node.start, node.sizeInBytes - sizeInBytes⟩
          |>.insertSize n
          |>.addEnd result n)

def incrementPage (m : MetaAllocator) (page : Nat) : MetaAllocator :=
  match m.pageOccupancyMap page with
  | none =>
    { m with
      pageOccupancyMap := Function.update m.pageOccupancyMap page (some 1)
      bytesCommitted := m.bytesCommitted + layout.pageSize
      notices := m.notices ++ [.needPage page] }
  | some count =>
    { m with pageOccupancyMap := Function.update m.pageOccupancyMap page (some (count + 1)) }

/-- A page that is not in the map breaks an assertion. -/
def decrementPage (m : MetaAllocator) (page : Nat) : MetaAllocator :=
  match m.pageOccupancyMap page with
  | none => m
  | some count =>
    if count - 1 = 0 then
      { m with
        pageOccupancyMap := Function.update m.pageOccupancyMap page none
        bytesCommitted := m.bytesCommitted - layout.pageSize
        notices := m.notices ++ [.pageIsFree page] }
    else { m with pageOccupancyMap := Function.update m.pageOccupancyMap page (some (count - 1)) }

def incrementPageOccupancy (m : MetaAllocator) (address sizeInBytes : Nat) : MetaAllocator :=
  (layout.pagesOf address sizeInBytes).foldl (incrementPage layout) m

def decrementPageOccupancy (m : MetaAllocator) (address sizeInBytes : Nat) : MetaAllocator :=
  (layout.pagesOf address sizeInBytes).foldl (decrementPage layout) m

def addFreeSpaceFromReleasedHandle (m : MetaAllocator) (start sizeInBytes : Nat) (node : NodeId) :
    MetaAllocator :=
  { m with bytesAllocated := m.bytesAllocated - sizeInBytes }.addFreeSpace start sizeInBytes node

def addFreshFreeSpace (m : MetaAllocator) (start sizeInBytes : Nat) (node : NodeId) : MetaAllocator :=
  { m with bytesReserved := m.bytesReserved + sizeInBytes }.addFreeSpace start sizeInBytes node

/-- `~MetaAllocatorHandle` -/
def release (m : MetaAllocator) (handle : MetaAllocatorHandle) (node : NodeId) : MetaAllocator :=
  if handle.sizeInBytes ≠ 0 then
    (m.decrementPageOccupancy layout handle.start handle.sizeInBytes).addFreeSpaceFromReleasedHandle
      handle.start handle.sizeInBytes node
  else m

/-- `MetaAllocatorHandle::shrink` -/
def shrink (m : MetaAllocator) (handle : MetaAllocatorHandle) (newSizeInBytes : Nat) (node : NodeId) :
    Option (MetaAllocator × MetaAllocatorHandle) :=
  (layout.roundUp newSizeInBytes).map fun newSizeInBytes =>
    if newSizeInBytes = handle.sizeInBytes then (m, handle)
    else
      let freeStart := handle.start + newSizeInBytes
      let freeSize := handle.sizeInBytes - newSizeInBytes
      let freeEnd := freeStart + freeSize
      let firstCompletelyFreePage := (freeStart + layout.pageSize - 1) / layout.pageSize * layout.pageSize
      let m := if firstCompletelyFreePage < freeEnd then
          m.decrementPageOccupancy layout firstCompletelyFreePage
            (freeSize - (firstCompletelyFreePage - freeStart))
        else m
      (m.addFreeSpaceFromReleasedHandle freeStart freeSize node, { handle with sizeInBytes := newSizeInBytes })

/-- What `allocateNewSpace` returns: a start and a number of pages, or null. -/
abbrev NewSpace := Option (Nat × Nat)

/-- The number of pages that `allocateNewSpace` is asked for. -/
def requestedNumberOfPages (sizeInBytes : Nat) : Nat :=
  (sizeInBytes + layout.pageSize - 1) % sizeTBound / layout.pageSize

/-- The end of `allocate`, once there is space. -/
def occupy (m : MetaAllocator) (start sizeInBytes : Nat) : MetaAllocator × Option MetaAllocatorHandle :=
  let m := m.incrementPageOccupancy layout start sizeInBytes
  ({ m with bytesAllocated := m.bytesAllocated + sizeInBytes }, some ⟨start, sizeInBytes⟩)

/-- The middle of `allocate`, when no free space fits. -/
def extend (m : MetaAllocator) (start numberOfPages sizeInBytes : Nat) (node : NodeId) : MetaAllocator :=
  let roundedUpSize := numberOfPages * layout.pageSize
  let m := { m with bytesReserved := m.bytesReserved + roundedUpSize }
  if sizeInBytes < roundedUpSize then
    m.addFreeSpace (start + sizeInBytes) (roundedUpSize - sizeInBytes) node
  else m

/-- `allocate` for a rounded size. -/
def allocateRounded (m : MetaAllocator) (sizeInBytes : Nat) (found : Option NodeId)
    (newSpace : NewSpace) (node : NodeId) : MetaAllocator × Option MetaAllocatorHandle :=
  let (start, m) := m.findAndRemoveFreeSpace layout sizeInBytes found
  if start ≠ 0 then m.occupy layout start sizeInBytes
  else
    match newSpace with
    | none => (m, none)
    | some (start, numberOfPages) =>
      (m.extend layout start numberOfPages sizeInBytes node).occupy layout start sizeInBytes

def allocate (m : MetaAllocator) (sizeInBytes : Nat) (found : Option NodeId) (newSpace : NewSpace)
    (node : NodeId) : Option (MetaAllocator × Option MetaAllocatorHandle) :=
  if sizeInBytes = 0 then some (m, none)
  else
    (layout.roundUp sizeInBytes).map fun sizeInBytes =>
      m.allocateRounded layout sizeInBytes found newSpace node

end

end MetaAllocator

/-! ## The allocator and its handles -/

structure Region where
  start : Nat
  sizeInBytes : Nat

/-- The allocator, the handles that are alive and the regions that were reserved. -/
structure ExecutableMemory where
  allocator : MetaAllocator
  handles : List MetaAllocatorHandle
  reserved : List Region

namespace ExecutableMemory

variable (layout : PageLayout)

def create : ExecutableMemory := ⟨.create, [], []⟩

/-- Whole pages, which have not been reserved before. -/
def Fresh (w : ExecutableMemory) (region : Region) : Prop :=
  0 < region.start ∧ 0 < region.sizeInBytes ∧ region.start + region.sizeInBytes < sizeTBound ∧
    layout.pageSize ∣ region.start ∧ layout.pageSize ∣ region.sizeInBytes ∧
    ∀ other ∈ w.reserved, other.start + other.sizeInBytes ≤ region.start ∨
      region.start + region.sizeInBytes ≤ other.start

instance (w : ExecutableMemory) (region : Region) : Decidable (w.Fresh layout region) :=
  inferInstanceAs (Decidable (_ ∧ _))

inductive Action
  | addFreshFreeSpace (region : Region) (node : NodeId)
  | allocate (sizeInBytes : Nat) (found : Option NodeId) (newSpace : MetaAllocator.NewSpace)
    (node : NodeId)
  | shrink (handle newSizeInBytes : Nat) (node : NodeId)
  | release (handle : Nat) (node : NodeId)

/-- What `allocateNewSpace` may return when it is asked for space of a rounded size. -/
def Offers (w : ExecutableMemory) (sizeInBytes : Nat) : MetaAllocator.NewSpace → Prop
  | none => True
  | some (start, numberOfPages) =>
    w.Fresh layout ⟨start, numberOfPages * layout.pageSize⟩ ∧
      MetaAllocator.requestedNumberOfPages layout sizeInBytes ≤ numberOfPages

instance (w : ExecutableMemory) (sizeInBytes : Nat) : DecidablePred (w.Offers layout sizeInBytes)
  | none => isTrue trivial
  | some (_, _) => inferInstanceAs (Decidable (_ ∧ _))

/-- The regions after an allocation. -/
def reserve (w : ExecutableMemory) (found : Option NodeId) (newSpace : MetaAllocator.NewSpace) :
    List Region :=
  match found, newSpace with
  | none, some (start, numberOfPages) =>
    ⟨start, numberOfPages * layout.pageSize⟩ :: w.reserved
  | _, _ => w.reserved

def step (w : ExecutableMemory) : Action → Option ExecutableMemory
  | .addFreshFreeSpace region node =>
    if w.Fresh layout region ∧ node ∉ w.allocator.freeNodes then
      some { w with
        allocator := w.allocator.addFreshFreeSpace region.start region.sizeInBytes node
        reserved := region :: w.reserved }
    else none
  | .allocate sizeInBytes found newSpace node => do
    if sizeInBytes = 0 then some w
    else
      let rounded ← layout.roundUp sizeInBytes
      if w.allocator.Finds rounded found ∧ w.Offers layout rounded newSpace ∧
          node ∉ w.allocator.freeNodes then
        let (allocator, handle) ← w.allocator.allocate layout sizeInBytes found newSpace node
        some ⟨allocator, handle.toList ++ w.handles, w.reserve layout found newSpace⟩
      else none
  | .shrink handle newSizeInBytes node =>
    match w.handles[handle]? with
    | none => none
    | some h =>
      if newSizeInBytes ≤ h.sizeInBytes ∧ node ∉ w.allocator.freeNodes then do
        let (allocator, h) ← w.allocator.shrink layout h newSizeInBytes node
        some { w with allocator, handles := w.handles.set handle h }
      else none
  | .release handle node =>
    match w.handles[handle]? with
    | none => none
    | some h =>
      if node ∉ w.allocator.freeNodes then
        some { w with
          allocator := w.allocator.release layout h node
          handles := w.handles.eraseIdx handle }
      else none

end ExecutableMemory

end NetRider.Wtf
