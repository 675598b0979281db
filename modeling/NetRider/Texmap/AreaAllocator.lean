import NetRider.Lib.BitSmearing

/-!
# The area allocator

`GeneralAreaAllocator` of the texture atlas: a tree of rectangles that are split into halves. The
coordinates are natural numbers; only the sides of a request can leave the range of an `int`. The
margin is zero.
-/

namespace NetRider.Texmap

open Lib

structure IntSize where
  width : Nat
  height : Nat
  deriving DecidableEq, Repr

structure IntPoint where
  x : Nat
  y : Nat
  deriving DecidableEq, Repr

structure IntRect where
  x : Nat
  y : Nat
  width : Nat
  height : Nat
  deriving DecidableEq, Repr

namespace IntRect

def location (r : IntRect) : IntPoint := ⟨r.x, r.y⟩

def size (r : IntRect) : IntSize := ⟨r.width, r.height⟩

def contains (r : IntRect) (p : IntPoint) : Bool :=
  r.x ≤ p.x && p.x < r.x + r.width && r.y ≤ p.y && p.y < r.y + r.height

end IntRect

def fitsWithin (size1 size2 : IntSize) : Bool :=
  size1.width ≤ size2.width && size1.height ≤ size2.height

def IntSize.expandedTo (a b : IntSize) : IntSize := ⟨max a.width b.width, max a.height b.height⟩

/-- On 32 bits with the sign. -/
def nextPowerOfTwo (number : BitVec 32) : BitVec 32 :=
  let number := number - 1
  let number := number ||| number.sshiftRight 1
  let number := number ||| number.sshiftRight 2
  let number := number ||| number.sshiftRight 4
  let number := number ||| number.sshiftRight 8
  let number := number ||| number.sshiftRight 16
  number + 1

/-- One side of `roundAllocation`. -/
def roundSide (side minAlloc : Nat) : BitVec 32 :=
  let extra := side % minAlloc
  BitVec.ofNat 32 (if extra ≠ 0 then side + (minAlloc - extra) else side)

/-! ## The tree -/

inductive Split
  | splitOnX
  | splitOnY
  deriving DecidableEq

/-- A node has both children or none. -/
inductive Node
  | leaf (rect : IntRect) (largestFree : IntSize)
  | inner (rect : IntRect) (largestFree : IntSize) (left right : Node)

namespace Node

def rect : Node → IntRect
  | leaf rect _ => rect
  | inner rect _ _ _ => rect

def largestFree : Node → IntSize
  | leaf _ largestFree => largestFree
  | inner _ largestFree _ _ => largestFree

end Node

/-- What `updateLargestFree` makes of a node whose children are these. -/
def updated (rect : IntRect) (left right : Node) : Node :=
  .inner rect (left.largestFree.expandedTo right.largestFree) left right

/-- The rectangles of the halves. -/
def halves (rect : IntRect) : Split → IntRect × IntRect
  | .splitOnX =>
    let left : IntRect := ⟨rect.x, rect.y, rect.width / 2, rect.height⟩
    (left, ⟨left.x + left.width, rect.y, rect.width / 2, rect.height⟩)
  | .splitOnY =>
    let left : IntRect := ⟨rect.x, rect.y, rect.width, rect.height / 2⟩
    (left, ⟨rect.x, left.y + left.height, rect.width, rect.height / 2⟩)

/-- The split of a leaf, if it is to be split. The children of the parent are `siblings`. -/
def chooseSplit (size : IntSize) (siblings : Option (IntRect × IntRect)) (rect : IntRect)
    (largestFree : IntSize) : Option Split :=
  if fitsWithin ⟨size.width * 2, size.height * 2⟩ largestFree then
    match siblings with
    | some (left, right) => if left.x = right.x then some .splitOnX else some .splitOnY
    | none => if rect.width ≥ rect.height then some .splitOnX else some .splitOnY
  else if fitsWithin ⟨size.width * 2, size.height⟩ largestFree then some .splitOnX
  else if fitsWithin ⟨size.width, size.height * 2⟩ largestFree then some .splitOnY
  else none

/-- The point of `allocateFromNode`, the node behind it and `m_nodeCount`. -/
structure Outcome where
  point : Option IntPoint
  node : Node
  nodeCount : Nat

/-- `allocateFromNode` from a leaf on; `none` is a loop that does not end. -/
def allocateFromLeaf : Nat → IntSize → Option (IntRect × IntRect) → IntRect → IntSize → Nat →
    Option Outcome
  | 0, _, _, _, _, _ => none
  | fuel + 1, size, siblings, rect, largestFree, nodeCount =>
    if fitsWithin size largestFree then
      match chooseSplit size siblings rect largestFree with
      | none => some ⟨some rect.location, .leaf rect ⟨0, 0⟩, nodeCount⟩
      | some split =>
        let (left, right) := halves rect split
        match allocateFromLeaf fuel size (some (left, right)) left left.size (nodeCount + 2) with
        | none => none
        | some ⟨some point, node, nodeCount⟩ =>
          some ⟨some point, updated rect node (.leaf right right.size), nodeCount⟩
        | some ⟨none, node, nodeCount⟩ =>
          some ⟨none, .inner rect right.size node (.leaf right right.size), nodeCount⟩
    else some ⟨none, .leaf rect largestFree, nodeCount⟩

/-- Behind an attempt in one child; the ancestors are updated where it was successful. -/
def goOn (rect : IntRect) (largestFree : IntSize) (rebuild : Node → Node × Node) (o : Outcome) :
    Outcome :=
  let (left, right) := rebuild o.node
  if o.point.isSome then ⟨o.point, updated rect left right, o.nodeCount⟩
  else ⟨none, .inner rect largestFree left right, o.nodeCount⟩

def allocateFromNode (fuel : Nat) (size : IntSize) (siblings : Option (IntRect × IntRect))
    (nodeCount : Nat) : Node → Option Outcome
  | .leaf rect largestFree => allocateFromLeaf fuel size siblings rect largestFree nodeCount
  | .inner rect largestFree left right =>
    let rects := some (left.rect, right.rect)
    if fitsWithin size left.largestFree then
      if fitsWithin size right.largestFree then
        if left.largestFree.width < right.largestFree.width ∨
            left.largestFree.height < right.largestFree.height then
          match allocateFromNode fuel size rects nodeCount left with
          | none => none
          | some o =>
            if o.point.isSome then some (goOn rect largestFree (fun node => (node, right)) o)
            else
              (allocateFromNode fuel size rects o.nodeCount right).map
                (goOn rect largestFree fun node => (o.node, node))
        else
          (allocateFromNode fuel size rects nodeCount right).map
            (goOn rect largestFree fun node => (left, node))
      else
        (allocateFromNode fuel size rects nodeCount left).map
          (goOn rect largestFree fun node => (node, right))
    else if fitsWithin size right.largestFree then
      (allocateFromNode fuel size rects nodeCount right).map
        (goOn rect largestFree fun node => (left, node))
    else some ⟨none, .inner rect largestFree left right, nodeCount⟩

/-- One level upwards: a child has been rebuilt, and where the loop is still on its way and the
sibling is free, the two are recombined. -/
def upwards (rect : IntRect) (sibling : Node) (rebuild : Node → Node) (o : Node × Bool × Nat) :
    Node × Bool × Nat :=
  if o.2.1 = true ∧ sibling.largestFree = sibling.rect.size then
    (.leaf rect rect.size, true, o.2.2 - 2)
  else (rebuild o.1, false, o.2.2)

/-- The node behind `release`, whether the loop upwards is still on its way there, and
`m_nodeCount`. -/
def releaseNode (point : IntPoint) (nodeCount : Nat) : Node → Option (Node × Bool × Nat)
  | .leaf rect _ =>
    if rect.contains point then some (.leaf rect rect.size, true, nodeCount) else none
  | .inner rect _ left right =>
    if left.rect.contains point then
      (releaseNode point nodeCount left).map
        (upwards rect right fun node => updated rect node right)
    else if right.rect.contains point then
      (releaseNode point nodeCount right).map
        (upwards rect left fun node => updated rect left node)
    else if rect.contains point then some (.inner rect rect.size left right, true, nodeCount)
    else none

/-! ## The allocator -/

structure GeneralAreaAllocator where
  m_size : IntSize
  m_minAlloc : IntSize
  m_root : Node
  m_nodeCount : Nat

/-- `nextPowerOfTwo` of a size of positive sides. -/
def nextPowerOfTwoSize (size : IntSize) : IntSize :=
  ⟨(nextPowerOfTwo (.ofNat 32 size.width)).toNat, (nextPowerOfTwo (.ofNat 32 size.height)).toNat⟩

/-- The rectangle of a new node above the root, and the rectangle to the right of the root. -/
def doubled (root : IntRect) : Split → IntRect × IntRect
  | .splitOnX => (⟨root.x, root.y, root.width * 2, root.height⟩,
      ⟨root.x + root.width, root.y, root.width, root.height⟩)
  | .splitOnY => (⟨root.x, root.y, root.width, root.height * 2⟩,
      ⟨root.x, root.y + root.width, root.width, root.height⟩)

def Split.other : Split → Split
  | .splitOnX => .splitOnY
  | .splitOnY => .splitOnX

/-- The split of a turn of `expand`. -/
def turnSplit (split : Split) (root size : IntSize) : Split :=
  if root.width = size.width then .splitOnY
  else if root.height = size.height then .splitOnX
  else split

/-- The loop of `expand`. The update of the old root's ancestors behind it gives each new node the
maximum of its children. -/
def expandLoop (size : IntSize) : Nat → Split → Node → Nat → Option (Node × Nat)
  | 0, _, _, _ => none
  | fuel + 1, split, root, nodeCount =>
    if root.rect.size = size then some (root, nodeCount)
    else
      let split := turnSplit split root.rect.size size
      let (parent, right) := doubled root.rect split
      expandLoop size fuel split.other (updated parent root (.leaf right root.rect.size))
        (nodeCount + 2)

def startSplit (size : IntSize) : Split :=
  if size.width ≥ size.height then .splitOnX else .splitOnY

namespace GeneralAreaAllocator

/-- The constructor, and `setMinimumAllocation`. -/
def construct (size minAlloc : IntSize) : GeneralAreaAllocator :=
  let size := nextPowerOfTwoSize size
  ⟨size, minAlloc, .leaf ⟨0, 0, size.width, size.height⟩ size, 1⟩

def expand (a : GeneralAreaAllocator) (size : IntSize) : Option GeneralAreaAllocator :=
  let size := a.m_size.expandedTo (nextPowerOfTwoSize size)
  if a.m_root.rect.size = size then some { a with m_size := size }
  else
    match a.m_root with
    | .leaf rect largestFree =>
      if largestFree.width > 0 then
        some { a with m_size := size, m_root := .leaf ⟨0, 0, size.width, size.height⟩ size }
      else
        (expandLoop size (size.width + size.height) (startSplit size) (.leaf rect largestFree)
          a.m_nodeCount).map fun (root, nodeCount) =>
            { a with m_size := size, m_root := root, m_nodeCount := nodeCount }
    | root =>
      (expandLoop size (size.width + size.height) (startSplit size) root a.m_nodeCount).map
        fun (root, nodeCount) =>
          { a with m_size := size, m_root := root, m_nodeCount := nodeCount }

/-- An empty rectangle is `none`. -/
def allocate (a : GeneralAreaAllocator) (size : IntSize) :
    Option (Option IntRect × GeneralAreaAllocator) :=
  let width := nextPowerOfTwo (roundSide size.width a.m_minAlloc.width)
  let height := nextPowerOfTwo (roundSide size.height a.m_minAlloc.height)
  if width.toInt ≤ 0 ∨ width.toInt > a.m_size.width ∨ height.toInt ≤ 0 ∨
      height.toInt > a.m_size.height then some (none, a)
  else
    (allocateFromNode (a.m_size.width + a.m_size.height) ⟨width.toNat, height.toNat⟩ none
      a.m_nodeCount a.m_root).map fun o =>
        (o.point.map fun point => ⟨point.x, point.y, size.width, size.height⟩,
          { a with m_root := o.node, m_nodeCount := o.nodeCount })

def release (a : GeneralAreaAllocator) (rect : IntRect) : GeneralAreaAllocator :=
  match releaseNode rect.location a.m_nodeCount a.m_root with
  | none => a
  | some (root, _, nodeCount) => { a with m_root := root, m_nodeCount := nodeCount }

end GeneralAreaAllocator

/-! ## Powers of two -/

/-- The least power of two that is not smaller. -/
theorem nextPowerOfTwo_spec {v : Nat} (pos : 0 < v) (small : v ≤ 2 ^ 31) :
    ∃ k, (nextPowerOfTwo (.ofNat 32 v)).toNat = 2 ^ k ∧ v ≤ 2 ^ k ∧ 2 ^ k < 2 * v := by
  have less : (BitVec.ofNat 32 v - 1).toNat = v - 1 := by
    have one : (1 : BitVec 32).toNat = 1 := rfl
    rw [BitVec.toNat_sub, one, BitVec.toNat_ofNat, Nat.mod_eq_of_lt (by omega : v < 2 ^ 32)]
    omega
  unfold nextPowerOfTwo
  dsimp only
  generalize BitVec.ofNat 32 v - 1 = number at less ⊢
  have start : Smears 1 (v - 1) number.toNat := by
    rw [less]
    exact smears_self _
  obtain ⟨smears1, small1⟩ := smear_toNat start (by omega)
  obtain ⟨smears2, small2⟩ := smear_toNat smears1 small1
  obtain ⟨smears3, small3⟩ := smear_toNat smears2 small2
  obtain ⟨smears4, small4⟩ := smear_toNat smears3 small3
  obtain ⟨smears5, small5⟩ := smear_toNat smears4 small4
  have value := smears5.eq (by omega)
  refine ⟨(v - 1).size, ?_, ?_, ?_⟩
  · rw [BitVec.toNat_add]
    refine (congrArg (fun n => (n + 1) % 2 ^ 32) value).trans ?_
    have pos' := Nat.two_pow_pos (v - 1).size
    have bound : (2 : Nat) ^ (v - 1).size ≤ 2 ^ 31 :=
      Nat.pow_le_pow_right (by decide) (Nat.size_le.mpr (by omega))
    rw [Nat.sub_add_cancel pos', Nat.mod_eq_of_lt (by omega)]
  · have below := Nat.lt_size_self (v - 1)
    omega
  · rcases Nat.eq_zero_or_pos (v - 1) with zero | more
    · rw [zero, Nat.size_zero]
      omega
    · have sizePos : 0 < (v - 1).size := Nat.size_pos.mpr more
      have top : 2 ^ ((v - 1).size - 1) ≤ v - 1 := Nat.lt_size.mp (by omega)
      have double : 2 ^ (v - 1).size = 2 ^ ((v - 1).size - 1) * 2 := by
        rw [← pow_succ, Nat.sub_add_cancel sizePos]
      omega

/-- Above `2 ^ 31` nothing positive comes out. -/
theorem nextPowerOfTwo_large {v : Nat} (large : 2 ^ 31 < v) (small : v < 2 ^ 32) :
    (nextPowerOfTwo (.ofNat 32 v)).toInt ≤ 0 := by
  have msb : (BitVec.ofNat 32 v - 1).msb = true := by
    have one : (1 : BitVec 32).toNat = 1 := rfl
    rw [BitVec.msb_eq_true_iff_two_mul_ge, BitVec.toNat_sub, one, BitVec.toNat_ofNat,
      Nat.mod_eq_of_lt small]
    omega
  have smeared := smear_msb 16 (smear_msb 8 (smear_msb 4 (smear_msb 2 (smear_msb 1 msb))))
  exact toInt_succ smeared

end NetRider.Texmap
