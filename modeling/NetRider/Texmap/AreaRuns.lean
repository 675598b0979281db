import NetRider.Texmap.AreaTree

/-!
# Runs of the area allocator

Requests, releases of rectangles that are allocated, and growth. Growth that doubles the height of
a root that is no square puts the new leaf in a wrong place, so it is left out.
-/

namespace NetRider.Texmap

variable {p : IntPoint} {size : IntSize}

/-! ## Runs -/

/-- An allocated rectangle starts where its leaf starts and lies in it. -/
structure Within (r leaf : IntRect) : Prop where
  location : r.location = leaf.location
  pos : 0 < r.width ∧ 0 < r.height
  sides : r.width ≤ leaf.width ∧ r.height ≤ leaf.height

/-- What holds of the allocator when these rectangles are allocated. -/
structure Invariant (a : GeneralAreaAllocator) (live : List IntRect) : Prop where
  tree : WellFormed a.m_root
  rect : a.m_root.rect = ⟨0, 0, a.m_size.width, a.m_size.height⟩
  count : a.m_nodeCount = a.m_root.count
  sides : ∃ i j k l, a.m_size = ⟨2 ^ i, 2 ^ j⟩ ∧ a.m_minAlloc = ⟨2 ^ k, 2 ^ l⟩ ∧ k ≤ i ∧ l ≤ j ∧
    i ≤ 20 ∧ j ≤ 20
  own : ∃ own : List (IntRect × IntRect), live.Perm (own.map Prod.fst) ∧
    (own.map Prod.snd).Perm a.m_root.taken ∧ ∀ pair ∈ own, Within pair.1 pair.2

/-- In this state `expand` doubles the height of squares only. -/
def GrowsSquares (a : GeneralAreaAllocator) (request : IntSize) : Prop :=
  a.m_root.taken ≠ [] →
    let size := a.m_size.expandedTo (nextPowerOfTwoSize request)
    DoublesSquares size (size.width + size.height) (startSplit size) a.m_root.rect

def Positive (bound : Nat) (request : IntSize) : Prop :=
  0 < request.width ∧ 0 < request.height ∧ request.width ≤ bound ∧ request.height ≤ bound

instance (bound : Nat) (request : IntSize) : Decidable (Positive bound request) :=
  inferInstanceAs (Decidable (_ ∧ _ ∧ _ ∧ _))

variable {a : GeneralAreaAllocator} {live : List IntRect} {request : IntSize}

theorem roundSide_spec {side minAlloc : Nat} (pos : 0 < minAlloc) (few : minAlloc ≤ 2 ^ 20)
    (small : side ≤ 2 ^ 31 - 1) :
    ∃ v, roundSide side minAlloc = .ofNat 32 v ∧ side ≤ v ∧ v < 2 ^ 32 := by
  refine ⟨_, rfl, ?_⟩
  have rest := Nat.mod_lt side pos
  split <;> omega

theorem nextPowerOfTwo_ge {v : Nat} (pos : 0 < v) (small : v < 2 ^ 32)
    (positive : 0 < (nextPowerOfTwo (.ofNat 32 v)).toInt) :
    v ≤ (nextPowerOfTwo (.ofNat 32 v)).toNat := by
  by_cases inside : v ≤ 2 ^ 31
  · obtain ⟨k, value, least, -⟩ := nextPowerOfTwo_spec pos inside
    rwa [value]
  · have none := nextPowerOfTwo_large (Nat.lt_of_not_le inside) small
    omega

/-- A request ends, and what it gives is allocated. -/
theorem allocate_spec (inv : Invariant a live) (positive : Positive (2 ^ 31 - 1) request) :
    ∃ result a', a.allocate request = some (result, a') ∧
      Invariant a' (result.toList ++ live) := by
  obtain ⟨tree, rect, count, ⟨i, j, k, l, size, minAlloc, wide, high, small, small'⟩,
    own, lives, leaves, within⟩ := inv
  obtain ⟨posWidth, posHeight, maxWidth, maxHeight⟩ := positive
  have minWidth : (2 : Nat) ^ k ≤ 2 ^ 20 := Nat.pow_le_pow_right (by decide) (by omega)
  have minHeight : (2 : Nat) ^ l ≤ 2 ^ 20 := Nat.pow_le_pow_right (by decide) (by omega)
  obtain ⟨v, roundsWidth, leastWidth, mostWidth⟩ :=
    roundSide_spec (Nat.two_pow_pos k) minWidth maxWidth
  obtain ⟨w, roundsHeight, leastHeight, mostHeight⟩ :=
    roundSide_spec (Nat.two_pow_pos l) minHeight maxHeight
  have rounds : roundSide request.width a.m_minAlloc.width = .ofNat 32 v ∧
      roundSide request.height a.m_minAlloc.height = .ofNat 32 w := by
    rw [minAlloc]
    exact ⟨roundsWidth, roundsHeight⟩
  rw [GeneralAreaAllocator.allocate, rounds.1, rounds.2]
  split
  · exact ⟨none, a, rfl, tree, rect, count,
      ⟨i, j, k, l, size, minAlloc, wide, high, small, small'⟩, own, lives, leaves, within⟩
  · rename_i sizes
    simp only [not_or, not_le] at sizes
    have width := nextPowerOfTwo_ge (by omega) mostWidth sizes.1
    have height := nextPowerOfTwo_ge (by omega) mostHeight sizes.2.2.1
    generalize (nextPowerOfTwo (.ofNat 32 v)).toNat = width' at width
    generalize (nextPowerOfTwo (.ofNat 32 w)).toNat = height' at height
    obtain ⟨o, made, sameRect, grown, counts, changed⟩ :=
      @allocateFromNode_spec ⟨width', height'⟩ a.m_root (a.m_size.width + a.m_size.height)
        a.m_nodeCount none tree ⟨by dsimp only; omega, by dsimp only; omega⟩ (by rw [rect])
    rw [made]
    rcases changed with ⟨refused, same⟩ | ⟨leaf, is, taken, bounds⟩
    · refine ⟨none, { a with m_root := o.node, m_nodeCount := o.nodeCount }, ?_, grown, ?_, ?_,
        ⟨i, j, k, l, size, minAlloc, wide, high, small, small'⟩, own, lives, ?_, within⟩
      · rw [Option.map_some, refused]
        rfl
      · exact sameRect.trans rect
      · dsimp only
        omega
      · dsimp only
        rwa [same]
    · refine ⟨some ⟨leaf.x, leaf.y, request.width, request.height⟩,
        { a with m_root := o.node, m_nodeCount := o.nodeCount }, ?_, grown, ?_, ?_,
        ⟨i, j, k, l, size, minAlloc, wide, high, small, small'⟩,
        (⟨leaf.x, leaf.y, request.width, request.height⟩, leaf) :: own, lives.cons _, ?_,
        List.forall_mem_cons.mpr ⟨⟨rfl, ⟨posWidth, posHeight⟩, ?_⟩, within⟩⟩
      · rw [Option.map_some, is]
        rfl
      · exact sameRect.trans rect
      · dsimp only
        omega
      · exact (leaves.cons leaf).trans taken.symm
      · dsimp only at bounds ⊢
        omega

/-- A release recombines the leaf. -/
theorem release_spec (inv : Invariant a live) {r : IntRect} (among : r ∈ live) :
    Invariant (a.release r) (live.erase r) := by
  obtain ⟨tree, rect, count, sides, own, lives, leaves, within⟩ := inv
  obtain ⟨⟨r', leaf⟩, member, rfl⟩ := List.mem_map.mp (lives.mem_iff.mp among)
  have isTaken : leaf ∈ a.m_root.taken :=
    leaves.mem_iff.mp (List.mem_map.mpr ⟨_, member, rfl⟩)
  obtain ⟨⟨root, recombining, nodeCount⟩, made, sameRect, rebuilt, taken, counts, -, -⟩ :=
    @releaseNode_spec leaf a.m_root a.m_nodeCount tree isTaken (by omega)
  dsimp only at sameRect rebuilt taken counts
  have released : a.release r' = { a with m_root := root, m_nodeCount := nodeCount } := by
    rw [GeneralAreaAllocator.release, (within _ member).location, made]
  have split := List.perm_cons_erase member
  rw [released]
  refine ⟨rebuilt, sameRect.trans rect, by dsimp only; omega, sides, own.erase (r', leaf), ?_, ?_,
    fun pair among => within pair (List.mem_of_mem_erase among)⟩
  · exact ((List.perm_cons_erase among).symm.trans (lives.trans (split.map Prod.fst))).cons_inv
  · exact ((split.map Prod.snd).symm.trans (leaves.trans taken)).cons_inv

theorem nextPowerOfTwoSize_spec (positive : Positive (2 ^ 20) request) :
    ∃ i j, nextPowerOfTwoSize request = ⟨2 ^ i, 2 ^ j⟩ ∧ i ≤ 20 ∧ j ≤ 20 := by
  obtain ⟨posWidth, posHeight, maxWidth, maxHeight⟩ := positive
  have less {k : Nat} (below : (2 : Nat) ^ k < 2 ^ 21) : k ≤ 20 :=
    Nat.le_of_lt_succ ((Nat.pow_lt_pow_iff_right (by decide)).mp below)
  obtain ⟨i, width, -, most⟩ := nextPowerOfTwo_spec posWidth (by omega)
  obtain ⟨j, height, -, most'⟩ := nextPowerOfTwo_spec posHeight (by omega)
  refine ⟨i, j, ?_, less (by omega), less (by omega)⟩
  rw [nextPowerOfTwoSize, width, height]

theorem max_two_pow (i k : Nat) : max ((2 : Nat) ^ i) (2 ^ k) = 2 ^ max i k :=
  ((pow_right_mono₀ (by decide : 1 ≤ 2)).map_max).symm

/-- A leaf that is not free is allocated. -/
theorem taken_of_used {rect : IntRect} {free : IntSize} (tree : WellFormed (.leaf rect free))
    (used : ¬ free.width > 0) : (Node.leaf rect free).taken ≠ [] := by
  rcases tree.full_or_taken with ⟨full, -, -⟩ | ⟨-, some_⟩
  · have sides := tree.dyadic.pos
    dsimp only [Node.largestFree, Node.rect] at full sides
    rw [full] at used
    exact absurd sides.1 used
  · exact some_

/-- The tree grows around what is allocated. -/
theorem expandLoop_invariant {i j m n : Nat} (inv : Invariant a live)
    (sides : ∃ i j k l, (⟨2 ^ m, 2 ^ n⟩ : IntSize) = ⟨2 ^ i, 2 ^ j⟩ ∧
      a.m_minAlloc = ⟨2 ^ k, 2 ^ l⟩ ∧ k ≤ i ∧ l ≤ j ∧ i ≤ 20 ∧ j ≤ 20)
    (size : a.m_size = ⟨2 ^ i, 2 ^ j⟩) (wide : i ≤ m) (high : j ≤ n) (taken : a.m_root.taken ≠ [])
    (squares : DoublesSquares ⟨2 ^ m, 2 ^ n⟩ (2 ^ m + 2 ^ n) (startSplit ⟨2 ^ m, 2 ^ n⟩)
      a.m_root.rect) :
    ∃ root' nodeCount', expandLoop ⟨2 ^ m, 2 ^ n⟩ (2 ^ m + 2 ^ n) (startSplit ⟨2 ^ m, 2 ^ n⟩)
        a.m_root a.m_nodeCount = some (root', nodeCount') ∧
      Invariant ⟨⟨2 ^ m, 2 ^ n⟩, a.m_minAlloc, root', nodeCount'⟩ live := by
  obtain ⟨tree, rect, count, -, own, lives, leaves, within⟩ := inv
  rw [size] at rect
  have room := @Nat.lt_two_pow_self m
  have room' := @Nat.lt_two_pow_self n
  obtain ⟨root', nodeCount', made, grown, isRect, same, counts⟩ :=
    @expandLoop_spec (2 ^ m + 2 ^ n) a.m_nodeCount (startSplit _) i j m n a.m_root tree taken rect
      wide high (by omega) squares
  refine ⟨root', nodeCount', made, grown, isRect, by dsimp only; omega, sides, own, lives, ?_,
    within⟩
  dsimp only
  rwa [same]

/-- An empty root is replaced by a larger leaf. -/
theorem fresh_invariant {m n : Nat} {rect : IntRect} {free : IntSize} (inv : Invariant a live)
    (sides : ∃ i j k l, (⟨2 ^ m, 2 ^ n⟩ : IntSize) = ⟨2 ^ i, 2 ^ j⟩ ∧
      a.m_minAlloc = ⟨2 ^ k, 2 ^ l⟩ ∧ k ≤ i ∧ l ≤ j ∧ i ≤ 20 ∧ j ≤ 20)
    (root : a.m_root = .leaf rect free) (unused : free.width > 0) :
    Invariant ⟨⟨2 ^ m, 2 ^ n⟩, a.m_minAlloc, .leaf ⟨0, 0, 2 ^ m, 2 ^ n⟩ ⟨2 ^ m, 2 ^ n⟩,
      a.m_nodeCount⟩ live := by
  obtain ⟨-, -, count, -, own, lives, leaves, within⟩ := inv
  have dyadic : Dyadic ⟨0, 0, 2 ^ m, 2 ^ n⟩ := ⟨_, _, rfl⟩
  refine ⟨.leaf dyadic (.inr rfl), rfl, ?_, sides, own, lives, ?_, within⟩
  · dsimp only
    rw [count, root]
    rfl
  · have other : free ≠ ⟨0, 0⟩ := by
      rintro rfl
      exact absurd unused (Nat.lt_irrefl 0)
    rw [root, Node.taken, if_neg other] at leaves
    have empty : (Node.leaf ⟨0, 0, 2 ^ m, 2 ^ n⟩ ⟨2 ^ m, 2 ^ n⟩).taken = [] := free_taken dyadic
    dsimp only
    rwa [empty]

/-- Growth that doubles the height of squares only. -/
theorem expand_spec (inv : Invariant a live) (positive : Positive (2 ^ 20) request)
    (squares : GrowsSquares a request) :
    ∃ a', a.expand request = some a' ∧ Invariant a' live := by
  obtain ⟨i, j, k, l, size, minAlloc, wide, high, small, small'⟩ := inv.sides
  obtain ⟨p, q, grows, few, few'⟩ := nextPowerOfTwoSize_spec positive
  have target : a.m_size.expandedTo (nextPowerOfTwoSize request) =
      ⟨2 ^ max i p, 2 ^ max j q⟩ := by
    rw [size, grows, IntSize.expandedTo, max_two_pow, max_two_pow]
  have sides : ∃ i' j' k l, (⟨2 ^ max i p, 2 ^ max j q⟩ : IntSize) = ⟨2 ^ i', 2 ^ j'⟩ ∧
      a.m_minAlloc = ⟨2 ^ k, 2 ^ l⟩ ∧ k ≤ i' ∧ l ≤ j' ∧ i' ≤ 20 ∧ j' ≤ 20 :=
    ⟨_, _, k, l, rfl, minAlloc, by omega, by omega, by omega, by omega⟩
  rw [GrowsSquares, target] at squares
  rw [GeneralAreaAllocator.expand, target]
  dsimp only at squares ⊢
  have loop (taken : a.m_root.taken ≠ []) :=
    expandLoop_invariant inv sides size (le_max_left i p) (le_max_left j q) taken (squares taken)
  by_cases same : a.m_root.rect.size = ⟨2 ^ max i p, 2 ^ max j q⟩
  · rw [if_pos same]
    refine ⟨_, rfl, inv.tree, ?_, inv.count, sides, inv.own⟩
    dsimp only
    rw [inv.rect] at same ⊢
    obtain ⟨width, height⟩ := IntSize.mk.inj same
    dsimp only at width height
    rw [width, height]
  · rw [if_neg same]
    have tree := inv.tree
    cases root : a.m_root with
    | leaf leafRect free =>
      dsimp only
      rw [root] at tree
      by_cases unused : free.width > 0
      · rw [if_pos unused]
        exact ⟨_, rfl, fresh_invariant inv sides root unused⟩
      · rw [if_neg unused]
        obtain ⟨root', nodeCount', made, invariant⟩ :=
          loop (by rw [root]; exact taken_of_used tree unused)
        rw [root] at made
        rw [made]
        exact ⟨_, rfl, invariant⟩
    | inner innerRect free left right =>
      have taken : a.m_root.taken ≠ [] := by
        rw [root] at tree ⊢
        cases tree with
        | inner _ _ _ some_ => exact some_
      obtain ⟨root', nodeCount', made, invariant⟩ := loop taken
      rw [root] at made
      dsimp only
      rw [made]
      exact ⟨_, rfl, invariant⟩

/-! ## Every run -/

/-- The states of the runs whose growth doubles the height of squares only, with the rectangles
that are allocated. -/
inductive Reached (size minAlloc : IntSize) : GeneralAreaAllocator → List IntRect → Prop
  | start : Reached size minAlloc (.construct size minAlloc) []
  | allocate {a a' : GeneralAreaAllocator} {live : List IntRect} {request : IntSize}
      {result : Option IntRect} : Reached size minAlloc a live →
    Positive (2 ^ 31 - 1) request → a.allocate request = some (result, a') →
    Reached size minAlloc a' (result.toList ++ live)
  | release {a : GeneralAreaAllocator} {live : List IntRect} {r : IntRect} :
    Reached size minAlloc a live → r ∈ live → Reached size minAlloc (a.release r) (live.erase r)
  | expand {a a' : GeneralAreaAllocator} {live : List IntRect} {request : IntSize} :
    Reached size minAlloc a live → Positive (2 ^ 20) request → GrowsSquares a request →
    a.expand request = some a' → Reached size minAlloc a' live

/-- What is expected of an allocator. -/
structure Sound (a : GeneralAreaAllocator) (live : List IntRect) : Prop where
  apart : live.Pairwise Apart
  inside : ∀ r ∈ live, r.x + r.width ≤ a.m_size.width ∧ r.y + r.height ≤ a.m_size.height
  tiles : a.m_root.leaves.Pairwise Apart ∧ ∀ p : IntPoint,
    (p.x < a.m_size.width ∧ p.y < a.m_size.height) ↔
      ∃ leaf ∈ a.m_root.leaves, leaf.contains p = true
  own : ∃ own : List (IntRect × IntRect), live.Perm (own.map Prod.fst) ∧
    (own.map Prod.snd).Subperm a.m_root.leaves ∧
    ∀ pair ∈ own, ∀ p, pair.1.contains p = true → pair.2.contains p = true
  count : a.m_nodeCount = a.m_root.count
  allocates : ∀ request, Positive (2 ^ 31 - 1) request → a.allocate request ≠ none
  expands : ∀ request, Positive (2 ^ 20) request → GrowsSquares a request →
    a.expand request ≠ none
  whole : live = [] → ∃ a', a.allocate a.m_size =
    some (some ⟨0, 0, a.m_size.width, a.m_size.height⟩, a')

theorem Within.contains {r leaf : IntRect} (within : Within r leaf) (inside : r.contains p = true) :
    leaf.contains p = true := by
  obtain ⟨location, -, sides⟩ := within
  obtain ⟨x, y⟩ := IntPoint.mk.inj location
  rw [contains_iff] at inside ⊢
  omega

/-- The last point of a rectangle. -/
theorem contains_corner {r : IntRect} (pos : 0 < r.width ∧ 0 < r.height) :
    r.contains ⟨r.x + r.width - 1, r.y + r.height - 1⟩ = true := by
  rw [contains_iff]
  dsimp only
  omega

theorem roundSide_two_pow {i k : Nat} (least : k ≤ i) :
    roundSide (2 ^ i) (2 ^ k) = .ofNat 32 (2 ^ i) := by
  rw [roundSide, Nat.mod_eq_zero_of_dvd (Nat.pow_dvd_pow 2 least)]
  rfl

theorem nextPowerOfTwo_two_pow {i : Nat} (few : i ≤ 20) :
    (nextPowerOfTwo (.ofNat 32 (2 ^ i))).toNat = 2 ^ i ∧
      (nextPowerOfTwo (.ofNat 32 (2 ^ i))).toInt = (2 ^ i : Nat) := by
  have bound : (2 : Nat) ^ i ≤ 2 ^ 20 := Nat.pow_le_pow_right (by decide) few
  obtain ⟨k, value, least, most⟩ := nextPowerOfTwo_spec (Nat.two_pow_pos i) (by omega)
  have same : k = i := by
    have atLeast : i ≤ k := (Nat.pow_le_pow_iff_right (by decide)).mp least
    rw [← pow_succ'] at most
    have atMost : k < i + 1 := (Nat.pow_lt_pow_iff_right (by decide)).mp most
    omega
  rw [same] at value
  refine ⟨value, ?_⟩
  rw [BitVec.toInt_eq_toNat_cond, value, if_pos (by omega)]

theorem Invariant.apart (inv : Invariant a live) : live.Pairwise Apart := by
  obtain ⟨tree, -, -, -, own, lives, leaves, within⟩ := inv
  have symmetric : ∀ {r s : IntRect}, Apart r s → Apart s r := by
    intro r s apart p inside
    by_contra both
    rw [apart p (Bool.eq_true_of_not_eq_false both)] at inside
    cases inside
  have taken : a.m_root.taken.Pairwise Apart := tree.leaves_apart.sublist (taken_sublist _)
  refine (lives.pairwise_iff symmetric).mpr (List.pairwise_map.mpr ?_)
  have leafApart := List.pairwise_map.mp ((leaves.pairwise_iff symmetric).mpr taken)
  refine leafApart.imp_of_mem fun {pair pair'} among among' apart p inside => ?_
  have outside := apart p ((within pair among).contains inside)
  rw [Bool.eq_false_iff] at outside ⊢
  exact fun both => outside ((within pair' among').contains both)

theorem Invariant.whole (inv : Invariant a []) : ∃ a', a.allocate a.m_size =
    some (some ⟨0, 0, a.m_size.width, a.m_size.height⟩, a') := by
  obtain ⟨tree, rect, -, ⟨i, j, k, l, size, minAlloc, wide, high, small, small'⟩,
    own, lives, leaves, -⟩ := inv
  have empty : a.m_root.taken = [] := by
    have none := List.map_eq_nil_iff.mp (List.nil_perm.mp lives)
    rw [none] at leaves
    exact List.nil_perm.mp leaves
  rcases tree.full_or_taken with ⟨-, free, -⟩ | ⟨-, some_⟩
  · have dyadic := tree.dyadic
    rw [rect] at free dyadic
    have width := nextPowerOfTwo_two_pow small
    have height := nextPowerOfTwo_two_pow small'
    have posWidth := Nat.two_pow_pos i
    have posHeight := Nat.two_pow_pos j
    have rounds : roundSide a.m_size.width a.m_minAlloc.width = .ofNat 32 (2 ^ i) ∧
        roundSide a.m_size.height a.m_minAlloc.height = .ofNat 32 (2 ^ j) := by
      rw [size, minAlloc]
      exact ⟨roundSide_two_pow wide, roundSide_two_pow high⟩
    obtain ⟨o, made, found, sameRect, grown, -, changed⟩ := @allocateFromLeaf_spec
      ⟨0, 0, a.m_size.width, a.m_size.height⟩ a.m_size (a.m_size.width + a.m_size.height)
      a.m_nodeCount none dyadic ⟨by rw [size]; exact posWidth, by rw [size]; exact posHeight⟩
      (fitsWithin_iff.mpr ⟨le_rfl, le_rfl⟩) le_rfl
    have inRange : ¬ ((nextPowerOfTwo (.ofNat 32 (2 ^ i))).toInt ≤ 0 ∨
        (nextPowerOfTwo (.ofNat 32 (2 ^ i))).toInt > a.m_size.width ∨
        (nextPowerOfTwo (.ofNat 32 (2 ^ j))).toInt ≤ 0 ∨
        (nextPowerOfTwo (.ofNat 32 (2 ^ j))).toInt > a.m_size.height) := by
      rw [width.2, height.2, size]
      dsimp only
      omega
    have request : (⟨2 ^ i, 2 ^ j⟩ : IntSize) = a.m_size := size.symm
    rw [GeneralAreaAllocator.allocate, rounds.1, rounds.2]
    rw [if_neg inRange, width.1, height.1, request, free, allocateFromNode]
    change ∃ a', (allocateFromLeaf _ _ none ⟨0, 0, a.m_size.width, a.m_size.height⟩
      (IntRect.size ⟨0, 0, a.m_size.width, a.m_size.height⟩) _).map _ = _
    rw [made, Option.map_some]
    rcases changed with ⟨refused, -⟩ | ⟨r, is, taken, bounds⟩
    · rw [refused] at found
      cases found
    · rw [free_taken dyadic] at taken
      have among : r ∈ o.node.taken := taken.mem_iff.mpr (List.mem_singleton.mpr rfl)
      have member := (taken_sublist o.node).subset among
      have corner := grown.contains.mpr
        ⟨r, member, contains_corner (grown.dyadic_leaves r member).pos⟩
      rw [sameRect, contains_iff] at corner
      dsimp only [Node.rect] at corner
      have origin : r.location = ⟨0, 0⟩ := by
        rw [IntRect.location, IntPoint.mk.injEq]
        have sides := (grown.dyadic_leaves r member).pos
        omega
      rw [is, origin]
      exact ⟨_, rfl⟩
  · exact absurd empty some_

theorem Invariant.sound (inv : Invariant a live) : Sound a live := by
  have parts := inv
  obtain ⟨tree, rect, count, -, own, lives, leaves, within⟩ := parts
  refine ⟨inv.apart, fun r among => ?_, ⟨tree.leaves_apart, fun p => ?_⟩,
    ⟨own, lives, leaves.subperm.trans (taken_sublist _).subperm,
      fun pair member p => (within pair member).contains⟩, count,
    fun request positive refuses => ?_, fun request positive squares refuses => ?_, ?_⟩
  · obtain ⟨pair, member, rfl⟩ := List.mem_map.mp (lives.mem_iff.mp among)
    have fits := within pair member
    have isTaken : pair.2 ∈ a.m_root.taken :=
      leaves.mem_iff.mp (List.mem_map.mpr ⟨pair, member, rfl⟩)
    have corner := tree.contains.mpr
      ⟨_, (taken_sublist _).subset isTaken, fits.contains (contains_corner fits.pos)⟩
    rw [rect, contains_iff] at corner
    have sides := fits.pos
    dsimp only at corner
    omega
  · rw [← tree.contains, rect, contains_iff]
    dsimp only
    omega
  · obtain ⟨result, a', made, -⟩ := allocate_spec inv positive
    rw [made] at refuses
    cases refuses
  · obtain ⟨a', made, -⟩ := expand_spec inv positive squares
    rw [made] at refuses
    cases refuses
  · rintro rfl
    exact inv.whole

theorem Reached.invariant {minAlloc : IntSize} {k l : Nat} (powers : minAlloc = ⟨2 ^ k, 2 ^ l⟩)
    (positive : Positive (2 ^ 20) size)
    (least : fitsWithin minAlloc (nextPowerOfTwoSize size) = true)
    (reached : Reached size minAlloc a live) : Invariant a live := by
  induction reached with
  | start =>
    obtain ⟨i, j, grows, few, few'⟩ := nextPowerOfTwoSize_spec positive
    rw [powers, grows, fitsWithin_iff] at least
    have wide : k ≤ i := (Nat.pow_le_pow_iff_right (by decide)).mp least.1
    have high : l ≤ j := (Nat.pow_le_pow_iff_right (by decide)).mp least.2
    have dyadic : Dyadic ⟨0, 0, 2 ^ i, 2 ^ j⟩ := ⟨i, j, rfl⟩
    rw [GeneralAreaAllocator.construct, grows]
    exact ⟨.leaf dyadic (.inr rfl), rfl, rfl, ⟨i, j, k, l, rfl, powers, wide, high, few, few'⟩,
      [], List.Perm.refl _, (free_taken dyadic).symm ▸ List.Perm.refl _, nofun⟩
  | allocate _ asked made ih =>
    obtain ⟨result, a', made', inv⟩ := allocate_spec ih asked
    rw [made] at made'
    obtain ⟨rfl, rfl⟩ := Prod.mk.inj (Option.some.inj made')
    exact inv
  | release _ among ih => exact release_spec ih among
  | expand _ asked squares made ih =>
    obtain ⟨a', made', inv⟩ := expand_spec ih asked squares
    rw [made] at made'
    obtain rfl := Option.some.inj made'
    exact inv

end NetRider.Texmap
