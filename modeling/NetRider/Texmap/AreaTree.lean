import NetRider.Texmap.AreaAllocator

/-!
# Area trees

What allocation, release and growth do to a tree of halved rectangles in which every inner node has
an allocated leaf below it.
-/

namespace NetRider.Texmap

/-! ## Well-formed trees -/

namespace Node

/-- The rectangles of the leaves. -/
def leaves : Node → List IntRect
  | leaf rect _ => [rect]
  | inner _ _ left right => left.leaves ++ right.leaves

/-- The leaves that are allocated. -/
def taken : Node → List IntRect
  | leaf rect largestFree => if largestFree = ⟨0, 0⟩ then [rect] else []
  | inner _ _ left right => left.taken ++ right.taken

def count : Node → Nat
  | leaf _ _ => 1
  | inner _ _ left right => left.count + right.count + 1

end Node

/-- The sides are powers of two. -/
def Dyadic (r : IntRect) : Prop := ∃ i j, r.size = ⟨2 ^ i, 2 ^ j⟩

/-- A rectangle and its halves. -/
inductive Halved : IntRect → IntRect → IntRect → Prop
  | onX {x y i j} :
    Halved ⟨x, y, 2 ^ i * 2, 2 ^ j⟩ ⟨x, y, 2 ^ i, 2 ^ j⟩ ⟨x + 2 ^ i, y, 2 ^ i, 2 ^ j⟩
  | onY {x y i j} :
    Halved ⟨x, y, 2 ^ i, 2 ^ j * 2⟩ ⟨x, y, 2 ^ i, 2 ^ j⟩ ⟨x, y + 2 ^ j, 2 ^ i, 2 ^ j⟩

/-- No point is in both. -/
def Apart (r s : IntRect) : Prop := ∀ p, r.contains p = true → s.contains p = false

/-- The tree of a run: inner nodes have an allocated leaf below them. -/
inductive WellFormed : Node → Prop
  | leaf {rect free} : Dyadic rect → free = ⟨0, 0⟩ ∨ free = rect.size →
    WellFormed (.leaf rect free)
  | inner {rect left right} : WellFormed left → WellFormed right →
    Halved rect left.rect right.rect → left.taken ++ right.taken ≠ [] →
    WellFormed (updated rect left right)

variable {r rect rect' r1 r2 : IntRect} {p : IntPoint} {size : IntSize} {node left right : Node}
  {fuel nodeCount : Nat} {siblings : Option (IntRect × IntRect)} {split : Split}

theorem contains_iff : r.contains p = true ↔
    r.x ≤ p.x ∧ p.x < r.x + r.width ∧ r.y ≤ p.y ∧ p.y < r.y + r.height := by
  simp only [IntRect.contains, Bool.and_eq_true, decide_eq_true_eq, and_assoc]

theorem fitsWithin_iff {a b : IntSize} :
    fitsWithin a b = true ↔ a.width ≤ b.width ∧ a.height ≤ b.height := by
  simp only [fitsWithin, Bool.and_eq_true, decide_eq_true_eq]

theorem Dyadic.pos (dyadic : Dyadic r) : 0 < r.width ∧ 0 < r.height := by
  obtain ⟨i, j, size⟩ := dyadic
  obtain ⟨width, height⟩ := IntSize.mk.inj size
  rw [width, height]
  exact ⟨Nat.two_pow_pos i, Nat.two_pow_pos j⟩

theorem Dyadic.contains (dyadic : Dyadic r) : r.contains r.location = true := by
  have sides := dyadic.pos
  rw [contains_iff]
  exact ⟨le_rfl, Nat.lt_add_of_pos_right sides.1, le_rfl, Nat.lt_add_of_pos_right sides.2⟩

namespace Halved

theorem dyadic (halved : Halved rect r1 r2) : Dyadic rect ∧ Dyadic r1 ∧ Dyadic r2 := by
  cases halved with
  | @onX x y i j => exact ⟨⟨i + 1, j, by rw [pow_succ]; rfl⟩, ⟨i, j, rfl⟩, i, j, rfl⟩
  | @onY x y i j => exact ⟨⟨i, j + 1, by rw [pow_succ]; rfl⟩, ⟨i, j, rfl⟩, i, j, rfl⟩

theorem contains (halved : Halved rect r1 r2) :
    rect.contains p = true ↔ r1.contains p = true ∨ r2.contains p = true := by
  rw [contains_iff, contains_iff, contains_iff]
  cases halved with
  | onX => dsimp only; omega
  | onY => dsimp only; omega

theorem apart (halved : Halved rect r1 r2) : Apart r1 r2 := by
  intro p first
  rw [Bool.eq_false_iff, ne_eq, contains_iff]
  rw [contains_iff] at first
  cases halved with
  | onX => dsimp only at first ⊢; omega
  | onY => dsimp only at first ⊢; omega

/-- The halves are of one size, smaller than the whole. -/
theorem sizes (halved : Halved rect r1 r2) : r1.size = r2.size ∧ r1.width ≤ rect.width ∧
    r1.height ≤ rect.height ∧ r1.width + r1.height < rect.width + rect.height := by
  have sides := halved.dyadic.2.1.pos
  cases halved with
  | onX => refine ⟨rfl, ?_, ?_, ?_⟩ <;> dsimp only at sides ⊢ <;> omega
  | onY => refine ⟨rfl, ?_, ?_, ?_⟩ <;> dsimp only at sides ⊢ <;> omega

end Halved

namespace WellFormed

theorem dyadic (tree : WellFormed node) : Dyadic node.rect := by
  cases tree with
  | leaf dyadic _ => exact dyadic
  | inner _ _ halved _ => exact halved.dyadic.1

theorem free_le (tree : WellFormed node) : node.largestFree.width ≤ node.rect.width ∧
    node.largestFree.height ≤ node.rect.height := by
  induction tree with
  | leaf _ free =>
    rcases free with rfl | rfl
    · exact ⟨Nat.zero_le _, Nat.zero_le _⟩
    · exact ⟨le_rfl, le_rfl⟩
  | @inner rect left right _ _ halved _ ih ih' =>
    obtain ⟨same, width, height, -⟩ := halved.sizes
    obtain ⟨widths, heights⟩ := IntSize.mk.inj same
    exact ⟨max_le (ih.1.trans width) (ih'.1.trans (widths ▸ width)),
      max_le (ih.2.trans height) (ih'.2.trans (heights ▸ height))⟩

/-- Only free leaves are as free as they are large. -/
theorem full_or_taken (tree : WellFormed node) :
    (node.largestFree = node.rect.size ∧ node = .leaf node.rect node.rect.size ∧
      node.taken = []) ∨ (node.largestFree ≠ node.rect.size ∧ node.taken ≠ []) := by
  cases tree with
  | @leaf rect _ dyadic free =>
    have sides := dyadic.pos
    have other : rect.size ≠ ⟨0, 0⟩ := by
      intro zero
      have width := congrArg IntSize.width zero
      exact absurd width (Nat.ne_of_gt sides.1)
    rcases free with rfl | rfl
    · exact .inr ⟨other.symm, by simp [Node.taken]⟩
    · exact .inl ⟨rfl, rfl, if_neg other⟩
  | @inner rect left right tree tree' halved some_ =>
    refine .inr ⟨fun full => ?_, some_⟩
    have bounds := tree.free_le
    have bounds' := tree'.free_le
    obtain ⟨same, -, -, smaller⟩ := halved.sizes
    obtain ⟨widths, heights⟩ := IntSize.mk.inj same
    have width := congrArg IntSize.width full
    have height := congrArg IntSize.height full
    change max left.largestFree.width right.largestFree.width = rect.width at width
    change max left.largestFree.height right.largestFree.height = rect.height at height
    omega

theorem contains (tree : WellFormed node) :
    node.rect.contains p = true ↔ ∃ r ∈ node.leaves, r.contains p = true := by
  induction tree with
  | leaf => simp [Node.rect, Node.leaves]
  | @inner rect left right _ _ halved _ ih ih' =>
    change rect.contains p = true ↔ ∃ r ∈ left.leaves ++ right.leaves, _
    rw [halved.contains, ih, ih']
    simp only [List.mem_append, or_and_right, exists_or]

theorem leaves_apart (tree : WellFormed node) : node.leaves.Pairwise Apart := by
  induction tree with
  | leaf => exact List.pairwise_singleton _ _
  | @inner rect left right tree tree' halved _ ih ih' =>
    refine List.pairwise_append.mpr ⟨ih, ih', fun r among s among' p inside => ?_⟩
    have inLeft := tree.contains.mpr ⟨r, among, inside⟩
    have notRight := halved.apart p inLeft
    rw [Bool.eq_false_iff] at notRight ⊢
    exact fun both => notRight (tree'.contains.mpr ⟨s, among', both⟩)

theorem dyadic_leaves (tree : WellFormed node) : ∀ r ∈ node.leaves, Dyadic r := by
  induction tree with
  | leaf dyadic _ => exact List.forall_mem_singleton.mpr dyadic
  | inner _ _ _ _ ih ih' => exact List.forall_mem_append.mpr ⟨ih, ih'⟩

end WellFormed

theorem taken_sublist (node : Node) : node.taken.Sublist node.leaves := by
  induction node with
  | leaf rect largestFree =>
    rw [Node.taken, Node.leaves]
    split
    · exact List.Sublist.refl _
    · exact List.nil_sublist _
  | inner rect largestFree left right ih ih' => exact ih.append ih'

/-! ## Allocation -/

theorem halves_halved (dyadic : Dyadic rect) (pos : 0 < size.width ∧ 0 < size.height)
    (fits : fitsWithin size rect.size = true)
    (chosen : chooseSplit size siblings rect rect.size = some split) :
    Halved rect (halves rect split).1 (halves rect split).2 ∧
      fitsWithin size (halves rect split).1.size = true := by
  rw [fitsWithin_iff] at fits
  have room : (split = .splitOnX ∧ size.width * 2 ≤ rect.width) ∨
      (split = .splitOnY ∧ size.height * 2 ≤ rect.height) := by
    unfold chooseSplit at chosen
    simp only [fitsWithin_iff] at chosen
    split at chosen
    · rename_i both
      cases split with
      | splitOnX => exact .inl ⟨rfl, both.1⟩
      | splitOnY => exact .inr ⟨rfl, both.2⟩
    · split at chosen
      · rename_i wide
        exact .inl ⟨(Option.some.inj chosen).symm, wide.1⟩
      · split at chosen
        · rename_i high
          exact .inr ⟨(Option.some.inj chosen).symm, high.2⟩
        · cases chosen
  obtain ⟨i, j, sides⟩ := dyadic
  obtain ⟨x, y, width, height⟩ := rect
  obtain ⟨rfl, rfl⟩ := IntSize.mk.inj sides
  dsimp only [IntRect.size] at fits room
  rcases room with ⟨rfl, room⟩ | ⟨rfl, room⟩
  · cases i with
    | zero => omega
    | succ i =>
      rw [pow_succ] at room ⊢
      rw [fitsWithin_iff]
      dsimp only [halves, IntRect.size]
      rw [Nat.mul_div_cancel _ Nat.two_pos]
      exact ⟨.onX, by omega, fits.2⟩
  · cases j with
    | zero => omega
    | succ j =>
      rw [pow_succ] at room ⊢
      rw [fitsWithin_iff]
      dsimp only [halves, IntRect.size]
      rw [Nat.mul_div_cancel _ Nat.two_pos]
      exact ⟨.onY, fits.1, by omega⟩

/-- What an attempt comes to: nothing is changed, or one more leaf is allocated. -/
structure Allocates (size : IntSize) (nodeCount : Nat) (node : Node) (o : Outcome) : Prop where
  rect : o.node.rect = node.rect
  wellFormed : WellFormed o.node
  count : o.nodeCount + node.count = nodeCount + o.node.count
  point : (o.point = none ∧ o.node = node) ∨ ∃ r, o.point = some r.location ∧
    o.node.taken.Perm (r :: node.taken) ∧ size.width ≤ r.width ∧ size.height ≤ r.height

theorem free_taken (dyadic : Dyadic rect) : (Node.leaf rect rect.size).taken = [] := by
  refine if_neg fun zero => ?_
  exact absurd (congrArg IntSize.width zero) (Nat.ne_of_gt dyadic.pos.1)

/-- A free leaf that is large enough. -/
theorem allocateFromLeaf_spec (dyadic : Dyadic rect) (pos : 0 < size.width ∧ 0 < size.height)
    (fits : fitsWithin size rect.size = true) (enough : rect.width + rect.height ≤ fuel) :
    ∃ o, allocateFromLeaf fuel size siblings rect rect.size nodeCount = some o ∧
      o.point.isSome = true ∧ Allocates size nodeCount (.leaf rect rect.size) o := by
  induction fuel generalizing siblings rect nodeCount with
  | zero =>
    have sides := dyadic.pos
    omega
  | succ fuel ih =>
    rw [allocateFromLeaf, if_pos fits]
    cases chosen : chooseSplit size siblings rect rect.size with
    | none =>
      have bounds := fitsWithin_iff.mp fits
      refine ⟨_, rfl, rfl, rfl, .leaf dyadic (.inl rfl), rfl, .inr ⟨rect, rfl, ?_, bounds⟩⟩
      rw [free_taken dyadic]
      exact List.Perm.refl _
    | some split =>
      obtain ⟨halved, fits'⟩ := halves_halved dyadic pos fits chosen
      dsimp only
      generalize halves rect split = parts at halved fits' ⊢
      obtain ⟨r1, r2⟩ := parts
      have dyadics := halved.dyadic
      have smaller := halved.sizes.2.2.2
      dsimp only at halved fits' smaller ⊢
      obtain ⟨o, made, some_, allocates⟩ := @ih r1 (nodeCount + 2) (some (r1, r2)) dyadics.2.1 fits'
        (by omega)
      obtain ⟨point, node, nodeCount'⟩ := o
      obtain ⟨sameRect, tree, count, changed⟩ := allocates
      rw [made]
      rcases changed with ⟨none, -⟩ | ⟨r, is, taken, bounds⟩
      · rw [none] at some_
        cases some_
      · dsimp only at is sameRect tree count taken
        subst is
        rw [free_taken dyadics.2.1] at taken
        refine ⟨_, rfl, rfl, rfl, .inner tree (.leaf dyadics.2.2 (.inr rfl)) ?_ ?_, ?_,
          .inr ⟨r, rfl, ?_, bounds⟩⟩
        · rw [sameRect]
          exact halved
        · rw [List.perm_singleton.mp taken]
          exact List.cons_ne_nil _ _
        · dsimp only [updated, Node.count] at count ⊢
          omega
        · dsimp only [updated]
          rw [free_taken dyadic, Node.taken, free_taken dyadics.2.2, List.append_nil]
          exact taken

/-- A node in which a child with this rectangle stands beside its sibling, on either side. -/
structure Beside (rect child : IntRect) (sibling : Node) (rebuild : Node → Node) : Prop where
  rect : ∀ node, (rebuild node).rect = rect
  taken : ∀ node, (rebuild node).taken.Perm (node.taken ++ sibling.taken)
  count : ∀ node, (rebuild node).count = node.count + sibling.count + 1
  wellFormed : ∀ node, WellFormed node → node.rect = child →
    (rebuild node).taken ≠ [] → WellFormed (rebuild node)

theorem beside_right {left right : Node} (tree : WellFormed right)
    (halved : Halved rect left.rect right.rect) :
    Beside rect left.rect right fun node => updated rect node right where
  rect _ := rfl
  taken _ := .refl _
  count _ := rfl
  wellFormed _ child same some_ := .inner child tree (by rwa [same]) some_

theorem beside_left {left right : Node} (tree : WellFormed left)
    (halved : Halved rect left.rect right.rect) :
    Beside rect right.rect left fun node => updated rect left node where
  rect _ := rfl
  taken _ := List.perm_append_comm
  count node := by
    rw [Nat.add_comm node.count]
    rfl
  wellFormed _ child same some_ := .inner tree child (by rwa [same]) some_

/-- An attempt in a child. -/
theorem Allocates.goOn {child sibling : Node} (pair : Node → Node × Node) {o : Outcome}
    (beside : Beside rect child.rect sibling fun node => updated rect (pair node).1 (pair node).2)
    (tree : WellFormed (updated rect (pair child).1 (pair child).2))
    (allocates : Allocates size nodeCount child o) :
    Allocates size nodeCount (updated rect (pair child).1 (pair child).2)
      (goOn rect (updated rect (pair child).1 (pair child).2).largestFree pair o) := by
  obtain ⟨sameRect, childTree, count, changed⟩ := allocates
  have before := beside.count child
  have after := beside.count o.node
  rcases changed with ⟨refused, same⟩ | ⟨r, is, taken, bounds⟩
  · have unchanged : Texmap.goOn rect (updated rect (pair child).1 (pair child).2).largestFree
        pair o = ⟨none, updated rect (pair child).1 (pair child).2, o.nodeCount⟩ := by
      rw [Texmap.goOn, refused, same]
      rfl
    rw [unchanged]
    rw [same] at count
    exact ⟨rfl, tree, by dsimp only; omega, .inl ⟨rfl, rfl⟩⟩
  · have made : Texmap.goOn rect (updated rect (pair child).1 (pair child).2).largestFree pair o =
        ⟨some r.location, updated rect (pair o.node).1 (pair o.node).2, o.nodeCount⟩ := by
      rw [Texmap.goOn, is]
      rfl
    have more : (updated rect (pair o.node).1 (pair o.node).2).taken.Perm
        (r :: (updated rect (pair child).1 (pair child).2).taken) :=
      (beside.taken o.node).trans
        ((taken.append_right sibling.taken).trans ((beside.taken child).symm.cons r))
    rw [made]
    refine ⟨rfl, beside.wellFormed o.node childTree sameRect ?_, by dsimp only; omega,
      .inr ⟨r, rfl, more, bounds⟩⟩
    intro empty
    exact List.cons_ne_nil _ _ (List.perm_nil.mp (more.symm.trans (List.Perm.of_eq empty)))

theorem Allocates.refused (tree : WellFormed node) :
    Allocates size nodeCount node ⟨none, node, nodeCount⟩ :=
  ⟨rfl, tree, rfl, .inl ⟨rfl, rfl⟩⟩

/-- Every attempt ends. -/
theorem allocateFromNode_spec (tree : WellFormed node) (pos : 0 < size.width ∧ 0 < size.height)
    (enough : node.rect.width + node.rect.height ≤ fuel) :
    ∃ o, allocateFromNode fuel size siblings nodeCount node = some o ∧
      Allocates size nodeCount node o := by
  induction tree generalizing siblings nodeCount with
  | @leaf rect free dyadic state =>
    rcases state with rfl | rfl
    · have refused : fitsWithin size ⟨0, 0⟩ = false := by
        rw [Bool.eq_false_iff, ne_eq, fitsWithin_iff]
        intro fits
        exact absurd fits.1 (Nat.not_le_of_lt pos.1)
      cases fuel with
      | zero =>
        have sides := dyadic.pos
        change rect.width + rect.height ≤ 0 at enough
        omega
      | succ fuel =>
        refine ⟨_, ?_, Allocates.refused (.leaf dyadic (.inl rfl))⟩
        rw [allocateFromNode, allocateFromLeaf, refused]
        rfl
    · by_cases fits : fitsWithin size rect.size = true
      · obtain ⟨o, made, -, allocates⟩ :=
          @allocateFromLeaf_spec _ _ _ nodeCount siblings dyadic pos fits enough
        exact ⟨o, made, allocates⟩
      · cases fuel with
        | zero =>
          have sides := dyadic.pos
          change rect.width + rect.height ≤ 0 at enough
          omega
        | succ fuel =>
          refine ⟨_, ?_, Allocates.refused (.leaf dyadic (.inr rfl))⟩
          rw [allocateFromNode, allocateFromLeaf, if_neg fits]
  | @inner rect left right leftTree rightTree halved some_ ih ih' =>
    have tree : WellFormed (updated rect left right) := .inner leftTree rightTree halved some_
    obtain ⟨same, -, -, smaller⟩ := halved.sizes
    obtain ⟨widths, heights⟩ := IntSize.mk.inj same
    change rect.width + rect.height ≤ fuel at enough
    obtain ⟨o, made, allocates⟩ := @ih nodeCount (some (left.rect, right.rect)) (by omega)
    obtain ⟨o', made', allocates'⟩ := @ih' nodeCount (some (left.rect, right.rect)) (by omega)
    have inLeft := allocates.goOn (fun node => (node, right)) (beside_right rightTree halved) tree
    have inRight := allocates'.goOn (fun node => (left, node)) (beside_left leftTree halved) tree
    rw [updated, allocateFromNode, made, made']
    by_cases fitsLeft : fitsWithin size left.largestFree = true
    · rw [if_pos fitsLeft]
      by_cases fitsRight : fitsWithin size right.largestFree = true
      · rw [if_pos fitsRight]
        by_cases less : left.largestFree.width < right.largestFree.width ∨
            left.largestFree.height < right.largestFree.height
        · rw [if_pos less]
          dsimp only
          by_cases found : o.point.isSome = true
          · rw [if_pos found]
            exact ⟨_, rfl, inLeft⟩
          · rw [if_neg found]
            obtain ⟨-, -, count, changed⟩ := allocates
            rcases changed with ⟨-, unchanged⟩ | ⟨r, is, -⟩
            · rw [unchanged] at count ⊢
              have sameCount : o.nodeCount = nodeCount := by omega
              rw [sameCount, made']
              exact ⟨_, rfl, inRight⟩
            · rw [is] at found
              exact absurd rfl found
        · rw [if_neg less]
          exact ⟨_, rfl, inRight⟩
      · rw [if_neg fitsRight]
        exact ⟨_, rfl, inLeft⟩
    · rw [if_neg fitsLeft]
      by_cases fitsRight : fitsWithin size right.largestFree = true
      · rw [if_pos fitsRight]
        exact ⟨_, rfl, inRight⟩
      · rw [if_neg fitsRight]
        exact ⟨_, rfl, Allocates.refused tree⟩

/-! ## Release -/

/-- What `releaseNode` makes of a node below which a leaf is allocated. -/
structure Releases (r : IntRect) (nodeCount : Nat) (node : Node) (o : Node × Bool × Nat) :
    Prop where
  rect : o.1.rect = node.rect
  wellFormed : WellFormed o.1
  taken : node.taken.Perm (r :: o.1.taken)
  count : o.2.2 + node.count = nodeCount + o.1.count
  whole : o.2.1 = true → o.1 = .leaf node.rect node.rect.size
  partly : o.2.1 = false → o.1.taken ≠ []

theorem mem_taken_contains (tree : WellFormed node) (among : r ∈ node.taken) :
    node.rect.contains r.location = true :=
  tree.contains.mpr ⟨r, (taken_sublist node).subset among,
    (tree.dyadic_leaves r ((taken_sublist node).subset among)).contains⟩

/-- One level upwards: a sibling that is free is recombined with a child that is free again. -/
theorem Releases.upwards {child sibling : Node} {rebuild : Node → Node} {o : Node × Bool × Nat}
    (released : Releases r nodeCount child o) (beside : Beside rect child.rect sibling rebuild)
    (dyadic : Dyadic rect) (half : Dyadic child.rect) (tree : WellFormed sibling)
    (enough : (rebuild child).count ≤ nodeCount) :
    Releases r nodeCount (rebuild child) (upwards rect sibling rebuild o) := by
  obtain ⟨sameRect, childTree, taken, count, whole, partly⟩ := released
  obtain ⟨child', recombining, nodeCount'⟩ := o
  dsimp only at sameRect childTree taken count whole partly
  have all : (rebuild child).taken.Perm (r :: (child'.taken ++ sibling.taken)) :=
    (beside.taken child).trans (taken.append_right sibling.taken)
  have counts := beside.count child
  by_cases merges : recombining = true ∧ sibling.largestFree = sibling.rect.size
  · rw [Texmap.upwards, if_pos merges]
    obtain ⟨-, single, empty⟩ := tree.full_or_taken.resolve_right fun busy => busy.1 merges.2
    have one : sibling.count = 1 := by
      rw [single]
      rfl
    rw [whole merges.1] at count all
    refine ⟨(beside.rect child).symm, .leaf dyadic (.inr rfl), ?_, ?_, fun _ => ?_,
      fun other => by cases other⟩
    · dsimp only
      rw [free_taken dyadic]
      rwa [free_taken half, empty] at all
    · dsimp only [Node.count] at count ⊢
      omega
    · rw [beside.rect]
  · rw [Texmap.upwards, if_neg merges]
    have together := beside.taken child'
    have remains : (rebuild child').taken ≠ [] := by
      intro none_
      obtain ⟨gone, empty⟩ := List.append_eq_nil_iff.mp (List.perm_nil.mp (none_ ▸ together).symm)
      cases recombining with
      | false => exact partly rfl gone
      | true =>
        rcases tree.full_or_taken with ⟨full, -, -⟩ | ⟨-, more⟩
        · exact merges ⟨rfl, full⟩
        · exact more empty
    refine ⟨(beside.rect child').trans (beside.rect child).symm,
      beside.wellFormed child' childTree sameRect remains, all.trans (together.symm.cons r), ?_,
      (fun other => by cases other), fun _ => remains⟩
    have counts' := beside.count child'
    dsimp only
    omega

theorem releaseNode_spec (tree : WellFormed node) (among : r ∈ node.taken)
    (enough : node.count ≤ nodeCount) :
    ∃ o, releaseNode r.location nodeCount node = some o ∧ Releases r nodeCount node o := by
  induction tree with
  | @leaf rect free dyadic state =>
    rw [Node.taken] at among
    split at among
    · rename_i zero
      obtain rfl := List.mem_singleton.mp among
      refine ⟨(.leaf r r.size, true, nodeCount), ?_, rfl, .leaf dyadic (.inr rfl), ?_, rfl,
        fun _ => rfl, fun other => by cases other⟩
      · rw [releaseNode, if_pos dyadic.contains]
      · dsimp only
        rw [free_taken dyadic, Node.taken, if_pos zero]
    · cases among
  | @inner rect left right leftTree rightTree halved some_ ih ih' =>
    have fewer : left.count + right.count + 1 ≤ nodeCount := enough
    have dyadics := halved.dyadic
    rcases List.mem_append.mp among with inLeft | inRight
    · obtain ⟨o, made, released⟩ := ih inLeft (by omega)
      refine ⟨_, ?_, released.upwards (beside_right rightTree halved) dyadics.1 dyadics.2.1
        rightTree enough⟩
      rw [updated, releaseNode, if_pos (mem_taken_contains leftTree inLeft), made, Option.map_some]
    · have inside := mem_taken_contains rightTree inRight
      have outside : left.rect.contains r.location = false := by
        rw [Bool.eq_false_iff]
        intro both
        rw [halved.apart _ both] at inside
        cases inside
      obtain ⟨o, made, released⟩ := ih' inRight (by omega)
      refine ⟨_, ?_, released.upwards (beside_left leftTree halved) dyadics.1 dyadics.2.2
        leftTree enough⟩
      rw [updated, releaseNode, outside, if_neg Bool.false_ne_true, if_pos inside, made,
        Option.map_some]

/-! ## Growth -/

/-- The loop of `expand` doubles the height of squares only. -/
def DoublesSquares (size : IntSize) : Nat → Split → IntRect → Prop
  | 0, _, _ => True
  | fuel + 1, split, root =>
    root.size ≠ size →
      let split := turnSplit split root.size size
      (split = .splitOnY → root.width = root.height) ∧
        DoublesSquares size fuel split.other (doubled root split).1

/-- A new node above the root and a free leaf beside it. -/
theorem parent_spec {root : Node} (tree : WellFormed root) (some_ : root.taken ≠ [])
    (halved : Halved rect root.rect rect') :
    WellFormed (updated rect root (.leaf rect' root.rect.size)) ∧
      (updated rect root (.leaf rect' root.rect.size)).taken = root.taken := by
  have taken : (updated rect root (.leaf rect' root.rect.size)).taken = root.taken := by
    rw [updated, Node.taken, halved.sizes.1, free_taken halved.dyadic.2.2, List.append_nil]
  refine ⟨.inner tree (.leaf halved.dyadic.2.2 (.inr halved.sizes.1)) halved ?_, taken⟩
  change (updated rect root (.leaf rect' root.rect.size)).taken ≠ []
  rwa [taken]

theorem wider_of_splitOnX {i j m n : Nat} (wide : i ≤ m)
    (turn : turnSplit split ⟨2 ^ i, 2 ^ j⟩ ⟨2 ^ m, 2 ^ n⟩ = .splitOnX) : i < m := by
  refine lt_of_le_of_ne wide fun same => ?_
  rw [turnSplit] at turn
  split at turn
  · cases turn
  · rename_i other
    exact other (congrArg (2 ^ ·) same)

theorem higher_of_splitOnY {i j m n : Nat} (high : j ≤ n)
    (undone : (⟨2 ^ i, 2 ^ j⟩ : IntSize) ≠ ⟨2 ^ m, 2 ^ n⟩)
    (turn : turnSplit split ⟨2 ^ i, 2 ^ j⟩ ⟨2 ^ m, 2 ^ n⟩ = .splitOnY) : j < n := by
  refine lt_of_le_of_ne high fun same => ?_
  rw [turnSplit] at turn
  split at turn
  · rename_i alike
    dsimp only at alike
    exact undone (by rw [alike, same])
  · split at turn
    · cases turn
    · rename_i other
      exact other (congrArg (2 ^ ·) same)

theorem expandLoop_spec {i j m n : Nat} {root : Node} (tree : WellFormed root)
    (some_ : root.taken ≠ []) (is : root.rect = ⟨0, 0, 2 ^ i, 2 ^ j⟩) (width : i ≤ m)
    (height : j ≤ n) (enough : m - i + (n - j) < fuel)
    (squares : DoublesSquares ⟨2 ^ m, 2 ^ n⟩ fuel split root.rect) :
    ∃ root' nodeCount', expandLoop ⟨2 ^ m, 2 ^ n⟩ fuel split root nodeCount =
        some (root', nodeCount') ∧ WellFormed root' ∧ root'.rect = ⟨0, 0, 2 ^ m, 2 ^ n⟩ ∧
      root'.taken = root.taken ∧ nodeCount' + root.count = nodeCount + root'.count := by
  induction fuel generalizing i j split root nodeCount with
  | zero => omega
  | succ fuel ih =>
    rw [expandLoop]
    by_cases done : root.rect.size = ⟨2 ^ m, 2 ^ n⟩
    · rw [if_pos done]
      refine ⟨root, nodeCount, rfl, tree, ?_, rfl, rfl⟩
      rw [is] at done ⊢
      obtain ⟨widths, heights⟩ := IntSize.mk.inj done
      dsimp only at widths heights
      rw [widths, heights]
    · rw [if_neg done]
      dsimp only
      rw [DoublesSquares] at squares
      obtain ⟨square, later⟩ := squares done
      have dyadic := tree.dyadic
      cases turn : turnSplit split root.rect.size ⟨2 ^ m, 2 ^ n⟩ with
      | splitOnX =>
        rw [turn] at later
        rw [is] at turn
        have wider := wider_of_splitOnX width turn
        have halved : Halved (doubled root.rect .splitOnX).1 root.rect
            (doubled root.rect .splitOnX).2 := by
          rw [is]
          exact .onX
        obtain ⟨parent, taken⟩ := parent_spec tree some_ halved
        obtain ⟨root', nodeCount', made, grown, isRect, same, count⟩ :=
          @ih (nodeCount + 2) Split.splitOnX.other (i + 1) j _ parent (by rw [taken]; exact some_)
            (by rw [is, pow_succ]; rfl) wider height (by omega) later
        refine ⟨root', nodeCount', made, grown, isRect, same.trans taken, ?_⟩
        dsimp only [updated, Node.count] at count
        omega
      | splitOnY =>
        rw [turn] at later
        have sides := square turn
        rw [is] at turn done
        have higher := higher_of_splitOnY height done turn
        have halved : Halved (doubled root.rect .splitOnY).1 root.rect
            (doubled root.rect .splitOnY).2 := by
          rw [is] at sides ⊢
          dsimp only [doubled] at sides ⊢
          have halved : Halved ⟨0, 0, 2 ^ i, 2 ^ j * 2⟩ ⟨0, 0, 2 ^ i, 2 ^ j⟩
              ⟨0, 0 + 2 ^ j, 2 ^ i, 2 ^ j⟩ := .onY
          rwa [← sides] at halved ⊢
        obtain ⟨parent, taken⟩ := parent_spec tree some_ halved
        obtain ⟨root', nodeCount', made, grown, isRect, same, count⟩ :=
          @ih (nodeCount + 2) Split.splitOnY.other i (j + 1) _ parent (by rw [taken]; exact some_)
            (by rw [is, pow_succ]; rfl) width higher (by omega) later
        refine ⟨root', nodeCount', made, grown, isRect, same.trans taken, ?_⟩
        dsimp only [updated, Node.count] at count
        omega

end NetRider.Texmap
