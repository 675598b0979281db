import NetRider.Css.BloomFilter

/-!
# SelectorFilter

A filter with the tag names, ids and classes of the ancestors of an element rejects selectors that
need others. Namespaces stand with the other conditions of a type selector. Shadow trees are left
out: the host of an element is its parent.
-/

namespace NetRider.Css

inductive Fault
  | null
  | outside
deriving DecidableEq

/-! ## Elements -/

/-- Elements are numbered in document order. -/
structure ElementTree where
  localName : Nat → String
  idForStyleResolution : Nat → Option String
  classNames : Nat → List String
  parentElement : Nat → Option Nat
  previousSibling : Nat → Option Nat
  /-- A document, or another node that is no element, can be the parent too. -/
  hasParentNode : Nat → Bool
  parent_lt : ∀ {e p}, parentElement e = some p → p < e
  parent_node : ∀ {e p}, parentElement e = some p → hasParentNode e = true
  sibling_parent : ∀ {e f}, previousSibling e = some f → parentElement f = parentElement e

namespace ElementTree

variable (tree : ElementTree)

/-- `a` is an ancestor of the element. -/
inductive Ancestor : Nat → Nat → Prop
  | parent {a e : Nat} (here : tree.parentElement e = some a) : Ancestor a e
  | further {a p e : Nat} (here : tree.parentElement e = some p) (above : Ancestor a p) :
      Ancestor a e

/-- `f` is a sibling before the element. -/
inductive Preceding : Nat → Nat → Prop
  | previous {f e : Nat} (here : tree.previousSibling e = some f) : Preceding f e
  | further {f g e : Nat} (here : tree.previousSibling e = some g) (before : Preceding f g) :
      Preceding f e

end ElementTree

/-! ## Selectors -/

inductive Relation
  | descendant
  | child
  | directAdjacent
  | indirectAdjacent
  | subSelector
deriving DecidableEq

/-- A simple selector with its value. -/
inductive Simple
  | id (value : String)
  | className (value : String)
  /-- A type selector, or `*`, with its other conditions. -/
  | tag (localName : String) (condition : Nat → Bool)
  | other (condition : Nat → Bool)

def starAtom : String := "*"

/-- The last compound comes first. The relation is the one to the next simple selector. -/
inductive CSSSelector
  | last (simple : Simple) (relation : Relation)
  | more (simple : Simple) (relation : Relation) (tagHistory : CSSSelector)

namespace CSSSelector

def simple : CSSSelector → Simple
  | last simple _ => simple
  | more simple _ _ => simple

def relation : CSSSelector → Relation
  | last _ relation => relation
  | more _ relation _ => relation

end CSSSelector

section
variable (tree : ElementTree)

/-- The element meets the simple selector. -/
def Simple.Matches (e : Nat) : Simple → Prop
  | id value => tree.idForStyleResolution e = some value
  | className value => value ∈ tree.classNames e
  | tag localName condition =>
    (localName = starAtom ∨ localName = tree.localName e) ∧ condition e = true
  | other condition => condition e = true

/-- The element meets the selector. -/
def CSSSelector.Matches : CSSSelector → Nat → Prop
  | last simple _, e => simple.Matches tree e
  | more simple .subSelector rest, e => simple.Matches tree e ∧ rest.Matches e
  | more simple .child rest, e =>
    simple.Matches tree e ∧ ∃ p, tree.parentElement e = some p ∧ rest.Matches p
  | more simple .descendant rest, e =>
    simple.Matches tree e ∧ ∃ a, tree.Ancestor a e ∧ rest.Matches a
  | more simple .directAdjacent rest, e =>
    simple.Matches tree e ∧ ∃ f, tree.previousSibling e = some f ∧ rest.Matches f
  | more simple .indirectAdjacent rest, e =>
    simple.Matches tree e ∧ ∃ f, tree.Preceding f e ∧ rest.Matches f

end

/-! ## Hashes -/

def tagNameSalt : BitVec 32 := 13

def idAttributeSalt : BitVec 32 := 17

def classAttributeSalt : BitVec 32 := 19

section
variable (existingHash : String → BitVec 32) (tree : ElementTree)

def collectElementIdentifierHashes (element : Nat) : List (BitVec 32) :=
  existingHash (tree.localName element) * tagNameSalt ::
    (match tree.idForStyleResolution element with
      | some id => [existingHash id * idAttributeSalt]
      | none => []) ++
    (tree.classNames element).map fun name => existingHash name * classAttributeSalt

/-- The hash that is written for a simple selector, if any. -/
def collectDescendantSelectorIdentifierHashes : Simple → List (BitVec 32)
  | .id value => if value.isEmpty then [] else [existingHash value * idAttributeSalt]
  | .className value => if value.isEmpty then [] else [existingHash value * classAttributeSalt]
  | .tag localName _ =>
    if localName = starAtom then [] else [existingHash localName * tagNameSalt]
  | .other _ => []

/-- The loop of `collectIdentifierHashes`. -/
def collectLoop (maximumIdentifierCount : Nat) :
    CSSSelector → Relation → Bool → List (BitVec 32) → List (BitVec 32)
  | .last simple _, relation, skipOverSubselectors, hashes =>
    let hashes := collected simple relation skipOverSubselectors hashes
    if hashes.length = maximumIdentifierCount then hashes else hashes ++ [0]
  | .more simple relation' tagHistory, relation, skipOverSubselectors, hashes =>
    let hashes := collected simple relation skipOverSubselectors hashes
    if hashes.length = maximumIdentifierCount then hashes
    else collectLoop maximumIdentifierCount tagHistory relation'
      (skips relation skipOverSubselectors) hashes
where
  /-- The hashes behind one turn. -/
  collected (simple : Simple) (relation : Relation) (skipOverSubselectors : Bool)
      (hashes : List (BitVec 32)) : List (BitVec 32) :=
    match relation with
    | .subSelector =>
      if skipOverSubselectors then hashes
      else hashes ++ collectDescendantSelectorIdentifierHashes existingHash simple
    | .directAdjacent | .indirectAdjacent => hashes
    | .descendant | .child =>
      hashes ++ collectDescendantSelectorIdentifierHashes existingHash simple
  /-- `skipOverSubselectors` behind one turn. -/
  skips : Relation → Bool → Bool
    | .subSelector, skipOverSubselectors => skipOverSubselectors
    | .directAdjacent, _ | .indirectAdjacent, _ => true
    | .descendant, _ | .child, _ => false

/-- The hashes that are written. The topmost selector is left out. -/
def collectIdentifierHashes (selector : CSSSelector) (maximumIdentifierCount : Nat) :
    List (BitVec 32) :=
  match selector with
  | .last _ _ => [0]
  | .more _ relation tagHistory =>
    collectLoop existingHash maximumIdentifierCount tagHistory relation true []

end

/-! ## SelectorFilter -/

structure ParentStackFrame where
  element : Nat
  identifierHashes : List (BitVec 32)

/-- The last frame of the stack comes first. -/
structure SelectorFilter where
  m_parentStack : List ParentStackFrame
  m_ancestorIdentifierFilter : Option (BloomFilter 12)

namespace SelectorFilter

def new : SelectorFilter := ⟨[], none⟩

variable (existingHash : String → BitVec 32) (tree : ElementTree) (s : SelectorFilter)

def pushParentStackFrame (parent : Nat) : Except Fault SelectorFilter :=
  match s.m_ancestorIdentifierFilter with
  | none => .error .null
  | some filter =>
    let identifierHashes := collectElementIdentifierHashes existingHash tree parent
    .ok ⟨⟨parent, identifierHashes⟩ :: s.m_parentStack,
      some (identifierHashes.foldl BloomFilter.add filter)⟩

def popParentStackFrame : Except Fault SelectorFilter :=
  match s.m_parentStack, s.m_ancestorIdentifierFilter with
  | frame :: rest, some filter =>
    .ok ⟨rest, if rest.isEmpty then none
      else some (frame.identifierHashes.foldl BloomFilter.remove filter)⟩
  | _, _ => .error .null

/-- The element and its ancestors. -/
def climb (e : Nat) : List Nat :=
  match here : tree.parentElement e with
  | none => [e]
  | some p =>
    have := tree.parent_lt here
    e :: climb p
termination_by e

/-- The loop over the ancestors, of which the last one is pushed first. -/
def pushAll : List Nat → SelectorFilter → Except Fault SelectorFilter
  | [], s => .ok s
  | element :: rest, s =>
    match pushAll rest s with
    | .error fault => .error fault
    | .ok s => s.pushParentStackFrame existingHash tree element

def setupParentStack (parent : Nat) : Except Fault SelectorFilter :=
  let s : SelectorFilter := ⟨[], some BloomFilter.new⟩
  if tree.hasParentNode parent then pushAll existingHash tree (climb tree parent) s
  else s.pushParentStackFrame existingHash tree parent

def pushParent (parent : Nat) : Except Fault SelectorFilter :=
  match s.m_parentStack with
  | [] => .error .outside
  | frame :: _ =>
    if tree.parentElement parent = some frame.element then
      s.pushParentStackFrame existingHash tree parent
    else .ok s

def rejectLoop (filter : BloomFilter 12) : Nat → List (BitVec 32) → Except Fault Bool
  | 0, _ => .ok false
  | _ + 1, [] => .error .outside
  | n + 1, hash :: rest =>
    if hash = 0 then .ok false
    else if !filter.mayContain hash then .ok true
    else rejectLoop filter n rest

def fastRejectSelector (maximumIdentifierCount : Nat) (identifierHashes : List (BitVec 32)) :
    Except Fault Bool :=
  match s.m_ancestorIdentifierFilter with
  | none => .error .null
  | some filter => rejectLoop filter maximumIdentifierCount identifierHashes

/-! ## Runs -/

inductive Operation
  | setupParentStack (parent : Nat)
  | pushParent (parent : Nat)
  | popParent

def step : Operation → Except Fault SelectorFilter
  | .setupParentStack parent => setupParentStack existingHash tree parent
  | .pushParent parent => s.pushParent existingHash tree parent
  | .popParent => s.popParentStackFrame

def run : SelectorFilter → List Operation → Except Fault SelectorFilter
  | s, [] => .ok s
  | s, operation :: rest =>
    match s.step existingHash tree operation with
    | .error fault => .error fault
    | .ok s => run s rest

end SelectorFilter

/-! ## What a matching element has -/

section
variable {existingHash : String → BitVec 32} {tree : ElementTree} {hash : BitVec 32}
  {simple : Simple} {relation : Relation} {selector : CSSSelector} {a e x top : Nat}

/-- A simple selector's hash is one of the element's, if that meets it. -/
theorem collected_of_matches (meets : simple.Matches tree e)
    (among : hash ∈ collectDescendantSelectorIdentifierHashes existingHash simple) :
    hash ∈ collectElementIdentifierHashes existingHash tree e := by
  rw [collectElementIdentifierHashes]
  cases simple with
  | id value =>
    rw [collectDescendantSelectorIdentifierHashes] at among
    split at among
    · cases among
    · rw [List.mem_singleton] at among
      have same : tree.idForStyleResolution e = some value := meets
      rw [same, among]
      exact List.mem_append_left _ (List.mem_cons_of_mem _ (List.mem_singleton_self _))
  | className value =>
    rw [collectDescendantSelectorIdentifierHashes] at among
    split at among
    · cases among
    · rw [List.mem_singleton] at among
      rw [among]
      exact List.mem_append_right _ (List.mem_map_of_mem meets)
  | tag localName condition =>
    rw [collectDescendantSelectorIdentifierHashes] at among
    split at among
    · cases among
    · next named =>
      rw [List.mem_singleton] at among
      rw [among, meets.1.resolve_left named]
      exact List.mem_append_left _ List.mem_cons_self
  | other condition => cases among

theorem ElementTree.Ancestor.trans {b : Nat} (above : tree.Ancestor a b)
    (below : tree.Ancestor b e) : tree.Ancestor a e := by
  induction below with
  | parent here => exact .further here above
  | further here _ ih => exact .further here ih

/-- Siblings have the same ancestors. -/
theorem ancestor_of_sibling {f : Nat} (same : tree.parentElement f = tree.parentElement e)
    (above : tree.Ancestor a f) : tree.Ancestor a e := by
  cases above with
  | parent here => exact .parent (same ▸ here)
  | further here above => exact .further (same ▸ here) above

theorem ElementTree.Preceding.parent {f : Nat} (before : tree.Preceding f e) :
    tree.parentElement f = tree.parentElement e := by
  induction before with
  | previous here => exact tree.sibling_parent here
  | further here _ ih => exact ih.trans (tree.sibling_parent here)

/-- `x` is one of the element's ancestors, or only its ancestors are. -/
structure Above (tree : ElementTree) (e x : Nat) (skip : Bool) : Prop where
  ancestors : ∀ a, tree.Ancestor a x → tree.Ancestor a e
  itself : skip = false → tree.Ancestor x e

/-- The next simple selector is about `y`. -/
def Related (tree : ElementTree) (relation : Relation) (x y : Nat) : Prop :=
  match relation with
  | .subSelector => y = x
  | .child => tree.parentElement x = some y
  | .descendant => tree.Ancestor y x
  | .directAdjacent => tree.previousSibling x = some y
  | .indirectAdjacent => tree.Preceding y x

theorem matches_more {rest : CSSSelector}
    (meets : (CSSSelector.more simple relation rest).Matches tree x) :
    ∃ y, Related tree relation x y ∧ rest.Matches tree y := by
  cases relation with
  | subSelector => exact ⟨x, rfl, meets.2⟩
  | child => exact meets.2
  | descendant => exact meets.2
  | directAdjacent => exact meets.2
  | indirectAdjacent => exact meets.2

theorem matches_simple (meets : selector.Matches tree x) : selector.simple.Matches tree x := by
  cases selector with
  | last simple relation => exact meets
  | more simple relation rest => cases relation <;> exact meets.1

/-- What one turn of the loop keeps. -/
theorem Above.next {y : Nat} {skip : Bool} (above : Above tree e x skip)
    (related : Related tree relation x y) :
    Above tree e y (collectLoop.skips relation skip) := by
  cases relation with
  | subSelector =>
    have same : y = x := related
    subst same
    exact above
  | child =>
    have parent : tree.Ancestor y e := above.ancestors y (.parent related)
    exact ⟨fun a further => further.trans parent, fun _ => parent⟩
  | descendant =>
    have ancestor : tree.Ancestor y e := above.ancestors y related
    exact ⟨fun a further => further.trans ancestor, fun _ => ancestor⟩
  | directAdjacent =>
    refine ⟨fun a further => above.ancestors a ?_, fun (skips : true = false) => nomatch skips⟩
    exact ancestor_of_sibling (tree.sibling_parent related) further
  | indirectAdjacent =>
    refine ⟨fun a further => above.ancestors a ?_, fun (skips : true = false) => nomatch skips⟩
    exact ancestor_of_sibling (ElementTree.Preceding.parent related) further

/-- A hash that some ancestor of the element has. -/
def OfAncestor (existingHash : String → BitVec 32) (tree : ElementTree) (e : Nat)
    (hash : BitVec 32) : Prop :=
  ∃ a, tree.Ancestor a e ∧ hash ∈ collectElementIdentifierHashes existingHash tree a

theorem collected_ofAncestor {y : Nat} {skip : Bool} {hashes : List (BitVec 32)}
    (above : Above tree e x skip) (related : Related tree relation x y)
    (meets : simple.Matches tree y) (old : ∀ h ∈ hashes, OfAncestor existingHash tree e h) :
    ∀ h ∈ collectLoop.collected existingHash simple relation skip hashes,
      OfAncestor existingHash tree e h := by
  intro h among
  have next := above.next related
  have own : ∀ h ∈ hashes ++ collectDescendantSelectorIdentifierHashes existingHash simple,
      collectLoop.skips relation skip = false → OfAncestor existingHash tree e h := by
    intro h among stays
    rcases List.mem_append.mp among with earlier | new
    · exact old h earlier
    · exact ⟨y, next.itself stays, collected_of_matches meets new⟩
  cases relation with
  | subSelector =>
    rw [collectLoop.collected] at among
    split at among
    · exact old h among
    · next stays => exact own h among (Bool.eq_false_iff.mpr stays)
  | child => exact own h among rfl
  | descendant => exact own h among rfl
  | directAdjacent => exact old h among
  | indirectAdjacent => exact old h among

/-- **The hashes of a selector that the element meets are hashes of its ancestors.** -/
theorem collectLoop_ofAncestor {y maximum : Nat} {skip : Bool} {hashes : List (BitVec 32)}
    (above : Above tree e x skip) (related : Related tree relation x y)
    (meets : selector.Matches tree y) (old : ∀ h ∈ hashes, OfAncestor existingHash tree e h) :
    ∀ h ∈ collectLoop existingHash maximum selector relation skip hashes,
      h ≠ 0 → OfAncestor existingHash tree e h := by
  induction selector generalizing x y relation skip hashes with
  | last simple relation' =>
    have new := collected_ofAncestor above related (matches_simple meets) old
    intro h among nonzero
    rw [collectLoop] at among
    split at among
    · exact new h among
    · rcases List.mem_append.mp among with earlier | zero
      · exact new h earlier
      · exact absurd (List.mem_singleton.mp zero) nonzero
  | more simple relation' rest ih =>
    have new := collected_ofAncestor above related (matches_simple meets) old
    intro h among nonzero
    rw [collectLoop] at among
    split at among
    · exact new h among
    · obtain ⟨z, related', meets'⟩ := matches_more meets
      exact ih (above.next related) related' meets' new h among nonzero

theorem collectIdentifierHashes_ofAncestor {maximum : Nat} (meets : selector.Matches tree e) :
    ∀ h ∈ collectIdentifierHashes existingHash selector maximum,
      h ≠ 0 → OfAncestor existingHash tree e h := by
  cases selector with
  | last simple relation =>
    intro h among nonzero
    exact absurd (List.mem_singleton.mp among) nonzero
  | more simple relation rest =>
    obtain ⟨y, related, meets'⟩ := matches_more meets
    have start : Above tree e e true := ⟨fun _ above => above, fun skips => nomatch skips⟩
    exact collectLoop_ofAncestor start related meets' fun _ none => absurd none List.not_mem_nil

end

/-! ## The filter has the hashes of the stack -/

namespace SelectorFilter

section
variable {existingHash : String → BitVec 32} {tree : ElementTree} {s t : SelectorFilter}
  {elements : List Nat} {element top a e p : Nat}

/-- The frames are those of `elements`, and the filter counts their hashes. -/
structure Filled (existingHash : String → BitVec 32) (tree : ElementTree) (s : SelectorFilter)
    (elements : List Nat) : Prop where
  stack : s.m_parentStack = elements.map fun element =>
    ⟨element, collectElementIdentifierHashes existingHash tree element⟩
  filter : ∃ filter, s.m_ancestorIdentifierFilter = some filter ∧
    filter.Counts (BloomFilter.slots 12
      (elements.flatMap (collectElementIdentifierHashes existingHash tree)))

theorem filled_new : Filled existingHash tree ⟨[], some .new⟩ [] :=
  ⟨rfl, _, rfl, BloomFilter.counts_new⟩

theorem Filled.push (filled : Filled existingHash tree s elements) (element : Nat) :
    ∃ t, s.pushParentStackFrame existingHash tree element = .ok t ∧
      Filled existingHash tree t (element :: elements) := by
  obtain ⟨filter, here, counts⟩ := filled.filter
  rw [pushParentStackFrame, here]
  refine ⟨_, rfl, ?_, _, rfl, ?_⟩
  · rw [List.map_cons, ← filled.stack]
  · rw [List.flatMap_cons, BloomFilter.slots_append]
    exact counts.addAll _

theorem Filled.pop (filled : Filled existingHash tree s (element :: elements))
    (pops : s.popParentStackFrame = .ok t) :
    t.m_parentStack = [] ∨ Filled existingHash tree t elements := by
  obtain ⟨filter, here, counts⟩ := filled.filter
  rw [popParentStackFrame, filled.stack, here, List.map_cons] at pops
  simp only at pops
  cases pops
  cases elements with
  | nil => exact .inl rfl
  | cons next rest =>
    refine .inr ⟨rfl, _, rfl, ?_⟩
    rw [List.flatMap_cons, BloomFilter.slots_append] at counts
    exact counts.removeAll

theorem Filled.pushAll (filled : Filled existingHash tree s elements) (more : List Nat) :
    ∃ t, pushAll existingHash tree more s = .ok t ∧
      Filled existingHash tree t (more ++ elements) := by
  induction more with
  | nil => exact ⟨s, rfl, filled⟩
  | cons element rest ih =>
    obtain ⟨t, pushes, filled'⟩ := ih
    rw [SelectorFilter.pushAll, pushes]
    exact filled'.push element

/-! ### Ancestors -/

theorem climb_none (root : tree.parentElement e = none) : climb tree e = [e] := by
  rw [climb]
  split
  · rfl
  · next p here =>
    rw [root] at here
    cases here

theorem climb_some (here : tree.parentElement e = some p) :
    climb tree e = e :: climb tree p := by
  rw [climb]
  split
  · next root =>
    rw [root] at here
    cases here
  · next q other =>
    obtain rfl := Option.some.inj (here.symm.trans other)
    rfl

theorem mem_climb_self : e ∈ climb tree e := by
  rw [climb]
  split
  · exact List.mem_singleton_self e
  · exact List.mem_cons_self

theorem mem_climb (above : tree.Ancestor a e) : a ∈ climb tree e := by
  induction above with
  | parent here =>
    rw [climb_some here]
    exact List.mem_cons_of_mem _ mem_climb_self
  | further here _ ih =>
    rw [climb_some here]
    exact List.mem_cons_of_mem _ ih

/-- The ancestors of a child of the stack's top are in the stack. -/
theorem mem_climb_top (above : tree.Ancestor a e) (parent : tree.parentElement e = some top) :
    a ∈ climb tree top := by
  cases above with
  | parent here =>
    obtain rfl := Option.some.inj (parent.symm.trans here)
    exact mem_climb_self
  | further here above =>
    obtain rfl := Option.some.inj (parent.symm.trans here)
    exact mem_climb above

theorem Filled.first {frame : ParentStackFrame} {rest : List ParentStackFrame}
    (filled : Filled existingHash tree s (climb tree top))
    (stack : s.m_parentStack = frame :: rest) : frame.element = top := by
  have same := filled.stack
  rw [stack, climb] at same
  split at same
  · exact (List.cons.inj same).1 ▸ rfl
  · exact (List.cons.inj same).1 ▸ rfl

/-! ### Runs -/

/-- The stack is empty, or it holds an element and its ancestors. -/
def Consistent (existingHash : String → BitVec 32) (tree : ElementTree) (s : SelectorFilter) :
    Prop :=
  s.m_parentStack = [] ∨ ∃ top, Filled existingHash tree s (climb tree top)

theorem setup_consistent (parent : Nat)
    (steps : setupParentStack existingHash tree parent = .ok t) :
    Consistent existingHash tree t := by
  rw [setupParentStack] at steps
  split at steps
  · obtain ⟨u, pushes, filled⟩ :=
      (@filled_new existingHash tree).pushAll (climb tree parent)
    cases pushes.symm.trans steps
    rw [List.append_nil] at filled
    exact .inr ⟨parent, filled⟩
  · next detached =>
    have root : tree.parentElement parent = none := by
      cases here : tree.parentElement parent with
      | none => rfl
      | some p => exact absurd (tree.parent_node here) detached
    obtain ⟨u, pushes, filled⟩ :=
      (@filled_new existingHash tree).push parent
    cases pushes.symm.trans steps
    rw [← climb_none root] at filled
    exact .inr ⟨parent, filled⟩

theorem step_consistent {operation : Operation} (consistent : Consistent existingHash tree s)
    (steps : s.step existingHash tree operation = .ok t) : Consistent existingHash tree t := by
  cases operation with
  | setupParentStack parent => exact setup_consistent parent steps
  | pushParent parent =>
    rw [step, pushParent] at steps
    rcases consistent with empty | ⟨top, filled⟩
    · rw [empty] at steps
      cases steps
    · cases stack : s.m_parentStack with
      | nil =>
        rw [stack] at steps
        cases steps
      | cons frame rest =>
        rw [stack] at steps
        simp only at steps
        rw [filled.first stack] at steps
        split at steps
        · next child =>
          obtain ⟨u, pushes, filled'⟩ := filled.push parent
          cases pushes.symm.trans steps
          rw [← climb_some child] at filled'
          exact .inr ⟨parent, filled'⟩
        · cases steps
          exact .inr ⟨top, filled⟩
  | popParent =>
    rcases consistent with empty | ⟨top, filled⟩
    · rw [step, popParentStackFrame, empty] at steps
      cases steps
    · cases here : tree.parentElement top with
      | none =>
        rw [climb_none here] at filled
        rcases filled.pop steps with empty | rest
        · exact .inl empty
        · exact .inl rest.stack
      | some p =>
        rw [climb_some here] at filled
        rcases filled.pop steps with empty | rest
        · exact .inl empty
        · exact .inr ⟨p, rest⟩

theorem run_consistent {operations : List Operation} (consistent : Consistent existingHash tree s)
    (runs : run existingHash tree s operations = .ok t) : Consistent existingHash tree t := by
  induction operations generalizing s with
  | nil =>
    cases runs
    exact consistent
  | cons operation rest ih =>
    rw [run] at runs
    cases steps : s.step existingHash tree operation with
    | error fault =>
      rw [steps] at runs
      cases runs
    | ok u =>
      rw [steps] at runs
      exact ih (step_consistent consistent steps) runs

theorem rejectLoop_true {filter : BloomFilter 12} {n : Nat} {hashes : List (BitVec 32)}
    (rejects : rejectLoop filter n hashes = .ok true) :
    ∃ hash ∈ hashes, hash ≠ 0 ∧ filter.mayContain hash = false := by
  induction n generalizing hashes with
  | zero => cases rejects
  | succ n ih =>
    cases hashes with
    | nil => cases rejects
    | cons hash rest =>
      rw [rejectLoop] at rejects
      split at rejects
      · cases rejects
      · next nonzero =>
        split at rejects
        · next missing =>
          exact ⟨hash, List.mem_cons_self, nonzero, (Bool.not_eq_true' _).mp missing⟩
        · obtain ⟨other, among, found⟩ := ih rejects
          exact ⟨other, List.mem_cons_of_mem _ among, found⟩

/-- **A rule that is rejected does not match.** -/
theorem no_matching_rule_rejected {operations : List Operation}
    (runs : run existingHash tree new operations = .ok s) {frame : ParentStackFrame}
    {rest : List ParentStackFrame} (stack : s.m_parentStack = frame :: rest)
    (child : tree.parentElement e = some frame.element) {selector : CSSSelector} {maximum : Nat}
    (rejects : s.fastRejectSelector maximum
      (collectIdentifierHashes existingHash selector maximum) = .ok true) :
    ¬ selector.Matches tree e := by
  intro meets
  rcases run_consistent (.inl rfl) runs with empty | ⟨top, filled⟩
  · rw [empty] at stack
    cases stack
  · obtain ⟨filter, here, counts⟩ := filled.filter
    rw [fastRejectSelector, here] at rejects
    obtain ⟨hash, among, nonzero, missing⟩ := rejectLoop_true rejects
    obtain ⟨a, above, has⟩ := collectIdentifierHashes_ofAncestor meets hash among nonzero
    have inside := mem_climb_top above (filled.first stack ▸ child)
    rw [counts.mayContain (List.mem_flatMap.mpr ⟨a, inside, has⟩)] at missing
    cases missing

end

/-- A paragraph whose parent has no parent. -/
def paragraph : ElementTree where
  localName e := if e = 0 then "html" else "p"
  idForStyleResolution _ := none
  classNames _ := []
  parentElement e := if e = 1 then some 0 else none
  previousSibling _ := none
  hasParentNode e := e == 1
  parent_lt {e p} here := by
    split at here
    · cases here
      omega
    · cases here
  parent_node {e p} here := by
    split at here
    · next first => exact beq_iff_eq.mpr first
    · cases here
  sibling_parent none := by cases none

def paragraphHash (name : String) : BitVec 32 := if name = "div" then 1 else 2

/-- `div p` does not match it. -/
theorem no_matching_rule_rejected_div :
    ¬ (CSSSelector.more (.tag "p" fun _ => true) .descendant
      (.last (.tag "div" fun _ => true) .descendant)).Matches paragraph 1 :=
  @no_matching_rule_rejected paragraphHash paragraph _ 1 [.setupParentStack 0] rfl _ _ rfl rfl _ 4
    (by decide)

end SelectorFilter

end NetRider.Css
