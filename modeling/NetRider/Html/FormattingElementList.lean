import Mathlib

/-!
# The list of active formatting elements

`append` first makes room for the new item: no more than three entries behind the last marker are
to be equal to it.
-/

namespace NetRider.Html

/-- What `matches` compares of a name. -/
structure QualifiedName where
  localName : String
  namespaceURI : String
deriving DecidableEq

structure Attribute where
  name : QualifiedName
  value : String
deriving DecidableEq

structure HTMLStackItem where
  /-- The identity of the element. -/
  element : Nat
  localName : String
  namespaceURI : String
  attributes : List Attribute
deriving DecidableEq

/-- `findAttributeInVector` -/
def HTMLStackItem.getAttributeItem (item : HTMLStackItem) (name : QualifiedName) :
    Option Attribute := item.attributes.find? (·.name = name)

inductive Entry
  | marker
  | item (stackItem : HTMLStackItem)
deriving DecidableEq

/-- The comparison of an entry with an element. -/
def Entry.isElement (element : Nat) : Entry → Bool
  | .marker => false
  | .item stackItem => stackItem.element = element

abbrev HTMLFormattingElementList := List Entry

namespace HTMLFormattingElementList

def kNoahsArkCapacity : Nat := 3

/-- Removes the last entry of the element. -/
def remove (entries : HTMLFormattingElementList) (element : Nat) : HTMLFormattingElementList :=
  (entries.reverse.eraseP (Entry.isElement element)).reverse

/-- The loop over the entries, the last one first. -/
def quickCandidates (newItem : HTMLStackItem) : List Entry → List HTMLStackItem
  | [] => []
  | .marker :: _ => []
  | .item candidate :: entries =>
    if newItem.localName ≠ candidate.localName ∨ newItem.namespaceURI ≠ candidate.namespaceURI then
      quickCandidates newItem entries
    else if candidate.attributes.length ≠ newItem.attributes.length then
      quickCandidates newItem entries
    else candidate :: quickCandidates newItem entries

def tryToEnsureNoahsArkConditionQuickly (entries : HTMLFormattingElementList)
    (newItem : HTMLStackItem) : List HTMLStackItem :=
  if entries.length < kNoahsArkCapacity then []
  else
    let candidates := quickCandidates newItem entries.reverse
    if candidates.length < kNoahsArkCapacity then [] else candidates

def hasAttribute (attr : Attribute) (candidate : HTMLStackItem) : Bool :=
  match candidate.getAttributeItem attr.name with
  | some candidateAttribute => candidateAttribute.value = attr.value
  | none => false

/-- The loop over the attributes; nothing where it returns. -/
def narrow : List Attribute → List HTMLStackItem → Option (List HTMLStackItem)
  | [], candidates => some candidates
  | attr :: attributes, candidates =>
    let remainingCandidates := candidates.filter (hasAttribute attr)
    if remainingCandidates.length < kNoahsArkCapacity then none
    else narrow attributes remainingCandidates

def ensureNoahsArkCondition (entries : HTMLFormattingElementList) (newItem : HTMLStackItem) :
    HTMLFormattingElementList :=
  let candidates := tryToEnsureNoahsArkConditionQuickly entries newItem
  if candidates.isEmpty then entries
  else
    match narrow newItem.attributes candidates with
    | none => entries
    | some candidates =>
      (candidates.drop (kNoahsArkCapacity - 1)).foldl
        (fun entries candidate => remove entries candidate.element) entries

def append (entries : HTMLFormattingElementList) (item : HTMLStackItem) :
    HTMLFormattingElementList :=
  ensureNoahsArkCondition entries item ++ [.item item]

/-! ## The clause -/

/-- Equal in name, namespace and the set of attributes. -/
def equal (newItem : HTMLStackItem) : Entry → Bool
  | .marker => false
  | .item candidate =>
    candidate.localName = newItem.localName ∧ candidate.namespaceURI = newItem.namespaceURI ∧
      ∀ attr, attr ∈ candidate.attributes ++ newItem.attributes →
        attr ∈ candidate.attributes ∧ attr ∈ newItem.attributes

/-- Keeps, of the entries equal to an item up to the next marker, only the first `room`. -/
def keepFirst (newItem : HTMLStackItem) : Nat → List Entry → List Entry
  | _, [] => []
  | room, entry :: entries =>
    if entry = .marker then entry :: entries
    else if equal newItem entry then
      match room with
      | 0 => keepFirst newItem 0 entries
      | room + 1 => entry :: keepFirst newItem room entries
    else entry :: keepFirst newItem room entries

/-- The list without all but the two latest entries behind the last marker that are equal to the
item. -/
def noahsArk (entries : HTMLFormattingElementList) (newItem : HTMLStackItem) :
    HTMLFormattingElementList := (keepFirst newItem 2 entries.reverse).reverse

/-- The entries behind the last marker. -/
def afterLastMarker (entries : HTMLFormattingElementList) : List Entry :=
  (entries.reverse.takeWhile (· ≠ .marker)).reverse

/-- The elements in the list. -/
def elements (entries : List Entry) : List Nat :=
  entries.filterMap fun
    | .marker => none
    | .item stackItem => some stackItem.element

/-- No name comes twice. -/
def DistinctNames (item : HTMLStackItem) : Prop := (item.attributes.map Attribute.name).Nodup

variable {newItem : HTMLStackItem} {entries : List Entry}

/-! ## Equal attributes -/

theorem find_name {attributes : List Attribute} (distinct : (attributes.map Attribute.name).Nodup)
    {attr : Attribute} (member : attr ∈ attributes) :
    attributes.find? (·.name = attr.name) = some attr := by
  cases found : attributes.find? (·.name = attr.name) with
  | none =>
    have absent := List.find?_eq_none.mp found attr member
    simp at absent
  | some other =>
    have same : other.name = attr.name := by simpa using List.find?_some found
    have both := List.inj_on_of_nodup_map distinct (List.mem_of_find?_eq_some found) member same
    rw [both]

/-- Looking an attribute up finds it only where it is. -/
theorem hasAttribute_iff {attr : Attribute} {candidate : HTMLStackItem}
    (distinct : DistinctNames candidate) :
    hasAttribute attr candidate = true ↔ attr ∈ candidate.attributes := by
  unfold hasAttribute HTMLStackItem.getAttributeItem
  constructor
  · intro has
    cases found : candidate.attributes.find? (·.name = attr.name) with
    | none => simp [found] at has
    | some other =>
      have name : other.name = attr.name := by simpa using List.find?_some found
      have value : other.value = attr.value := by simpa [found] using has
      have same : other = attr := by
        cases other
        cases attr
        simp only [Attribute.mk.injEq]
        exact ⟨name, value⟩
      rw [← same]
      exact List.mem_of_find?_eq_some found
  · intro member
    rw [find_name distinct member]
    simp

/-- With as many attributes, those of the new item are all. -/
theorem attributes_iff {attributes attributes' : List Attribute}
    (distinct : (attributes.map Attribute.name).Nodup)
    (distinct' : (attributes'.map Attribute.name).Nodup) :
    (attributes.length = attributes'.length ∧ ∀ attr ∈ attributes', attr ∈ attributes) ↔
      ∀ attr, attr ∈ attributes ++ attributes' →
        attr ∈ attributes ∧ attr ∈ attributes' := by
  have nodup := List.Nodup.of_map _ distinct
  have nodup' := List.Nodup.of_map _ distinct'
  constructor
  · rintro ⟨count, within⟩ attr member
    have perm : attributes'.Perm attributes :=
      (List.subperm_of_subset nodup' within).perm_of_length_le count.le
    obtain member | member := List.mem_append.mp member
    · exact ⟨member, perm.mem_iff.mpr member⟩
    · exact ⟨perm.mem_iff.mp member, member⟩
  · intro both
    have perm : attributes.Perm attributes' := by
      rw [List.perm_ext_iff_of_nodup nodup nodup']
      intro attr
      constructor
      · intro member
        exact (both attr (List.mem_append_left _ member)).2
      · intro member
        exact (both attr (List.mem_append_right _ member)).1
    exact ⟨perm.length_eq, fun attr member => perm.mem_iff.mpr member⟩

/-! ## The candidates -/

/-- The equal items up to the next marker. -/
def equalItems (newItem : HTMLStackItem) : List Entry → List HTMLStackItem
  | [] => []
  | .marker :: _ => []
  | .item candidate :: entries =>
    if equal newItem (.item candidate) then candidate :: equalItems newItem entries
    else equalItems newItem entries

def hasAll (attributes : List Attribute) (candidate : HTMLStackItem) : Bool :=
  attributes.all (hasAttribute · candidate)

/-- The quick test and all attributes together decide equality. -/
theorem equal_iff {candidate : HTMLStackItem} (distinct : DistinctNames newItem)
    (own : DistinctNames candidate) :
    equal newItem (.item candidate) = true ↔
      ¬ (newItem.localName ≠ candidate.localName ∨ newItem.namespaceURI ≠ candidate.namespaceURI) ∧
        ¬ candidate.attributes.length ≠ newItem.attributes.length ∧
        hasAll newItem.attributes candidate = true := by
  have has : hasAll newItem.attributes candidate = true ↔
      ∀ attr ∈ newItem.attributes, attr ∈ candidate.attributes := by
    rw [hasAll, List.all_eq_true]
    exact forall₂_congr fun attr _ => hasAttribute_iff own
  rw [has, equal, decide_eq_true_eq, ← attributes_iff own distinct]
  constructor
  · rintro ⟨name, space, count, all⟩
    exact ⟨by simp [name, space], by simpa using count, all⟩
  · rintro ⟨names, count, all⟩
    simp only [not_or, not_not] at names count
    exact ⟨names.1.symm, names.2.symm, count, all⟩

/-- The quick candidates with all attributes are the equal items. -/
theorem quickCandidates_filter (distinct : DistinctNames newItem)
    (each : ∀ candidate, .item candidate ∈ entries → DistinctNames candidate) :
    (quickCandidates newItem entries).filter (hasAll newItem.attributes) =
      equalItems newItem entries := by
  induction entries with
  | nil => rfl
  | cons entry entries ih =>
    have rest := ih fun candidate among => each candidate (List.mem_cons_of_mem _ among)
    cases entry with
    | marker => rfl
    | item candidate =>
      have equality := equal_iff distinct (each candidate (List.mem_cons_self ..))
      unfold quickCandidates equalItems
      by_cases other : newItem.localName ≠ candidate.localName ∨
          newItem.namespaceURI ≠ candidate.namespaceURI
      · rw [if_pos other, if_neg fun same => (equality.mp same).1 other, rest]
      · rw [if_neg other]
        by_cases count : candidate.attributes.length ≠ newItem.attributes.length
        · rw [if_pos count, if_neg fun same => (equality.mp same).2.1 count, rest]
        · rw [if_neg count]
          by_cases all : hasAll newItem.attributes candidate = true
          · rw [List.filter_cons_of_pos all, if_pos (equality.mpr ⟨other, count, all⟩), rest]
          · rw [List.filter_cons_of_neg all, if_neg fun same => all (equality.mp same).2.2, rest]

/-- Narrowing returns early where fewer than three candidates would remain. -/
theorem narrow_eq (attributes : List Attribute) : ∀ {candidates : List HTMLStackItem},
    3 ≤ candidates.length → narrow attributes candidates =
      if (candidates.filter (hasAll attributes)).length < 3 then none
      else some (candidates.filter (hasAll attributes)) := by
  induction attributes with
  | nil =>
    intro candidates enough
    have all : candidates.filter (hasAll []) = candidates := by
      rw [List.filter_eq_self]
      intro candidate _
      rfl
    rw [narrow, all, if_neg (by omega)]
  | cons attr attributes ih =>
    intro candidates enough
    have both : candidates.filter (hasAll (attr :: attributes)) =
        (candidates.filter (hasAttribute attr)).filter (hasAll attributes) := by
      rw [List.filter_filter]
      refine List.filter_congr fun candidate _ => ?_
      rw [hasAll, List.all_cons, Bool.and_comm]
      rfl
    rw [narrow, both]
    by_cases few : (candidates.filter (hasAttribute attr)).length < 3
    · have fewer := List.length_filter_le (hasAll attributes) (candidates.filter (hasAttribute attr))
      rw [if_pos (show _ < kNoahsArkCapacity from few), if_pos (by omega)]
    · rw [if_neg (show ¬ _ < kNoahsArkCapacity from few), ih (by omega)]

/-! ## Removal -/

theorem equalItems_length (newItem : HTMLStackItem) (entries : List Entry) :
    (equalItems newItem entries).length ≤ entries.length := by
  induction entries with
  | nil => exact le_rfl
  | cons entry entries ih =>
    cases entry with
    | marker => exact Nat.zero_le _
    | item candidate =>
      unfold equalItems
      split_ifs
      · exact Nat.succ_le_succ ih
      · exact ih.trans (Nat.le_succ _)

theorem equalItems_elements {element : Nat}
    (member : element ∈ (equalItems newItem entries).map HTMLStackItem.element) :
    element ∈ elements entries := by
  induction entries with
  | nil => simp [equalItems] at member
  | cons entry entries ih =>
    cases entry with
    | marker => simp [equalItems] at member
    | item candidate =>
      unfold equalItems at member
      split_ifs at member
      · rw [List.map_cons, List.mem_cons] at member
        obtain rfl | member := member
        · exact List.mem_cons_self ..
        · exact List.mem_cons_of_mem _ (ih member)
      · exact List.mem_cons_of_mem _ (ih member)

/-- The entry is none of the elements. -/
def noneOf (removed : List Nat) : Entry → Bool
  | .marker => true
  | .item stackItem => stackItem.element ∉ removed

theorem noneOf_cons (element : Nat) (removed : List Nat) (entry : Entry) :
    noneOf (element :: removed) entry = (noneOf [element] entry && noneOf removed entry) := by
  cases entry <;> simp [noneOf]

/-- An element that occurs once is removed wherever it is. -/
theorem eraseP_element (nodup : (elements entries).Nodup) (element : Nat) :
    entries.eraseP (Entry.isElement element) = entries.filter (noneOf [element]) := by
  induction entries with
  | nil => rfl
  | cons entry entries ih =>
    cases entry with
    | marker =>
      rw [List.eraseP_cons_of_neg (by simp [Entry.isElement]), List.filter_cons_of_pos rfl, ih nodup]
    | item candidate =>
      obtain ⟨absent, nodup⟩ := List.nodup_cons.mp (show (candidate.element ::
        elements entries).Nodup from nodup)
      by_cases here : candidate.element = element
      · have others : entries.filter (noneOf [element]) = entries := by
          rw [List.filter_eq_self]
          intro other among
          cases other with
          | marker => rfl
          | item stackItem =>
            have there : stackItem.element ∈ elements entries :=
              List.mem_filterMap.mpr ⟨_, among, rfl⟩
            have apart : stackItem.element ≠ element := by
              rintro rfl
              exact absent (here ▸ there)
            simp [noneOf, apart]
        rw [List.eraseP_cons_of_pos (by simp [Entry.isElement, here]),
          List.filter_cons_of_neg (by simp [noneOf, here]), others]
      · rw [List.eraseP_cons_of_neg (by simp [Entry.isElement, here]),
          List.filter_cons_of_pos (by simp [noneOf, here]), ih nodup]

theorem elements_filter_nodup (nodup : (elements entries).Nodup) (keep : Entry → Bool) :
    (elements (entries.filter keep)).Nodup :=
  nodup.sublist (List.filter_sublist.filterMap _)

theorem elements_reverse (entries : List Entry) : elements entries.reverse =
    (elements entries).reverse := List.filterMap_reverse ..

/-- Removing elements one by one. -/
theorem foldl_remove (candidates : List HTMLStackItem) : ∀ {entries : HTMLFormattingElementList},
    (elements entries).Nodup →
      candidates.foldl (fun entries candidate => remove entries candidate.element) entries =
        entries.filter (noneOf (candidates.map HTMLStackItem.element)) := by
  induction candidates with
  | nil =>
    intro entries _
    refine (List.filter_eq_self.mpr fun entry _ => ?_).symm
    cases entry <;> simp [noneOf]
  | cons candidate candidates ih =>
    intro entries nodup
    have reversed : (elements entries.reverse).Nodup := by
      rw [elements_reverse]
      exact List.nodup_reverse.mpr nodup
    have one : remove entries candidate.element = entries.filter (noneOf [candidate.element]) := by
      rw [remove, eraseP_element reversed, ← List.filter_reverse, List.reverse_reverse]
    rw [List.foldl_cons, one, ih (elements_filter_nodup nodup _), List.filter_filter]
    refine List.filter_congr fun entry _ => ?_
    rw [List.map_cons, Bool.and_comm]
    exact (noneOf_cons ..).symm

/-- What is kept are the entries of no equal item behind the first ones. -/
theorem keepFirst_eq : ∀ {room : Nat} {entries : List Entry}, (elements entries).Nodup →
    keepFirst newItem room entries =
      entries.filter (noneOf (((equalItems newItem entries).drop room).map HTMLStackItem.element)) := by
  intro room entries
  induction entries generalizing room with
  | nil =>
    intro _
    cases room <;> rfl
  | cons entry entries ih =>
    intro nodup
    cases entry with
    | marker =>
      have all : (Entry.marker :: entries).filter (noneOf []) = Entry.marker :: entries := by
        refine List.filter_eq_self.mpr fun entry _ => ?_
        cases entry <;> simp [noneOf]
      unfold keepFirst equalItems
      rw [if_pos rfl, List.drop_nil, List.map_nil, all]
    | item candidate =>
      obtain ⟨absent, nodup⟩ := List.nodup_cons.mp (show (candidate.element ::
        elements entries).Nodup from nodup)
      -- the element of the entry is none of the later ones
      have kept (count : Nat) : noneOf
          (((equalItems newItem entries).drop count).map HTMLStackItem.element)
          (.item candidate) = true := by
        have missing : candidate.element ∉
            ((equalItems newItem entries).drop count).map HTMLStackItem.element := fun member =>
          absent (equalItems_elements (List.map_subset _ (List.drop_subset ..) member))
        simpa [noneOf] using missing
      unfold keepFirst equalItems
      rw [if_neg (by simp)]
      by_cases same : equal newItem (.item candidate) = true
      · rw [if_pos same, if_pos same]
        cases room with
        | zero =>
          dsimp only
          have gone : noneOf [candidate.element] (.item candidate) = false := by simp [noneOf]
          rw [List.drop_zero, List.map_cons,
            List.filter_cons_of_neg (by rw [noneOf_cons, gone]; simp), ih nodup, List.drop_zero]
          refine List.filter_congr fun entry among => ?_
          rw [noneOf_cons]
          cases entry with
          | marker => rfl
          | item stackItem =>
            have there : stackItem.element ∈ elements entries :=
              List.mem_filterMap.mpr ⟨_, among, rfl⟩
            have apart : stackItem.element ≠ candidate.element := by
              intro equal
              exact absent (equal ▸ there)
            have stays : noneOf [candidate.element] (.item stackItem) = true := by
              simp [noneOf, apart]
            rw [stays, Bool.true_and]
        | succ room =>
          dsimp only
          rw [List.drop_succ_cons, List.filter_cons_of_pos (kept room), ih nodup]
      · rw [if_neg same, if_neg same, List.filter_cons_of_pos (kept room), ih nodup]

/-! ## What `append` does -/

theorem ensureNoahsArkCondition_eq (nodup : (elements entries).Nodup)
    (distinct : DistinctNames newItem)
    (each : ∀ candidate, .item candidate ∈ entries → DistinctNames candidate) :
    ensureNoahsArkCondition entries newItem = noahsArk entries newItem := by
  have reversed : (elements entries.reverse).Nodup := by
    rw [elements_reverse]
    exact List.nodup_reverse.mpr nodup
  have quick := @quickCandidates_filter newItem entries.reverse distinct fun candidate among =>
    each candidate (List.mem_reverse.mp among)
  have ark : noahsArk entries newItem = entries.filter
      (noneOf (((equalItems newItem entries.reverse).drop 2).map HTMLStackItem.element)) := by
    rw [noahsArk, keepFirst_eq reversed, ← List.filter_reverse, List.reverse_reverse]
  -- with at most two equal entries nothing is removed
  have few (short : (equalItems newItem entries.reverse).length < 3) :
      entries = noahsArk entries newItem := by
    rw [ark, List.drop_eq_nil_of_le (by omega), List.map_nil]
    refine (List.filter_eq_self.mpr fun entry _ => ?_).symm
    cases entry <;> simp [noneOf]
  have fewer := List.length_filter_le (hasAll newItem.attributes)
    (quickCandidates newItem entries.reverse)
  rw [quick] at fewer
  unfold ensureNoahsArkCondition tryToEnsureNoahsArkConditionQuickly
  by_cases small : entries.length < 3
  · have least := equalItems_length newItem entries.reverse
    rw [List.length_reverse] at least
    rw [if_pos (show _ < kNoahsArkCapacity from small)]
    exact few (by omega)
  · rw [if_neg (show ¬ _ < kNoahsArkCapacity from small)]
    dsimp only
    by_cases room : (quickCandidates newItem entries.reverse).length < 3
    · rw [if_pos (show _ < kNoahsArkCapacity from room)]
      exact few (by omega)
    · have nonempty : (quickCandidates newItem entries.reverse).isEmpty = false := by
        rw [List.isEmpty_eq_false_iff, Ne, ← List.length_eq_zero_iff]
        omega
      rw [if_neg (show ¬ _ < kNoahsArkCapacity from room), nonempty,
        narrow_eq newItem.attributes (by omega), quick]
      simp only [Bool.false_eq_true, if_false]
      split_ifs with short
      · exact few short
      · rw [ark]
        exact foldl_remove _ nodup

theorem keepFirst_count (newItem : HTMLStackItem) : ∀ (room : Nat) (entries : List Entry),
    ((keepFirst newItem room entries).takeWhile (· ≠ .marker)).countP (equal newItem) ≤ room := by
  intro room entries
  induction entries generalizing room with
  | nil => simp [keepFirst]
  | cons entry entries ih =>
    unfold keepFirst
    by_cases marker : entry = .marker
    · rw [if_pos marker, List.takeWhile_cons_of_neg (by simpa using marker)]
      exact Nat.zero_le _
    · rw [if_neg marker]
      by_cases same : equal newItem entry = true
      · rw [if_pos same]
        cases room with
        | zero => exact ih 0
        | succ room =>
          dsimp only
          rw [List.takeWhile_cons_of_pos (by simpa using marker), List.countP_cons_of_pos same]
          exact Nat.succ_le_succ (ih room)
      · rw [if_neg same, List.takeWhile_cons_of_pos (by simpa using marker),
          List.countP_cons_of_neg same]
        exact ih room

theorem keepFirst_others (newItem : HTMLStackItem) : ∀ (room : Nat) (entries : List Entry),
    (keepFirst newItem room entries).filter (fun entry => !equal newItem entry) =
      entries.filter fun entry => !equal newItem entry := by
  intro room entries
  induction entries generalizing room with
  | nil => rfl
  | cons entry entries ih =>
    unfold keepFirst
    by_cases marker : entry = .marker
    · rw [if_pos marker]
    · rw [if_neg marker]
      by_cases same : equal newItem entry = true
      · rw [if_pos same, List.filter_cons_of_neg (by simp [same])]
        cases room with
        | zero => exact ih 0
        | succ room =>
          dsimp only
          rw [List.filter_cons_of_neg (by simp [same]), ih]
      · rw [if_neg same, List.filter_cons_of_pos (by simp [same]),
          List.filter_cons_of_pos (by simp [same]), ih]

/-- **The Noah's Ark clause**: `append` leaves out all but the two latest of the equal entries
behind the last marker and adds the item, so that there are at most three, and every other entry
keeps its order. -/
theorem append_noahsArk (entries : HTMLFormattingElementList) (newItem : HTMLStackItem)
    (nodup : (elements entries).Nodup) (distinct : DistinctNames newItem)
    (each : ∀ candidate, .item candidate ∈ entries → DistinctNames candidate) :
    append entries newItem = noahsArk entries newItem ++ [.item newItem] ∧
      (afterLastMarker (append entries newItem)).countP (equal newItem) ≤ 3 ∧
      (noahsArk entries newItem).filter (fun entry => !equal newItem entry) =
        entries.filter fun entry => !equal newItem entry := by
  have whole : append entries newItem = noahsArk entries newItem ++ [.item newItem] := by
    rw [append, ensureNoahsArkCondition_eq nodup distinct each]
  refine ⟨whole, ?_, ?_⟩
  · rw [whole, afterLastMarker, List.reverse_append, List.reverse_singleton, noahsArk,
      List.reverse_reverse, List.singleton_append, List.countP_reverse,
      List.takeWhile_cons_of_pos (by simp)]
    have count := keepFirst_count newItem 2 entries.reverse
    rw [List.countP_cons]
    split <;> omega
  · rw [noahsArk, List.filter_reverse, keepFirst_others, ← List.filter_reverse,
      List.reverse_reverse]

/-- Four equal entries behind a marker, and one before it. -/
def fourBold : HTMLFormattingElementList :=
  [.item ⟨1, "b", "html", []⟩, .marker, .item ⟨2, "b", "html", []⟩, .item ⟨3, "b", "html", []⟩,
    .item ⟨4, "i", "html", []⟩, .item ⟨5, "b", "html", []⟩, .item ⟨6, "b", "html", []⟩]

theorem append_noahsArk_bold : append fourBold ⟨7, "b", "html", []⟩ =
    [.item ⟨1, "b", "html", []⟩, .marker, .item ⟨4, "i", "html", []⟩, .item ⟨5, "b", "html", []⟩,
      .item ⟨6, "b", "html", []⟩, .item ⟨7, "b", "html", []⟩] := by
  have each : ∀ candidate, Entry.item candidate ∈ fourBold → DistinctNames candidate := by
    intro candidate among
    simp only [fourBold, List.mem_cons, Entry.item.injEq, reduceCtorEq, false_or, List.not_mem_nil,
      or_false] at among
    obtain rfl | rfl | rfl | rfl | rfl | rfl := among <;> exact List.nodup_nil
  refine (append_noahsArk fourBold ⟨7, "b", "html", []⟩ (by decide) List.nodup_nil each).1.trans ?_
  decide

end HTMLFormattingElementList

end NetRider.Html
