import NetRider.Loader.MemoryCache

/-!
# The books of the memory cache

What the lists and the totals say about the resources, and what each operation on the lists does to
it.
-/

namespace NetRider.Loader

namespace CachedResource

/-- What a resource adds to the live size. -/
def livePart (resource : CachedResource) : BitVec 32 :=
  if resource.inCache && resource.hasClients then resource.size else 0

/-- What a resource adds to the dead size. -/
def deadPart (resource : CachedResource) : BitVec 32 :=
  if resource.inCache && !resource.hasClients then resource.size else 0

/-- What a resource on a list is like. -/
structure Sound (resource : CachedResource) : Prop where
  live : resource.inLiveDecodedResourcesList = true →
    resource.inCache = true ∧ resource.hasClients = true ∧ resource.decodedSize ≠ 0
  accessed : resource.inCache = true → resource.accessCount ≠ 0

end CachedResource

namespace MemoryCache

variable {w w' : MemoryCache} {r : ResourceId} {resource : CachedResource}

/-! ## What stays the same -/

@[simp] theorem setResource_self (w : MemoryCache) (r : ResourceId) (resource : CachedResource) :
    (w.setResource r resource).resource r = resource :=
  Function.update_self ..

theorem setResource_other {x : ResourceId} (different : x ≠ r) :
    (w.setResource r resource).resource x = w.resource x :=
  Function.update_of_ne different ..

/-- Only the LRU lists may differ. -/
structure SameButLRU (w w' : MemoryCache) : Prop where
  resource : w'.resource = w.resource
  live : w'.liveDecodedResources = w.liveDecodedResources
  liveLinks : w'.liveLinks = w.liveLinks
  liveSize : w'.liveSize = w.liveSize
  deadSize : w'.deadSize = w.deadSize

theorem removeFromLRUList_same (w : MemoryCache) (r : ResourceId) :
    w.SameButLRU (w.removeFromLRUList r) := by
  unfold removeFromLRUList
  split_ifs <;> constructor <;> rfl

theorem insertInLRUList_same (w : MemoryCache) (r : ResourceId) :
    w.SameButLRU (w.insertInLRUList r) := by
  constructor <;> rfl

@[simp] theorem removeFromLRUList_resource : (w.removeFromLRUList r).resource = w.resource :=
  (w.removeFromLRUList_same r).resource

@[simp] theorem insertInLRUList_resource : (w.insertInLRUList r).resource = w.resource := rfl

/-- Only the live decoded list and the flag of one resource may differ. -/
structure SameButLive (w w' : MemoryCache) (r : ResourceId) (flag : Bool) : Prop where
  resource : w'.resource =
    Function.update w.resource r { w.resource r with inLiveDecodedResourcesList := flag }
  all : w'.allResources = w.allResources
  allLinks : w'.allLinks = w.allLinks
  liveSize : w'.liveSize = w.liveSize
  deadSize : w'.deadSize = w.deadSize

theorem removeFromLive_same (w : MemoryCache) (r : ResourceId) :
    w.SameButLive (w.removeFromLiveDecodedResourcesList r) r false := by
  unfold removeFromLiveDecodedResourcesList
  split_ifs with out
  · have same : { w.resource r with inLiveDecodedResourcesList := false } = w.resource r := by
      rw [Bool.not_eq_true'] at out
      rw [← out]
    constructor
    · rw [same, Function.update_eq_self]
    all_goals rfl
  · constructor <;> rfl

theorem insertInLive_same (w : MemoryCache) (r : ResourceId) :
    w.SameButLive (w.insertInLiveDecodedResourcesList r) r true := by
  constructor <;> rfl

@[simp] theorem removeFromLive_self (w : MemoryCache) (r : ResourceId) :
    (w.removeFromLiveDecodedResourcesList r).resource r =
      { w.resource r with inLiveDecodedResourcesList := false } := by
  rw [(w.removeFromLive_same r).resource, Function.update_self]

@[simp] theorem insertInLive_self (w : MemoryCache) (r : ResourceId) :
    (w.insertInLiveDecodedResourcesList r).resource r =
      { w.resource r with inLiveDecodedResourcesList := true } := by
  rw [(w.insertInLive_same r).resource, Function.update_self]

theorem SameButLive.other {flag : Bool} {x : ResourceId} (same : w.SameButLive w' r flag)
    (different : x ≠ r) : w'.resource x = w.resource x := by
  rw [same.resource, Function.update_of_ne different]

/-- Only the totals may differ. -/
structure SameButTotals (w w' : MemoryCache) : Prop where
  resource : w'.resource = w.resource
  all : w'.allResources = w.allResources
  allLinks : w'.allLinks = w.allLinks
  live : w'.liveDecodedResources = w.liveDecodedResources
  liveLinks : w'.liveLinks = w.liveLinks

theorem adjustSize_same (w : MemoryCache) (live : Bool) (delta : BitVec 32) :
    w.SameButTotals (w.adjustSize live delta) := by
  cases live <;> constructor <;> rfl

@[simp] theorem adjustSize_resource (live : Bool) (delta : BitVec 32) :
    (w.adjustSize live delta).resource = w.resource :=
  (w.adjustSize_same live delta).resource

@[simp] theorem adjustSize_liveSize (w : MemoryCache) (live : Bool) (delta : BitVec 32) :
    (w.adjustSize live delta).liveSize = w.liveSize + if live then delta else 0 := by
  cases live
  · exact (add_zero _).symm
  · rfl

@[simp] theorem adjustSize_deadSize (w : MemoryCache) (live : Bool) (delta : BitVec 32) :
    (w.adjustSize live delta).deadSize = w.deadSize + if live then 0 else delta := by
  cases live
  · rfl
  · exact (add_zero _).symm

/-! ## The LRU lists -/

/-- The resources are on the LRU lists where their index says. -/
def LRULists (w : MemoryCache) (members : ResourceId → Prop) : Prop :=
  ∃ lists : Nat → List ResourceId, Lib.Table w.allLinks w.allResources lists ∧
    ∀ x i, x ∈ lists i ↔ members x ∧ i = (w.resource x).queueIndex

theorem LRULists.congr {members : ResourceId → Prop} (ok : w.LRULists members)
    (all : w'.allResources = w.allResources) (links : w'.allLinks = w.allLinks)
    (index : ∀ x, members x → (w'.resource x).queueIndex = (w.resource x).queueIndex) :
    w'.LRULists members := by
  obtain ⟨lists, table, on⟩ := ok
  refine ⟨lists, by rw [all, links]; exact table, ?_⟩
  intro x i
  rw [on]
  apply and_congr_right
  intro member
  rw [index x member]

theorem LRULists.iff {members members' : ResourceId → Prop} (ok : w.LRULists members)
    (same : ∀ x, members' x ↔ members x) : w.LRULists members' := by
  rwa [show members' = members from funext fun x => propext (same x)]

theorem LRULists.setResource {members : ResourceId → Prop} (ok : w.LRULists members)
    (same : members r → resource.queueIndex = (w.resource r).queueIndex) :
    (w.setResource r resource).LRULists members := by
  refine LRULists.congr ok rfl rfl ?_
  intro x member
  by_cases own : x = r
  · subst own
    rw [setResource_self, same member]
  · rw [setResource_other own]

theorem LRULists.withLive {members : ResourceId → Prop} {flag : Bool} (ok : w.LRULists members)
    (same : w.SameButLive w' r flag) : w'.LRULists members := by
  apply ok.congr same.all same.allLinks
  intro x _
  rw [same.resource]
  by_cases own : x = r
  · subst own
    rw [Function.update_self]
    rfl
  · rw [Function.update_of_ne own]

theorem LRULists.adjustSize {members : ResourceId → Prop} (ok : w.LRULists members) (live : Bool)
    (delta : BitVec 32) : (w.adjustSize live delta).LRULists members := by
  have same := w.adjustSize_same live delta
  apply ok.congr same.all same.allLinks
  intro x _
  rw [same.resource]

theorem LRULists.remove {members : ResourceId → Prop} (ok : w.LRULists members) (member : members r)
    (accessed : (w.resource r).accessCount ≠ 0) :
    (w.removeFromLRUList r).LRULists fun x => members x ∧ x ≠ r := by
  obtain ⟨lists, table, on⟩ := ok
  have there : r ∈ lists (w.resource r).queueIndex := (on r _).mpr ⟨member, rfl⟩
  have unlinked : Lib.Table (w.removeFromLRUList r).allLinks (w.removeFromLRUList r).allResources
      (Function.update lists (w.resource r).queueIndex
        ((lists (w.resource r).queueIndex).erase r)) := by
    rw [removeFromLRUList, if_neg accessed]
    exact table.unlink there
  refine ⟨_, unlinked, ?_⟩
  intro x i
  rw [removeFromLRUList_resource]
  by_cases own : i = (w.resource r).queueIndex
  · rw [own, Function.update_self, (table.each _).nodup.mem_erase_iff, on]
    tauto
  · rw [Function.update_of_ne own, on]
    constructor
    · rintro ⟨in_, rfl⟩
      refine ⟨⟨in_, ?_⟩, rfl⟩
      rintro rfl
      exact own rfl
    · rintro ⟨⟨in_, -⟩, at_⟩
      exact ⟨in_, at_⟩

theorem LRULists.insert {members : ResourceId → Prop} (ok : w.LRULists members)
    (new : ¬ members r) : (w.insertInLRUList r).LRULists fun x => members x ∨ x = r := by
  obtain ⟨lists, table, on⟩ := ok
  have nowhere : ∀ i, r ∉ lists i := fun i there => new ((on r i).mp there).1
  refine ⟨_, table.pushFront nowhere, ?_⟩
  intro x i
  rw [insertInLRUList_resource]
  by_cases own : i = (w.resource r).queueIndex
  · rw [own, Function.update_self, List.mem_cons, on]
    constructor
    · rintro (rfl | ⟨in_, at_⟩)
      · exact ⟨.inr rfl, rfl⟩
      · exact ⟨.inl in_, at_⟩
    · rintro ⟨in_ | rfl, at_⟩
      · exact .inr ⟨in_, at_⟩
      · exact .inl rfl
  · rw [Function.update_of_ne own, on]
    constructor
    · rintro ⟨in_, at_⟩
      exact ⟨.inl in_, at_⟩
    · rintro ⟨in_ | rfl, at_⟩
      · exact ⟨in_, at_⟩
      · exact absurd at_ own

/-! ## The live decoded list -/

/-- The flags say which resources are on the list. -/
def LiveList (w : MemoryCache) : Prop :=
  ∃ live : List ResourceId,
    Lib.Table w.liveLinks (fun _ : Unit => w.liveDecodedResources) (fun _ => live) ∧
      ∀ x, x ∈ live ↔ (w.resource x).inLiveDecodedResourcesList = true

theorem LiveList.congr (ok : w.LiveList) (list : w'.liveDecodedResources = w.liveDecodedResources)
    (links : w'.liveLinks = w.liveLinks)
    (flags : ∀ x, (w'.resource x).inLiveDecodedResourcesList =
      (w.resource x).inLiveDecodedResourcesList) : w'.LiveList := by
  obtain ⟨live, table, on⟩ := ok
  refine ⟨live, by rw [list, links]; exact table, ?_⟩
  intro x
  rw [on, flags]

theorem LiveList.setResource (ok : w.LiveList) (same : resource.inLiveDecodedResourcesList =
    (w.resource r).inLiveDecodedResourcesList) : (w.setResource r resource).LiveList := by
  refine LiveList.congr ok rfl rfl ?_
  intro x
  by_cases own : x = r
  · subst own
    rw [setResource_self, same]
  · rw [setResource_other own]

theorem LiveList.withLRU (ok : w.LiveList) (same : w.SameButLRU w') : w'.LiveList :=
  ok.congr same.live same.liveLinks fun x => by rw [same.resource]

theorem LiveList.adjustSize (ok : w.LiveList) (live : Bool) (delta : BitVec 32) :
    (w.adjustSize live delta).LiveList := by
  have same := w.adjustSize_same live delta
  exact ok.congr same.live same.liveLinks fun x => by rw [same.resource]

theorem update_unit {α : Type*} (f : Unit → α) (a : α) : Function.update f () a = fun _ => a :=
  funext fun _ => Function.update_self ..

theorem LiveList.remove (ok : w.LiveList) : (w.removeFromLiveDecodedResourcesList r).LiveList := by
  obtain ⟨live, table, on⟩ := ok
  cases flag : (w.resource r).inLiveDecodedResourcesList with
  | false =>
    have same : w.removeFromLiveDecodedResourcesList r = w := by
      rw [removeFromLiveDecodedResourcesList, flag]
      rfl
    rw [same]
    exact ⟨live, table, on⟩
  | true =>
    have there : r ∈ live := (on r).mpr flag
    have unlinked := table.unlink (i := ()) there
    rw [update_unit, update_unit] at unlinked
    refine ⟨live.erase r, ?_, ?_⟩
    · rw [removeFromLiveDecodedResourcesList, flag]
      exact unlinked
    · intro x
      rw [(w.removeFromLive_same r).resource, (table.each ()).nodup.mem_erase_iff, on]
      by_cases same : x = r
      · subst same
        simp
      · rw [Function.update_of_ne same]
        exact and_iff_right same

theorem LiveList.insert (ok : w.LiveList)
    (out : (w.resource r).inLiveDecodedResourcesList = false) :
    (w.insertInLiveDecodedResourcesList r).LiveList := by
  obtain ⟨live, table, on⟩ := ok
  have new : r ∉ live := by
    rw [on, out]
    exact Bool.false_ne_true
  have pushed := table.pushFront (i := ()) fun _ => new
  rw [update_unit, update_unit] at pushed
  refine ⟨r :: live, pushed, ?_⟩
  intro x
  rw [(w.insertInLive_same r).resource, List.mem_cons, on]
  by_cases same : x = r
  · subst same
    simp
  · rw [Function.update_of_ne same]
    exact or_iff_right same

/-! ## The totals -/

/-- The totals are the sums over the resources in the cache. -/
def Totals (w : MemoryCache) : Prop :=
  ∃ cached : Finset ResourceId, (∀ x, (w.resource x).inCache = true → x ∈ cached) ∧
    w.liveSize = ∑ x ∈ cached, (w.resource x).livePart ∧
    w.deadSize = ∑ x ∈ cached, (w.resource x).deadPart

theorem sum_change {part : CachedResource → BitVec 32} {cached : Finset ResourceId} {size : BitVec 32}
    (outside : ∀ x ∉ cached, part (w.resource x) = 0)
    (total : size = ∑ x ∈ cached, part (w.resource x))
    (others : ∀ x, x ≠ r → part (w'.resource x) = part (w.resource x)) :
    size + part (w'.resource r) - part (w.resource r) =
      ∑ x ∈ insert r cached, part (w'.resource x) := by
  have before : size = ∑ x ∈ insert r cached, part (w.resource x) := by
    by_cases member : r ∈ cached
    · rw [Finset.insert_eq_of_mem member, total]
    · rw [Finset.sum_insert member, outside r member, zero_add, total]
  have here : r ∈ insert r cached := Finset.mem_insert_self ..
  rw [before, ← Finset.add_sum_erase _ _ here, ← Finset.add_sum_erase _ _ here,
    Finset.sum_congr rfl fun x member => others x (Finset.ne_of_mem_erase member)]
  ring

/-- One resource changes, and its part of the totals with it. -/
theorem Totals.change (ok : w.Totals)
    (others : ∀ x, x ≠ r → w'.resource x = w.resource x)
    (live : w'.liveSize = w.liveSize + (w'.resource r).livePart - (w.resource r).livePart)
    (dead : w'.deadSize = w.deadSize + (w'.resource r).deadPart - (w.resource r).deadPart) :
    w'.Totals := by
  obtain ⟨cached, members, liveTotal, deadTotal⟩ := ok
  have out : ∀ x ∉ cached, (w.resource x).inCache = false :=
    fun x absent => Bool.eq_false_iff.mpr fun there => absent (members x there)
  refine ⟨insert r cached, ?_, ?_, ?_⟩
  · intro x there
    by_cases same : x = r
    · exact same ▸ Finset.mem_insert_self ..
    · rw [others x same] at there
      exact Finset.mem_insert_of_mem (members x there)
  · rw [live]
    refine sum_change ?_ liveTotal fun x different => by rw [others x different]
    intro x absent
    rw [CachedResource.livePart, out x absent]
    rfl
  · rw [dead]
    refine sum_change ?_ deadTotal fun x different => by rw [others x different]
    intro x absent
    rw [CachedResource.deadPart, out x absent]
    rfl

end MemoryCache

end NetRider.Loader
