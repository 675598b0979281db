import NetRider.Loader.CacheBooks

/-!
# The memory cache keeps its books

Each operation on the cache, a resource or its clients keeps the lists and the totals in order.
-/

namespace NetRider.Loader.MemoryCache

variable {w w' : MemoryCache} {r : ResourceId} {resource : CachedResource}

/-- The lists and the totals are in order. -/
structure Accounted (w : MemoryCache) : Prop where
  lru : w.LRULists fun x => (w.resource x).inCache = true
  live : w.LiveList
  totals : w.Totals
  sound : ∀ x, (w.resource x).Sound
  revalidated : ∀ x p, (w.resource x).resourceToRevalidate = some p → (w.resource p).accessCount ≠ 0

/-! ## Changes that are not in the books -/

/-- The resources do not differ in what the books depend on. -/
structure SameAccount (a b : CachedResource) : Prop where
  size : b.size = a.size
  decodedSize : b.decodedSize = a.decodedSize
  accessCount : b.accessCount = a.accessCount
  inCache : b.inCache = a.inCache
  flag : b.inLiveDecodedResourcesList = a.inLiveDecodedResourcesList
  hasClients : b.hasClients = a.hasClients

theorem SameAccount.queueIndex {a b : CachedResource} (same : SameAccount a b) :
    b.queueIndex = a.queueIndex := by
  rw [CachedResource.queueIndex, same.size, same.accessCount, CachedResource.queueIndex]

theorem SameAccount.sound {a b : CachedResource} (same : SameAccount a b) (sound : a.Sound) :
    b.Sound := by
  constructor
  · rw [same.flag, same.inCache, same.hasClients, same.decodedSize]
    exact sound.live
  · rw [same.inCache, same.accessCount]
    exact sound.accessed

theorem SameAccount.parts {a b : CachedResource} (same : SameAccount a b) :
    b.livePart = a.livePart ∧ b.deadPart = a.deadPart := by
  simp only [CachedResource.livePart, CachedResource.deadPart, same.inCache, same.hasClients, same.size,
    and_self]

theorem Accounted.setResource (ok : w.Accounted) (same : SameAccount (w.resource r) resource)
    (revalidated : ∀ p, resource.resourceToRevalidate = some p → (w.resource p).accessCount ≠ 0) :
    (w.setResource r resource).Accounted := by
  have accounts : ∀ x, SameAccount (w.resource x) ((w.setResource r resource).resource x) := by
    intro x
    by_cases own : x = r
    · subst own
      rwa [setResource_self]
    · rw [setResource_other own]
      constructor <;> rfl
  constructor
  · apply (ok.lru.setResource fun _ => same.queueIndex).iff
    intro x
    rw [(accounts x).inCache]
  · exact ok.live.setResource same.flag
  · obtain ⟨cached, members, live, dead⟩ := ok.totals
    refine ⟨cached, ?_, ?_, ?_⟩
    · intro x
      rw [(accounts x).inCache]
      exact members x
    · exact live.trans (Finset.sum_congr rfl fun x _ => (accounts x).parts.1.symm)
    · exact dead.trans (Finset.sum_congr rfl fun x _ => (accounts x).parts.2.symm)
  · intro x
    exact (accounts x).sound (ok.sound x)
  · intro x p
    rw [(accounts p).accessCount]
    by_cases own : x = r
    · subst own
      rw [setResource_self]
      exact revalidated p
    · rw [setResource_other own]
      exact ok.revalidated x p

theorem Accounted.deleteIfPossible (ok : w.Accounted) : (w.deleteIfPossible r).1.Accounted := by
  unfold MemoryCache.deleteIfPossible
  split_ifs
  · exact ok.setResource ⟨rfl, rfl, rfl, rfl, rfl, rfl⟩ (ok.revalidated r)
  · exact ok

theorem Accounted.setEntry (ok : w.Accounted) (entry : Option ResourceId) :
    (w.setEntry r entry).Accounted :=
  ⟨ok.lru, ok.live, ok.totals, ok.sound, ok.revalidated⟩

/-! ## One resource changes -/

/-- All parts of the books, after a change of one resource. -/
theorem Accounted.change (ok : w.Accounted) (r : ResourceId)
    (others : ∀ x, x ≠ r → w'.resource x = w.resource x)
    (lru : w'.LRULists fun x => (w'.resource x).inCache = true) (live : w'.LiveList)
    (liveSize : w'.liveSize = w.liveSize + (w'.resource r).livePart - (w.resource r).livePart)
    (deadSize : w'.deadSize = w.deadSize + (w'.resource r).deadPart - (w.resource r).deadPart)
    (sound : (w'.resource r).Sound)
    (revalidate : (w'.resource r).resourceToRevalidate = (w.resource r).resourceToRevalidate)
    (accessed : (w.resource r).accessCount ≠ 0 → (w'.resource r).accessCount ≠ 0) : w'.Accounted where
  lru := lru
  live := live
  totals := ok.totals.change others liveSize deadSize
  sound := by
    intro x
    by_cases own : x = r
    · exact own ▸ sound
    · rw [others x own]
      exact ok.sound x
  revalidated := by
    intro x p revalidates
    have before : (w.resource x).resourceToRevalidate = some p := by
      by_cases own : x = r
      · subst own
        rwa [revalidate] at revalidates
      · rwa [others x own] at revalidates
    by_cases own : p = r
    · subst own
      exact accessed (ok.revalidated x p before)
    · rw [others p own]
      exact ok.revalidated x p before

theorem inCache_iff {x : ResourceId} {resources : ResourceId → CachedResource} {flag : Bool}
    (here : resource.inCache = flag) :
    (Function.update resources r resource x).inCache = true ↔
      (resources x).inCache = true ∧ x ≠ r ∨ x = r ∧ flag = true := by
  by_cases own : x = r
  · subst own
    simp [here]
  · simp [own]

/-- A resource that leaves the cache goes from its list. -/
theorem LRULists.leave (ok : w.LRULists fun x => (w.resource x).inCache = true)
    (there : (w.resource r).inCache = true) (accessed : (w.resource r).accessCount ≠ 0) :
    ((w.setResource r { w.resource r with inCache := false }).removeFromLRUList r).LRULists
      fun x => (w.resource x).inCache = true ∧ x ≠ r := by
  have marked : (w.setResource r { w.resource r with inCache := false }).LRULists
      fun x => (w.resource x).inCache = true :=
    ok.setResource fun _ => rfl
  apply marked.remove there
  rwa [setResource_self]

/-- A resource that changes in the cache goes from its list to the front of the right one. -/
theorem LRULists.requeue (ok : w.LRULists fun x => (w.resource x).inCache = true)
    (there : (w.resource r).inCache = true) (accessed : (w.resource r).accessCount ≠ 0)
    (stays : resource.inCache = true) :
    (((w.removeFromLRUList r).setResource r resource).insertInLRUList r).LRULists
      fun x => (Function.update w.resource r resource x).inCache = true := by
  have removed := ok.remove there accessed
  have out : ¬ ((w.resource r).inCache = true ∧ r ≠ r) := fun both => both.2 rfl
  apply ((removed.setResource fun member => absurd member out).insert out).iff
  intro x
  rw [inCache_iff stays]
  tauto

theorem SameButLive.refl {flag : Bool} (same : (w.resource r).inLiveDecodedResourcesList = flag) :
    w.SameButLive w r flag := by
  subst same
  constructor
  · exact (Function.update_eq_self ..).symm
  all_goals rfl

theorem adjustSize_zero (w : MemoryCache) (live : Bool) : w.adjustSize live 0 = w := by
  cases live
  · simp [adjustSize]
  · simp [adjustSize]

/-- First the LRU lists are set right for the new resource, then the live decoded list, and last the
totals. -/
theorem Accounted.settle (ok : w.Accounted) {w₁ w₂ : MemoryCache} {flag live : Bool}
    {delta : BitVec 32} (resource₁ : w₁.resource = Function.update w.resource r resource)
    (sizes₁ : w₁.liveSize = w.liveSize ∧ w₁.deadSize = w.deadSize)
    (lru₁ : w₁.LRULists fun x => (Function.update w.resource r resource x).inCache = true)
    (same : w₁.SameButLive w₂ r flag) (live₂ : w₂.LiveList)
    (sound : CachedResource.Sound { resource with inLiveDecodedResourcesList := flag })
    (revalidate : resource.resourceToRevalidate = (w.resource r).resourceToRevalidate)
    (accessed : (w.resource r).accessCount ≠ 0 → resource.accessCount ≠ 0)
    (livePart : (if live then delta else 0) = resource.livePart - (w.resource r).livePart)
    (deadPart : (if live then 0 else delta) = resource.deadPart - (w.resource r).deadPart) :
    (w₂.adjustSize live delta).Accounted := by
  have final : w₂.resource r = { resource with inLiveDecodedResourcesList := flag } := by
    rw [same.resource, Function.update_self, resource₁, Function.update_self]
  have others : ∀ x, x ≠ r → w₂.resource x = w.resource x := by
    intro x different
    rw [same.other different, resource₁, Function.update_of_ne different]
  apply ok.change r
  · intro x different
    rw [adjustSize_resource, others x different]
  · apply ((lru₁.withLive same).adjustSize ..).iff
    intro x
    rw [adjustSize_resource]
    by_cases own : x = r
    · rw [own, final, Function.update_self]
    · rw [others x own, Function.update_of_ne own]
  · exact live₂.adjustSize ..
  · rw [adjustSize_resource, adjustSize_liveSize, final, same.liveSize, sizes₁.1, livePart, add_sub_assoc]
    rfl
  · rw [adjustSize_resource, adjustSize_deadSize, final, same.deadSize, sizes₁.2, deadPart, add_sub_assoc]
    rfl
  · rw [adjustSize_resource, final]
    exact sound
  · rw [adjustSize_resource, final]
    exact revalidate
  · rw [adjustSize_resource, final]
    exact accessed

/-! ## Out of the cache -/

/-- The heart of `evict`. -/
theorem Accounted.leave (ok : w.Accounted) (there : (w.resource r).inCache = true) :
    ((((w.setResource r { w.resource r with inCache := false }).removeFromLRUList
      r).removeFromLiveDecodedResourcesList r).adjustSize (w.resource r).hasClients
        (-(w.resource r).size)).Accounted := by
  have accessed := (ok.sound r).accessed there
  have same₁ := (w.setResource r { w.resource r with inCache := false }).removeFromLRUList_same r
  have marked : (w.setResource r { w.resource r with inCache := false }).LiveList :=
    ok.live.setResource rfl
  have live₁ := marked.withLRU same₁
  apply ok.settle same₁.resource ⟨same₁.liveSize, same₁.deadSize⟩ _ (removeFromLive_same ..) live₁.remove
  · constructor <;> rintro ⟨⟩
  · rfl
  · exact id
  · cases clients : (w.resource r).hasClients <;>
      simp [CachedResource.livePart, there, clients]
  · cases clients : (w.resource r).hasClients <;>
      simp [CachedResource.deadPart, there, clients]
  · apply (ok.lru.leave there accessed).iff
    intro x
    rw [inCache_iff rfl]
    simp

theorem Accounted.evict (ok : w.Accounted) : (w.evict r).Accounted := by
  unfold MemoryCache.evict
  apply Accounted.deleteIfPossible
  split_ifs with there
  · have left := (ok.setEntry (r := r) none).leave there
    dsimp only
    rw [removeFromLive_self, removeFromLRUList_resource, setResource_self]
    exact left
  · exact ok

/-! ## Within the cache -/

/-- A resource in the cache changes in size or count, and may go on or off the live decoded list. -/
theorem Accounted.requeue (ok : w.Accounted) (resource : CachedResource) {w₂ : MemoryCache}
    {flag : Bool} (there : (w.resource r).inCache = true) (stays : resource.inCache = true)
    (clients : resource.hasClients = (w.resource r).hasClients) (accessed : resource.accessCount ≠ 0)
    (revalidate : resource.resourceToRevalidate = (w.resource r).resourceToRevalidate)
    (same : (((w.removeFromLRUList r).setResource r resource).insertInLRUList r).SameButLive w₂ r flag)
    (live₂ : w₂.LiveList)
    (sound : flag = true → resource.hasClients = true ∧ resource.decodedSize ≠ 0) :
    (w₂.adjustSize (w.resource r).hasClients (resource.size - (w.resource r).size)).Accounted := by
  have removed := w.removeFromLRUList_same r
  have resource₁ : (((w.removeFromLRUList r).setResource r resource).insertInLRUList r).resource =
      Function.update w.resource r resource := by
    rw [← removed.resource]
    rfl
  apply ok.settle resource₁ ⟨removed.liveSize, removed.deadSize⟩ _ same live₂
  · exact ⟨fun on => ⟨stays, sound on⟩, fun _ => accessed⟩
  · exact revalidate
  · exact fun _ => accessed
  · cases live : (w.resource r).hasClients <;>
      simp [CachedResource.livePart, there, stays, clients, live]
  · cases live : (w.resource r).hasClients <;>
      simp [CachedResource.deadPart, there, stays, clients, live]
  · exact ok.lru.requeue there ((ok.sound r).accessed there) stays

/-- A resource that is not in the cache may change in any way. -/
theorem Accounted.outside (ok : w.Accounted) (out : (w.resource r).inCache = false)
    (stays : resource.inCache = false)
    (flag : resource.inLiveDecodedResourcesList = (w.resource r).inLiveDecodedResourcesList)
    (accessed : (w.resource r).accessCount ≠ 0 → resource.accessCount ≠ 0)
    (revalidate : resource.resourceToRevalidate = (w.resource r).resourceToRevalidate) :
    (w.setResource r resource).Accounted := by
  have off : (w.resource r).inLiveDecodedResourcesList = false := by
    by_contra on
    have there := ((ok.sound r).live (Bool.not_eq_false _ ▸ on)).1
    rw [out] at there
    cases there
  have absent : ¬ (w.resource r).inCache = true := by
    rw [out]
    exact Bool.false_ne_true
  have marked : (w.setResource r resource).LiveList := ok.live.setResource flag
  have same : (w.setResource r resource).SameButLive (w.setResource r resource) r false := by
    apply SameButLive.refl
    rw [setResource_self, flag, off]
  have changed : (w.setResource r resource).resource = Function.update w.resource r resource := rfl
  rw [← adjustSize_zero (w.setResource r resource) false]
  apply ok.settle changed ⟨rfl, rfl⟩ _ same marked
  · constructor
    · rintro ⟨⟩
    · intro there
      rw [stays] at there
      cases there
  · exact revalidate
  · exact accessed
  · simp [CachedResource.livePart, out, stays]
  · simp [CachedResource.deadPart, out, stays]
  · apply (ok.lru.setResource fun there => absurd there absent).iff
    intro x
    rw [inCache_iff stays]
    constructor
    · rintro (⟨there, -⟩ | ⟨-, there⟩)
      · exact there
      · cases there
    · intro there
      left
      refine ⟨there, ?_⟩
      rintro rfl
      exact absent there

theorem LiveList.requeue (ok : w.LiveList) (resource : CachedResource)
    (flag : resource.inLiveDecodedResourcesList = (w.resource r).inLiveDecodedResourcesList) :
    (((w.removeFromLRUList r).setResource r resource).insertInLRUList r).LiveList := by
  refine LiveList.withLRU (LiveList.setResource ?_ ?_) (insertInLRUList_same ..)
  · exact ok.withLRU (removeFromLRUList_same ..)
  · rw [flag, removeFromLRUList_resource]

/-- The live decoded list is not touched. -/
theorem Accounted.requeue_only (ok : w.Accounted) (resource : CachedResource)
    (there : (w.resource r).inCache = true) (stays : resource.inCache = true) (clients : resource.hasClients = (w.resource r).hasClients)
    (accessed : resource.accessCount ≠ 0)
    (revalidate : resource.resourceToRevalidate = (w.resource r).resourceToRevalidate)
    (flag : resource.inLiveDecodedResourcesList = (w.resource r).inLiveDecodedResourcesList)
    (decoded : (w.resource r).inLiveDecodedResourcesList = true → resource.decodedSize ≠ 0) :
    ((((w.removeFromLRUList r).setResource r resource).insertInLRUList r).adjustSize
      (w.resource r).hasClients (resource.size - (w.resource r).size)).Accounted := by
  apply ok.requeue resource there stays clients accessed revalidate _ (ok.live.requeue resource flag)
  · intro on
    rw [clients]
    exact ⟨((ok.sound r).live on).2.1, decoded on⟩
  · apply SameButLive.refl
    rw [insertInLRUList_resource, setResource_self, flag]

theorem Accounted.setEncodedSize (ok : w.Accounted) (size : BitVec 32) :
    (w.setEncodedSize r size).Accounted := by
  unfold MemoryCache.setEncodedSize
  by_cases equal : size = (w.resource r).encodedSize
  · rw [if_pos equal]
    exact ok
  · rw [if_neg equal]
    dsimp only
    by_cases there : (w.resource r).inCache = true
    · have delta : CachedResource.size { w.resource r with encodedSize := size } - (w.resource r).size =
          size - (w.resource r).encodedSize := by
        simp only [CachedResource.size]
        ring
      have queued := ok.requeue_only { w.resource r with encodedSize := size } there there rfl
        ((ok.sound r).accessed there) rfl rfl fun on => ((ok.sound r).live on).2.2
      rw [delta] at queued
      rw [if_pos there, setResource_self, removeFromLRUList_resource, if_pos there]
      exact queued
    · have out := Bool.eq_false_iff.mpr there
      rw [if_neg there, setResource_self, if_neg there]
      exact ok.outside out out rfl id rfl

theorem Accounted.setDecodedSize (ok : w.Accounted) (size : BitVec 32) :
    (w.setDecodedSize r size).Accounted := by
  unfold MemoryCache.setDecodedSize
  by_cases equal : size = (w.resource r).decodedSize
  · rw [if_pos equal]
    exact ok
  · rw [if_neg equal]
    dsimp only
    by_cases there : (w.resource r).inCache = true
    · have accessed := (ok.sound r).accessed there
      have sound := (ok.sound r).live
      have delta : CachedResource.size { w.resource r with decodedSize := size } - (w.resource r).size =
          size - (w.resource r).decodedSize := by
        simp only [CachedResource.size]
        ring
      have live := LiveList.requeue (r := r) ok.live { w.resource r with decodedSize := size } rfl
      have front := insertInLRUList_resource (r := r)
        (w := (w.removeFromLRUList r).setResource r { w.resource r with decodedSize := size })
      rw [if_pos there, setResource_self, removeFromLRUList_resource, if_pos there]
      simp only [front, setResource_self]
      split_ifs with onto off
      · obtain ⟨filled, out, clients⟩ := onto
        have here := live.insert (r := r) (by
          rw [front, setResource_self]
          exact Bool.not_eq_true' _ ▸ out)
        have queued := ok.requeue { w.resource r with decodedSize := size } there there rfl accessed rfl
          (insertInLive_same ..) here fun _ => ⟨clients, filled⟩
        rw [delta] at queued
        rw [insertInLive_self, front, setResource_self]
        exact queued
      · have queued := ok.requeue { w.resource r with decodedSize := size } there there rfl accessed rfl
          (removeFromLive_same ..) live.remove fun on => absurd on Bool.false_ne_true
        rw [delta] at queued
        rw [removeFromLive_self, front, setResource_self]
        exact queued
      · have queued := ok.requeue_only { w.resource r with decodedSize := size } there there rfl
          accessed rfl rfl fun on zero => off ⟨zero, on⟩
        rw [delta] at queued
        rw [front, setResource_self]
        exact queued
    · have out := Bool.eq_false_iff.mpr there
      rw [if_neg there, setResource_self, if_neg there]
      exact ok.outside out out rfl id rfl

theorem Accounted.resourceAccessed (ok : w.Accounted) (there : (w.resource r).inCache = true)
    (fits : (w.resource r).accessCount + 1 ≠ 0) : (w.resourceAccessed r).Accounted := by
  have accessed := (ok.sound r).accessed there
  have queued := ok.requeue_only
    { w.resource r with accessCount := (w.resource r).accessCount + 1 } there there rfl fits rfl rfl
    fun on => ((ok.sound r).live on).2.2
  have same : CachedResource.size
      { w.resource r with accessCount := (w.resource r).accessCount + 1 } = (w.resource r).size :=
    rfl
  rw [same, sub_self, adjustSize_zero] at queued
  unfold MemoryCache.resourceAccessed
  dsimp only
  rw [removeFromLRUList_resource, if_neg accessed, removeFromLRUList_resource]
  exact queued

/-! ## Into the cache -/

/-- A resource comes into the cache, and may go on the live decoded list. -/
theorem Accounted.enter (ok : w.Accounted) (resource : CachedResource) {w₂ : MemoryCache} {flag : Bool}
    (out : (w.resource r).inCache = false) (inside : resource.inCache = true)
    (accessed : resource.accessCount ≠ 0)
    (revalidate : resource.resourceToRevalidate = (w.resource r).resourceToRevalidate)
    (same : ((w.setResource r resource).insertInLRUList r).SameButLive w₂ r flag)
    (live₂ : w₂.LiveList)
    (sound : flag = true → resource.hasClients = true ∧ resource.decodedSize ≠ 0) :
    (w₂.adjustSize resource.hasClients resource.size).Accounted := by
  have absent : ¬ (w.resource r).inCache = true := by
    rw [out]
    exact Bool.false_ne_true
  have changed : ((w.setResource r resource).insertInLRUList r).resource =
      Function.update w.resource r resource := rfl
  apply ok.settle changed ⟨rfl, rfl⟩ _ same live₂
  · exact ⟨fun on => ⟨inside, sound on⟩, fun _ => accessed⟩
  · exact revalidate
  · exact fun _ => accessed
  · cases live : resource.hasClients <;> simp [CachedResource.livePart, out, inside, live]
  · cases live : resource.hasClients <;> simp [CachedResource.deadPart, out, inside, live]
  · apply ((ok.lru.setResource fun there => absurd there absent).insert absent).iff
    intro x
    rw [inCache_iff inside]
    constructor
    · rintro (⟨there, -⟩ | ⟨own, -⟩)
      · exact .inl there
      · exact .inr own
    · rintro (there | own)
      · refine .inl ⟨there, ?_⟩
        rintro rfl
        exact absent there
      · exact .inr ⟨own, rfl⟩

theorem Accounted.flag_off (ok : w.Accounted) (out : (w.resource r).inCache = false) :
    (w.resource r).inLiveDecodedResourcesList = false := by
  by_contra on
  have there := ((ok.sound r).live (Bool.not_eq_false _ ▸ on)).1
  rw [out] at there
  cases there

theorem adjustSize_setResource (live : Bool) (delta : BitVec 32) :
    (w.adjustSize live delta).setResource r resource =
      (w.setResource r resource).adjustSize live delta := by
  cases live <;> rfl

theorem adjustSize_insertInLRUList (live : Bool) (delta : BitVec 32) :
    (w.adjustSize live delta).insertInLRUList r = (w.insertInLRUList r).adjustSize live delta := by
  cases live <;> rfl

theorem setResource_twice (resource' : CachedResource) :
    (w.setResource r resource).setResource r resource' = w.setResource r resource' := by
  simp [setResource]

/-- The size of a new resource is counted before it is on a list, which makes no difference. -/
theorem add_eq (enabled : w.disabled = false) (new : (w.resource r).accessCount = 0) :
    w.add r = (((w.setEntry r (some r)).setResource r
      { w.resource r with inCache := true, accessCount := 1 }).insertInLRUList r).adjustSize
        (w.resource r).hasClients (w.resource r).size := by
  have entry : (w.setEntry r (some r)).resource r = w.resource r := rfl
  have unlisted : ((w.setEntry r (some r)).setResource r
      { w.resource r with inCache := true }).removeFromLRUList r =
        (w.setEntry r (some r)).setResource r { w.resource r with inCache := true } := by
    rw [removeFromLRUList, setResource_self, if_pos new]
  unfold add MemoryCache.resourceAccessed
  rw [if_neg (Bool.eq_false_iff.mp enabled)]
  dsimp only
  rw [entry, unlisted, setResource_self, if_pos new, adjustSize_setResource, adjustSize_insertInLRUList,
    setResource_twice, adjustSize_resource, setResource_self]
  simp only [new]
  rfl

theorem one_ne_zero_count : (1 : BitVec 32) ≠ 0 := by decide

theorem Accounted.add (ok : w.Accounted) (out : (w.resource r).inCache = false)
    (new : (w.resource r).accessCount = 0) : (w.add r).Accounted := by
  cases enabled : w.disabled with
  | true =>
    rw [MemoryCache.add, enabled]
    exact ok
  | false =>
    have entered := ok.setEntry (r := r) (some r)
    have off := ok.flag_off out
    have marked : ((w.setEntry r (some r)).setResource r
        { w.resource r with inCache := true, accessCount := 1 }).LiveList :=
      entered.live.setResource rfl
    rw [add_eq enabled new]
    apply entered.enter { w.resource r with inCache := true, accessCount := 1 } out rfl
      one_ne_zero_count rfl _ (marked.withLRU (insertInLRUList_same ..)) fun on => absurd on Bool.false_ne_true
    apply SameButLive.refl
    rw [insertInLRUList_resource, setResource_self, off]

/-! ## Pruning -/

theorem Accounted.prune (ok : w.Accounted) (pruned : List PruneOp) : (w.prune pruned).Accounted := by
  induction pruned generalizing w with
  | nil => exact ok
  | cons op pruned ih =>
    apply ih
    cases op with
    | evict r =>
      dsimp only [pruneOne]
      split_ifs
      · exact ok.evict
      · exact ok
    | destroyDecodedData r decodedSize =>
      dsimp only [pruneOne]
      split_ifs
      · exact ok.setDecodedSize decodedSize
      · exact ok

/-! ## Access -/

/-- The resource goes to the front of the live decoded list. -/
theorem Accounted.toFront (ok : w.Accounted) (on : (w.resource r).inLiveDecodedResourcesList = true) :
    ((w.removeFromLiveDecodedResourcesList r).insertInLiveDecodedResourcesList r).Accounted := by
  have removed := w.removeFromLive_same r
  have inserted := (w.removeFromLiveDecodedResourcesList r).insertInLive_same r
  have back : ((w.removeFromLiveDecodedResourcesList r).insertInLiveDecodedResourcesList r).resource =
      w.resource := by
    rw [inserted.resource, removed.resource, Function.update_idem, Function.update_self, ← on,
      Function.update_eq_self]
  have off : ((w.removeFromLiveDecodedResourcesList r).resource r).inLiveDecodedResourcesList = false := by
    rw [removeFromLive_self]
  constructor
  · rw [back]
    exact (ok.lru.withLive removed).withLive inserted
  · exact ok.live.remove.insert off
  · rw [Totals, back, inserted.liveSize, inserted.deadSize, removed.liveSize, removed.deadSize]
    exact ok.totals
  · rw [back]
    exact ok.sound
  · rw [back]
    exact ok.revalidated

theorem Accounted.didAccessDecodedData (ok : w.Accounted) (pruned : List PruneOp) :
    (w.didAccessDecodedData r pruned).Accounted := by
  unfold MemoryCache.didAccessDecodedData
  split_ifs with there on
  · exact (ok.toFront on).prune pruned
  · exact ok.prune pruned
  · exact ok

end NetRider.Loader.MemoryCache
