import NetRider.Loader.CacheAccounting

/-!
# Clients come and go

The first client of a resource in the cache moves its size to the live size, and the last one moves
it back.
-/

namespace NetRider.Loader.MemoryCache

variable {w w' : MemoryCache} {r : ResourceId} {resource : CachedResource}

theorem hasClients_of_mem {client : ClientId}
    (member : client ∈ resource.clients ∨ client ∈ resource.clientsAwaitingCallback) :
    resource.hasClients = true := by
  rw [CachedResource.hasClients, Bool.or_eq_true, Bool.not_eq_true', Bool.not_eq_true',
    List.isEmpty_eq_false_iff_exists_mem, List.isEmpty_eq_false_iff_exists_mem]
  exact member.imp (fun there => ⟨client, there⟩) fun there => ⟨client, there⟩

/-- Only the clients are different. -/
structure OtherClients (a b : CachedResource) : Prop where
  size : b.size = a.size
  decodedSize : b.decodedSize = a.decodedSize
  accessCount : b.accessCount = a.accessCount
  inCache : b.inCache = a.inCache
  flag : b.inLiveDecodedResourcesList = a.inLiveDecodedResourcesList
  revalidate : b.resourceToRevalidate = a.resourceToRevalidate

theorem OtherClients.queueIndex {a b : CachedResource} (other : OtherClients a b) :
    b.queueIndex = a.queueIndex := by
  rw [CachedResource.queueIndex, other.size, other.accessCount, CachedResource.queueIndex]

theorem Accounted.sameClients (ok : w.Accounted) (other : OtherClients (w.resource r) resource)
    (same : resource.hasClients = (w.resource r).hasClients ∨ (w.resource r).inCache = false) :
    (w.setResource r resource).Accounted := by
  rcases same with same | out
  · apply ok.setResource
      ⟨other.size, other.decodedSize, other.accessCount, other.inCache, other.flag, same⟩
    intro p revalidates
    exact ok.revalidated r p (other.revalidate ▸ revalidates)
  · apply ok.outside out (other.inCache.trans out) other.flag _ other.revalidate
    rw [other.accessCount]
    exact id

theorem LRULists.otherClients (ok : w.LRULists fun x => (w.resource x).inCache = true)
    (other : OtherClients (w.resource r) resource) : (w.setResource r resource).LRULists
      fun x => ((w.setResource r resource).resource x).inCache = true := by
  apply (ok.setResource fun _ => other.queueIndex).iff
  intro x
  by_cases own : x = r
  · rw [own, setResource_self, other.inCache]
  · rw [setResource_other own]

theorem Accounted.firstClient (ok : w.Accounted) (none_ : (w.resource r).hasClients = false)
    (there : (w.resource r).inCache = true) (other : OtherClients (w.resource r) resource)
    (clients : resource.hasClients = true) :
    ((w.addToLiveResourcesSize r).setResource r resource).Accounted := by
  have off : (w.resource r).inLiveDecodedResourcesList = false := by
    by_contra on
    have clients := ((ok.sound r).live (Bool.not_eq_false _ ▸ on)).2.1
    rw [none_] at clients
    cases clients
  have final : ((w.addToLiveResourcesSize r).setResource r resource).resource r = resource :=
    setResource_self ..
  apply ok.change r
  · intro x different
    exact setResource_other different
  · exact ok.lru.otherClients other
  · exact LiveList.setResource (w := w.addToLiveResourcesSize r) ok.live other.flag
  · rw [final]
    simp only [CachedResource.livePart, clients, other.inCache, there, none_, other.size, Bool.and_true,
      Bool.and_false, if_true, Bool.false_eq_true, if_false, sub_zero]
    rfl
  · rw [final]
    simp only [CachedResource.deadPart, clients, other.inCache, there, none_, Bool.not_true,
      Bool.not_false, Bool.and_true, Bool.and_false, if_true, Bool.false_eq_true, if_false, add_zero]
    rfl
  · rw [final]
    constructor
    · rw [other.flag, off]
      rintro ⟨⟩
    · rw [other.accessCount]
      exact fun _ => (ok.sound r).accessed there
  · rw [final, other.revalidate]
  · rw [final, other.accessCount]
    exact id

theorem Accounted.addClientToSet (ok : w.Accounted) (client : ClientId) :
    (w.addClientToSet r client).1.Accounted := by
  have waits : CachedResource.hasClients { w.resource r with
      clientsAwaitingCallback := (w.resource r).clientsAwaitingCallback.insert client } = true :=
    hasClients_of_mem (.inr List.mem_insert_self)
  have joins : CachedResource.hasClients { w.resource r with
      clients := client :: (w.resource r).clients } = true :=
    hasClients_of_mem (.inl List.mem_cons_self)
  unfold MemoryCache.addClientToSet
  by_cases first : (!(w.resource r).hasClients && (w.resource r).inCache) = true
  · rw [if_pos first]
    rw [Bool.and_eq_true, Bool.not_eq_true'] at first
    dsimp only
    split_ifs
    · refine ok.firstClient first.1 first.2 ?_ waits
      constructor <;> rfl
    · refine ok.firstClient first.1 first.2 ?_ joins
      constructor <;> rfl
  · rw [if_neg first]
    have before : (w.resource r).hasClients = true ∨ (w.resource r).inCache = false := by
      rw [Bool.and_eq_true, Bool.not_eq_true', not_and_or, Bool.not_eq_false, Bool.not_eq_true] at first
      exact first
    dsimp only
    split_ifs
    · refine ok.sameClients ?_ (before.imp_left fun had => waits.trans had.symm)
      constructor <;> rfl
    · refine ok.sameClients ?_ (before.imp_left fun had => joins.trans had.symm)
      constructor <;> rfl

theorem Accounted.didAddClient (ok : w.Accounted) (client : ClientId) :
    (w.didAddClient r client).Accounted := by
  unfold MemoryCache.didAddClient
  dsimp only
  split_ifs with waiting
  · have joins : CachedResource.hasClients { w.resource r with
        clients := client :: (w.resource r).clients
        clientsAwaitingCallback := (w.resource r).clientsAwaitingCallback.erase client } = true :=
      hasClients_of_mem (.inl List.mem_cons_self)
    refine ok.sameClients ?_ (.inl (joins.trans (hasClients_of_mem (.inr waiting)).symm))
    constructor <;> rfl
  · exact ok

theorem Accounted.addClient (ok : w.Accounted) (client : ClientId) :
    (w.addClient r client).Accounted := by
  unfold MemoryCache.addClient
  dsimp only
  split_ifs
  · exact (ok.addClientToSet client).didAddClient client
  · exact ok.addClientToSet client

theorem Accounted.lastClient (ok : w.Accounted) (had : (w.resource r).hasClients = true)
    (there : (w.resource r).inCache = true) (other : OtherClients (w.resource r) resource)
    (none_ : resource.hasClients = false) :
    (((w.setResource r resource).removeFromLiveResourcesSize r).removeFromLiveDecodedResourcesList
      r).Accounted := by
  generalize counted : (w.setResource r resource).removeFromLiveResourcesSize r = w₁
  have resource₁ : w₁.resource = Function.update w.resource r resource := by
    rw [← counted]
    rfl
  have lru₁ : w₁.LRULists fun x => (Function.update w.resource r resource x).inCache = true := by
    rw [← counted]
    exact ok.lru.otherClients other
  have live₁ : w₁.LiveList := by
    rw [← counted]
    exact LiveList.setResource ok.live other.flag
  have size : ((w.setResource r resource).resource r).size = (w.resource r).size := by
    rw [setResource_self, other.size]
  have liveSize : w₁.liveSize = w.liveSize - (w.resource r).size := by
    rw [← counted, ← size]
    rfl
  have deadSize : w₁.deadSize = w.deadSize + (w.resource r).size := by
    rw [← counted, ← size]
    rfl
  have same := w₁.removeFromLive_same r
  have final : (w₁.removeFromLiveDecodedResourcesList r).resource r =
      { resource with inLiveDecodedResourcesList := false } := by
    rw [removeFromLive_self, resource₁, Function.update_self]
  have others : ∀ x, x ≠ r → (w₁.removeFromLiveDecodedResourcesList r).resource x = w.resource x := by
    intro x different
    rw [same.other different, resource₁, Function.update_of_ne different]
  apply ok.change r others
  · apply (lru₁.withLive same).iff
    intro x
    by_cases own : x = r
    · rw [own, final, Function.update_self]
    · rw [others x own, Function.update_of_ne own]
  · exact live₁.remove
  · have part : (w.resource r).livePart = (w.resource r).size := by
      simp [CachedResource.livePart, there, had]
    have part' : CachedResource.livePart { resource with inLiveDecodedResourcesList := false } = 0 := by
      change (if resource.inCache && resource.hasClients then _ else _) = _
      simp [none_]
    rw [final, same.liveSize, liveSize, part, part', add_zero]
  · have part : (w.resource r).deadPart = 0 := by
      simp [CachedResource.deadPart, had]
    have part' : CachedResource.deadPart { resource with inLiveDecodedResourcesList := false } =
        (w.resource r).size := by
      change (if resource.inCache && !resource.hasClients then resource.size else _) = _
      simp [none_, other.inCache, there, other.size]
    rw [final, same.deadSize, deadSize, part, part', sub_zero]
  · rw [final]
    constructor
    · rintro ⟨⟩
    · intro _
      change resource.accessCount ≠ 0
      rw [other.accessCount]
      exact (ok.sound r).accessed there
  · rw [final]
    exact other.revalidate
  · rw [final]
    change _ → resource.accessCount ≠ 0
    rw [other.accessCount]
    exact id

theorem dropClient_eq (w : MemoryCache) (r : ResourceId) (client : ClientId) :
    ∃ resource, w.dropClient r client = w.setResource r resource ∧
      OtherClients (w.resource r) resource := by
  refine ⟨_, rfl, ?_⟩
  split_ifs <;> constructor <;> rfl

theorem deleteIfPossible_cases (w : MemoryCache) (r : ResourceId) :
    w.deleteIfPossible r = (w, false) ∨ (w.resource r).inCache = false ∧
      (w.resource r).hasClients = false ∧ w.deleteIfPossible r =
        (w.setResource r { w.resource r with deleted := true }, true) := by
  unfold deleteIfPossible
  split_ifs with possible
  · right
    rw [Bool.and_eq_true, Bool.not_eq_true', CachedResource.canDelete, Bool.and_eq_true,
      Bool.and_eq_true, Bool.and_eq_true, Bool.not_eq_true'] at possible
    exact ⟨possible.2, possible.1.1.1.1, rfl⟩
  · exact .inl rfl

theorem Accounted.removeClient (ok : w.Accounted) (client : ClientId) (pruned : List PruneOp)
    (had : (w.resource r).hasClients = true ∨ (w.resource r).inCache = false) :
    (w.removeClient r client pruned).Accounted := by
  obtain ⟨resource, dropped, other⟩ := w.dropClient_eq r client
  unfold MemoryCache.removeClient
  rw [dropped]
  have finish : ∀ w' : MemoryCache, w'.Accounted → (if (w'.resource r).noStore = true then
      if (w'.resource r).info.isHttps = true then w'.evict r else w' else w'.prune pruned).Accounted := by
    intro w' ok'
    split_ifs
    · exact ok'.evict
    · exact ok'
    · exact ok'.prune pruned
  rcases (w.setResource r resource).deleteIfPossible_cases r with kept | ⟨out, none_, deleted⟩
  · rw [kept]
    dsimp only
    rw [setResource_self, Bool.not_false, Bool.true_and]
    by_cases none_ : resource.hasClients = false
    · rw [none_, Bool.not_false, if_pos rfl]
      by_cases there : resource.inCache = true
      · have before := other.inCache.symm.trans there
        have clients := had.resolve_right (Bool.not_eq_false _ ▸ before)
        rw [if_pos there]
        exact finish _ (ok.lastClient clients before other none_)
      · have before := other.inCache.symm.trans (Bool.eq_false_iff.mpr there)
        rw [if_neg there]
        exact finish _ (ok.sameClients other (.inr before))
    · rw [Bool.not_eq_false] at none_
      rw [none_, Bool.not_true, if_neg Bool.false_ne_true]
      exact ok.sameClients other (had.imp_left fun had => none_.trans had.symm)
  · rw [setResource_self] at out
    have gone := (ok.sameClients other (.inr (other.inCache.symm.trans out))).deleteIfPossible (r := r)
    rw [deleted] at gone ⊢
    exact gone

end NetRider.Loader.MemoryCache
