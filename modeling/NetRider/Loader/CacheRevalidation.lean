import NetRider.Loader.CacheClients

/-!
# Revalidation

While the clients move from the resource that revalidates, it is out of the cache, and what is pruned
in between does not matter.
-/

namespace NetRider.Loader.MemoryCache

variable {w w' : MemoryCache} {r : ResourceId} {resource : CachedResource}

/-! ## A resource that is out stays out -/

/-- No resource comes into the cache. -/
structure NoneEnters (w w' : MemoryCache) : Prop where
  stays : ∀ x, (w.resource x).inCache = false → (w'.resource x).inCache = false

theorem NoneEnters.trans {w₁ w₂ w₃ : MemoryCache} (first : w₁.NoneEnters w₂)
    (second : w₂.NoneEnters w₃) : w₁.NoneEnters w₃ :=
  ⟨fun x out => second.stays x (first.stays x out)⟩

theorem NoneEnters.of_eq (same : w'.resource = w.resource) : w.NoneEnters w' := by
  constructor
  intro x out
  rw [same]
  exact out

theorem NoneEnters.of_update (same : w'.resource = Function.update w.resource r resource)
    (stays : (w.resource r).inCache = false → resource.inCache = false) : w.NoneEnters w' := by
  constructor
  intro x out
  rw [same]
  by_cases own : x = r
  · subst own
    rw [Function.update_self]
    exact stays out
  · rwa [Function.update_of_ne own]

theorem noneEnters_deleteIfPossible (w : MemoryCache) (r : ResourceId) :
    w.NoneEnters (w.deleteIfPossible r).1 := by
  unfold deleteIfPossible
  split_ifs
  · exact .of_update rfl id
  · exact .of_eq rfl

theorem noneEnters_removeFromLive (w : MemoryCache) (r : ResourceId) :
    w.NoneEnters (w.removeFromLiveDecodedResourcesList r) :=
  .of_update (w.removeFromLive_same r).resource id

theorem noneEnters_evict (w : MemoryCache) (r : ResourceId) : w.NoneEnters (w.evict r) := by
  unfold MemoryCache.evict
  refine NoneEnters.trans ?_ (noneEnters_deleteIfPossible ..)
  split_ifs
  · dsimp only
    refine NoneEnters.trans ?_ (.of_eq (adjustSize_resource ..))
    refine NoneEnters.trans ?_ (noneEnters_removeFromLive ..)
    refine NoneEnters.trans ?_ (.of_eq removeFromLRUList_resource)
    exact .of_update (w := w) rfl fun _ => rfl
  · exact .of_eq rfl

theorem noneEnters_setDecodedSize (w : MemoryCache) (r : ResourceId) (size : BitVec 32) :
    w.NoneEnters (w.setDecodedSize r size) := by
  unfold MemoryCache.setDecodedSize
  by_cases equal : size = (w.resource r).decodedSize
  · rw [if_pos equal]
    exact .of_eq rfl
  · rw [if_neg equal]
    dsimp only
    by_cases there : (w.resource r).inCache = true
    · rw [if_pos there, setResource_self, removeFromLRUList_resource, if_pos there]
      refine NoneEnters.trans ?_ (.of_eq (adjustSize_resource ..))
      have queued : w.NoneEnters (((w.removeFromLRUList r).setResource r
          { w.resource r with decodedSize := size }).insertInLRUList r) := by
        refine .of_update (r := r) (?_ : _ = Function.update _ _ { w.resource r with decodedSize := size }) id
        rw [← removeFromLRUList_resource (w := w) (r := r)]
        rfl
      split_ifs
      · exact queued.trans (.of_update (insertInLive_same ..).resource id)
      · exact queued.trans (noneEnters_removeFromLive ..)
      · exact queued
    · rw [if_neg there, setResource_self, if_neg there]
      exact .of_update rfl id

theorem noneEnters_prune (w : MemoryCache) (pruned : List PruneOp) : w.NoneEnters (w.prune pruned) := by
  induction pruned generalizing w with
  | nil => exact .of_eq rfl
  | cons op pruned ih =>
    refine NoneEnters.trans ?_ (ih (w.pruneOne op))
    cases op with
    | evict r =>
      dsimp only [pruneOne]
      split_ifs
      · exact noneEnters_evict w r
      · exact .of_eq rfl
    | destroyDecodedData r decodedSize =>
      dsimp only [pruneOne]
      split_ifs
      · exact noneEnters_setDecodedSize w r decodedSize
      · exact .of_eq rfl

theorem noneEnters_removeClient (w : MemoryCache) (r : ResourceId) (client : ClientId)
    (pruned : List PruneOp) : w.NoneEnters (w.removeClient r client pruned) := by
  obtain ⟨resource, dropped, other⟩ := w.dropClient_eq r client
  have first : w.NoneEnters (w.dropClient r client) := by
    rw [dropped]
    exact .of_update rfl fun out => other.inCache.trans out
  unfold MemoryCache.removeClient
  refine NoneEnters.trans (first.trans (noneEnters_deleteIfPossible _ r)) ?_
  generalize (w.dropClient r client).deleteIfPossible r = out
  obtain ⟨w', deleted⟩ := out
  have finish : ∀ w₁ : MemoryCache, w₁.NoneEnters (if (w₁.resource r).noStore = true then
      if (w₁.resource r).info.isHttps = true then w₁.evict r else w₁ else w₁.prune pruned) := by
    intro w₁
    split_ifs
    · exact noneEnters_evict w₁ r
    · exact .of_eq rfl
    · exact noneEnters_prune w₁ pruned
  dsimp only
  by_cases last : (!deleted && !(w'.resource r).hasClients) = true
  · rw [if_pos last]
    refine NoneEnters.trans ?_ (finish _)
    split_ifs
    · refine NoneEnters.trans ?_ (noneEnters_removeFromLive ..)
      exact .of_eq rfl
    · exact .of_eq rfl
  · rw [if_neg last]
    exact .of_eq rfl

/-! ## Revalidation -/

theorem evict_self_out (w : MemoryCache) (r : ResourceId) :
    ((w.evict r).resource r).inCache = false := by
  unfold MemoryCache.evict
  apply (noneEnters_deleteIfPossible ..).stays
  split_ifs with there
  · dsimp only
    rw [adjustSize_resource, removeFromLive_self, removeFromLRUList_resource, setResource_self]
  · exact Bool.eq_false_iff.mpr there

theorem evict_other {p : ResourceId} (different : p ≠ r) : (w.evict r).resource p = w.resource p := by
  have deleted : ∀ w' : MemoryCache, (w'.deleteIfPossible r).1.resource p = w'.resource p := by
    intro w'
    unfold deleteIfPossible
    split_ifs
    · exact setResource_other different
    · rfl
  unfold MemoryCache.evict
  dsimp only
  rw [deleted]
  split_ifs
  · rw [adjustSize_resource, (removeFromLive_same ..).other different, removeFromLRUList_resource,
      setResource_other different]
    rfl
  · rfl

theorem Accounted.removeClients (ok : w.Accounted) (out : (w.resource r).inCache = false)
    (clients : List ClientId) (pruned : List (List PruneOp)) :
    (MemoryCache.removeClients r w clients pruned).Accounted := by
  induction clients generalizing w pruned with
  | nil => exact ok
  | cons client clients ih =>
    apply ih
    · exact ok.removeClient client _ (.inr out)
    · exact (noneEnters_removeClient w r client _).stays r out

theorem Accounted.foldl {op : MemoryCache → ClientId → MemoryCache} (ok : w.Accounted)
    (one : ∀ (w : MemoryCache) (client : ClientId), w.Accounted → (op w client).Accounted)
    (clients : List ClientId) : (clients.foldl op w).Accounted := by
  induction clients generalizing w with
  | nil => exact ok
  | cons client clients ih => exact ih (one w client ok)

theorem Accounted.switchClients (ok : w.Accounted) (out : (w.resource r).inCache = false)
    (p : ResourceId) (pruned : List (List PruneOp)) :
    (w.switchClientsToRevalidatedResource r p pruned).Accounted := by
  unfold switchClientsToRevalidatedResource
  dsimp only
  apply Accounted.foldl
  · apply Accounted.foldl (ok.removeClients out ..)
    intro w' client ok'
    exact ok'.addClientToSet client
  · intro w' client ok'
    split_ifs
    · exact ok'.didAddClient client
    · exact ok'

theorem Accounted.clearResourceToRevalidate (ok : w.Accounted) :
    (w.clearResourceToRevalidate r).Accounted := by
  have cleared : ∀ w' : MemoryCache, w'.Accounted →
      ((w'.setResource r { w'.resource r with resourceToRevalidate := none }).deleteIfPossible
        r).1.Accounted := by
    intro w' ok'
    apply Accounted.deleteIfPossible
    refine ok'.setResource ?_ ?_
    · constructor <;> rfl
    · rintro p ⟨⟩
  unfold MemoryCache.clearResourceToRevalidate
  cases (w.resource r).resourceToRevalidate with
  | none => exact ok
  | some p =>
    dsimp only
    split_ifs
    · apply cleared
      apply Accounted.deleteIfPossible
      refine ok.setResource ?_ (ok.revalidated p)
      constructor <;> rfl
    · exact cleared w ok

/-- The revalidated resource comes back into the cache. -/
theorem Accounted.comeBack {p : ResourceId} (ok : w.Accounted) (resource : CachedResource)
    (out : (w.resource p).inCache = false) (inside : resource.inCache = true)
    (accessed : resource.accessCount ≠ 0)
    (revalidate : resource.resourceToRevalidate = (w.resource p).resourceToRevalidate)
    (off : resource.inLiveDecodedResourcesList = (w.resource p).inLiveDecodedResourcesList) :
    let w₁ := (w.setResource p resource).insertInLRUList p
    let w₂ := if resource.decodedSize ≠ 0 ∧ resource.hasClients = true then
        w₁.insertInLiveDecodedResourcesList p else w₁
    (w₂.adjustSize resource.hasClients resource.size).Accounted := by
  dsimp only
  have flag := ok.flag_off out
  have marked : (w.setResource p resource).LiveList := ok.live.setResource off
  have live := marked.withLRU (insertInLRUList_same _ p)
  have here : (((w.setResource p resource).insertInLRUList p).resource p).inLiveDecodedResourcesList =
      false := by
    rw [insertInLRUList_resource, setResource_self, off, flag]
  split_ifs with onto
  · exact ok.enter resource out inside accessed revalidate (insertInLive_same ..) (live.insert here)
      fun _ => onto.symm
  · exact ok.enter resource out inside accessed revalidate (SameButLive.refl here) live
      fun on => absurd on Bool.false_ne_true

theorem Accounted.revalidationSucceeded {p : ResourceId} (ok : w.Accounted) (noStore : Bool)
    (pruned : List (List PruneOp)) (there : (w.resource r).inCache = true)
    (revalidates : (w.resource r).resourceToRevalidate = some p)
    (out : (w.resource p).inCache = false) : (w.revalidationSucceeded r p noStore pruned).Accounted := by
  have different : p ≠ r := by
    rintro rfl
    rw [out] at there
    cases there
  have same : (w.evict r).resource p = w.resource p := evict_other different
  have gone : ((w.evict r).resource r).inCache = false := evict_self_out w r
  have entered := (ok.evict (r := r)).setEntry (r := p) (some p)
  generalize evicted : (w.evict r).setEntry p (some p) = w₁ at entered
  have before : w₁.resource p = w.resource p := by
    rw [← evicted]
    exact same
  have goneBefore : (w₁.resource r).inCache = false := by
    rw [← evicted]
    exact gone
  have back := entered.comeBack { w.resource p with inCache := true, noStore }
    (by rw [before, out]) rfl (ok.revalidated r p revalidates) (by rw [before]) (by rw [before])
  unfold MemoryCache.revalidationSucceeded
  dsimp only at back ⊢
  rw [evicted, before, insertInLRUList_resource, setResource_self]
  have finish : ∀ w₂ : MemoryCache, (w₂.resource p).hasClients = (w.resource p).hasClients →
      (w₂.resource r).inCache = false →
      (w₂.adjustSize (w.resource p).hasClients
        (CachedResource.size { w.resource p with inCache := true, noStore })).Accounted →
      (((if CachedResource.size { w.resource p with inCache := true, noStore } ≠ 0 then
        w₂.adjustSize (w₂.resource p).hasClients
          (CachedResource.size { w.resource p with inCache := true, noStore }) else
            w₂).switchClientsToRevalidatedResource r p pruned).clearResourceToRevalidate r).Accounted := by
    intro w₂ clients goneAfter back
    apply Accounted.clearResourceToRevalidate
    split_ifs with sized
    · rw [clients]
      apply Accounted.switchClients back
      rw [adjustSize_resource, goneAfter]
    · rw [not_not.mp sized, adjustSize_zero] at back
      exact back.switchClients goneAfter p pruned
  apply finish
  · split_ifs
    · rw [insertInLive_self, insertInLRUList_resource, setResource_self]
      rfl
    · rw [insertInLRUList_resource, setResource_self]
      rfl
  · split_ifs
    · rw [(insertInLive_same ..).other (Ne.symm different), insertInLRUList_resource,
        setResource_other (Ne.symm different), goneBefore]
    · rw [insertInLRUList_resource, setResource_other (Ne.symm different), goneBefore]
  · exact back

/-! ## Every step -/

/-- The access count of a resource does not wrap. -/
def CountFits (w : MemoryCache) : Action → Prop
  | .resourceAccessed r => (w.resource r).accessCount + 1 ≠ 0
  | _ => True

instance (w : MemoryCache) : DecidablePred w.CountFits
  | .resourceAccessed r => inferInstanceAs (Decidable ((w.resource r).accessCount + 1 ≠ 0))
  | .add _ | .evict _ | .setEncodedSize _ _ | .setDecodedSize _ _ | .didAccessDecodedData _ _
  | .addClient _ _ | .callback _ _ | .removeClient _ _ _ | .setResponse _ _ | .setRetained _ _
  | .setResourceToRevalidate _ _ | .revalidationSucceeded _ _ _ => isTrue trivial

theorem Accounted.setResourceToRevalidate {p : ResourceId} (ok : w.Accounted)
    (there : (w.resource p).inCache = true) : (w.setResourceToRevalidate r p).Accounted := by
  have first : (w.setResource p { w.resource p with proxyResource := some r }).Accounted := by
    refine ok.setResource ?_ (ok.revalidated p)
    constructor <;> rfl
  unfold MemoryCache.setResourceToRevalidate
  dsimp only
  refine first.setResource ?_ ?_
  · constructor <;> rfl
  · rintro _ ⟨⟩
    rw [setResource_self]
    exact (ok.sound p).accessed there

theorem Accounted.step {a : Action} (ok : w.Accounted) (fits : w.CountFits a)
    (stepped : w.step a = some w') : w'.Accounted := by
  unfold MemoryCache.step at stepped
  split_ifs at stepped with enabled
  obtain ⟨-, allowed⟩ := enabled
  cases stepped
  cases a with
  | add r => exact ok.add allowed.1 allowed.2.1
  | resourceAccessed r => exact ok.resourceAccessed allowed fits
  | evict r => exact ok.evict
  | setEncodedSize r size => exact ok.setEncodedSize size
  | setDecodedSize r size => exact ok.setDecodedSize size
  | didAccessDecodedData r pruned => exact ok.didAccessDecodedData pruned
  | addClient r client => exact ok.addClient client
  | callback r client => exact ok.didAddClient client
  | removeClient r client pruned =>
    exact ok.removeClient client pruned (.inl (hasClients_of_mem allowed))
  | setResponse r noStore =>
    refine ok.setResource ?_ (ok.revalidated r)
    constructor <;> rfl
  | setRetained r retained =>
    apply Accounted.deleteIfPossible
    refine ok.setResource ?_ (ok.revalidated r)
    constructor <;> rfl
  | setResourceToRevalidate r p => exact ok.setResourceToRevalidate allowed.2.2.2
  | revalidationSucceeded r noStore pruned =>
    obtain ⟨there, p, revalidates, out⟩ := allowed
    dsimp only [perform]
    rw [Option.mem_def.mp revalidates]
    exact ok.revalidationSucceeded noStore pruned there revalidates out

end NetRider.Loader.MemoryCache
