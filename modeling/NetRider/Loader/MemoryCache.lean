import Mathlib
import NetRider.Lib.IntrusiveList

/-!
# MemoryCache

The lists and totals of the memory cache, as the cache and the resources change them.

* `unsigned` is `BitVec 32`. The timers, the data and the load of a resource are left out, as are
  purgeable buffers and cache partitions; `retained` stands for the loader, the preloads and the
  handles of a resource.
* What `prune` evicts and which decoded data it destroys depends on the capacities and the clock,
  and is chosen by the environment.
-/

namespace NetRider.Loader

abbrev ResourceId := Nat

abbrev ClientId := Nat

/-- The logarithm, rounded up. -/
def fastLog2 (i : BitVec 32) : Nat :=
  let log2 := if i &&& (i - 1) ≠ 0 then 1 else 0
  let log2₁₆ := if i >>> 16 ≠ 0 then log2 + 16 else log2
  let i₁₆ := if i >>> 16 ≠ 0 then i >>> 16 else i
  let log2₈ := if i₁₆ >>> 8 ≠ 0 then log2₁₆ + 8 else log2₁₆
  let i₈ := if i₁₆ >>> 8 ≠ 0 then i₁₆ >>> 8 else i₁₆
  let log2₄ := if i₈ >>> 4 ≠ 0 then log2₈ + 4 else log2₈
  let i₄ := if i₈ >>> 4 ≠ 0 then i₈ >>> 4 else i₈
  let log2₂ := if i₄ >>> 2 ≠ 0 then log2₄ + 2 else log2₄
  let i₂ := if i₄ >>> 2 ≠ 0 then i₄ >>> 2 else i₄
  if i₂ >>> 1 ≠ 0 then log2₂ + 1 else log2₂

/-- What stays the same in the life of a resource. -/
structure ResourceInfo where
  sessionID : Nat
  url : String
  isHttps : Bool
  isMainOrRaw : Bool
  overheadSize : BitVec 32

structure CachedResource where
  info : ResourceInfo
  encodedSize : BitVec 32
  decodedSize : BitVec 32
  accessCount : BitVec 32
  inCache : Bool
  inLiveDecodedResourcesList : Bool
  clients : List ClientId
  clientsAwaitingCallback : List ClientId
  hasResponse : Bool
  noStore : Bool
  resourceToRevalidate : Option ResourceId
  proxyResource : Option ResourceId
  retained : Bool
  deleted : Bool

namespace CachedResource

def create (info : ResourceInfo) : CachedResource :=
  { info
    encodedSize := 0
    decodedSize := 0
    accessCount := 0
    inCache := false
    inLiveDecodedResourcesList := false
    clients := []
    clientsAwaitingCallback := []
    hasResponse := false
    noStore := false
    resourceToRevalidate := none
    proxyResource := none
    retained := true
    deleted := false }

variable (resource : CachedResource)

def size : BitVec 32 := resource.encodedSize + resource.decodedSize + resource.info.overheadSize

def hasClients : Bool := !resource.clients.isEmpty || !resource.clientsAwaitingCallback.isEmpty

def canDelete : Bool :=
  !resource.hasClients && !resource.retained && resource.resourceToRevalidate.isNone &&
    resource.proxyResource.isNone

/-- The index of `lruListFor`. -/
def queueIndex : Nat :=
  let accessCount := if resource.accessCount < 1 then 1 else resource.accessCount
  fastLog2 (resource.size / accessCount)

end CachedResource

structure MemoryCache where
  resource : ResourceId → CachedResource
  sessionResources : Nat → String → Option ResourceId
  allResources : Nat → Lib.Ends ResourceId
  allLinks : Lib.Links ResourceId
  liveDecodedResources : Lib.Ends ResourceId
  liveLinks : Lib.Links ResourceId
  liveSize : BitVec 32
  deadSize : BitVec 32
  disabled : Bool

namespace MemoryCache

def create (disabled : Bool) (info : ResourceId → ResourceInfo) : MemoryCache :=
  { resource := fun r => .create (info r)
    sessionResources := fun _ _ => none
    allResources := fun _ => ⟨none, none⟩
    allLinks := ⟨fun _ => none, fun _ => none⟩
    liveDecodedResources := ⟨none, none⟩
    liveLinks := ⟨fun _ => none, fun _ => none⟩
    liveSize := 0
    deadSize := 0
    disabled }

variable (w : MemoryCache) (r : ResourceId)

def setResource (resource : CachedResource) : MemoryCache :=
  { w with resource := Function.update w.resource r resource }

/-! ## The lists -/

def removeFromLRUList : MemoryCache :=
  if (w.resource r).accessCount = 0 then w
  else
    let index := (w.resource r).queueIndex
    let unlinked := Lib.unlink w.allLinks (w.allResources index) r
    { w with
      allLinks := unlinked.1
      allResources := Function.update w.allResources index unlinked.2 }

def insertInLRUList : MemoryCache :=
  let index := (w.resource r).queueIndex
  let pushed := Lib.pushFront w.allLinks (w.allResources index) r
  { w with
    allLinks := pushed.1
    allResources := Function.update w.allResources index pushed.2 }

def removeFromLiveDecodedResourcesList : MemoryCache :=
  if !(w.resource r).inLiveDecodedResourcesList then w
  else
    let w := w.setResource r { w.resource r with inLiveDecodedResourcesList := false }
    let unlinked := Lib.unlink w.liveLinks w.liveDecodedResources r
    { w with liveLinks := unlinked.1, liveDecodedResources := unlinked.2 }

def insertInLiveDecodedResourcesList : MemoryCache :=
  let w := w.setResource r { w.resource r with inLiveDecodedResourcesList := true }
  let pushed := Lib.pushFront w.liveLinks w.liveDecodedResources r
  { w with liveLinks := pushed.1, liveDecodedResources := pushed.2 }

/-! ## The totals -/

def addToLiveResourcesSize : MemoryCache :=
  { w with
    liveSize := w.liveSize + (w.resource r).size
    deadSize := w.deadSize - (w.resource r).size }

def removeFromLiveResourcesSize : MemoryCache :=
  { w with
    liveSize := w.liveSize - (w.resource r).size
    deadSize := w.deadSize + (w.resource r).size }

def adjustSize (live : Bool) (delta : BitVec 32) : MemoryCache :=
  if live then { w with liveSize := w.liveSize + delta }
  else { w with deadSize := w.deadSize + delta }

/-! ## Resources come and go -/

def deleteIfPossible : MemoryCache × Bool :=
  if (w.resource r).canDelete && !(w.resource r).inCache then
    (w.setResource r { w.resource r with deleted := true }, true)
  else (w, false)

def resourceAccessed : MemoryCache :=
  let w := w.removeFromLRUList r
  let w :=
    if (w.resource r).accessCount = 0 then w.adjustSize (w.resource r).hasClients (w.resource r).size
    else w
  let w := w.setResource r { w.resource r with accessCount := (w.resource r).accessCount + 1 }
  w.insertInLRUList r

def setEntry (entry : Option ResourceId) : MemoryCache :=
  let info := (w.resource r).info
  { w with
    sessionResources := Function.update w.sessionResources info.sessionID
      (Function.update (w.sessionResources info.sessionID) info.url entry) }

def add : MemoryCache :=
  if w.disabled then w
  else
    let w := w.setEntry r (some r)
    let w := w.setResource r { w.resource r with inCache := true }
    w.resourceAccessed r

def evict : MemoryCache :=
  let w :=
    if (w.resource r).inCache then
      let w := w.setEntry r none
      let w := w.setResource r { w.resource r with inCache := false }
      let w := w.removeFromLRUList r
      let w := w.removeFromLiveDecodedResourcesList r
      w.adjustSize (w.resource r).hasClients (-(w.resource r).size)
    else w
  (w.deleteIfPossible r).1

/-! ## Sizes -/

def setDecodedSize (size : BitVec 32) : MemoryCache :=
  if size = (w.resource r).decodedSize then w
  else
    let delta := size - (w.resource r).decodedSize
    let w := if (w.resource r).inCache then w.removeFromLRUList r else w
    let w := w.setResource r { w.resource r with decodedSize := size }
    if (w.resource r).inCache then
      let w := w.insertInLRUList r
      let w :=
        if size ≠ 0 ∧ !(w.resource r).inLiveDecodedResourcesList ∧ (w.resource r).hasClients then
          w.insertInLiveDecodedResourcesList r
        else if size = 0 ∧ (w.resource r).inLiveDecodedResourcesList then
          w.removeFromLiveDecodedResourcesList r
        else w
      w.adjustSize (w.resource r).hasClients delta
    else w

def setEncodedSize (size : BitVec 32) : MemoryCache :=
  if size = (w.resource r).encodedSize then w
  else
    let delta := size - (w.resource r).encodedSize
    let w := if (w.resource r).inCache then w.removeFromLRUList r else w
    let w := w.setResource r { w.resource r with encodedSize := size }
    if (w.resource r).inCache then
      (w.insertInLRUList r).adjustSize (w.resource r).hasClients delta
    else w

end MemoryCache

/-- What `prune` does to a resource in the cache. -/
inductive PruneOp
  | evict (r : ResourceId)
  | destroyDecodedData (r : ResourceId) (decodedSize : BitVec 32)

namespace MemoryCache

def pruneOne (w : MemoryCache) : PruneOp → MemoryCache
  | .evict r => if (w.resource r).inCache && !(w.resource r).hasClients then w.evict r else w
  | .destroyDecodedData r decodedSize =>
    if (w.resource r).inCache then w.setDecodedSize r decodedSize else w

def prune (w : MemoryCache) (pruned : List PruneOp) : MemoryCache := pruned.foldl pruneOne w

variable (w : MemoryCache) (r : ResourceId)

def didAccessDecodedData (pruned : List PruneOp) : MemoryCache :=
  if (w.resource r).inCache then
    let w :=
      if (w.resource r).inLiveDecodedResourcesList then
        (w.removeFromLiveDecodedResourcesList r).insertInLiveDecodedResourcesList r
      else w
    w.prune pruned
  else w

/-! ## Clients -/

def addClientToSet (client : ClientId) : MemoryCache × Bool :=
  let w :=
    if !(w.resource r).hasClients && (w.resource r).inCache then w.addToLiveResourcesSize r else w
  let resource := w.resource r
  if resource.info.isMainOrRaw && resource.hasResponse && resource.proxyResource.isNone then
    -- the callbacks are scheduled, and the client joins the others then
    (w.setResource r { resource with
      clientsAwaitingCallback := resource.clientsAwaitingCallback.insert client }, false)
  else (w.setResource r { resource with clients := client :: resource.clients }, true)

def didAddClient (client : ClientId) : MemoryCache :=
  let resource := w.resource r
  if client ∈ resource.clientsAwaitingCallback then
    w.setResource r { resource with
      clients := client :: resource.clients
      clientsAwaitingCallback := resource.clientsAwaitingCallback.erase client }
  else w

def addClient (client : ClientId) : MemoryCache :=
  let added := w.addClientToSet r client
  if added.2 then added.1.didAddClient r client else added.1

/-- The beginning of `removeClient`. -/
def dropClient (client : ClientId) : MemoryCache :=
  let resource := w.resource r
  w.setResource r
    (if client ∈ resource.clientsAwaitingCallback then
      { resource with clientsAwaitingCallback := resource.clientsAwaitingCallback.erase client }
    else { resource with clients := resource.clients.erase client })

def removeClient (client : ClientId) (pruned : List PruneOp) : MemoryCache :=
  let (w, deleted) := (w.dropClient r client).deleteIfPossible r
  if !deleted && !(w.resource r).hasClients then
    let w :=
      if (w.resource r).inCache then
        (w.removeFromLiveResourcesSize r).removeFromLiveDecodedResourcesList r
      else w
    if (w.resource r).noStore then
      if (w.resource r).info.isHttps then w.evict r else w
    else w.prune pruned
  else w

/-! ## Revalidation -/

def setResourceToRevalidate (resource : ResourceId) : MemoryCache :=
  let w := w.setResource resource { w.resource resource with proxyResource := some r }
  w.setResource r { w.resource r with resourceToRevalidate := some resource }

def clearResourceToRevalidate : MemoryCache :=
  match (w.resource r).resourceToRevalidate with
  | none => w
  | some p =>
    let w :=
      if (w.resource p).proxyResource = some r then
        ((w.setResource p { w.resource p with proxyResource := none }).deleteIfPossible p).1
      else w
    let w := w.setResource r { w.resource r with resourceToRevalidate := none }
    (w.deleteIfPossible r).1

/-- The first loop over the clients to move. There is a `prune` in each `removeClient`. -/
def removeClients (w : MemoryCache) : List ClientId → List (List PruneOp) → MemoryCache
  | [], _ => w
  | client :: rest, pruned => removeClients (w.removeClient r client (pruned.headD [])) rest pruned.tail

def switchClientsToRevalidatedResource (p : ResourceId) (pruned : List (List PruneOp)) :
    MemoryCache :=
  let clientsToMove := (w.resource r).clients
  let w := removeClients r w clientsToMove pruned
  let w := clientsToMove.foldl (fun w client => (w.addClientToSet p client).1) w
  clientsToMove.foldl (fun w client =>
    if client ∈ (w.resource p).clients then w.didAddClient p client else w) w

/-- `noStore` is what the updated response of the resource says. -/
def revalidationSucceeded (p : ResourceId) (noStore : Bool) (pruned : List (List PruneOp)) :
    MemoryCache :=
  let w := w.evict r
  let w := w.setEntry p (some p)
  let w := w.setResource p { w.resource p with inCache := true, noStore }
  let w := w.insertInLRUList p
  let delta := (w.resource p).size
  let w :=
    if (w.resource p).decodedSize ≠ 0 ∧ (w.resource p).hasClients then
      w.insertInLiveDecodedResourcesList p
    else w
  let w := if delta ≠ 0 then w.adjustSize (w.resource p).hasClients delta else w
  (w.switchClientsToRevalidatedResource r p pruned).clearResourceToRevalidate r

/-! ## Steps -/

inductive Action
  | add (r : ResourceId)
  | resourceAccessed (r : ResourceId)
  | evict (r : ResourceId)
  | setEncodedSize (r : ResourceId) (size : BitVec 32)
  | setDecodedSize (r : ResourceId) (size : BitVec 32)
  | didAccessDecodedData (r : ResourceId) (pruned : List PruneOp)
  | addClient (r : ResourceId) (client : ClientId)
  | callback (r : ResourceId) (client : ClientId)
  | removeClient (r : ResourceId) (client : ClientId) (pruned : List PruneOp)
  | setResponse (r : ResourceId) (noStore : Bool)
  | setRetained (r : ResourceId) (retained : Bool)
  | setResourceToRevalidate (r p : ResourceId)
  | revalidationSucceeded (r : ResourceId) (noStore : Bool) (pruned : List (List PruneOp))

def Action.subject : Action → ResourceId
  | .add r | .resourceAccessed r | .evict r | .setEncodedSize r _ | .setDecodedSize r _
  | .didAccessDecodedData r _ | .addClient r _ | .callback r _ | .removeClient r _ _
  | .setResponse r _ | .setRetained r _ | .setResourceToRevalidate r _
  | .revalidationSucceeded r _ _ => r

/-- A resource is added when it is new and has no entry, and is revalidated by a new one while it is
in the cache. Only clients are removed. -/
def Allowed (w : MemoryCache) : Action → Prop
  | .add r => (w.resource r).inCache = false ∧ (w.resource r).accessCount = 0 ∧
      w.sessionResources (w.resource r).info.sessionID (w.resource r).info.url = none
  | .resourceAccessed r => (w.resource r).inCache = true
  | .callback r client => client ∈ (w.resource r).clientsAwaitingCallback
  | .removeClient r client _ =>
    client ∈ (w.resource r).clients ∨ client ∈ (w.resource r).clientsAwaitingCallback
  | .setResourceToRevalidate r p => r ≠ p ∧ (w.resource r).resourceToRevalidate = none ∧
      (w.resource p).proxyResource = none ∧ (w.resource p).inCache = true
  | .revalidationSucceeded r _ _ => (w.resource r).inCache = true ∧
      ∃ p ∈ (w.resource r).resourceToRevalidate, (w.resource p).inCache = false
  | _ => True

instance (w : MemoryCache) : DecidablePred w.Allowed
  | .add _ => inferInstanceAs (Decidable (_ = _ ∧ _ = _ ∧ _ = _))
  | .resourceAccessed r => inferInstanceAs (Decidable ((w.resource r).inCache = true))
  | .callback r client => inferInstanceAs (Decidable (client ∈ (w.resource r).clientsAwaitingCallback))
  | .removeClient _ _ _ => inferInstanceAs (Decidable (_ ∈ _ ∨ _ ∈ _))
  | .setResourceToRevalidate r p => inferInstanceAs (Decidable (r ≠ p ∧ _ = _ ∧ _ = _ ∧ _ = _))
  | .revalidationSucceeded r _ _ =>
    inferInstanceAs (Decidable (_ = _ ∧ ∃ p ∈ (w.resource r).resourceToRevalidate, _ = _))
  | .evict _ | .setEncodedSize _ _ | .setDecodedSize _ _ | .didAccessDecodedData _ _
  | .addClient _ _ | .setResponse _ _ | .setRetained _ _ => isTrue trivial

def perform (w : MemoryCache) : Action → MemoryCache
  | .add r => w.add r
  | .resourceAccessed r => w.resourceAccessed r
  | .evict r => w.evict r
  | .setEncodedSize r size => w.setEncodedSize r size
  | .setDecodedSize r size => w.setDecodedSize r size
  | .didAccessDecodedData r pruned => w.didAccessDecodedData r pruned
  | .addClient r client => w.addClient r client
  | .callback r client => w.didAddClient r client
  | .removeClient r client pruned => w.removeClient r client pruned
  | .setResponse r noStore => w.setResource r { w.resource r with hasResponse := true, noStore }
  | .setRetained r retained =>
    ((w.setResource r { w.resource r with retained }).deleteIfPossible r).1
  | .setResourceToRevalidate r p => w.setResourceToRevalidate r p
  | .revalidationSucceeded r noStore pruned =>
    match (w.resource r).resourceToRevalidate with
    | none => w
    | some p => w.revalidationSucceeded r p noStore pruned

def step (w : MemoryCache) (a : Action) : Option MemoryCache :=
  if (w.resource a.subject).deleted = false ∧ w.Allowed a then some (w.perform a) else none

end MemoryCache

end NetRider.Loader
