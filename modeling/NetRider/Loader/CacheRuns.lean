import NetRider.Lib.Run
import NetRider.Loader.CacheRevalidation

/-!
# The memory cache over every sequence of calls

The access count of a resource is an `unsigned`. When it wraps to zero the resource is taken for new:
it is not taken off its list, and its size is counted again.
-/

namespace NetRider.Loader.MemoryCache

variable {w w' : MemoryCache} {r : ResourceId}

/-- **The lists and the totals agree with the resources in the cache.** -/
structure AccountingOk (w : MemoryCache) : Prop where
  totals : ∃ cached : Finset ResourceId, (∀ x, x ∈ cached ↔ (w.resource x).inCache = true) ∧
    (∑ x ∈ cached, (w.resource x).size.toNat < 2 ^ 31 →
      w.liveSize.toNat =
          ∑ x ∈ cached.filter fun x => (w.resource x).hasClients = true, (w.resource x).size.toNat ∧
        w.deadSize.toNat =
          ∑ x ∈ cached.filter fun x => (w.resource x).hasClients = false, (w.resource x).size.toNat)
  lru : ∃ lists : Nat → List ResourceId,
    (∀ i, Lib.Represents w.allLinks (w.allResources i) (lists i)) ∧
      ∀ x i, x ∈ lists i ↔ (w.resource x).inCache = true ∧
        i = fastLog2 ((w.resource x).size / (w.resource x).accessCount)
  liveDecoded : ∃ live, Lib.Represents w.liveLinks w.liveDecodedResources live ∧
    ∀ x ∈ live, (w.resource x).inCache = true ∧ (w.resource x).hasClients = true ∧
      (w.resource x).decodedSize ≠ 0

theorem toNat_sum {I : Type*} [DecidableEq I] (members : Finset I) (f : I → BitVec 32)
    (small : ∑ x ∈ members, (f x).toNat < 2 ^ 31) :
    (∑ x ∈ members, f x).toNat = ∑ x ∈ members, (f x).toNat := by
  induction members using Finset.induction_on with
  | empty => rfl
  | insert x members new ih =>
    rw [Finset.sum_insert new] at small ⊢
    rw [Finset.sum_insert new, BitVec.toNat_add, ih (by omega), Nat.mod_eq_of_lt (by omega)]

theorem queueIndex_eq {resource : CachedResource} (accessed : resource.accessCount ≠ 0) :
    resource.queueIndex = fastLog2 (resource.size / resource.accessCount) := by
  have positive : ¬ resource.accessCount < 1 := by
    intro less
    apply accessed
    rw [BitVec.lt_def] at less
    exact BitVec.eq_of_toNat_eq (Nat.lt_one_iff.mp less)
  rw [CachedResource.queueIndex, if_neg positive]

theorem Totals.sums (ok : w.Totals) : ∃ cached : Finset ResourceId,
    (∀ x, x ∈ cached ↔ (w.resource x).inCache = true) ∧
      w.liveSize =
          ∑ x ∈ cached.filter fun x => (w.resource x).hasClients = true, (w.resource x).size ∧
        w.deadSize =
          ∑ x ∈ cached.filter fun x => (w.resource x).hasClients = false, (w.resource x).size := by
  obtain ⟨cached, members, live, dead⟩ := ok
  refine ⟨cached.filter fun x => (w.resource x).inCache = true, ?_, ?_, ?_⟩
  · intro x
    rw [Finset.mem_filter, and_iff_right_iff_imp]
    exact members x
  · rw [live, Finset.filter_filter, Finset.sum_filter]
    apply Finset.sum_congr rfl
    intro x _
    simp only [CachedResource.livePart, Bool.and_eq_true]
  · rw [dead, Finset.filter_filter, Finset.sum_filter]
    apply Finset.sum_congr rfl
    intro x _
    simp only [CachedResource.deadPart, Bool.and_eq_true, Bool.not_eq_true']

theorem Accounted.ok (ok : w.Accounted) : w.AccountingOk := by
  constructor
  · obtain ⟨cached, members, live, dead⟩ := ok.totals.sums
    refine ⟨cached, members, ?_⟩
    intro small
    have part : ∀ p : ResourceId → Prop, [DecidablePred p] →
        ∑ x ∈ cached.filter p, (w.resource x).size.toNat < 2 ^ 31 :=
      fun p _ => (Finset.sum_le_sum_of_subset (Finset.filter_subset p cached)).trans_lt small
    rw [live, dead, toNat_sum _ _ (part _), toNat_sum _ _ (part _)]
    exact ⟨rfl, rfl⟩
  · obtain ⟨lists, table, on⟩ := ok.lru
    refine ⟨lists, table.each, ?_⟩
    intro x i
    rw [on]
    apply and_congr_right
    intro there
    rw [queueIndex_eq ((ok.sound x).accessed there)]
  · obtain ⟨live, table, on⟩ := ok.live
    refine ⟨live, table.each (), ?_⟩
    intro x member
    exact (ok.sound x).live ((on x).mp member)

theorem create_accounted (disabled : Bool) (info : ResourceId → ResourceInfo) :
    (create disabled info).Accounted := by
  have empty : ∀ I : Type, Lib.Table (⟨fun _ => none, fun _ => none⟩ : Lib.Links ResourceId)
      (fun _ : I => ⟨none, none⟩) (fun _ => []) := by
    intro I
    constructor
    · intro i
      exact ⟨List.nodup_nil, rfl, rfl, trivial⟩
    · intro i j r there
      cases there
    · exact fun _ _ => ⟨rfl, rfl⟩
  constructor
  · refine ⟨fun _ => [], empty Nat, ?_⟩
    intro x i
    simp [create, CachedResource.create]
  · refine ⟨[], empty Unit, ?_⟩
    intro x
    simp [create, CachedResource.create]
  · refine ⟨∅, ?_, rfl, rfl⟩
    rintro x ⟨⟩
  · intro x
    constructor <;> rintro ⟨⟩
  · rintro x p ⟨⟩

/-- **The accounting is right while no access count wraps.** -/
theorem accounting_ok (disabled : Bool) (info : ResourceId → ResourceInfo) :
    ∀ w, Lib.Reach step CountFits (create disabled info) w → w.AccountingOk := by
  intro w reached
  have accounted := reached.invariant (create_accounted disabled info)
    fun _ _ _ ok fits stepped => ok.step fits stepped
  exact accounted.ok

/-- Two resources; one gets a client and is decoded, the other is evicted. -/
def twoResources : List Action :=
  [.add 0, .add 1, .addClient 0 7, .setDecodedSize 0 50, .resourceAccessed 0, .setEncodedSize 1 20,
    .evict 1]

def twoInfos (r : ResourceId) : ResourceInfo := ⟨r, "http://a/", false, false, 1000⟩

theorem accounting_ok_two :
    ∃ w, Lib.Reach step CountFits (create false twoInfos) w ∧ w.liveSize = 1050 ∧
      w.deadSize = 0 ∧ w.AccountingOk := by
  have ends : (Lib.run (fun w a => if CountFits w a then step w a else none)
      (create false twoInfos) twoResources).map (fun w => (w.liveSize, w.deadSize)) =
        some (1050, 0) := by
    decide
  obtain ⟨w, ran, same⟩ := Option.map_eq_some_iff.mp ends
  obtain ⟨live, dead⟩ := Prod.mk.inj same
  have reached := Lib.Reach.of_run .start ran
  exact ⟨w, reached, live, dead, accounting_ok false twoInfos w reached⟩

/-! ## A count that wraps -/

def smallInfo : ResourceInfo := ⟨0, "http://a/", false, false, 1000⟩

theorem resourceAccessed_resource (w : MemoryCache) (r : ResourceId) :
    (w.resourceAccessed r).resource = Function.update w.resource r
      { w.resource r with accessCount := (w.resource r).accessCount + 1 } := by
  have last : ∀ w₂ : MemoryCache, w₂.resource = w.resource →
      ((w₂.setResource r { w₂.resource r with
        accessCount := (w₂.resource r).accessCount + 1 }).insertInLRUList r).resource =
          Function.update w.resource r
            { w.resource r with accessCount := (w.resource r).accessCount + 1 } := by
    intro w₂ same
    rw [same, insertInLRUList_resource, setResource, same]
  unfold MemoryCache.resourceAccessed
  apply last
  split_ifs
  · rw [adjustSize_resource, removeFromLRUList_resource]
  · rw [removeFromLRUList_resource]

/-- The size is counted if the count is zero. -/
theorem resourceAccessed_deadSize (dead : (w.resource r).hasClients = false) :
    (w.resourceAccessed r).deadSize =
      w.deadSize + if (w.resource r).accessCount = 0 then (w.resource r).size else 0 := by
  have removed := w.removeFromLRUList_same r
  unfold MemoryCache.resourceAccessed
  dsimp only
  change (if ((w.removeFromLRUList r).resource r).accessCount = 0 then _ else _ : MemoryCache).deadSize = _
  rw [removed.resource]
  split_ifs
  · rw [adjustSize_deadSize, removed.deadSize, dead, if_neg Bool.false_ne_true]
  · rw [removed.deadSize, add_zero]

/-- A dead resource that was added, and accessed some times more. -/
structure Accessed (w : MemoryCache) (times : Nat) : Prop where
  count : (w.resource 0).accessCount = BitVec.ofNat 32 times
  size : (w.resource 0).size = 1000
  dead : (w.resource 0).hasClients = false
  kept : (w.resource 0).deleted = false
  inCache : ∀ x, (w.resource x).inCache = true ↔ x = 0

theorem Accessed.again {times : Nat} (accessed : w.Accessed times) :
    w.step (.resourceAccessed 0) = some (w.resourceAccessed 0) ∧
      (w.resourceAccessed 0).Accessed (times + 1) := by
  constructor
  · exact if_pos ⟨accessed.kept, (accessed.inCache 0).mpr rfl⟩
  · have own : (w.resourceAccessed 0).resource 0 =
        { w.resource 0 with accessCount := (w.resource 0).accessCount + 1 } := by
      rw [resourceAccessed_resource, Function.update_self]
    constructor
    · rw [own, BitVec.ofNat_add, ← accessed.count]
      rfl
    · rw [own]
      exact accessed.size
    · rw [own]
      exact accessed.dead
    · rw [own]
      exact accessed.kept
    · intro x
      by_cases zero : x = 0
      · rw [zero, own]
        exact accessed.inCache 0
      · rw [resourceAccessed_resource, Function.update_of_ne zero]
        exact accessed.inCache x

/-- The size is not counted again while the count does not wrap. -/
theorem Accessed.more {k : Nat} (accessed : w.Accessed 1) (size : w.deadSize = 1000)
    (below : k < 2 ^ 32) : ∃ w', Lib.run step w (List.replicate k (.resourceAccessed 0)) = some w' ∧
      w'.Accessed (k + 1) ∧ w'.deadSize = 1000 := by
  induction k with
  | zero => exact ⟨w, rfl, accessed, size⟩
  | succ k ih =>
    obtain ⟨w', ran, before, same⟩ := ih (by omega)
    obtain ⟨stepped, after⟩ := before.again
    have positive : (w'.resource 0).accessCount ≠ 0 := by
      rw [before.count]
      intro zero
      have value := congrArg BitVec.toNat zero
      rw [BitVec.toNat_ofNat, Nat.mod_eq_of_lt (by omega)] at value
      cases value
    refine ⟨_, ?_, after, ?_⟩
    · rw [List.replicate_succ', Lib.run_append, ran]
      simp only [Option.bind_some, Lib.run, stepped]
    · rw [resourceAccessed_deadSize before.dead, if_neg positive, add_zero, same]

def firstAdded : MemoryCache := (create false fun _ => smallInfo).add 0

theorem firstAdded_eq : Lib.run step (create false fun _ => smallInfo) [.add 0] = some firstAdded := rfl

theorem firstAdded_accessed : firstAdded.Accessed 1 := by
  constructor
  · rfl
  · rfl
  · rfl
  · rfl
  · intro x
    by_cases zero : x = 0
    · subst zero
      exact iff_of_true rfl rfl
    · rw [firstAdded, add_eq rfl rfl, adjustSize_resource, insertInLRUList_resource,
        setResource_other zero]
      exact iff_of_false Bool.false_ne_true zero

theorem firstAdded_deadSize : firstAdded.deadSize = 1000 := rfl

/-- After 2^32 accesses more the size of the only resource is counted twice. -/
theorem wrapped_count_doubles_size :
    ∃ w, Lib.run step (create false fun _ => smallInfo)
        (.add 0 :: List.replicate (2 ^ 32) (.resourceAccessed 0)) = some w ∧ ¬ w.AccountingOk := by
  have split : (.add 0 :: List.replicate (2 ^ 32) (.resourceAccessed 0) : List Action) =
      [.add 0] ++ (List.replicate (2 ^ 32 - 1) (.resourceAccessed 0) ++ [.resourceAccessed 0]) := by
    rw [← List.replicate_succ']
    rfl
  obtain ⟨w, ran, before, size⟩ := firstAdded_accessed.more firstAdded_deadSize
    (k := 2 ^ 32 - 1) (Nat.sub_lt (Nat.two_pow_pos 32) Nat.one_pos)
  obtain ⟨stepped, after⟩ := before.again
  refine ⟨w.resourceAccessed 0, ?_, ?_⟩
  · rw [split, Lib.run_append, firstAdded_eq, Option.bind_some, Lib.run_append, ran]
    simp only [Option.bind_some, Lib.run, stepped]
  · intro ok
    obtain ⟨cached, members, totals⟩ := ok.totals
    have only : cached = {0} := by
      ext x
      rw [members, after.inCache, Finset.mem_singleton]
    have doubled : (w.resourceAccessed 0).deadSize = 2000 := by
      have wrapped : (w.resource 0).accessCount = 0 := before.count
      rw [resourceAccessed_deadSize before.dead, if_pos wrapped, size, before.size]
      rfl
    have sum : ∑ x ∈ cached, ((w.resourceAccessed 0).resource x).size.toNat = 1000 := by
      rw [only, Finset.sum_singleton, after.size]
      rfl
    have dead := (totals (by rw [sum]; decide)).2
    rw [doubled, only, Finset.filter_singleton, if_pos after.dead, Finset.sum_singleton,
      after.size] at dead
    cases dead

end NetRider.Loader.MemoryCache
