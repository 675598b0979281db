import NetRider.Lib.Run
import NetRider.Storage.ProcessInvariant

/-!
# Agreement of the processes

When no message is in flight, every cache that is loaded equals the storage area. This holds
along every run in which clear events of other processes find what they need: no pending
changes, and a map that is loaded unless nothing of the process itself is still on its way.
-/

namespace NetRider.Storage

open NetRider.Lib

/-! ## The invariant of the system -/

namespace System

variable {P : Type} [DecidableEq P] {s : System P} {i : P}

def Inv (s : System P) : Prop :=
  Plain s.storageMap.items ∧ ∀ i, (s.processes i).Ok s.storageMap.items

omit [DecidableEq P] in
theorem inv_start (items : Items) (plain : Plain items) (quota quotaInBytes : Nat) :
    (start items quota quotaInBytes : System P).Inv := by
  have same : (start items quota quotaInBytes : System P).storageMap.items = items :=
    StorageMap.importItems_create quota items
  refine ⟨by rwa [same], ?_⟩
  intro i
  exact ⟨by simp [start, StorageAreaMap.create], fun _ => ⟨rfl, rfl⟩, .inl ⟨rfl, by simp [start]⟩,
    by simp [start], rfl, trivial, settled_unloaded rfl⟩

/-- A step of one process alone. -/
theorem Inv.update {p : Process} (inv : s.Inv) (ok : p.Ok s.storageMap.items) :
    (s.update i p).Inv := by
  refine ⟨inv.1, ?_⟩
  intro j
  by_cases same : j = i
  · subst same
    simpa [System.update] using ok
  · simpa [System.update, same] using inv.2 j

/-- The answer to the first request of a process. -/
structure Answers (notice : Notice) (r : Request) : Prop where
  seed : notice.seed = some r.seed
  changes : ∀ current, notice.answers current = r.changes current
  silent : ∀ items, notice.apply items = items

theorem answers_didSetItem (id : StorageAreaID) (seed : Nat) (key value : Text) (quotaError : Bool) :
    Answers (.didSetItem seed key quotaError) (.setItem id seed key value) :=
  ⟨rfl, fun _ => rfl, fun _ => rfl⟩

theorem answers_didRemoveItem (id : StorageAreaID) (seed : Nat) (key : Text) :
    Answers (.didRemoveItem seed key) (.removeItem id seed key) :=
  ⟨rfl, fun _ => rfl, fun _ => rfl⟩

theorem answers_didClear (id : StorageAreaID) (seed : Nat) :
    Answers (.didClear seed) (.clear id seed) := by
  refine ⟨rfl, fun current => ?_, fun _ => rfl⟩
  simp [Notice.answers, Request.changes, Request.key]

section

variable {r : Request} {up : List Request} {map : StorageMap} {notice : Notice}

/-- The storage manager answers a request that leaves the items as they are. -/
theorem Inv.answered (inv : s.Inv) (requests : (s.processes i).up = r :: up)
    (asked : r.isGetValues = false) (answer : Answers notice r)
    (same : map.items = s.storageMap.items)
    (effect : ∀ a, Settled s.storageMap.items (r :: up) a →
      Settled s.storageMap.items up (a.didReceiveMessage notice)) :
    Inv ({ s.update i { s.processes i with up } with storageMap := map }.send i notice) := by
  have mine : Process.Ok s.storageMap.items
      { s.processes i with up, down := (s.processes i).down ++ [notice] } := by
    have handled := @Process.Ok.handled _ _ r up [notice] (inv.2 i) requests asked
      (by simp [answer.seed]) ?_ ?_
    · rwa [show history s.storageMap.items [notice] = s.storageMap.items from answer.silent _]
        at handled
    · intro current
      cases h : r.changes current <;> simp [answer.changes, h]
    · intro a settled _
      rw [show history s.storageMap.items [notice] = s.storageMap.items from answer.silent _]
      exact effect a settled
  refine ⟨show Plain map.items by rw [same]; exact inv.1, ?_⟩
  intro j
  change Process.Ok map.items _
  rw [same]
  by_cases source : j = i
  · subst source
    simpa [send, System.update] using mine
  · simpa [send, System.update, source] using inv.2 j

/-- The storage manager makes a change, tells every process and answers the request. -/
theorem Inv.dispatched {id : StorageAreaID} {key newValue : Option Text} (inv : s.Inv)
    (requests : (s.processes i).up = r :: up) (asked : r.isGetValues = false)
    (answer : Answers notice r) (plain : Plain map.items)
    (changed : ∀ id, (Notice.dispatchStorageEvent id key newValue).apply s.storageMap.items = map.items)
    (effect : ∀ a, Settled s.storageMap.items (r :: up) a →
      Settled map.items up (a.didReceiveMessage notice)) :
    Inv (({ s.update i { s.processes i with up } with storageMap := map }.dispatchEvents i id key
      newValue).send i notice) := by
  have mine : Process.Ok map.items { s.processes i with
      up
      down := (s.processes i).down ++ [.dispatchStorageEvent id.1 key newValue, notice] } := by
    have after : history s.storageMap.items [.dispatchStorageEvent id.1 key newValue, notice] =
        map.items := (answer.silent _).trans (changed id.1)
    have handled := @Process.Ok.handled _ _ r up [.dispatchStorageEvent id.1 key newValue, notice]
      (inv.2 i) requests asked (by simp [answer.seed]) ?_ ?_
    · rwa [after] at handled
    · intro current
      cases h : r.changes current <;> simp [List.filterMap_cons, answer.changes, h]
    · intro a settled _ _
      -- its own event does not change the cache
      have own : a.didReceiveMessage (.dispatchStorageEvent id.1 key newValue) = a := if_neg id.2
      rw [after, own]
      exact effect a settled
  refine ⟨plain, ?_⟩
  intro j
  by_cases source : j = i
  · subst source
    simpa [send, dispatchEvents, broadcast, System.update] using mine
  · have notified := (inv.2 j).notified (n := .dispatchStorageEvent 0 key newValue) rfl
      fun a settled fits => settled.event fits
    rw [changed 0] at notified
    simpa [send, dispatchEvents, broadcast, System.update, source] using notified

end

theorem Inv.setItem {up : List Request} {id : StorageAreaID} {seed : Nat} {key value : Text}
    (inv : s.Inv) (requests : (s.processes i).up = .setItem id seed key value :: up) :
    ((s.update i { s.processes i with up }).setItem i id seed key value).Inv := by
  have answer := answers_didSetItem id seed key value
  simp only [System.setItem]
  split_ifs with refused
  · have same : ((s.update i { s.processes i with up }).storageMap.setItem key (some value)).map =
        s.storageMap := StorageMap.setItem_refused refused
    rw [refused]
    exact inv.answered requests rfl (answer true) (congrArg StorageMap.items same)
      fun a settled => settled.refused rfl
  · have accepted := Bool.eq_false_of_not_eq_true refused
    have effect : ((s.update i { s.processes i with up }).storageMap.setItem key
        (some value)).map.items = s.storageMap.items.insert key (some value) :=
      StorageMap.setItem_items accepted
    rw [accepted]
    refine inv.dispatched requests rfl (answer false) (effect ▸ plain_insert inv.1 key value)
      (fun _ => effect.symm) fun a settled => ?_
    rw [effect, StorageAreaMap.didReceiveMessage, didSetItem_accepted]
    exact settled.changed rfl

theorem Inv.removeItem {up : List Request} {id : StorageAreaID} {seed : Nat} {key : Text}
    (inv : s.Inv) (requests : (s.processes i).up = .removeItem id seed key :: up) :
    ((s.update i { s.processes i with up }).removeItem i id seed key).Inv := by
  have answer := answers_didRemoveItem id seed key
  simp only [System.removeItem]
  split_ifs with absent
  · have same : s.storageMap.items.erase key = s.storageMap.items :=
      erase_getItem inv.1 (Option.isNone_iff_eq_none.mp absent)
    apply inv.answered requests rfl answer same
    intro a settled
    have changed := settled.changed rfl
    rwa [show Request.apply s.storageMap.items (.removeItem id seed key) = s.storageMap.items from
      same] at changed
  · exact inv.dispatched requests rfl answer (plain_erase inv.1 key) (fun _ => rfl)
      fun a settled => settled.changed rfl

theorem Inv.clear {up : List Request} {id : StorageAreaID} {seed : Nat} (inv : s.Inv)
    (requests : (s.processes i).up = .clear id seed :: up) :
    ((s.update i { s.processes i with up }).clear i id seed).Inv := by
  have answer := answers_didClear id seed
  simp only [System.clear]
  split_ifs with empty
  · have empty' : s.storageMap.items = ∅ := (StorageMap.isEmpty_iff _).mp empty
    apply @Inv.answered _ _ s i _ up s.storageMap _ inv requests rfl answer rfl
    intro a settled
    rw [empty']
    exact settled.cleared
  · exact inv.dispatched requests rfl answer plain_empty (fun _ => rfl)
      fun a settled => settled.cleared

/-- The process goes on with the operation that waited for the values. -/
theorem Inv.getValues {up : List Request} {seed : Nat} (inv : s.Inv)
    (requests : (s.processes i).up = .getValues seed :: up) :
    ((s.update i { s.processes i with up }).getValues i seed).Inv := by
  have loaded := (inv.2 i).load inv.1 requests
  obtain ⟨operation, waits⟩ : ∃ operation, (s.processes i).waiting = some operation := by
    rcases (inv.2 i).sent with ⟨-, each⟩ | ⟨-, waits, -⟩
    · have other := (each (.getValues seed) (by simp [requests])).1
      cases other
    · exact Option.isSome_iff_exists.mp waits
  have performed := loaded.perform rfl rfl operation
  refine ⟨?_, fun j => ?_⟩
  · simpa [System.getValues, send, System.update, waits, StorageAreaMap.loadValues] using inv.1
  · by_cases source : j = i
    · subst source
      simpa [System.getValues, send, System.update, waits, StorageAreaMap.loadValues] using performed
    · simpa [System.getValues, send, System.update, waits, StorageAreaMap.loadValues, source] using
        inv.2 j

omit [DecidableEq P] in
theorem Inv.clearArea (inv : s.Inv) (quota : Nat) :
    Inv ({ s with storageMap := StorageMap.create quota }.broadcast fun _ => .clearCache) :=
  ⟨plain_empty, fun i => (inv.2 i).notified (n := .clearCache) rfl fun _ _ _ => settled_unloaded rfl⟩

/-! ## Runs -/

/-- No process has a pending change when a clear event of another process is applied to it. -/
def NoChangeAtClear (s : System P) : Action P → Prop
  | .deliver i => (s.processes i).ClearFindsNoChange
  | _ => True

/-- A process whose values are not loaded has nothing of its own on its way then. -/
def NothingOwnAtClear (s : System P) : Action P → Prop
  | .deliver i => (s.processes i).ClearFindsNothingOwn
  | _ => True

instance (s : System P) : (action : Action P) → Decidable (s.NoChangeAtClear action)
  | .deliver i => inferInstanceAs (Decidable (s.processes i).ClearFindsNoChange)
  | .perform _ _ | .clear _ _ | .handle _ | .clearArea => .isTrue trivial

instance (s : System P) : (action : Action P) → Decidable (s.NothingOwnAtClear action)
  | .deliver i => inferInstanceAs (Decidable (s.processes i).ClearFindsNothingOwn)
  | .perform _ _ | .clear _ _ | .handle _ | .clearArea => .isTrue trivial

theorem inv_step {t : System P} (action : Action P) (inv : s.Inv)
    (noChange : s.NoChangeAtClear action) (nothingOwn : s.NothingOwnAtClear action)
    (h : s.step action = some t) : t.Inv := by
  cases action with
  | perform i operation =>
    simp only [step] at h
    split_ifs at h with waits
    have running := Option.not_isSome_iff_eq_none.mp waits
    cases loaded : (s.processes i).area.storageMap with
    | none =>
      simp only [loaded, Option.some.injEq] at h
      exact h ▸ inv.update ((inv.2 i).wait running loaded operation)
    | some map =>
      simp only [loaded, Option.some.injEq] at h
      exact h ▸ inv.update ((inv.2 i).perform running loaded operation)
  | clear i sourceArea =>
    simp only [step] at h
    split_ifs at h with waits
    have running := Option.not_isSome_iff_eq_none.mp waits
    obtain rfl := Option.some.inj h
    exact inv.update ((inv.2 i).clear running sourceArea)
  | handle i =>
    simp only [step] at h
    cases requests : (s.processes i).up with
    | nil => simp [requests] at h
    | cons request up =>
      simp only [requests] at h
      cases request with
      | setItem id seed key value => exact Option.some.inj h ▸ inv.setItem requests
      | removeItem id seed key => exact Option.some.inj h ▸ inv.removeItem requests
      | clear id seed => exact Option.some.inj h ▸ inv.clear requests
      | getValues seed => exact Option.some.inj h ▸ inv.getValues requests
  | deliver i =>
    simp only [step] at h
    cases notices : (s.processes i).down with
    | nil => simp [notices] at h
    | cons notice down =>
      simp only [notices] at h
      split_ifs at h with waits
      have running := Option.not_isSome_iff_eq_none.mp waits
      obtain rfl := Option.some.inj h
      exact inv.update ((inv.2 i).deliver running notices noChange nothingOwn)
  | clearArea => exact Option.some.inj h ▸ inv.clearArea s.storageMap.quotaSize

/-- No message is in flight. -/
def Quiet (s : System P) : Prop := ∀ i, (s.processes i).up = [] ∧ (s.processes i).down = []

/-- Every loaded cache holds the items of the storage area and nothing is pending. -/
def Agree (s : System P) : Prop :=
  ∀ i map, (s.processes i).area.storageMap = some map →
    map.items = s.storageMap.items ∧ (s.processes i).area.pendingValueChanges = [] ∧
      (s.processes i).area.hasPendingClear = false ∧
      (s.processes i).area.hasPendingGetValues = false

omit [DecidableEq P] in
theorem Inv.agree (inv : s.Inv) (quiet : s.Quiet) : s.Agree := by
  intro i map loaded
  obtain ⟨noneUp, noneDown⟩ := quiet i
  have settled := (inv.2 i).ahead
  rw [noneUp, noneDown] at settled
  obtain ⟨idle, same, new, -, pending, shape⟩ := settled map loaded
  rcases shape with ⟨noClear, rfl⟩ | ⟨-, old, id, impossible, -⟩
  · exact ⟨same, pending, noClear, idle⟩
  · simp at impossible

/-- **Agreement across processes.** In every run from items with non-null values in which a
clear event of another process finds no pending change, and finds nothing of the process itself
on its way if its values are not loaded: whenever no message is in flight, every loaded cache is
the storage area. -/
theorem caches_agree {items : Items} (plain : Plain items) (quota quotaInBytes : Nat)
    {s : System P}
    (h : Reach step (fun s action => s.NoChangeAtClear action ∧ s.NothingOwnAtClear action)
      (start items quota quotaInBytes) s)
    (quiet : s.Quiet) : s.Agree :=
  Inv.agree (h.invariant (inv_start items plain quota quotaInBytes)
    fun _ action _ inv met stepped => inv_step action inv met.1 met.2 stepped) quiet

/-- The area of either of two processes. -/
def anArea : StorageAreaID := ⟨1, by decide⟩

/-- A process sets an item and clears the area. The other, which has loaded nothing, is told. -/
def clearedByOther : List (Action Bool) :=
  [.perform true (.setItem anArea [120] [49]), .handle true, .handle true, .deliver true,
    .deliver true, .deliver true, .clear true anArea, .handle true, .deliver true, .deliver true,
    .deliver false, .deliver false]

theorem caches_agree_clearedByOther :
    ∃ s : System Bool,
      Reach step (fun s action => s.NoChangeAtClear action ∧ s.NothingOwnAtClear action)
        (start ∅ noQuota noQuota) s ∧
      s.Quiet ∧ (∀ i, (s.processes i).area.storageMap.isSome = true) ∧ s.Agree := by
  have ran : ((run (fun s action => if s.NoChangeAtClear action ∧ s.NothingOwnAtClear action then
      step s action else none) (start ∅ noQuota noQuota) clearedByOther).any fun s =>
        ∀ i, (s.processes i).up = [] ∧ (s.processes i).down = [] ∧
          (s.processes i).area.storageMap.isSome = true) = true := by
    decide
  obtain ⟨s, ran, ended⟩ := (Option.any_eq_true _ _).mp ran
  have ended := of_decide_eq_true ended
  have reached := Reach.start.of_run ran
  have quiet : s.Quiet := fun i => ⟨(ended i).1, (ended i).2.1⟩
  exact ⟨s, reached, quiet, fun i => (ended i).2.2, caches_agree plain_empty _ _ reached quiet⟩

/-- A process loads the values and sets an item; then the data of the origin is deleted. Before
either arrives, the other process sets an item and clears the area. -/
def clearedWhileUnloaded : List (Action Bool) :=
  [.perform false .read, .handle false, .perform false (.setItem anArea [107] [49]), .clearArea,
    .perform true (.setItem anArea [120] [49]), .handle true, .handle true, .clear true anArea,
    .handle true, .handle false] ++ List.replicate 6 (.deliver false) ++
    List.replicate 7 (.deliver true)

/-- The clear event gives the first process an empty map, in which its own item is missing. -/
theorem caches_differ_clearedWhileUnloaded :
    ∃ s : System Bool, Reach step NoChangeAtClear (start ∅ noQuota noQuota) s ∧ s.Quiet ∧
      ¬ s.Agree := by
  have ran : ((run (fun s action => if s.NoChangeAtClear action then step s action else none)
      (start ∅ noQuota noQuota) clearedWhileUnloaded).any fun s =>
        (∀ i, (s.processes i).up = [] ∧ (s.processes i).down = []) ∧
          (s.processes false).area.storageMap.map StorageMap.items = some ∅ ∧
          s.storageMap.items = Finmap.singleton [107] (some [49])) = true := by
    decide
  obtain ⟨s, ran, ended⟩ := (Option.any_eq_true _ _).mp ran
  obtain ⟨quiet, cached, stored⟩ := of_decide_eq_true ended
  refine ⟨s, Reach.start.of_run ran, quiet, ?_⟩
  intro agree
  obtain ⟨map, loaded, empty⟩ := Option.map_eq_some_iff.mp cached
  have same := (agree false map loaded).1
  rw [empty, stored] at same
  exact absurd same (by decide)

end System

end NetRider.Storage
