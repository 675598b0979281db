import NetRider.VisitedLinks.VisitedLinkFirings

/-!
# Runs of the provider

A run is sound as long as link hashes are legal and the counts have room. The key count is the
number of stored hashes if no link comes a second time, and no link is lost if memory can be had
when it is needed.
-/

namespace NetRider.VisitedLinks

open NetRider.Wtf.HashTables

variable {systemPageSize : Nat} {memory : SharedMemory} {xs xs' added : List LinkHash}

namespace VisitedLinkProvider

variable {s t u : VisitedLinkProvider} {c : Circumstances}

/-! ## Firings -/

theorem Sound.frame (sound : Sound systemPageSize s xs) (withState without : List Process)
    (log : List Entry) : Sound systemPageSize { s with
      m_processesWithVisitedLinkState := withState
      m_processesWithoutVisitedLinkState := without
      log := log } xs where
  stored :=
    match sound.stored with
    | .none table size keys empty => .none table size keys empty
    | .some memory holds size least => .some memory holds size least
  half := sound.half
  counted := sound.counted
  distinct := sound.distinct
  legal := sound.legal
  waits := sound.waits

/-- The pending links are gone. -/
theorem Sound.idle (sound : Sound systemPageSize s xs) : Sound systemPageSize { s with
    m_pendingVisitedLinks := []
    timerActive := false } xs where
  stored :=
    match sound.stored with
    | .none table size keys empty => .none table size keys empty
    | .some memory holds size least => .some memory holds size least
  half := sound.half
  counted := sound.counted
  distinct := List.nodup_nil
  legal _ among := absurd among List.not_mem_nil
  waits active := absurd active Bool.false_ne_true

/-- What a firing has done when the processes are to be told. -/
structure Settled (systemPageSize : Nat) (s u : VisitedLinkProvider) (memory : SharedMemory)
    (xs xs' added : List LinkHash) : Prop where
  sound : Sound systemPageSize u xs'
  holds : u.m_table.Holds memory xs'
  members : ∀ h, h ∈ xs' ↔ h ∈ s.m_pendingVisitedLinks ∨ h ∈ xs
  fresh : (∀ h ∈ s.m_pendingVisitedLinks, h ∉ xs) →
    xs'.length = s.m_pendingVisitedLinks.length + xs.length
  size : u.m_tableSize = s.newTableSize systemPageSize
  keys : u.m_keyCount.toNat = s.m_keyCount.toNat + s.m_pendingVisitedLinks.length
  pending : u.m_pendingVisitedLinks = []
  withState : u.m_processesWithVisitedLinkState = s.m_processesWithVisitedLinkState
  without : u.m_processesWithoutVisitedLinkState = s.m_processesWithoutVisitedLinkState
  log : u.log = s.log ++ added.map .added
  identifier : s.m_tableSize = s.newTableSize systemPageSize →
    ∀ current, s.m_table.m_sharedMemory = some current → memory.identifier = current.identifier

theorem settled_of_holds (page : PageSize systemPageSize) (sound : Sound systemPageSize s xs)
    (active : s.timerActive = true) (fits : s.Fits) (memories : Nat) {table : VisitedLinkTable}
    {ys : List LinkHash} (holds : table.Holds memory ys) (same : ys.Perm xs)
    (length : memory.data.length = (s.newTableSize systemPageSize).toNat)
    (links : Iteration LinkHash)
    (identifier : s.m_tableSize = s.newTableSize systemPageSize →
      ∀ current, s.m_table.m_sharedMemory = some current →
        memory.identifier = current.identifier) :
    ∃ u memory' xs' added, addPending { s with
        m_pendingVisitedLinks := []
        timerActive := false
        m_table := table
        m_tableSize := s.newTableSize systemPageSize
        memories := memories } (links.order s.m_pendingVisitedLinks) = .ok (u, added) ∧
      Settled systemPageSize s u memory' xs xs' added := by
  have order := links.perm s.m_pendingVisitedLinks
  obtain ⟨k, small, power, enough, least, -⟩ := newTableSize_eq page sound active fits
  have counted := sound.counted
  have keys := (sound.count active fits).1
  have positive := (sound.count active fits).2
  obtain ⟨table', memory', adds, holds', identifier', size'⟩ :=
    addPending_eq (links.order s.m_pendingVisitedLinks) (s := { s with
      m_pendingVisitedLinks := []
      timerActive := false
      m_table := table
      m_tableSize := s.newTableSize systemPageSize
      memories := memories }) holds
      (fun h among => sound.legal h (order.mem_iff.mp among)) (order.nodup_iff.mpr sound.distinct)
      (by rw [order.length_eq, same.length_eq, length, power]; omega)
  have few : ((links.order s.m_pendingVisitedLinks).filter (· ∉ ys)).length ≤
      s.m_pendingVisitedLinks.length := by
    rw [← order.length_eq]
    exact List.length_filter_le ..
  have keys' : (s.m_keyCount + BitVec.ofNat 32
      (links.order s.m_pendingVisitedLinks).length).toNat =
      s.m_keyCount.toNat + s.m_pendingVisitedLinks.length := by
    rw [order.length_eq]
    exact keys
  refine ⟨_, memory', _, _, adds, ?_, holds', fun h => ?_, fun fresh => ?_, rfl, keys', rfl, rfl,
    rfl, rfl, fun kept current shared => identifier'.trans (identifier kept current shared)⟩
  · refine ⟨.some memory' holds' (size'.trans length) (by rw [power]; exact least), ?_, ?_,
      List.nodup_nil, fun _ among => absurd among List.not_mem_nil,
      fun active => absurd active Bool.false_ne_true⟩
    · rw [keys', power]
      exact enough
    · rw [keys', List.length_append, List.length_reverse, same.length_eq]
      omega
  · rw [List.mem_append, List.mem_reverse, List.mem_filter, order.mem_iff, decide_eq_true_iff,
      same.mem_iff]
    tauto
  · rw [List.length_append, List.length_reverse, same.length_eq, List.filter_eq_self.mpr ?_,
      order.length_eq]
    intro h among
    rw [decide_eq_true_iff, same.mem_iff]
    exact fresh h (order.mem_iff.mp among)

/-- **A firing fails for want of memory, or it adds the pending links and tells the processes.** -/
theorem fire_eq (page : PageSize systemPageSize) (sound : Sound systemPageSize s xs)
    (active : s.timerActive = true) (fits : s.Fits) (c : Circumstances) :
    s.m_tableSize ≠ s.newTableSize systemPageSize ∧ c.creates = false ∧
        s.pendingVisitedLinksTimerFired systemPageSize c = .ok ({ s with
          m_pendingVisitedLinks := []
          timerActive := false }, false) ∨
      ∃ u memory xs' added, Settled systemPageSize s u memory xs xs' added ∧
        s.pendingVisitedLinksTimerFired systemPageSize c =
          let told := notify (s.m_tableSize != s.newTableSize systemPageSize) added
            (c.withState.order u.m_processesWithVisitedLinkState) u
          giveTable c.handles (c.withoutState.order told.m_processesWithoutVisitedLinkState)
            told := by
  obtain ⟨k, small, power, enough, least, -⟩ := newTableSize_eq page sound active fits
  have counted := sound.counted
  have positive := (sound.count active fits).2
  rw [pendingVisitedLinksTimerFired]
  by_cases same : s.m_tableSize = s.newTableSize systemPageSize
  · -- The table keeps its memory.
    have kept : (s.m_tableSize != s.newTableSize systemPageSize) = false :=
      bne_eq_false_iff_eq.mpr same
    rw [kept]
    cases sound.stored with
    | none table size =>
      rw [← same, size] at power
      exact absurd power (Nat.two_pow_pos k).ne
    | some memory holds size page_least =>
      obtain ⟨u, memory', xs', added, adds, settled⟩ := settled_of_holds page sound active fits
        s.memories holds (List.Perm.refl xs) (same ▸ size) c.links
        fun _ current shared => by
          rw [holds.shared, Option.some.injEq] at shared
          rw [shared]
      refine .inr ⟨u, memory', xs', added, settled, ?_⟩
      rw [← same] at adds
      simp only [Bool.false_and, Bool.false_eq_true, if_false]
      rw [adds]
  · have resized : (s.m_tableSize != s.newTableSize systemPageSize) = true :=
      bne_iff_ne.mpr same
    rw [resized]
    cases creates : c.creates with
    | false => exact .inl ⟨same, rfl, rfl⟩
    | true =>
      obtain ⟨table, memory, ys, grows, holds, perm, length⟩ :=
        grow_eq (sound.idle) small power (by omega)
      obtain ⟨u, memory', xs', added, adds, settled⟩ := settled_of_holds page sound active fits
        (s.memories + 1) holds perm (length.trans power.symm) c.links
        fun kept => absurd kept same
      refine .inr ⟨u, memory', xs', added, settled, ?_⟩
      simp only [Bool.not_true, Bool.and_false, Bool.false_eq_true, if_false, if_true]
      rw [grows]
      simp only
      rw [adds]

theorem Settled.finish (settled : Settled systemPageSize s u memory xs xs' added)
    (resized : Bool) (handles : Process → Bool) (processes : List Process)
    (order : List Process → List Process) :
    ∃ withState without log ended,
      (let told := notify resized added processes u
       giveTable handles (order told.m_processesWithoutVisitedLinkState) told) = .ok ({ u with
        m_processesWithVisitedLinkState := withState
        m_processesWithoutVisitedLinkState := without
        log := log }, ended) := by
  obtain ⟨without, log, notifies⟩ := notify_frame (s := u) resized added processes
  rw [notifies]
  obtain ⟨withState, without', log', ended, gives⟩ := giveTable_frame (s := { u with
    m_processesWithoutVisitedLinkState := without
    log := log }) settled.holds.shared handles (order without)
  exact ⟨withState, without', log', ended, gives⟩

/-- A firing keeps the provider sound. It changes the table only if it can have the memory. -/
theorem fire_sound (page : PageSize systemPageSize) (sound : Sound systemPageSize s xs)
    (active : s.timerActive = true) (fits : s.Fits) (c : Circumstances) :
    ∃ t ended xs', s.pendingVisitedLinksTimerFired systemPageSize c = .ok (t, ended) ∧
      Sound systemPageSize t xs' ∧ (c.creates = true →
        t.m_tableSize = s.newTableSize systemPageSize ∧
        t.m_keyCount.toNat = s.m_keyCount.toNat + s.m_pendingVisitedLinks.length ∧
        ((∀ h ∈ s.m_pendingVisitedLinks, h ∉ xs) →
          xs'.length = s.m_pendingVisitedLinks.length + xs.length)) := by
  rcases fire_eq page sound active fits c with
    ⟨-, fails, fires⟩ | ⟨u, memory, xs', added, settled, fires⟩
  · refine ⟨_, _, xs, fires, sound.idle, fun creates => ?_⟩
    rw [fails] at creates
    cases creates
  · obtain ⟨withState, without, log, ended, finishes⟩ := settled.finish
      (s.m_tableSize != s.newTableSize systemPageSize) c.handles
      (c.withState.order u.m_processesWithVisitedLinkState) c.withoutState.order
    exact ⟨_, ended, xs', fires.trans finishes, settled.sound.frame .., fun _ =>
      ⟨settled.size, settled.keys, settled.fresh⟩⟩

theorem Sound.waiting (sound : Sound systemPageSize s xs) {linkHash : LinkHash}
    (legal : LegalHash linkHash) : Sound systemPageSize (s.addVisitedLink linkHash) xs where
  stored :=
    match sound.stored with
    | .none table size keys empty => .none table size keys empty
    | .some memory holds size least => .some memory holds size least
  half := sound.half
  counted := sound.counted
  distinct := sound.distinct.insert
  legal h among := by
    rcases List.mem_insert_iff.mp among with rfl | old
    · exact legal
    · exact sound.legal h old
  waits _ _ := by
    rw [addVisitedLink]
    exact List.ne_nil_of_mem (List.mem_insert_self ..)

theorem Sound.launched (sound : Sound systemPageSize s xs) (process : Process) :
    Sound systemPageSize (s.processDidFinishLaunching process) xs where
  stored :=
    match sound.stored with
    | .none table size keys empty => .none table size keys empty
    | .some memory holds size least => .some memory holds size least
  half := sound.half
  counted := sound.counted
  distinct := sound.distinct
  legal := sound.legal
  waits active keys := by
    have none : s.m_keyCount = 0 := keys
    rw [processDidFinishLaunching, none, bne_self_eq_false, Bool.or_false] at active
    exact sound.waits active none

theorem Sound.closed (sound : Sound systemPageSize s xs) (process : Process) :
    Sound systemPageSize (s.processDidClose process) xs :=
  sound.frame _ _ s.log

theorem sound_new : Sound systemPageSize new [] where
  stored := .none rfl rfl rfl rfl
  half := Nat.le_refl _
  counted := Nat.le_refl _
  distinct := List.nodup_nil
  legal _ among := absurd among List.not_mem_nil
  waits active := absurd active Bool.false_ne_true

/-! ## Runs -/

theorem run_append (before after : List Event) :
    run systemPageSize s (before ++ after) =
      match run systemPageSize s before with
      | .error fault => .error fault
      | .ok t => run systemPageSize t after := by
  induction before generalizing s with
  | nil => rfl
  | cons event rest ih =>
    rw [List.cons_append, run, run]
    cases s.step systemPageSize event with
    | error fault => rfl
    | ok t => exact ih

theorem Meets.append {condition : VisitedLinkProvider → Event → Prop} {before after : List Event}
    (meets : Meets systemPageSize condition s (before ++ after)) :
    Meets systemPageSize condition s before ∧ ∀ t, run systemPageSize s before = .ok t →
      Meets systemPageSize condition t after := by
  induction before generalizing s with
  | nil =>
    refine ⟨trivial, fun t ran => ?_⟩
    cases ran
    exact meets
  | cons event rest ih =>
    refine ⟨⟨meets.1, fun t steps => (ih (meets.2 t steps)).1⟩, fun t ran => ?_⟩
    rw [run] at ran
    cases result : s.step systemPageSize event with
    | error fault =>
      rw [result] at ran
      cases ran
    | ok u =>
      rw [result] at ran
      exact (ih (meets.2 u result)).2 t ran

/-- What holds at first and is kept by every step that meets the condition holds behind a run. -/
theorem run_keeps {condition : VisitedLinkProvider → Event → Prop}
    {invariant : VisitedLinkProvider → Prop}
    (kept : ∀ s event, invariant s → condition s event →
      ∃ t, s.step systemPageSize event = .ok t ∧ invariant t)
    {events : List Event} (first : invariant s)
    (meets : Meets systemPageSize condition s events) :
    ∃ t, run systemPageSize s events = .ok t ∧ invariant t := by
  induction events generalizing s with
  | nil => exact ⟨s, rfl, first⟩
  | cons event rest ih =>
    obtain ⟨t, steps, next⟩ := kept s event first meets.1
    rw [run, steps]
    exact ih next (meets.2 t steps)

/-! ## The table stays proportionate -/

/-- The number of hashes in the table. -/
def storedCount (s : VisitedLinkProvider) : Nat := s.m_table.stored.dedup.length

/-- The keys are counted, half of the table is free, and every search comes to an end. -/
structure Proportionate (s : VisitedLinkProvider) : Prop where
  keys : s.m_keyCount.toNat = s.storedCount
  half : 2 * s.storedCount ≤ s.m_table.m_tableSize
  ends : ∀ h, ∃ visited, s.m_table.isLinkVisited h = .ok visited

/-- Every link is legal, and none that waits at a firing is in the table. The memory can be had,
and there are not more than `2 ^ 30` links. -/
def New (s : VisitedLinkProvider) : Event → Prop
  | .addVisitedLink linkHash => LegalHash linkHash
  | .pendingVisitedLinksTimerFired c =>
    s.timerActive = true → c.creates = true ∧ s.Fits ∧
      ∀ h ∈ s.m_pendingVisitedLinks, h ∉ s.m_table.stored
  | _ => True

theorem Sound.storedCount (sound : Sound systemPageSize s xs) :
    s.storedCount = xs.length ∧ s.m_table.m_tableSize = s.m_tableSize.toNat ∧
      ∀ h, h ∈ s.m_table.stored ↔ h ∈ xs := by
  rw [VisitedLinkProvider.storedCount]
  cases sound.stored with
  | none table size keys empty =>
    rw [table, size, empty]
    exact ⟨rfl, rfl, fun _ => Iff.rfl⟩
  | some memory holds size least =>
    have distinct := holds.stored.nodup_iff.mpr holds.nodup
    rw [distinct.dedup, holds.stored.length_eq, holds.size]
    exact ⟨rfl, size, fun h => holds.stored.mem_iff⟩

theorem Sound.visited (sound : Sound systemPageSize s xs) (h : LinkHash) :
    s.m_table.isLinkVisited h = .ok (decide (h ∈ xs)) := by
  cases sound.stored with
  | none table size keys empty =>
    rw [table, empty, decide_eq_false List.not_mem_nil]
    rfl
  | some memory holds size least =>
    have half := sound.half
    have counted := sound.counted
    have positive : 0 < memory.data.length := by
      obtain ⟨p, -, pow⟩ := holds.buckets.size
      rw [pow]
      exact Nat.two_pow_pos p
    exact VisitedLinkTable.isLinkVisited_eq holds (by omega)

/-- Sound, and every key is counted once. -/
def Counted (systemPageSize : Nat) (s : VisitedLinkProvider) : Prop :=
  ∃ xs, Sound systemPageSize s xs ∧ s.m_keyCount.toNat = xs.length

theorem Counted.proportionate (counted : Counted systemPageSize s) : s.Proportionate := by
  obtain ⟨xs, sound, keys⟩ := counted
  obtain ⟨count, size, -⟩ := sound.storedCount
  have half := sound.half
  exact ⟨keys.trans count.symm, by omega, fun h => ⟨_, sound.visited h⟩⟩

theorem step_counted (page : PageSize systemPageSize) (s : VisitedLinkProvider) (event : Event)
    (counted : Counted systemPageSize s) (new : s.New event) :
    ∃ t, s.step systemPageSize event = .ok t ∧ Counted systemPageSize t := by
  obtain ⟨xs, sound, keys⟩ := counted
  cases event with
  | processDidFinishLaunching process => exact ⟨_, rfl, xs, sound.launched process, keys⟩
  | addVisitedLink linkHash => exact ⟨_, rfl, xs, sound.waiting new, keys⟩
  | processDidClose process => exact ⟨_, rfl, xs, sound.closed process, keys⟩
  | pendingVisitedLinksTimerFired c =>
    rw [step]
    by_cases active : s.timerActive = true
    · obtain ⟨creates, fits, fresh⟩ := new active
      obtain ⟨t, ended, xs', fires, sound', grows⟩ := fire_sound page sound active fits c
      obtain ⟨-, keys', length⟩ := grows creates
      rw [if_pos active, fires]
      refine ⟨t, rfl, xs', sound', ?_⟩
      rw [keys', keys, length fun h among stored =>
        fresh h among ((sound.storedCount.2.2 h).mpr stored), Nat.add_comm]
    · rw [if_neg active]
      exact ⟨s, rfl, xs, sound, keys⟩

/-- A step lets the table grow only when more than half of it is needed. -/
theorem step_grows (page : PageSize systemPageSize) {event : Event}
    (counted : Counted systemPageSize s) (new : s.New event)
    (steps : s.step systemPageSize event = .ok t)
    (more : s.m_table.m_tableSize < t.m_table.m_tableSize) :
    s.m_table.m_tableSize < 2 * (s.storedCount + s.m_pendingVisitedLinks.length) := by
  obtain ⟨xs, sound, keys⟩ := counted
  cases event with
  | processDidFinishLaunching process =>
    cases steps
    exact absurd more (Nat.lt_irrefl _)
  | addVisitedLink linkHash =>
    cases steps
    exact absurd more (Nat.lt_irrefl _)
  | processDidClose process =>
    cases steps
    exact absurd more (Nat.lt_irrefl _)
  | pendingVisitedLinksTimerFired c =>
    rw [step] at steps
    by_cases active : s.timerActive = true
    · obtain ⟨creates, fits, -⟩ := new active
      obtain ⟨t', ended, xs', fires, sound', grows⟩ := fire_sound page sound active fits c
      rw [if_pos active, fires] at steps
      cases steps
      obtain ⟨count, size, -⟩ := sound.storedCount
      rw [size, sound'.storedCount.2.1, (grows creates).1] at more
      obtain ⟨-, -, -, -, -, needed⟩ := newTableSize_eq page sound active fits
      rw [size, count, ← keys]
      refine needed fun same => ?_
      rw [← same] at more
      exact Nat.lt_irrefl _ more
    · rw [if_neg active] at steps
      cases steps
      exact absurd more (Nat.lt_irrefl _)

/-- **While every link comes once, the table stays proportionate.** -/
theorem table_proportionate (page : PageSize systemPageSize) {before after : List Event}
    (meets : Meets systemPageSize New new (before ++ after)) :
    ∃ s, run systemPageSize new before = .ok s ∧ s.Proportionate ∧
      ∀ event rest, after = event :: rest →
        ∃ t, s.step systemPageSize event = .ok t ∧
          (s.m_table.m_tableSize < t.m_table.m_tableSize →
            s.m_table.m_tableSize < 2 * (s.storedCount + s.m_pendingVisitedLinks.length)) := by
  obtain ⟨meets', rest_meets⟩ := meets.append
  obtain ⟨s, ran, counted⟩ := run_keeps (step_counted page) ⟨[], sound_new, rfl⟩ meets'
  refine ⟨s, ran, counted.proportionate, fun event rest split => ?_⟩
  have new := rest_meets s ran
  rw [split] at new
  obtain ⟨t, steps, -⟩ := step_counted page s event counted new.1
  exact ⟨t, steps, step_grows page counted new.1 steps⟩

/-- The sets are iterated as they are, and nothing fails. -/
def plain : Circumstances where
  links := ⟨fun set => set, List.Perm.refl⟩
  withState := ⟨fun set => set, List.Perm.refl⟩
  withoutState := ⟨fun set => set, List.Perm.refl⟩
  creates := true
  handles _ := true

theorem table_proportionate_one :
    ∃ s, run 4096 new [.addVisitedLink 5, .pendingVisitedLinksTimerFired plain] = .ok s ∧
      s.Proportionate := by
  have meets : Meets 4096 New new
      ([.addVisitedLink 5, .pendingVisitedLinksTimerFired plain] ++ []) := by
    refine ⟨(by decide : LegalHash 5), fun s steps => ?_⟩
    cases steps
    refine ⟨fun _ => ⟨rfl, ?_, ?_⟩, fun _ _ => trivial⟩
    · rw [Fits]
      decide
    · intro h _
      exact List.not_mem_nil
  obtain ⟨s, ran, proportionate, -⟩ := table_proportionate ⟨12, by decide, rfl⟩ meets
  exact ⟨s, ran, proportionate⟩

/-- A link that comes again behind a firing is counted again. -/
theorem repeated_link_counted :
    (run 4096 new [.addVisitedLink 5, .pendingVisitedLinksTimerFired plain,
        .addVisitedLink 5, .pendingVisitedLinksTimerFired plain]).map
      (fun s => (s.m_keyCount.toNat, s.storedCount)) = .ok (2, 1) := by
  decide +kernel

end VisitedLinkProvider

end NetRider.VisitedLinks
