import Mathlib
import NetRider.VisitedLinks.VisitedLinkRuns

/-!
# What the processes are told

A process hears of the table's memory and of the hashes that are added. Behind a firing that does
not fail, every process with state has the memory of the table and has been told of everything that
was added since it got it.
-/

namespace NetRider.VisitedLinks

variable {systemPageSize identifier : Nat} {memory : SharedMemory}
  {xs xs' added hashes : List LinkHash} {process other : Process} {log : List Entry}

/-! ## What a process has heard -/

/-- The memory that a process was last given, and the hashes added since it was given it that it
has not been told of. -/
structure View where
  table : Option Nat
  missing : List LinkHash
deriving DecidableEq

def View.hear (process : Process) (v : View) : Entry → View
  | .added linkHash => { v with missing := linkHash :: v.missing }
  | .sent receiver message =>
    if receiver = process then
      match message with
      | .visitedLinkStateChanged linkHashes =>
        { v with missing := v.missing.filter (· ∉ linkHashes) }
      | .allVisitedLinkStateChanged => { v with missing := [] }
      | .setVisitedLinkTable memory => ⟨some memory, []⟩
    else v

def view (process : Process) (log : List Entry) : View :=
  log.foldl (View.hear process) ⟨none, []⟩

theorem view_append (log more : List Entry) :
    view process (log ++ more) = more.foldl (View.hear process) (view process log) :=
  List.foldl_append ..

/-- The process has the memory, and was told of all but some of `hashes`. -/
def Behind (process : Process) (identifier : Nat) (hashes : List LinkHash) (log : List Entry) :
    Prop :=
  (view process log).table = some identifier ∧ ∀ h ∈ (view process log).missing, h ∈ hashes

/-- A message that is not about another memory leaves no process more behind. -/
theorem Behind.sent (behind : Behind process identifier hashes log) {message : Message}
    (same : ∀ other, message = .setVisitedLinkTable other → other = identifier) :
    Behind process identifier hashes (log ++ [.sent other message]) := by
  rw [Behind, view_append, List.foldl_cons, List.foldl_nil, View.hear.eq_def]
  by_cases receives : other = process
  · simp only [if_pos receives]
    cases message with
    | visitedLinkStateChanged linkHashes =>
      exact ⟨behind.1, fun h among => behind.2 h (List.mem_of_mem_filter among)⟩
    | allVisitedLinkStateChanged =>
      exact ⟨behind.1, fun h among => absurd among List.not_mem_nil⟩
    | setVisitedLinkTable other =>
      exact ⟨congrArg some (same other rfl), fun h among => absurd among List.not_mem_nil⟩
  · simp only [if_neg receives]
    exact behind

/-- A process that is told of all that was added is not behind. -/
theorem Behind.told (behind : Behind process identifier hashes log) {message : Message}
    (tells : message = .visitedLinkStateChanged hashes ∨ message = .allVisitedLinkStateChanged) :
    Behind process identifier [] (log ++ [.sent process message]) := by
  rw [Behind, view_append, List.foldl_cons, List.foldl_nil, View.hear.eq_def]
  simp only [if_true]
  rcases tells with rfl | rfl
  · refine ⟨behind.1, fun h among => ?_⟩
    obtain ⟨missing, untold⟩ := List.mem_filter.mp among
    exact absurd (behind.2 h missing) (of_decide_eq_true untold)
  · exact ⟨behind.1, fun h among => absurd among List.not_mem_nil⟩

/-- A process that is given the memory is not behind. -/
theorem behind_given :
    Behind process identifier []
      (log ++ [.sent process (.setVisitedLinkTable identifier)] ++
        [.sent process .allVisitedLinkStateChanged]) := by
  refine Behind.told (?_ : Behind process identifier [] _) (.inr rfl)
  rw [Behind, view_append, List.foldl_cons, List.foldl_nil, View.hear, if_pos rfl]
  exact ⟨rfl, fun h among => absurd among List.not_mem_nil⟩

/-- What is added has not been told yet. -/
theorem Behind.adds (added : List LinkHash) (behind : Behind process identifier hashes log) :
    Behind process identifier (added ++ hashes) (log ++ added.map .added) := by
  induction added generalizing log hashes with
  | nil =>
    rw [List.map_nil, List.append_nil]
    exact behind
  | cons h rest ih =>
    have one : Behind process identifier (h :: hashes) (log ++ [.added h]) := by
      rw [Behind, view_append, List.foldl_cons, List.foldl_nil, View.hear]
      exact ⟨behind.1, fun x among => by
        rcases List.mem_cons.mp among with rfl | old
        · exact List.mem_cons_self
        · exact List.mem_cons_of_mem h (behind.2 x old)⟩
    have all := ih one
    rw [List.append_assoc, List.singleton_append] at all
    refine ⟨all.1, fun x among => ?_⟩
    have inside := all.2 x among
    simp only [List.mem_append, List.mem_cons] at inside ⊢
    tauto

namespace VisitedLinkProvider

variable {s t u : VisitedLinkProvider} {c : Circumstances}

/-! ## Loops over processes -/

/-- No process is left behind more than before. -/
theorem notify_keeps {resized : Bool} {processes : List Process}
    (behind : Behind process identifier hashes s.log) :
    Behind process identifier hashes (notify resized added processes s).log := by
  induction processes generalizing s with
  | nil => exact behind
  | cons receiver rest ih =>
    rw [notify]
    apply ih
    cases resized with
    | true => exact behind
    | false =>
      simp only [Bool.false_eq_true, if_false]
      split
      · exact behind.sent fun _ same => by cases same
      · exact behind.sent fun _ same => by cases same

/-- A table of the old size: the processes with state are told what was added. -/
theorem notify_tells {processes : List Process} (among : process ∈ processes)
    (behind : Behind process identifier added s.log) :
    Behind process identifier [] (notify false added processes s).log := by
  induction processes generalizing s with
  | nil => exact absurd among List.not_mem_nil
  | cons receiver rest ih =>
    rw [notify]
    simp only [Bool.false_eq_true, if_false]
    rcases List.mem_cons.mp among with rfl | later
    · apply notify_keeps
      split
      · exact behind.told (.inl rfl)
      · exact behind.told (.inr rfl)
    · apply ih later
      split
      · exact behind.sent fun _ same => by cases same
      · exact behind.sent fun _ same => by cases same

/-- A new table: the processes with state are to be given it. -/
theorem notify_resized (added : List LinkHash) (processes : List Process) :
    process ∈ (notify true added processes s).m_processesWithoutVisitedLinkState ↔
      process ∈ processes ∨ process ∈ s.m_processesWithoutVisitedLinkState := by
  induction processes generalizing s with
  | nil =>
    rw [notify]
    exact (or_iff_right List.not_mem_nil).symm
  | cons receiver rest ih =>
    rw [notify, ih]
    simp only [if_true, List.mem_insert_iff, List.mem_cons]
    tauto

theorem notify_same (added : List LinkHash) (processes : List Process) :
    (notify false added processes s).m_processesWithoutVisitedLinkState =
      s.m_processesWithoutVisitedLinkState := by
  induction processes generalizing s with
  | nil => rfl
  | cons receiver rest ih =>
    rw [notify, ih]
    simp only [Bool.false_eq_true, if_false]
    split <;> rfl

/-- What the loop over the processes without state ends with. -/
theorem giveTable_tells (shared : s.m_table.m_sharedMemory = some memory)
    {handles : Process → Bool} {processes : List Process} {ended : Bool}
    (gives : giveTable handles processes s = .ok (t, ended)) :
    (∀ process hashes, Behind process memory.identifier hashes s.log →
        Behind process memory.identifier hashes t.log) ∧
      (∀ process ∈ t.m_processesWithVisitedLinkState,
        process ∈ s.m_processesWithVisitedLinkState ∨
          Behind process memory.identifier [] t.log) ∧
      (ended = true → t.m_processesWithoutVisitedLinkState = [] ∧
        ∀ process ∈ processes, Behind process memory.identifier [] t.log) ∧
      (ended = false →
        t.m_processesWithoutVisitedLinkState = s.m_processesWithoutVisitedLinkState) := by
  induction processes generalizing s with
  | nil =>
    cases gives
    exact ⟨fun _ _ behind => behind, fun _ among => .inl among,
      fun _ => ⟨rfl, fun _ among => absurd among List.not_mem_nil⟩, fun ended => by cases ended⟩
  | cons receiver rest ih =>
    rw [giveTable, shared] at gives
    simp only at gives
    by_cases handled : handles receiver = true
    · rw [if_pos handled] at gives
      obtain ⟨keeps, states, ends, stops⟩ := ih (s := { (s.send receiver
        (.setVisitedLinkTable memory.identifier)).send receiver .allVisitedLinkStateChanged with
          m_processesWithVisitedLinkState := s.m_processesWithVisitedLinkState.insert receiver })
        shared gives
      have given : Behind receiver memory.identifier [] t.log := keeps receiver [] behind_given
      refine ⟨fun p hashes behind => keeps p hashes ?_, fun p among => ?_, fun ended => ?_, stops⟩
      · have first : Behind p memory.identifier hashes
            (s.log ++ [.sent receiver (.setVisitedLinkTable memory.identifier)]) :=
          behind.sent fun other same => by
            cases same
            rfl
        exact first.sent fun _ same => by cases same
      · rcases states p among with earlier | behind
        · rcases List.mem_insert_iff.mp earlier with rfl | old
          · exact .inr given
          · exact .inl old
        · exact .inr behind
      · obtain ⟨empty, all⟩ := ends ended
        refine ⟨empty, fun p among => ?_⟩
        rcases List.mem_cons.mp among with rfl | later
        · exact given
        · exact all p later
    · rw [if_neg handled] at gives
      cases gives
      exact ⟨fun _ _ behind => behind, fun _ among => .inl among,
        fun ended => absurd ended Bool.false_ne_true, fun _ => rfl⟩

/-! ## Firings -/

/-- The process has the memory of the table and knows what is in it. -/
def Informed (s : VisitedLinkProvider) (process : Process) : Prop :=
  ∃ memory, s.m_table.m_sharedMemory = some memory ∧
    view process s.log = ⟨some memory.identifier, []⟩

/-- Every process with state that is not to get the table is informed. -/
def Told (s : VisitedLinkProvider) : Prop :=
  ∀ process ∈ s.m_processesWithVisitedLinkState,
    process ∉ s.m_processesWithoutVisitedLinkState → s.Informed process

theorem informed_of_behind (shared : s.m_table.m_sharedMemory = some memory)
    (behind : Behind process memory.identifier [] s.log) : s.Informed process := by
  refine ⟨memory, shared, ?_⟩
  have none := List.eq_nil_iff_forall_not_mem.mpr fun h among =>
    absurd (behind.2 h among) List.not_mem_nil
  rw [← behind.1, ← none]

theorem Informed.behind (informed : s.Informed process) :
    ∃ memory, s.m_table.m_sharedMemory = some memory ∧
      Behind process memory.identifier [] s.log := by
  obtain ⟨memory, shared, views⟩ := informed
  refine ⟨memory, shared, ?_⟩
  rw [Behind, views]
  exact ⟨rfl, fun _ among => among⟩

/-- **A firing that comes to its end informs every process with state.** -/
theorem settled_tells (settled : Settled systemPageSize s u memory xs xs' added) (told : s.Told)
    {ended : Bool} {order : List Process → List Process} {processes : List Process}
    (perm : ∀ set, (order set).Perm set)
    (all : processes.Perm s.m_processesWithVisitedLinkState)
    (fires : (let told := notify (s.m_tableSize != s.newTableSize systemPageSize) added processes u
      giveTable c.handles (order told.m_processesWithoutVisitedLinkState) told) =
        .ok (t, ended)) :
    t.Told ∧ (ended = true → ∀ process ∈ t.m_processesWithVisitedLinkState, t.Informed process) := by
  obtain ⟨without, log, notifies⟩ := notify_frame (s := u)
    (s.m_tableSize != s.newTableSize systemPageSize) added processes
  -- What the first loop leaves.
  have first : ∀ process ∈ s.m_processesWithVisitedLinkState, process ∉ without →
      Behind process memory.identifier [] log := by
    intro process among missing
    cases resized : s.m_tableSize != s.newTableSize systemPageSize with
    | true =>
      rw [resized] at notifies
      have inside := (notify_resized (s := u) added processes).mpr
        (.inl (all.mem_iff.mpr among))
      rw [notifies] at inside
      exact absurd inside missing
    | false =>
      rw [resized] at notifies
      have kept : u.m_processesWithoutVisitedLinkState = without := by
        rw [← notify_same (s := u) added processes, notifies]
      obtain ⟨current, shared, behind⟩ := (told process among (by
        rw [← settled.without, kept]
        exact missing)).behind
      rw [← settled.identifier (bne_eq_false_iff_eq.mp resized) current shared] at behind
      have adds := behind.adds added
      rw [List.append_nil, ← settled.log] at adds
      have tells := notify_tells (all.mem_iff.mpr among) adds
      rw [notifies] at tells
      exact tells
  rw [notifies] at fires
  have shared : t.m_table.m_sharedMemory = some memory := by
    obtain ⟨withState, without', log', ended', gives⟩ := giveTable_frame (s := { u with
      m_processesWithoutVisitedLinkState := without
      log := log }) settled.holds.shared c.handles (order without)
    have same := gives.symm.trans fires
    rw [Except.ok.injEq, Prod.mk.injEq] at same
    rw [← same.1]
    exact settled.holds.shared
  obtain ⟨keeps, states, ends, stops⟩ := giveTable_tells (s := { u with
    m_processesWithoutVisitedLinkState := without
    log := log }) settled.holds.shared fires
  have all_told : ∀ process ∈ t.m_processesWithVisitedLinkState,
      process ∉ t.m_processesWithoutVisitedLinkState ∨ ended = true →
        Behind process memory.identifier [] t.log := by
    intro process among either
    rcases states process among with earlier | behind
    · by_cases missing : process ∈ without
      · cases ended with
        | true => exact (ends rfl).2 process ((perm without).mem_iff.mpr missing)
        | false =>
          rcases either with absent | ended
          · rw [stops rfl] at absent
            exact absurd missing absent
          · cases ended
      · exact keeps process [] (first process (settled.withState ▸ earlier) missing)
    · exact behind
  exact ⟨fun process among absent =>
      informed_of_behind shared (all_told process among (.inl absent)),
    fun ended process among => informed_of_behind shared (all_told process among (.inr ended))⟩

/-! ## Runs -/

/-- Every link is legal, and there is room for it in a count. If memory that is needed cannot be
had, all that waits is in the table. -/
def Provided (systemPageSize : Nat) (s : VisitedLinkProvider) : Event → Prop
  | .addVisitedLink linkHash => LegalHash linkHash
  | .pendingVisitedLinksTimerFired c =>
    s.timerActive = true → s.Fits ∧ (c.creates = true ∨
      s.newTableSize systemPageSize = s.m_tableSize ∨
      ∀ h ∈ s.m_pendingVisitedLinks, h ∈ s.m_table.stored)
  | _ => True

/-- The table and what waits are the `links` that were added. -/
structure Traced (systemPageSize : Nat) (s : VisitedLinkProvider) (links xs : List LinkHash) :
    Prop where
  sound : Sound systemPageSize s xs
  told : s.Told
  links : ∀ h, h ∈ s.m_pendingVisitedLinks ∨ h ∈ xs ↔ h ∈ links

theorem told_closed (told : s.Told) (process : Process) : (s.processDidClose process).Told := by
  intro p among absent
  obtain ⟨inside, other⟩ := List.mem_filter.mp among
  apply told p inside
  intro old
  exact absent (List.mem_filter.mpr ⟨old, other⟩)

theorem told_launched (told : s.Told) (process : Process) :
    (s.processDidFinishLaunching process).Told := by
  intro p among absent
  exact told p among fun old => absent (List.mem_insert_of_mem old)

/-- A firing loses no link. -/
theorem fire_traced (page : PageSize systemPageSize) {links : List LinkHash}
    (traced : Traced systemPageSize s links xs) (active : s.timerActive = true)
    (provided : s.Provided systemPageSize (.pendingVisitedLinksTimerFired c)) :
    ∃ t ended xs', s.pendingVisitedLinksTimerFired systemPageSize c = .ok (t, ended) ∧
      Traced systemPageSize t links xs' ∧ (ended = true → t.m_pendingVisitedLinks = [] ∧
        ∀ process ∈ t.m_processesWithVisitedLinkState, t.Informed process) := by
  obtain ⟨fits, memory_had⟩ := provided active
  rcases fire_eq page traced.sound active fits c with
    ⟨grows, fails, fires⟩ | ⟨u, memory, xs', added, settled, fires⟩
  · refine ⟨_, _, xs, fires, ⟨traced.sound.idle, traced.told, fun h => ?_⟩,
      fun ended => absurd ended Bool.false_ne_true⟩
    rw [← traced.links h]
    refine ⟨fun inside => .inr (inside.resolve_left List.not_mem_nil), fun inside => .inr ?_⟩
    rcases inside with waits | stored
    · rcases memory_had with creates | same | all
      · rw [fails] at creates
        cases creates
      · exact absurd same.symm grows
      · exact (traced.sound.storedCount.2.2 h).mp (all h waits)
    · exact stored
  · obtain ⟨withState, without, log, ended, finishes⟩ := settled.finish
      (s.m_tableSize != s.newTableSize systemPageSize) c.handles
      (c.withState.order u.m_processesWithVisitedLinkState) c.withoutState.order
    obtain ⟨told, informed⟩ := settled_tells (c := c) settled traced.told c.withoutState.perm
      (settled.withState ▸ c.withState.perm _) finishes
    refine ⟨_, ended, xs', fires.trans finishes, ⟨settled.sound.frame .., told, fun h => ?_⟩,
      fun ends => ⟨settled.pending, informed ends⟩⟩
    rw [← traced.links h, ← settled.members h]
    exact or_iff_right (settled.pending ▸ List.not_mem_nil)

theorem step_traced (page : PageSize systemPageSize) {links : List LinkHash}
    (traced : Traced systemPageSize s links xs) {event : Event}
    (provided : s.Provided systemPageSize event) :
    ∃ t xs', s.step systemPageSize event = .ok t ∧
      Traced systemPageSize t (links ++ addedLinks [event]) xs' := by
  cases event with
  | processDidFinishLaunching process =>
    rw [show addedLinks [.processDidFinishLaunching process] = [] from rfl, List.append_nil]
    exact ⟨_, xs, rfl, traced.sound.launched process, told_launched traced.told process,
      traced.links⟩
  | addVisitedLink linkHash =>
    refine ⟨_, xs, rfl, traced.sound.waiting provided, traced.told, fun h => ?_⟩
    rw [addVisitedLink, addedLinks, addedLinks, List.mem_insert_iff, List.mem_append,
      List.mem_singleton, ← traced.links h]
    tauto
  | processDidClose process =>
    rw [show addedLinks [.processDidClose process] = [] from rfl, List.append_nil]
    exact ⟨_, xs, rfl, traced.sound.closed process, told_closed traced.told process, traced.links⟩
  | pendingVisitedLinksTimerFired c =>
    rw [step, show addedLinks [.pendingVisitedLinksTimerFired c] = [] from rfl, List.append_nil]
    by_cases active : s.timerActive = true
    · obtain ⟨t, ended, xs', fires, traced', -⟩ := fire_traced page traced active provided
      rw [if_pos active, fires]
      exact ⟨t, xs', rfl, traced'⟩
    · rw [if_neg active]
      exact ⟨s, xs, rfl, traced⟩

theorem addedLinks_cons (event : Event) (rest : List Event) :
    addedLinks (event :: rest) = addedLinks [event] ++ addedLinks rest := by
  cases event with
  | addVisitedLink linkHash => rfl
  | processDidFinishLaunching | processDidClose | pendingVisitedLinksTimerFired => rfl

theorem run_traced (page : PageSize systemPageSize) {links : List LinkHash} {events : List Event}
    (traced : Traced systemPageSize s links xs)
    (meets : Meets systemPageSize (Provided systemPageSize) s events) :
    ∃ t xs', run systemPageSize s events = .ok t ∧
      Traced systemPageSize t (links ++ addedLinks events) xs' := by
  induction events generalizing s links xs with
  | nil =>
    rw [addedLinks, List.append_nil]
    exact ⟨s, xs, rfl, traced⟩
  | cons event rest ih =>
    obtain ⟨t, xs', steps, next⟩ := step_traced page traced meets.1
    rw [run, steps, addedLinks_cons, ← List.append_assoc]
    exact ih next (meets.2 t steps)

theorem traced_new : Traced systemPageSize new [] [] where
  sound := sound_new
  told _ among := absurd among List.not_mem_nil
  links _ := or_self_iff

/-- **While memory can be had when it is needed, no visited link is lost.** -/
theorem no_link_lost (page : PageSize systemPageSize) {events : List Event} {c : Circumstances}
    (meets : Meets systemPageSize (Provided systemPageSize) new
      (events ++ [.pendingVisitedLinksTimerFired c])) :
    ∃ s, run systemPageSize new events = .ok s ∧ (s.timerActive = true →
      ∃ t ended, s.pendingVisitedLinksTimerFired systemPageSize c = .ok (t, ended) ∧
        (ended = true →
          (∀ h, t.m_table.isLinkVisited h = .ok (decide (h ∈ addedLinks events))) ∧
          ∀ process ∈ t.m_processesWithVisitedLinkState, t.Informed process)) := by
  obtain ⟨meets', last⟩ := meets.append
  obtain ⟨s, xs, ran, traced⟩ := run_traced page traced_new meets'
  refine ⟨s, ran, fun active => ?_⟩
  obtain ⟨t, ended, xs', fires, traced', ends⟩ := fire_traced page traced active (last s ran).1
  refine ⟨t, ended, fires, fun ended => ?_⟩
  obtain ⟨empty, informed⟩ := ends ended
  refine ⟨fun h => ?_, informed⟩
  rw [traced'.sound.visited h, ← List.nil_append (addedLinks events), Except.ok.injEq,
    decide_eq_decide, ← traced'.links h, empty]
  exact (or_iff_right List.not_mem_nil).symm

theorem no_link_lost_one :
    ∃ s, run 4096 new [.processDidFinishLaunching 1, .addVisitedLink 5] = .ok s ∧
      ∃ t ended, s.pendingVisitedLinksTimerFired 4096 plain = .ok (t, ended) ∧
        (ended = true →
          (∀ h, t.m_table.isLinkVisited h = .ok (decide (h ∈ [5]))) ∧
          ∀ process ∈ t.m_processesWithVisitedLinkState, t.Informed process) := by
  have meets : Meets 4096 (Provided 4096) new
      ([.processDidFinishLaunching 1, .addVisitedLink 5] ++
        [.pendingVisitedLinksTimerFired plain]) := by
    refine ⟨trivial, fun s steps => ?_⟩
    cases steps
    refine ⟨(by decide : LegalHash 5), fun s steps => ?_⟩
    cases steps
    refine ⟨fun _ => ⟨?_, .inl rfl⟩, fun _ _ => trivial⟩
    rw [Fits]
    decide
  obtain ⟨s, ran, fires⟩ := no_link_lost ⟨12, by decide, rfl⟩ meets
  refine ⟨s, ran, fires ?_⟩
  cases ran
  rfl

/-- A firing that cannot have its memory. -/
def starved : Circumstances := { plain with creates := false }

/-- The link that waited for that firing is lost: the next one, which does not fail, does not put
it into the table. -/
theorem pending_link_lost :
    (run 4096 new [.addVisitedLink 5, .pendingVisitedLinksTimerFired starved,
        .addVisitedLink 6]).bind (fun s => (s.pendingVisitedLinksTimerFired 4096 plain).bind
      fun r => (r.1.m_table.isLinkVisited 5).map fun visited => (r.2, visited)) =
    .ok (true, false) := by
  decide +kernel

end VisitedLinkProvider

end NetRider.VisitedLinks
