import NetRider.Lib.Run
import NetRider.Lib.Lists

/-!
# Scheduling of IndexedDB transactions

`IDBTransactionCoordinator` keeps a queue and a set of started transactions and
makes one pass over the queue after every call.

* `Queues`: what every step of the pass keeps (safety and order);
* `Waits`: what the pass has established for the part of the queue behind it;
* `reach_scheduled`: both hold after every call of every legal run.
-/

namespace NetRider.Idb

open NetRider.Lib
open scoped List

inductive TransactionMode
  | ReadOnly
  | ReadWrite
  | VersionChange
  deriving DecidableEq, Repr

/-- A transaction is its identity (the pointer), its mode and its object stores. -/
structure IDBTransactionBackend where
  pointer : Nat
  mode : TransactionMode
  scope : List Int
  deriving DecidableEq, Repr

structure IDBTransactionCoordinator where
  transactions : List IDBTransactionBackend
  queuedTransactions : List IDBTransactionBackend
  startedTransactions : List IDBTransactionBackend
  /-- The transactions `run()` was called on, in call order. -/
  ran : List IDBTransactionBackend
  deriving DecidableEq, Repr

namespace IDBTransactionCoordinator

def empty : IDBTransactionCoordinator := ⟨[], [], [], []⟩

/-- `add` of a hash set: an element that is there stays where it is. -/
def add (set : List IDBTransactionBackend) (t : IDBTransactionBackend) : List IDBTransactionBackend :=
  if t ∈ set then set else set ++ [t]

def doScopesOverlap (scope1 scope2 : List Int) : Bool :=
  scope1.any fun store => decide (store ∈ scope2)

/-- The transaction in the loop is a writer on a store of `t`. -/
def blocks (t it : IDBTransactionBackend) : Bool :=
  decide (it.mode = .ReadWrite) && doScopesOverlap t.scope it.scope

def canRunTransaction (c : IDBTransactionCoordinator) (t : IDBTransactionBackend) : Bool :=
  match t.mode with
  | .VersionChange | .ReadOnly => true
  | .ReadWrite =>
    !c.startedTransactions.any (blocks t) &&
      !(c.queuedTransactions.takeWhile (· ≠ t)).any (blocks t)

def start (c : IDBTransactionCoordinator) (t : IDBTransactionBackend) : IDBTransactionCoordinator :=
  { c with
    queuedTransactions := c.queuedTransactions.erase t
    startedTransactions := add c.startedTransactions t
    ran := c.ran ++ [t] }

/-- The loop over the queue; the iterator has left an element before it is
removed, so the pass visits the elements the queue had at its begin. -/
def pass (c : IDBTransactionCoordinator) : List IDBTransactionBackend → IDBTransactionCoordinator
  | [] => c
  | t :: rest => if c.canRunTransaction t then (c.start t).pass rest else c.pass rest

def processStartedTransactions (c : IDBTransactionCoordinator) : IDBTransactionCoordinator :=
  c.pass c.queuedTransactions

def didCreateTransaction (c : IDBTransactionCoordinator) (t : IDBTransactionBackend) :
    IDBTransactionCoordinator :=
  { c with transactions := add c.transactions t }

def didStartTransaction (c : IDBTransactionCoordinator) (t : IDBTransactionBackend) :
    IDBTransactionCoordinator :=
  { c with queuedTransactions := add c.queuedTransactions t }.processStartedTransactions

def didFinishTransaction (c : IDBTransactionCoordinator) (t : IDBTransactionBackend) :
    IDBTransactionCoordinator :=
  let c :=
    if t ∈ c.queuedTransactions then { c with queuedTransactions := c.queuedTransactions.erase t }
    else { c with startedTransactions := c.startedTransactions.erase t }
  { c with transactions := c.transactions.erase t }.processStartedTransactions

end IDBTransactionCoordinator

open IDBTransactionCoordinator

inductive CoordinatorCall
  | didCreate (t : IDBTransactionBackend)
  | didStart (t : IDBTransactionBackend)
  | didFinish (t : IDBTransactionBackend)
  deriving DecidableEq, Repr

/-- The coordinator with the calls made so far, by kind and in call order. -/
structure Schedule where
  coordinator : IDBTransactionCoordinator
  created : List IDBTransactionBackend
  queued : List IDBTransactionBackend
  finished : List IDBTransactionBackend
  deriving DecidableEq, Repr

namespace Schedule

def empty : Schedule := ⟨.empty, [], [], []⟩

def call (s : Schedule) : CoordinatorCall → Option Schedule
  | .didCreate t =>
    some { s with coordinator := s.coordinator.didCreateTransaction t, created := s.created ++ [t] }
  | .didStart t =>
    some { s with coordinator := s.coordinator.didStartTransaction t, queued := s.queued ++ [t] }
  | .didFinish t =>
    some { s with coordinator := s.coordinator.didFinishTransaction t, finished := s.finished ++ [t] }

/-- Readers and writers only, each created, then started once, then finished once. -/
def Legal (s : Schedule) : CoordinatorCall → Prop
  | .didCreate t => t ∉ s.created ∧ t.mode ≠ .VersionChange
  | .didStart t => t ∈ s.created ∧ t ∉ s.queued
  | .didFinish t => t ∈ s.queued ∧ t ∉ s.finished

instance (s : Schedule) : DecidablePred s.Legal
  | .didCreate t => inferInstanceAs (Decidable (t ∉ s.created ∧ t.mode ≠ .VersionChange))
  | .didStart t => inferInstanceAs (Decidable (t ∈ s.created ∧ t ∉ s.queued))
  | .didFinish t => inferInstanceAs (Decidable (t ∈ s.queued ∧ t ∉ s.finished))

end Schedule

/-- Two writers with a common object store. -/
def Conflict (a b : IDBTransactionBackend) : Prop :=
  a.mode = .ReadWrite ∧ b.mode = .ReadWrite ∧ ∃ store ∈ a.scope, store ∈ b.scope

theorem blocks_iff {t it : IDBTransactionBackend} (writer : t.mode = .ReadWrite) :
    blocks t it = true ↔ Conflict t it := by
  simp [blocks, doScopesOverlap, Conflict, writer]

theorem Conflict.symm {a b : IDBTransactionBackend} (h : Conflict a b) : Conflict b a := by
  obtain ⟨ha, hb, store, sa, sb⟩ := h
  exact ⟨hb, ha, store, sb, sa⟩

theorem mem_add {set : List IDBTransactionBackend} {t u : IDBTransactionBackend} :
    u ∈ add set t ↔ u ∈ set ∨ u = t := by
  unfold add
  split
  · rename_i h
    exact ⟨.inl, fun hu => hu.elim id (fun e => e ▸ h)⟩
  · simp

/-- What holds at every point of a pass. `log` lists the transactions in the
order they were queued. -/
structure Queues (log : List IDBTransactionBackend) (c : IDBTransactionCoordinator) : Prop where
  logged : log.Nodup
  order : c.queuedTransactions <+ log
  apart : ∀ t ∈ c.queuedTransactions, t ∉ c.ran
  ranLogged : ∀ t ∈ c.ran, t ∈ log
  ranOnce : c.ran.Nodup
  startedRan : ∀ t ∈ c.startedTransactions, t ∈ c.ran
  modes : ∀ t ∈ log, t.mode ≠ .VersionChange
  safe : ∀ a ∈ c.startedTransactions, ∀ b ∈ c.startedTransactions, a ≠ b → ¬ Conflict a b
  fair : ∀ a b, [a, b] <+ log → Conflict a b → b ∈ c.ran →
    a ∉ c.queuedTransactions ∧ (a ∈ c.ran → [a, b] <+ c.ran)

/-- Each of these waits for a writer that is started or waits before it. -/
def Waits (c : IDBTransactionCoordinator) (behind : List IDBTransactionBackend) : Prop :=
  ∀ p t q, behind = p ++ t :: q → ∃ v, (v ∈ c.startedTransactions ∨ v ∈ p) ∧ Conflict t v

theorem canRun_iff {c : IDBTransactionCoordinator} {t : IDBTransactionBackend}
    {behind rest : List IDBTransactionBackend} (queue : c.queuedTransactions = behind ++ t :: rest)
    (fresh : t ∉ behind) (mode : t.mode ≠ .VersionChange) :
    c.canRunTransaction t = true ↔
      ∀ v, v ∈ c.startedTransactions ∨ v ∈ behind → ¬ Conflict t v := by
  have ahead : c.queuedTransactions.takeWhile (· ≠ t) = behind := by
    rw [queue, List.takeWhile_append_of_pos]
    · simp
    · intro a ha
      simpa using fun e : a = t => fresh (e ▸ ha)
  cases hm : t.mode with
  | ReadOnly => simp [canRunTransaction, hm, Conflict]
  | VersionChange => exact absurd hm mode
  | ReadWrite =>
    simp only [canRunTransaction, hm, ahead, Bool.and_eq_true, Bool.not_eq_true',
      List.any_eq_false, blocks_iff hm]
    exact ⟨fun h v hv => hv.elim (h.1 v) (h.2 v), fun h => ⟨fun v hv => h v (.inl hv), fun v hv => h v (.inr hv)⟩⟩

theorem start_queues {log behind rest : List IDBTransactionBackend} {c : IDBTransactionCoordinator}
    {t : IDBTransactionBackend} (inv : Queues log c)
    (queue : c.queuedTransactions = behind ++ t :: rest)
    (free : ∀ v, v ∈ c.startedTransactions ∨ v ∈ behind → ¬ Conflict t v) :
    Queues log (c.start t) ∧ (c.start t).queuedTransactions = behind ++ rest := by
  have nodup := inv.logged.sublist inv.order
  rw [queue] at nodup
  have fresh : t ∉ behind := fun h => (List.nodup_append.mp nodup).2.2 t h t (by simp) rfl
  have left : c.queuedTransactions.erase t = behind ++ rest := by
    rw [queue, List.erase_append_right _ fresh, List.erase_cons_head]
  have inQueue : t ∈ c.queuedTransactions := by simp [queue]
  have fewer : c.queuedTransactions.erase t <+ c.queuedTransactions := List.erase_sublist
  refine ⟨⟨inv.logged, fewer.trans inv.order, ?_, ?_, ?_, ?_, inv.modes, ?_, ?_⟩, left⟩
  · intro u hu hr
    rcases List.mem_append.mp hr with hr | hr
    · exact inv.apart u (fewer.subset hu) hr
    · obtain rfl := List.mem_singleton.mp hr
      rw [start, left] at hu
      exact (List.nodup_middle.mp nodup).notMem hu
  · intro u hu
    rcases List.mem_append.mp hu with hu | hu
    · exact inv.ranLogged u hu
    · exact List.mem_singleton.mp hu ▸ inv.order.subset inQueue
  · simpa [start, List.nodup_append, inv.ranOnce] using
      fun a ha (e : a = t) => inv.apart t inQueue (e ▸ ha)
  · intro u hu
    rcases mem_add.mp hu with hu | rfl
    · exact List.mem_append_left _ (inv.startedRan u hu)
    · simp [start]
  · intro a ha b hb ne conflict
    rcases mem_add.mp ha with old | rfl <;> rcases mem_add.mp hb with old' | rfl
    · exact inv.safe a old b old' ne conflict
    · exact free a (.inl old) conflict.symm
    · exact free b (.inl old') conflict
    · exact ne rfl
  · intro a b before conflict hb
    rcases List.mem_append.mp hb with hb | hb
    · obtain ⟨out, ordered⟩ := inv.fair a b before conflict hb
      refine ⟨fun h => out (fewer.subset h), ?_⟩
      intro ha
      rcases List.mem_append.mp ha with ha | ha
      · exact (ordered ha).trans (List.sublist_append_left _ _)
      · exact absurd (List.mem_singleton.mp ha ▸ inQueue) out
    · obtain rfl := List.mem_singleton.mp hb
      constructor
      · intro ha
        rw [start, left] at ha
        rcases List.mem_append.mp ha with ha | ha
        · exact free a (.inr ha) conflict.symm
        · -- queued behind `b`, so not before it in the log
          refine before_asymm inv.logged before (List.Sublist.trans ?_ inv.order)
          rw [queue]
          exact ((List.singleton_sublist.mpr ha).cons_cons b).trans (List.sublist_append_right _ _)
      · intro ha
        rcases List.mem_append.mp ha with ha | ha
        · exact before_append_singleton ha
        · obtain rfl := List.mem_singleton.mp ha
          exact absurd before (fun h => before_asymm inv.logged h h)

theorem Waits.snoc {c : IDBTransactionCoordinator} {behind : List IDBTransactionBackend}
    {t v : IDBTransactionBackend} (waits : Waits c behind)
    (hv : v ∈ c.startedTransactions ∨ v ∈ behind) (conflict : Conflict t v) :
    Waits c (behind ++ [t]) := by
  intro p u q split
  rcases List.eq_nil_or_concat q with rfl | ⟨q', x, rfl⟩
  · obtain ⟨rfl, hu⟩ := List.append_inj' split rfl
    cases hu
    exact ⟨v, hv, conflict⟩
  · rw [List.concat_eq_append, ← List.cons_append, ← List.append_assoc] at split
    exact waits p u q' (List.append_inj_left' split rfl)

theorem Waits.start {c : IDBTransactionCoordinator} {behind : List IDBTransactionBackend}
    (waits : Waits c behind) (t : IDBTransactionBackend) : Waits (c.start t) behind := by
  intro p u q split
  obtain ⟨v, hv, conflict⟩ := waits p u q split
  exact ⟨v, hv.imp_left (fun h => mem_add.mpr (.inl h)), conflict⟩

/-- One pass keeps the queues sound and leaves only waiting transactions. -/
theorem pass_spec {log behind rest : List IDBTransactionBackend} {c : IDBTransactionCoordinator}
    (inv : Queues log c) (queue : c.queuedTransactions = behind ++ rest) (waits : Waits c behind) :
    Queues log (c.pass rest) ∧ Waits (c.pass rest) (c.pass rest).queuedTransactions := by
  induction rest generalizing c behind with
  | nil =>
    rw [List.append_nil] at queue
    exact ⟨inv, by simpa [IDBTransactionCoordinator.pass, queue] using waits⟩
  | cons t rest ih =>
    have nodup := inv.logged.sublist inv.order
    rw [queue] at nodup
    have fresh : t ∉ behind := fun h => (List.nodup_append.mp nodup).2.2 t h t (by simp) rfl
    have mode := inv.modes t (inv.order.subset (by simp [queue]))
    have run := canRun_iff queue fresh mode
    unfold IDBTransactionCoordinator.pass
    split
    · rename_i can
      obtain ⟨inv', queue'⟩ := start_queues inv queue (run.mp can)
      exact ih inv' queue' (waits.start t)
    · rename_i cannot
      have blocked := mt run.mpr cannot
      push Not at blocked
      obtain ⟨v, hv, conflict⟩ := blocked
      exact ih inv (by simpa using queue) (waits.snoc hv conflict)

theorem process_spec {log : List IDBTransactionBackend} {c : IDBTransactionCoordinator}
    (inv : Queues log c) :
    Queues log c.processStartedTransactions ∧
    Waits c.processStartedTransactions c.processStartedTransactions.queuedTransactions :=
  pass_spec inv (List.nil_append _).symm (fun p t q h => absurd h (by simp))

theorem didStart_queues {log : List IDBTransactionBackend} {c : IDBTransactionCoordinator}
    {t : IDBTransactionBackend} (inv : Queues log c) (fresh : t ∉ log)
    (mode : t.mode ≠ .VersionChange) :
    Queues (log ++ [t]) { c with queuedTransactions := add c.queuedTransactions t } := by
  have new : add c.queuedTransactions t = c.queuedTransactions ++ [t] :=
    if_neg (fun h => fresh (inv.order.subset h))
  refine ⟨?_, ?_, ?_, ?_, inv.ranOnce, inv.startedRan, ?_, inv.safe, ?_⟩
  · simpa [List.nodup_append, inv.logged] using fun a ha (e : a = t) => fresh (e ▸ ha)
  · rw [new]; exact inv.order.append (List.Sublist.refl _)
  · intro u hu
    rcases mem_add.mp hu with hu | rfl
    · exact inv.apart u hu
    · exact fun h => fresh (inv.ranLogged u h)
  · exact fun u hu => List.mem_append_left _ (inv.ranLogged u hu)
  · intro u hu
    rcases List.mem_append.mp hu with hu | hu
    · exact inv.modes u hu
    · exact List.mem_singleton.mp hu ▸ mode
  · intro a b before conflict hb
    rcases before_snoc before with old | ⟨_, rfl⟩
    · obtain ⟨out, ordered⟩ := inv.fair a b old conflict hb
      refine ⟨fun h => ?_, ordered⟩
      rcases mem_add.mp h with queued | rfl
      · exact out queued
      · exact fresh (mem_of_before old).1
    · exact absurd (inv.ranLogged b hb) fresh

/-- Removing transactions keeps the queues sound; only the pass can start some. -/
theorem Queues.shrink {log : List IDBTransactionBackend} {c d : IDBTransactionCoordinator}
    (inv : Queues log c) (queued : d.queuedTransactions <+ c.queuedTransactions)
    (started : ∀ u ∈ d.startedTransactions, u ∈ c.startedTransactions) (ran : d.ran = c.ran) :
    Queues log d := by
  refine ⟨inv.logged, queued.trans inv.order, ?_, ?_, ran ▸ inv.ranOnce, ?_, inv.modes, ?_, ?_⟩
  · exact fun u hu => ran ▸ inv.apart u (queued.subset hu)
  · exact fun u hu => inv.ranLogged u (ran ▸ hu)
  · exact fun u hu => ran ▸ inv.startedRan u (started u hu)
  · exact fun a ha b hb => inv.safe a (started a ha) b (started b hb)
  · intro a b before conflict hb
    obtain ⟨out, ordered⟩ := inv.fair a b before conflict (ran ▸ hb)
    exact ⟨fun h => out (queued.subset h), fun ha => ran ▸ ordered (ran ▸ ha)⟩

/-- Started or not, the pass loses no transaction. -/
theorem pass_keeps {c : IDBTransactionCoordinator} {t : IDBTransactionBackend}
    (rest : List IDBTransactionBackend) (h : t ∈ c.queuedTransactions ∨ t ∈ c.ran) :
    t ∈ (c.pass rest).queuedTransactions ∨ t ∈ (c.pass rest).ran := by
  induction rest generalizing c with
  | nil => exact h
  | cons x rest ih =>
    unfold IDBTransactionCoordinator.pass
    split
    · apply ih
      by_cases eq : t = x
      · exact .inr (by simp [start, eq])
      · exact h.imp (List.mem_erase_of_ne eq).mpr (List.mem_append_left _)
    · exact ih h

structure Scheduled (s : Schedule) : Prop where
  queues : Queues s.queued s.coordinator
  waits : Waits s.coordinator s.coordinator.queuedTransactions
  modes : ∀ t ∈ s.created, t.mode ≠ .VersionChange
  known : ∀ t ∈ s.queued, t ∈ s.created
  accounted : ∀ t ∈ s.queued,
    (t ∈ s.coordinator.queuedTransactions ∨ t ∈ s.coordinator.ran) ∨ t ∈ s.finished

theorem call_scheduled (s : Schedule) (call : CoordinatorCall) (t : Schedule) (inv : Scheduled s)
    (legal : s.Legal call) (stepped : s.call call = some t) : Scheduled t := by
  cases call with
  | didCreate x =>
    cases stepped
    refine ⟨Queues.shrink inv.queues (List.Sublist.refl _) (fun _ => id) rfl, inv.waits, ?_,
      fun u hu => List.mem_append_left _ (inv.known u hu), inv.accounted⟩
    intro u hu
    rcases List.mem_append.mp hu with hu | hu
    · exact inv.modes u hu
    · exact List.mem_singleton.mp hu ▸ legal.2
  | didStart x =>
    cases stepped
    obtain ⟨queues, waits⟩ := process_spec
      (didStart_queues inv.queues legal.2 (inv.modes x legal.1))
    refine ⟨queues, waits, inv.modes, ?_, ?_⟩
    · intro u hu
      rcases List.mem_append.mp hu with hu | hu
      · exact inv.known u hu
      · exact List.mem_singleton.mp hu ▸ legal.1
    · intro u hu
      rcases List.mem_append.mp hu with hu | hu
      · exact (inv.accounted u hu).imp_left
          fun h => pass_keeps _ (h.imp_left fun h => mem_add.mpr (.inl h))
      · exact .inl (pass_keeps _ (.inl (mem_add.mpr (.inr (List.mem_singleton.mp hu)))))
  | didFinish x =>
    cases stepped
    -- Before the pass the call removes `x` from the queue or from the started set.
    obtain ⟨d, hd, queues, kept⟩ : ∃ d,
        s.coordinator.didFinishTransaction x = d.processStartedTransactions ∧ Queues s.queued d ∧
        ∀ u, u ≠ x → (u ∈ s.coordinator.queuedTransactions ∨ u ∈ s.coordinator.ran) →
          u ∈ d.queuedTransactions ∨ u ∈ d.ran := by
      simp only [didFinishTransaction]
      split
      · exact ⟨_, rfl, inv.queues.shrink List.erase_sublist (fun _ => id) rfl,
          fun u ne h => h.imp_left (List.mem_erase_of_ne ne).mpr⟩
      · exact ⟨_, rfl, inv.queues.shrink (List.Sublist.refl _) (fun u => List.mem_of_mem_erase) rfl,
          fun u ne h => h⟩
    obtain ⟨queues, waits⟩ := process_spec queues
    refine ⟨hd ▸ queues, hd ▸ waits, inv.modes, inv.known, ?_⟩
    intro u hu
    rw [hd]
    by_cases eq : u = x
    · exact .inr (by simp [eq])
    · exact (inv.accounted u hu).imp (fun h => pass_keeps _ (kept u eq h)) (List.mem_append_left _)

theorem reach_scheduled {s : Schedule} (h : Reach Schedule.call Schedule.Legal .empty s) :
    Scheduled s := by
  refine h.invariant ⟨⟨List.nodup_nil, List.Sublist.refl _, ?_, ?_, ?_, ?_, ?_, ?_, ?_⟩, ?_, ?_, ?_, ?_⟩
    call_scheduled
  all_goals simp [Schedule.empty, IDBTransactionCoordinator.empty, Waits]

end NetRider.Idb
