import NetRider.VisitedLinks.VisitedLinkTable
import Mathlib.Data.Nat.Bitwise

/-!
# VisitedLinkProvider

Visited links wait until a timer fires. They are then put into the table, which grows when it could
become more than half full, and the processes are told. `SharedMemory::create` and `createHandle`
can fail.
-/

namespace NetRider.VisitedLinks

open NetRider.Wtf.HashTables

abbrev Process := Nat

inductive Message
  | visitedLinkStateChanged (linkHashes : List LinkHash)
  | allVisitedLinkStateChanged
  /-- The handle stands for its memory. -/
  | setVisitedLinkTable (memory : Nat)
deriving DecidableEq

/-- What happened: a hash was added to the table, or a message was sent. -/
inductive Entry
  | added (linkHash : LinkHash)
  | sent (process : Process) (message : Message)
deriving DecidableEq

structure VisitedLinkProvider where
  m_processesWithVisitedLinkState : List Process
  m_processesWithoutVisitedLinkState : List Process
  m_keyCount : BitVec 32
  m_tableSize : BitVec 32
  m_table : VisitedLinkTable
  m_pendingVisitedLinks : List LinkHash
  /-- `m_pendingVisitedLinksTimer.isActive()`. -/
  timerActive : Bool
  /-- The number of memories created so far. -/
  memories : Nat
  log : List Entry
deriving DecidableEq

/-- An order in which a `HashSet` is iterated. -/
structure Iteration (α : Type) where
  order : List α → List α
  perm : ∀ set, (order set).Perm set

/-- What the outcome of a firing depends on. -/
structure Circumstances where
  links : Iteration LinkHash
  withState : Iteration Process
  withoutState : Iteration Process
  /-- `SharedMemory::create` succeeds. -/
  creates : Bool
  /-- `createHandle` succeeds for the process. -/
  handles : Process → Bool

inductive Event
  | processDidFinishLaunching (process : Process)
  | addVisitedLink (linkHash : LinkHash)
  | processDidClose (process : Process)
  | pendingVisitedLinksTimerFired (c : Circumstances)

/-! ## Sizes -/

def nextPowerOf2 (v : BitVec 32) : BitVec 32 :=
  let v := v - 1
  let v := v ||| v >>> 1
  let v := v ||| v >>> 2
  let v := v ||| v >>> 4
  let v := v ||| v >>> 8
  let v := v ||| v >>> 16
  v + 1

def visitedLinkTableMaxLoad : BitVec 32 := 2

/-- `systemPageSize() / sizeof(LinkHash)`. -/
def minimumTableSize (systemPageSize : Nat) : Nat := systemPageSize / 8

def tableSizeForKeyCount (systemPageSize : Nat) (keyCount : BitVec 32) : BitVec 32 :=
  let tableSize := nextPowerOf2 (keyCount * visitedLinkTableMaxLoad)
  if tableSize.toNat < minimumTableSize systemPageSize then
    BitVec.ofNat 32 (minimumTableSize systemPageSize)
  else tableSize

/-! ## Additions -/

namespace VisitedLinkTable

/-- The loop over the slots of the old table. -/
def reAdd : List LinkHash → VisitedLinkTable → Except Fault VisitedLinkTable
  | [], t => .ok t
  | linkHash :: rest, t =>
    if linkHash = 0 then reAdd rest t
    else
      match t.addLinkHash linkHash with
      | .error fault => .error fault
      | .ok (t, _) => reAdd rest t

/-- The loop over the pending links, which collects those that are new. -/
def addAll : List LinkHash → VisitedLinkTable → List LinkHash →
    Except Fault (VisitedLinkTable × List LinkHash)
  | [], t, addedVisitedLinks => .ok (t, addedVisitedLinks)
  | linkHash :: rest, t, addedVisitedLinks =>
    match t.addLinkHash linkHash with
    | .error fault => .error fault
    | .ok (t, new) =>
      addAll rest t (if new then addedVisitedLinks ++ [linkHash] else addedVisitedLinks)

end VisitedLinkTable

namespace VisitedLinkProvider

def new : VisitedLinkProvider := ⟨[], [], 0, 0, .new, [], false, 0, []⟩

variable (s : VisitedLinkProvider)

def processDidFinishLaunching (process : Process) : VisitedLinkProvider :=
  { s with
    m_processesWithoutVisitedLinkState := s.m_processesWithoutVisitedLinkState.insert process
    timerActive := s.timerActive || s.m_keyCount != 0 }

def addVisitedLink (linkHash : LinkHash) : VisitedLinkProvider :=
  { s with
    m_pendingVisitedLinks := s.m_pendingVisitedLinks.insert linkHash
    timerActive := true }

def processDidClose (process : Process) : VisitedLinkProvider :=
  { s with
    m_processesWithVisitedLinkState :=
      s.m_processesWithVisitedLinkState.filter (· ≠ process)
    m_processesWithoutVisitedLinkState :=
      s.m_processesWithoutVisitedLinkState.filter (· ≠ process) }

def send (process : Process) (message : Message) : VisitedLinkProvider :=
  { s with log := s.log ++ [.sent process message] }

/-! ## pendingVisitedLinksTimerFired -/

/-- The new table takes over the hashes of the old one. -/
def grow (newTableSize : BitVec 32) : Except Fault VisitedLinkProvider :=
  let table := VisitedLinkTable.setSharedMemory ⟨s.memories, List.replicate newTableSize.toNat 0⟩
  let filled : Except Fault VisitedLinkTable :=
    match s.m_table.m_sharedMemory with
    | none => .ok table
    | some current =>
      if s.m_tableSize.toNat ≤ current.data.length then
        table.reAdd (current.data.take s.m_tableSize.toNat)
      else .error .outside
  match filled with
  | .error fault => .error fault
  | .ok table =>
    .ok { s with m_table := table, m_tableSize := newTableSize, memories := s.memories + 1 }

/-- The loop over the processes with state. -/
def notify (resized : Bool) (addedVisitedLinks : List LinkHash) :
    List Process → VisitedLinkProvider → VisitedLinkProvider
  | [], s => s
  | process :: rest, s =>
    notify resized addedVisitedLinks rest
      (if resized then
        { s with
          m_processesWithoutVisitedLinkState :=
            s.m_processesWithoutVisitedLinkState.insert process }
      else if addedVisitedLinks.length ≤ 20 then
        s.send process (.visitedLinkStateChanged addedVisitedLinks)
      else s.send process .allVisitedLinkStateChanged)

/-- The loop over the processes without state. It answers whether it came to its end. -/
def giveTable (handles : Process → Bool) :
    List Process → VisitedLinkProvider → Except Fault (VisitedLinkProvider × Bool)
  | [], s => .ok ({ s with m_processesWithoutVisitedLinkState := [] }, true)
  | process :: rest, s =>
    match s.m_table.m_sharedMemory with
    | none => .error .null
    | some memory =>
      if handles process then
        let s := s.send process (.setVisitedLinkTable memory.identifier)
        let s := s.send process .allVisitedLinkStateChanged
        giveTable handles rest
          { s with
            m_processesWithVisitedLinkState := s.m_processesWithVisitedLinkState.insert process }
      else .ok (s, false)

def newTableSize (systemPageSize : Nat) : BitVec 32 :=
  let needed := tableSizeForKeyCount systemPageSize
    (s.m_keyCount + BitVec.ofNat 32 s.m_pendingVisitedLinks.length)
  if s.m_tableSize.toNat < needed.toNat then needed else s.m_tableSize

/-- The pending links are added, and counted. -/
def addPending (pendingVisitedLinks : List LinkHash) :
    Except Fault (VisitedLinkProvider × List LinkHash) :=
  match s.m_table.addAll pendingVisitedLinks [] with
  | .error fault => .error fault
  | .ok (table, addedVisitedLinks) =>
    .ok ({ s with
      m_table := table
      m_keyCount := s.m_keyCount + BitVec.ofNat 32 pendingVisitedLinks.length
      log := s.log ++ addedVisitedLinks.map .added }, addedVisitedLinks)

/-- It answers whether it came to its end. -/
def pendingVisitedLinksTimerFired (systemPageSize : Nat) (c : Circumstances) :
    Except Fault (VisitedLinkProvider × Bool) :=
  let pendingVisitedLinks := c.links.order s.m_pendingVisitedLinks
  let newTableSize := s.newTableSize systemPageSize
  let resized := s.m_tableSize != newTableSize
  let s := { s with m_pendingVisitedLinks := [], timerActive := false }
  if resized && !c.creates then .ok (s, false)
  else
    match if resized then s.grow newTableSize else .ok s with
    | .error fault => .error fault
    | .ok s =>
      match s.addPending pendingVisitedLinks with
      | .error fault => .error fault
      | .ok (s, addedVisitedLinks) =>
        let s := notify resized addedVisitedLinks
          (c.withState.order s.m_processesWithVisitedLinkState) s
        giveTable c.handles (c.withoutState.order s.m_processesWithoutVisitedLinkState) s

/-! ## Runs -/

/-- A timer that is not active does not fire. -/
def step (systemPageSize : Nat) : Event → Except Fault VisitedLinkProvider
  | .processDidFinishLaunching process => .ok (s.processDidFinishLaunching process)
  | .addVisitedLink linkHash => .ok (s.addVisitedLink linkHash)
  | .processDidClose process => .ok (s.processDidClose process)
  | .pendingVisitedLinksTimerFired c =>
    if s.timerActive then
      match s.pendingVisitedLinksTimerFired systemPageSize c with
      | .error fault => .error fault
      | .ok (s, _) => .ok s
    else .ok s

def run (systemPageSize : Nat) :
    VisitedLinkProvider → List Event → Except Fault VisitedLinkProvider
  | s, [] => .ok s
  | s, event :: rest =>
    match s.step systemPageSize event with
    | .error fault => .error fault
    | .ok s => run systemPageSize s rest

/-- The links that were added. -/
def addedLinks : List Event → List LinkHash
  | [] => []
  | .addVisitedLink linkHash :: rest => linkHash :: addedLinks rest
  | _ :: rest => addedLinks rest

/-- Every step of the run meets the condition. -/
def Meets (systemPageSize : Nat) (condition : VisitedLinkProvider → Event → Prop) :
    VisitedLinkProvider → List Event → Prop
  | _, [] => True
  | s, event :: rest =>
    condition s event ∧
      ∀ t, s.step systemPageSize event = .ok t → Meets systemPageSize condition t rest

end VisitedLinkProvider

/-! ## Powers of two -/

/-- The bits of `y` are those of `x` and the `k` places below them. -/
def Spreads (x : BitVec 32) (k : Nat) (y : BitVec 32) : Prop :=
  ∀ i, y.getLsbD i = true ↔ ∃ j < k, x.getLsbD (i + j) = true

theorem Spreads.double {x y : BitVec 32} {k : Nat} (spreads : Spreads x k y) :
    Spreads x (2 * k) (y ||| y >>> k) := by
  intro i
  rw [BitVec.getLsbD_or, BitVec.getLsbD_ushiftRight, Bool.or_eq_true, spreads, spreads]
  constructor
  · rintro (⟨j, below, bit⟩ | ⟨j, below, bit⟩)
    · exact ⟨j, by omega, bit⟩
    · exact ⟨k + j, by omega, by rwa [show i + (k + j) = k + i + j by omega]⟩
  · rintro ⟨j, below, bit⟩
    by_cases low : j < k
    · exact .inl ⟨j, low, bit⟩
    · exact .inr ⟨j - k, by omega, by rwa [show k + i + (j - k) = i + j by omega]⟩

theorem spreads_one (x : BitVec 32) : Spreads x 1 x := by
  intro i
  constructor
  · exact fun bit => ⟨0, by decide, bit⟩
  · rintro ⟨j, below, bit⟩
    rwa [show j = 0 by omega] at bit

theorem Spreads.toNat {x y : BitVec 32} {m : Nat} (spreads : Spreads x 32 y)
    (top : x.toNat.testBit m = true) (above : ∀ j, m < j → x.toNat.testBit j = false) :
    y.toNat = 2 ^ (m + 1) - 1 := by
  apply Nat.eq_of_testBit_eq
  intro i
  rw [Nat.testBit_two_pow_sub_one, Bool.eq_iff_iff, decide_eq_true_iff]
  have less : m < 32 := by
    by_contra most
    rw [Nat.testBit_lt_two_pow (Nat.lt_of_lt_of_le x.isLt
      (Nat.pow_le_pow_right (by decide) (Nat.le_of_not_lt most)))] at top
    cases top
  constructor
  · intro bit
    obtain ⟨j, -, bit⟩ := (spreads i).mp bit
    by_contra high
    have clear := above (i + j) (by omega)
    rw [← BitVec.getLsbD] at clear
    rw [clear] at bit
    cases bit
  · intro low
    exact (spreads i).mpr ⟨m - i, by omega, by rwa [show i + (m - i) = m by omega]⟩

/-- **`nextPowerOf2` is the least power of two that is enough.** -/
theorem nextPowerOf2_eq {v : BitVec 32} (least : 1 ≤ v.toNat) (most : v.toNat ≤ 2 ^ 31) :
    ∃ k ≤ 31, (nextPowerOf2 v).toNat = 2 ^ k ∧ v.toNat ≤ 2 ^ k ∧
      ∀ j, v.toNat ≤ 2 ^ j → 2 ^ k ≤ 2 ^ j := by
  have before : (v - 1).toNat = v.toNat - 1 := by
    rw [BitVec.toNat_sub, show BitVec.toNat (1 : BitVec 32) = 1 from rfl]
    omega
  by_cases zero : (v - 1).toNat = 0
  · have one : v = 1 := by
      apply BitVec.eq_of_toNat_eq
      rw [show BitVec.toNat (1 : BitVec 32) = 1 from rfl]
      omega
    subst one
    exact ⟨0, by decide, by decide, by decide, fun j _ => Nat.one_le_two_pow⟩
  · obtain ⟨m, top, above⟩ := Nat.exists_most_significant_bit zero
    have low := Nat.ge_two_pow_of_testBit top
    have few : m < 31 := by
      by_contra many
      have large := Nat.pow_le_pow_right (show 0 < 2 by decide) (Nat.le_of_not_lt many)
      omega
    have spread := (spreads_one (v - 1)).double.double.double.double.double.toNat top above
    have small : 2 ^ (m + 1) ≤ 2 ^ 31 := Nat.pow_le_pow_right (by decide) few
    have positive := Nat.one_le_two_pow (n := m + 1)
    have result : (nextPowerOf2 v).toNat = 2 ^ (m + 1) := by
      have sum : (nextPowerOf2 v).toNat = (2 ^ (m + 1) - 1 + 1) % 2 ^ 32 := by
        rw [← spread]
        exact BitVec.toNat_add _ 1
      omega
    refine ⟨m + 1, few, result, ?_, fun j enough => ?_⟩
    · have bound := Nat.lt_pow_two_of_testBit (v - 1).toNat fun j high => above j high
      omega
    · have more : 2 ^ m < 2 ^ j := by omega
      exact Nat.pow_le_pow_right (by decide) ((Nat.pow_lt_pow_iff_right (by decide)).mp more)

end NetRider.VisitedLinks
