import NetRider.VisitedLinks.VisitedLinkProvider

/-!
# What a firing does

The table holds some hashes and is at most half full, and the pending links are a set. A firing
that comes as far as the table puts the pending links into it.
-/

namespace NetRider.VisitedLinks

open NetRider.Wtf.HashTables

variable {systemPageSize : Nat} {t : VisitedLinkTable} {memory : SharedMemory}
  {xs slots pending added : List LinkHash}

/-! ## Loops over hashes -/

namespace VisitedLinkTable

/-- Pending links that are not in the table are put into it. -/
theorem addAll_eq (added : List LinkHash) (holds : Holds t memory xs) (legal : ∀ h ∈ pending, LegalHash h)
    (distinct : pending.Nodup) (few : xs.length + pending.length < memory.data.length) :
    ∃ t' memory', t.addAll pending added =
        .ok (t', added ++ pending.filter (· ∉ xs)) ∧
      Holds t' memory' ((pending.filter (· ∉ xs)).reverse ++ xs) ∧
      memory'.identifier = memory.identifier ∧
      memory'.data.length = memory.data.length := by
  induction pending generalizing t memory xs added with
  | nil =>
    refine ⟨t, memory, ?_, holds, rfl, rfl⟩
    rw [addAll, List.filter_nil, List.append_nil]
  | cons h rest ih =>
    have others := List.nodup_cons.mp distinct
    have legal' : ∀ x ∈ rest, LegalHash x := fun x among => legal x (List.mem_cons_of_mem h among)
    rw [List.length_cons] at few
    rw [addAll]
    rcases addLinkHash_eq holds (by omega) (legal h List.mem_cons_self) with
      ⟨among, adds⟩ | ⟨missing, i, adds, holds'⟩
    · rw [adds, List.filter_cons_of_neg (by simpa using among)]
      exact ih added holds legal' others.2 (by omega)
    · have same : rest.filter (· ∉ h :: xs) = rest.filter (· ∉ xs) := by
        apply List.filter_congr
        intro x among
        rw [decide_eq_decide, List.mem_cons, not_or]
        exact and_iff_right fun equal => others.1 (equal ▸ among)
      obtain ⟨t', memory', loops, holds'', identifier, size⟩ :=
        ih (added ++ [h]) holds' legal' others.2
          (by rw [List.length_cons, List.length_set]; omega)
      rw [same] at loops holds''
      rw [adds, List.filter_cons_of_pos (by simpa using missing)]
      refine ⟨t', memory', ?_, ?_, identifier, ?_⟩
      · simp only [if_true]
        rw [loops, List.append_assoc, List.singleton_append]
      · rw [List.reverse_cons, List.append_assoc, List.singleton_append]
        exact holds''
      · rw [size, List.length_set]

/-- The free slots are left out. -/
theorem reAdd_eq {t' : VisitedLinkTable} {fresh : List LinkHash}
    (adds : t.addAll (slots.filter (· ≠ 0)) added = .ok (t', fresh)) :
    t.reAdd slots = .ok t' := by
  induction slots generalizing t added with
  | nil =>
    cases adds
    rfl
  | cons h rest ih =>
    rw [reAdd]
    by_cases free : h = 0
    · rw [List.filter_cons_of_neg (by simpa using free)] at adds
      rw [if_pos free]
      exact ih adds
    · rw [List.filter_cons_of_pos (by simpa using free), addAll] at adds
      rw [if_neg free]
      cases result : t.addLinkHash h with
      | error fault =>
        rw [result] at adds
        cases adds
      | ok result =>
        rw [result] at adds
        exact ih adds

/-- New memory holds nothing. -/
theorem holds_new {k identifier : Nat} (small : k < 32) :
    Holds (setSharedMemory ⟨identifier, List.replicate (2 ^ k) 0⟩)
      ⟨identifier, List.replicate (2 ^ k) 0⟩ [] :=
  ⟨rfl, rfl, rfl, fun _ among => .inl (List.eq_of_mem_replicate among),
    buckets_allocate linkHashTraits_lawful small⟩

end VisitedLinkTable

/-! ## Sizes -/

/-- A page is a power of two. -/
def PageSize (systemPageSize : Nat) : Prop := ∃ a < 32, systemPageSize = 2 ^ a

theorem minimumTableSize_eq (page : PageSize systemPageSize) :
    minimumTableSize systemPageSize = 0 ∨
      ∃ a < 32, minimumTableSize systemPageSize = 2 ^ a := by
  obtain ⟨a, small, rfl⟩ := page
  rw [minimumTableSize]
  by_cases few : a < 3
  · have less : 2 ^ a < 2 ^ 3 := Nat.pow_lt_pow_right (by decide) few
    exact .inl (Nat.div_eq_of_lt less)
  · refine .inr ⟨a - 3, by omega, ?_⟩
    rw [show (8 : Nat) = 2 ^ 3 from rfl]
    exact Nat.pow_div (Nat.le_of_not_lt few) (by decide)

/-- The least power of two that leaves half of the table free and fills a page. -/
theorem tableSizeForKeyCount_eq (page : PageSize systemPageSize) (keyCount : BitVec 32)
    (least : 1 ≤ keyCount.toNat) (most : keyCount.toNat ≤ 2 ^ 30) :
    ∃ k < 32, (tableSizeForKeyCount systemPageSize keyCount).toNat = 2 ^ k ∧
      2 * keyCount.toNat ≤ 2 ^ k ∧ minimumTableSize systemPageSize ≤ 2 ^ k ∧
      ∀ j, 2 * keyCount.toNat ≤ 2 ^ j → minimumTableSize systemPageSize ≤ 2 ^ j →
        2 ^ k ≤ 2 ^ j := by
  have double : (keyCount * visitedLinkTableMaxLoad).toNat = 2 * keyCount.toNat := by
    rw [BitVec.toNat_mul, show visitedLinkTableMaxLoad.toNat = 2 from rfl]
    omega
  obtain ⟨k, small, power, enough, minimal⟩ :=
    nextPowerOf2_eq (v := keyCount * visitedLinkTableMaxLoad) (by omega) (by omega)
  rw [double] at enough minimal
  rw [tableSizeForKeyCount]
  rw [power]
  by_cases page_more : 2 ^ k < minimumTableSize systemPageSize
  · obtain zero | ⟨a, few, minimum⟩ := minimumTableSize_eq page
    · omega
    · have below : 2 ^ a < 2 ^ 32 := Nat.pow_lt_pow_right (by decide) few
      rw [if_pos page_more, minimum, BitVec.toNat_ofNat, Nat.mod_eq_of_lt below]
      exact ⟨a, few, rfl, by omega, Nat.le_refl _, fun j _ enough => enough⟩
  · rw [if_neg page_more]
    exact ⟨k, by omega, power, enough, Nat.le_of_not_lt page_more,
      fun j enough _ => minimal j enough⟩

namespace VisitedLinkProvider

variable {s : VisitedLinkProvider}

/-! ## What every operation keeps -/

/-- There is no table yet, or it holds the hashes `xs`. -/
inductive Stored (systemPageSize : Nat) (s : VisitedLinkProvider) (xs : List LinkHash) : Prop
  | none (table : s.m_table = .new) (size : s.m_tableSize = 0) (keys : s.m_keyCount = 0)
      (empty : xs = [])
  | some (memory : SharedMemory) (holds : s.m_table.Holds memory xs)
      (size : memory.data.length = s.m_tableSize.toNat)
      (least : minimumTableSize systemPageSize ≤ s.m_tableSize.toNat)

structure Sound (systemPageSize : Nat) (s : VisitedLinkProvider) (xs : List LinkHash) :
    Prop where
  stored : Stored systemPageSize s xs
  half : 2 * s.m_keyCount.toNat ≤ s.m_tableSize.toNat
  counted : xs.length ≤ s.m_keyCount.toNat
  distinct : s.m_pendingVisitedLinks.Nodup
  legal : ∀ h ∈ s.m_pendingVisitedLinks, LegalHash h
  waits : s.timerActive = true → s.m_keyCount = 0 → s.m_pendingVisitedLinks ≠ []

/-- There is room in a count for the pending links. -/
def Fits (s : VisitedLinkProvider) : Prop :=
  s.m_keyCount.toNat + s.m_pendingVisitedLinks.length ≤ 2 ^ 30

theorem Sound.count (sound : Sound systemPageSize s xs) (active : s.timerActive = true)
    (fits : s.Fits) :
    (s.m_keyCount + BitVec.ofNat 32 s.m_pendingVisitedLinks.length).toNat =
        s.m_keyCount.toNat + s.m_pendingVisitedLinks.length ∧
      1 ≤ s.m_keyCount.toNat + s.m_pendingVisitedLinks.length := by
  rw [Fits] at fits
  constructor
  · rw [BitVec.toNat_add, BitVec.toNat_ofNat]
    omega
  · by_contra none
    have keys : s.m_keyCount = 0 := BitVec.eq_of_toNat_eq (by
      rw [show BitVec.toNat (0 : BitVec 32) = 0 from rfl]
      omega)
    exact sound.waits active keys (List.eq_nil_of_length_eq_zero (by omega))

/-- **The table grows only when the keys and the pending links need more than half of it.** -/
theorem newTableSize_eq (page : PageSize systemPageSize) (sound : Sound systemPageSize s xs)
    (active : s.timerActive = true) (fits : s.Fits) :
    ∃ k < 32, (s.newTableSize systemPageSize).toNat = 2 ^ k ∧
      2 * (s.m_keyCount.toNat + s.m_pendingVisitedLinks.length) ≤ 2 ^ k ∧
      minimumTableSize systemPageSize ≤ 2 ^ k ∧
      (s.m_tableSize ≠ s.newTableSize systemPageSize →
        s.m_tableSize.toNat < 2 * (s.m_keyCount.toNat + s.m_pendingVisitedLinks.length)) := by
  obtain ⟨count, least⟩ := sound.count active fits
  obtain ⟨k, small, power, enough, page_enough, minimal⟩ := tableSizeForKeyCount_eq page
    (s.m_keyCount + BitVec.ofNat 32 s.m_pendingVisitedLinks.length)
    (by omega) (by rw [count]; exact fits)
  rw [count] at enough minimal
  rw [newTableSize]
  rw [power]
  by_cases more : s.m_tableSize.toNat < 2 ^ k
  · rw [if_pos more]
    refine ⟨k, small, power, enough, page_enough, fun _ => ?_⟩
    cases sound.stored with
    | none table size =>
      rw [size, show BitVec.toNat (0 : BitVec 32) = 0 from rfl]
      omega
    | some memory holds size page_least =>
      obtain ⟨j, -, pow⟩ := holds.buckets.size
      rw [← size, pow] at page_least more ⊢
      by_contra fewer
      have := minimal j (by omega) page_least
      omega
  · rw [if_neg more]
    cases sound.stored with
    | none table size =>
      rw [size, show BitVec.toNat (0 : BitVec 32) = 0 from rfl] at more
      exact absurd (Nat.two_pow_pos k) more
    | some memory holds size page_least =>
      obtain ⟨j, few, pow⟩ := holds.buckets.size
      rw [← size, pow] at page_least more
      exact ⟨j, few, by rw [← size, pow], by omega, page_least, fun other => absurd rfl other⟩

/-! ## Growth and additions -/

/-- A new table takes over the hashes. -/
theorem grow_eq (sound : Sound systemPageSize s xs) {newTableSize : BitVec 32} {k : Nat}
    (small : k < 32) (power : newTableSize.toNat = 2 ^ k) (few : xs.length < 2 ^ k) :
    ∃ table memory ys, s.grow newTableSize = .ok { s with
        m_table := table
        m_tableSize := newTableSize
        memories := s.memories + 1 } ∧
      table.Holds memory ys ∧ ys.Perm xs ∧ memory.data.length = 2 ^ k := by
  rw [grow]
  rw [power]
  have start := @VisitedLinkTable.holds_new k s.memories small
  cases sound.stored with
  | none table size keys empty =>
    rw [table]
    exact ⟨_, _, [], rfl, start, by rw [empty], List.length_replicate⟩
  | some memory holds size least =>
    have legal : ∀ h ∈ memory.data.filter (· ≠ 0), LegalHash h := by
      intro h among
      obtain ⟨inside, nonzero⟩ := List.mem_filter.mp among
      exact (holds.legal h inside).resolve_left (of_decide_eq_true nonzero)
    have same : (memory.data.filter (· ≠ 0)).Perm xs := by
      rw [holds.filter]
      exact holds.buckets.entries
    have all : (memory.data.filter (· ≠ 0)).filter (· ∉ ([] : List LinkHash)) =
        memory.data.filter (· ≠ 0) := by
      rw [List.filter_eq_self]
      intro h _
      exact decide_eq_true List.not_mem_nil
    obtain ⟨t', memory', adds, holds', -, length⟩ := VisitedLinkTable.addAll_eq []
      start legal (same.nodup_iff.mpr holds.nodup) (by
        rw [List.length_replicate, List.length_nil, Nat.zero_add, same.length_eq]
        exact few)
    rw [all, List.append_nil] at holds'
    rw [holds.shared]
    simp only
    rw [if_pos (Nat.le_of_eq size.symm), ← size, List.take_length,
      VisitedLinkTable.reAdd_eq adds]
    refine ⟨t', memory', _, rfl, holds', (List.reverse_perm _).trans same, ?_⟩
    rw [length, List.length_replicate]

/-- The pending links are in the table and have been counted. -/
theorem addPending_eq (pending : List LinkHash) (holds : s.m_table.Holds memory xs) (legal : ∀ h ∈ pending, LegalHash h)
    (distinct : pending.Nodup) (few : xs.length + pending.length < memory.data.length) :
    ∃ table memory', s.addPending pending = .ok ({ s with
        m_table := table
        m_keyCount := s.m_keyCount + BitVec.ofNat 32 pending.length
        log := s.log ++ (pending.filter (· ∉ xs)).map .added }, pending.filter (· ∉ xs)) ∧
      table.Holds memory' ((pending.filter (· ∉ xs)).reverse ++ xs) ∧
      memory'.identifier = memory.identifier ∧
      memory'.data.length = memory.data.length := by
  obtain ⟨table, memory', adds, holds', identifier, size⟩ :=
    VisitedLinkTable.addAll_eq [] holds legal distinct few
  rw [addPending, adds]
  exact ⟨table, memory', rfl, holds', identifier, size⟩

/-! ## Messages -/

/-- The messages change the processes and the log. -/
theorem notify_frame (resized : Bool) (added : List LinkHash) (processes : List Process) :
    ∃ without log, notify resized added processes s = { s with
      m_processesWithoutVisitedLinkState := without
      log := log } := by
  induction processes generalizing s with
  | nil => exact ⟨_, _, rfl⟩
  | cons process rest ih =>
    rw [notify]
    cases resized with
    | true =>
      obtain ⟨without, log, same⟩ := @ih { s with
        m_processesWithoutVisitedLinkState :=
          s.m_processesWithoutVisitedLinkState.insert process }
      exact ⟨without, log, same⟩
    | false =>
      by_cases few : added.length ≤ 20
      · obtain ⟨without, log, same⟩ := @ih (s.send process (.visitedLinkStateChanged added))
        refine ⟨without, log, ?_⟩
        simp only [Bool.false_eq_true, if_false, if_pos few]
        exact same
      · obtain ⟨without, log, same⟩ := @ih (s.send process .allVisitedLinkStateChanged)
        refine ⟨without, log, ?_⟩
        simp only [Bool.false_eq_true, if_false, if_neg few]
        exact same

theorem giveTable_frame (shared : s.m_table.m_sharedMemory = some memory)
    (handles : Process → Bool) (processes : List Process) :
    ∃ withState without log ended, giveTable handles processes s = .ok ({ s with
      m_processesWithVisitedLinkState := withState
      m_processesWithoutVisitedLinkState := without
      log := log }, ended) := by
  induction processes generalizing s with
  | nil => exact ⟨_, _, _, true, rfl⟩
  | cons process rest ih =>
    rw [giveTable, shared]
    by_cases handled : handles process = true
    · simp only [if_pos handled]
      obtain ⟨withState, without, log, ended, gives⟩ :=
        @ih { (s.send process (.setVisitedLinkTable memory.identifier)).send process
            .allVisitedLinkStateChanged with
          m_processesWithVisitedLinkState := s.m_processesWithVisitedLinkState.insert process }
          shared
      exact ⟨withState, without, log, ended, gives⟩
    · simp only [if_neg handled]
      exact ⟨_, _, _, false, rfl⟩

end VisitedLinkProvider

end NetRider.VisitedLinks
