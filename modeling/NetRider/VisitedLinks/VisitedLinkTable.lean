import NetRider.Wtf.HashTableProbes

/-!
# VisitedLinkTable

The hashes of the visited links, in shared memory. A slot that holds 0 is free. An index outside
the memory, the use of a table without memory and a loop that goes on after it has seen every slot
are faults.
-/

namespace NetRider.VisitedLinks

open NetRider.Wtf.HashTables
open NetRider.Lib.Probing

abbrev LinkHash := BitVec 64

/-- The traits of `HashSet<LinkHash, LinkHashHash>`. -/
def linkHashTraits : Traits LinkHash LinkHash where
  extract h := h
  hash h := h.setWidth 32
  equal a b := a == b
  safeToCompareToEmptyOrDeleted := true
  isEmptyValue h := h == 0
  isDeletedValue h := h == BitVec.allOnes 64
  emptyValue := 0
  deletedValue := BitVec.allOnes 64
  minimumTableSize := 8

/-- A value that a set of link hashes can hold. -/
def LegalHash (h : LinkHash) : Prop := h ≠ 0 ∧ h ≠ BitVec.allOnes 64

instance (h : LinkHash) : Decidable (LegalHash h) := inferInstanceAs (Decidable (_ ∧ _))

/-- The identifier tells one memory from another. -/
structure SharedMemory where
  identifier : Nat
  data : List LinkHash
deriving DecidableEq

structure VisitedLinkTable where
  m_sharedMemory : Option SharedMemory
  m_tableSize : Nat
  m_tableSizeMask : Nat
deriving DecidableEq

namespace VisitedLinkTable

def new : VisitedLinkTable := ⟨none, 0, 0⟩

def setSharedMemory (sharedMemory : SharedMemory) : VisitedLinkTable where
  m_sharedMemory := some sharedMemory
  m_tableSize := sharedMemory.data.length
  m_tableSizeMask := sharedMemory.data.length - 1

/-- A slot that is free or holds the hash ends the loop. -/
def visit (linkHash : LinkHash) (_ : Unit) (i : Nat) (entry : LinkHash) : (Nat × Bool) ⊕ Unit :=
  if entry = 0 then .inl (i, false)
  else if entry = linkHash then .inl (i, true)
  else .inr ()

/-- The loop of `addLinkHash` and `isLinkVisited`. `doubleHash` is the one of `HashTable`. -/
def find (table : List LinkHash) (mask : Nat) (linkHash : LinkHash) : Except Fault (Nat × Bool) :=
  let sizeMask := BitVec.ofNat 32 mask
  let h := linkHash.setWidth 32
  HashTable.probeLoop table sizeMask h (visit linkHash) table.length (h &&& sizeMask) 0 ()

/-- `*entry = linkHash`. -/
def store (t : VisitedLinkTable) (memory : SharedMemory) (i : Nat) (linkHash : LinkHash) :
    VisitedLinkTable :=
  { t with m_sharedMemory := some { memory with data := memory.data.set i linkHash } }

def addLinkHash (t : VisitedLinkTable) (linkHash : LinkHash) :
    Except Fault (VisitedLinkTable × Bool) :=
  match t.m_sharedMemory with
  | none => .error .null
  | some memory => do
    let (i, found) ← find memory.data t.m_tableSizeMask linkHash
    if found then return (t, false)
    else return (t.store memory i linkHash, true)

def isLinkVisited (t : VisitedLinkTable) (linkHash : LinkHash) : Except Fault Bool :=
  match t.m_sharedMemory with
  | none => .ok false
  | some memory => do
    let (_, found) ← find memory.data t.m_tableSizeMask linkHash
    return found

/-- The hashes in the table. -/
def stored (t : VisitedLinkTable) : List LinkHash :=
  match t.m_sharedMemory with
  | none => []
  | some memory => memory.data.filter (· ≠ 0)

end VisitedLinkTable

/-! ## Traits -/

theorem linkHashTraits_lawful : linkHashTraits.Lawful where
  refl k := beq_self_eq_true k
  symm same := by
    rw [linkHashTraits, beq_iff_eq] at same ⊢
    exact same.symm
  trans same same' := by
    rw [linkHashTraits, beq_iff_eq] at same same' ⊢
    exact same.trans same'
  hash same := by
    rw [linkHashTraits, beq_iff_eq] at same
    rw [same]
  empty := by decide
  empty_deleted := by decide
  deleted := by decide
  deleted_empty := by decide
  minimum := ⟨2, by decide, rfl⟩

theorem legal_iff (h : LinkHash) : linkHashTraits.Legal h ↔ LegalHash h := by
  simp only [Traits.Legal, Traits.checkKey, linkHashTraits, LegalHash, Bool.not_true,
    Bool.false_or, Bool.and_eq_true, Bool.not_eq_true', beq_eq_false_iff_ne, ne_eq]
  constructor
  · intro legal
    exact ⟨legal.1, legal.2.1⟩
  · intro legal
    exact ⟨legal.1, legal.2, fun same => legal.1 same.symm, fun same => legal.2 same.symm⟩

theorem isEmptyBucket_iff (h : LinkHash) : linkHashTraits.isEmptyBucket h = true ↔ h = 0 :=
  beq_iff_eq

/-- A slot that is another one does not hold the hash. -/
theorem ne_of_not_equal {b h : LinkHash}
    (apart : linkHashTraits.equal (linkHashTraits.extract b) h = false) : b ≠ h :=
  beq_eq_false_iff_ne.mp apart

theorem isLive_of_legal {h : LinkHash} (legal : LegalHash h) : linkHashTraits.isLive h = true :=
  Traits.isLive_legal ((legal_iff h).mpr legal)

/-! ## The hashes in a table -/

namespace VisitedLinkTable

variable {t : VisitedLinkTable} {memory : SharedMemory} {xs : List LinkHash} {linkHash h : LinkHash}

/-- The table holds the hashes `xs`, in `memory`. -/
structure Holds (t : VisitedLinkTable) (memory : SharedMemory) (xs : List LinkHash) : Prop where
  shared : t.m_sharedMemory = some memory
  size : t.m_tableSize = memory.data.length
  mask : t.m_tableSizeMask = memory.data.length - 1
  legal : ∀ b ∈ memory.data, b = 0 ∨ LegalHash b
  buckets : Buckets linkHashTraits memory.data xs

theorem Holds.filter (holds : Holds t memory xs) :
    memory.data.filter (· ≠ 0) = memory.data.filter linkHashTraits.isLive := by
  apply List.filter_congr
  intro b among
  rcases holds.legal b among with rfl | legal
  · rfl
  · rw [isLive_of_legal legal, decide_eq_true legal.1]

theorem Holds.stored (holds : Holds t memory xs) : t.stored.Perm xs := by
  rw [VisitedLinkTable.stored, holds.shared]
  simp only
  rw [holds.filter]
  exact holds.buckets.entries

theorem Holds.nodup (holds : Holds t memory xs) : xs.Nodup :=
  holds.buckets.distinct.imp fun {a b} apart same => by
    rw [same, linkHashTraits_lawful.refl] at apart
    cases apart

theorem Holds.room (holds : Holds t memory xs) (less : xs.length < memory.data.length) :
    Room linkHashTraits memory.data := by
  have none_deleted : memory.data.countP linkHashTraits.isDeletedBucket = 0 := by
    rw [List.countP_eq_zero]
    intro b among deleted
    rcases holds.legal b among with rfl | legal
    · cases deleted
    · exact legal.2 (beq_iff_eq.mp deleted)
  exact holds.buckets.room linkHashTraits_lawful (by omega)

/-! ## Searches -/

/-- What the search ends with: the slot of the hash, or a free one its probes lead to. -/
theorem find_eq (holds : Holds t memory xs) (room : Room linkHashTraits memory.data) :
    ∃ i, find memory.data t.m_tableSizeMask h = .ok (i, decide (h ∈ xs)) ∧
      (h ∉ xs → memory.data[i]? = some 0 ∧ Open linkHashTraits memory.data h i) := by
  obtain ⟨p, small, size⟩ := holds.buckets.size
  obtain ⟨last, few, b, found, taken, ends⟩ :=
    holds.buckets.search linkHashTraits_lawful room h
  have goes : ∀ m < last, ∃ b,
      memory.data[linkHashTraits.position memory.data.length h m]? = some b ∧
        visit h () (linkHashTraits.position memory.data.length h m) b = .inr () := by
    intro m early
    obtain ⟨b, found, nonempty, other⟩ := holds.buckets.passes taken early
    have nonzero : b ≠ 0 := by
      intro zero
      rw [(isEmptyBucket_iff b).mpr zero] at nonempty
      cases nonempty
    have live := isLive_of_legal
      ((holds.legal b (List.mem_of_getElem? found)).resolve_left nonzero)
    rw [live, Bool.true_and] at other
    refine ⟨b, found, ?_⟩
    rw [visit, if_neg nonzero, if_neg (ne_of_not_equal other)]
  have open_ : Open linkHashTraits memory.data h
      (linkHashTraits.position memory.data.length h last) :=
    ⟨last, rfl, fun m early b stored vacant => taken m early b stored (.inl vacant)⟩
  have searches : ∀ result : Nat × Bool,
      visit h () (linkHashTraits.position memory.data.length h last) b = .inl result →
      find memory.data t.m_tableSizeMask h = .ok result := by
    intro result here
    rw [find, holds.mask]
    simp only [size] at goes found few here ⊢
    have hash : linkHashTraits.hash h = h.setWidth 32 := rfl
    rw [← hash]
    refine @probeLoop_eq _ _ linkHashTraits memory.data h 0 p _ _ (visit h) (fun _ => ()) result
      small last _ last _ 0 (Nat.zero_add last) few ?_
      (if_pos rfl).symm goes ⟨b, found, here⟩
    rw [toNat_and_mask small, Traits.position, Nat.zero_mul, Nat.add_zero]
  rcases ends with ⟨vacant, absent⟩ | ⟨live, same⟩
  · have zero := (isEmptyBucket_iff b).mp vacant
    have missing : h ∉ xs := fun among => ne_of_not_equal (absent h among) rfl
    refine ⟨linkHashTraits.position memory.data.length h last, searches (_, _) ?_,
      fun _ => ⟨zero ▸ found, open_⟩⟩
    rw [visit, if_pos zero, decide_eq_false missing]
  · have equal : b = h := beq_iff_eq.mp same
    have among : h ∈ xs := by
      rw [holds.buckets.mem_iff]
      exact ⟨equal ▸ live, _, equal ▸ found⟩
    have nonzero : b ≠ 0 := by
      intro zero
      have nonempty := Traits.not_empty_of_live live
      rw [(isEmptyBucket_iff b).mpr zero] at nonempty
      cases nonempty
    refine ⟨linkHashTraits.position memory.data.length h last, searches (_, _) ?_,
      fun missing => absurd among missing⟩
    rw [visit, if_neg nonzero, if_pos equal, decide_eq_true among]

/-- **A hash is visited if and only if the table holds it.** -/
theorem isLinkVisited_eq (holds : Holds t memory xs) (less : xs.length < memory.data.length) :
    t.isLinkVisited h = .ok (decide (h ∈ xs)) := by
  obtain ⟨i, finds, -⟩ := find_eq (h := h) holds (holds.room less)
  rw [isLinkVisited, holds.shared]
  simp only
  rw [finds]
  rfl

/-! ## Additions -/

/-- The hash is stored unless it is there. -/
theorem addLinkHash_eq (holds : Holds t memory xs) (less : xs.length < memory.data.length)
    (legal : LegalHash h) :
    h ∈ xs ∧ t.addLinkHash h = .ok (t, false) ∨
      h ∉ xs ∧ ∃ i, t.addLinkHash h = .ok (t.store memory i h, true) ∧
        Holds (t.store memory i h) { memory with data := memory.data.set i h } (h :: xs) := by
  obtain ⟨i, finds, free⟩ := find_eq (h := h) holds (holds.room less)
  rw [addLinkHash, holds.shared]
  simp only
  rw [finds]
  by_cases among : h ∈ xs
  · refine .inl ⟨among, ?_⟩
    rw [decide_eq_true among]
    rfl
  · obtain ⟨vacant, leads⟩ := free among
    refine .inr ⟨among, i, ?_, ?_⟩
    · rw [decide_eq_false among]
      rfl
    · have absent : Absent linkHashTraits h xs := by
        intro x inside
        by_contra same
        rw [Bool.not_eq_false] at same
        exact among ((beq_iff_eq.mp same : x = h) ▸ inside)
      refine ⟨rfl, ?_, ?_, ?_, ?_⟩
      · rw [List.length_set]
        exact holds.size
      · rw [List.length_set]
        exact holds.mask
      · intro b inside
        rcases List.mem_or_eq_of_mem_set inside with old | rfl
        · exact holds.legal b old
        · exact .inr legal
      · exact holds.buckets.put ((legal_iff h).mpr legal) absent linkHashTraits_lawful leads
          vacant rfl

end VisitedLinkTable

end NetRider.VisitedLinks
