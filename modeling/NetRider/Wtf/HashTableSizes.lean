import NetRider.Wtf.HashTableProbes

/-!
# Sizes of HashTables

A table with the counts of its buckets. Another size gives the same entries, no deleted buckets, and
the new place of a given entry.
-/

namespace NetRider.Wtf.HashTables

open NetRider.Lib.Probing
open HashTable

variable {K V : Type} {T : Traits K V} {t : HashTable V} {table old xs ys : List V} {b v w : V}
  {i n p q : Nat} {entry newEntry : Option Nat}

/-- The sizes that come up. -/
def Grown (T : Traits K V) (size : Nat) : Prop := ∃ j, size = T.minimumTableSize * 2 ^ j

/-- `t` has the buckets `table`, with the entries `xs`, and knows how many there are. -/
structure Filled (T : Traits K V) (t : HashTable V) (table xs : List V) : Prop where
  holds : t.m_table = some table
  buckets : Buckets T table xs
  size : t.m_tableSize = table.length
  mask : t.m_tableSizeMask = table.length - 1
  keyCount : t.m_keyCount = xs.length
  deletedCount : t.m_deletedCount = table.countP T.isDeletedBucket
  grown : Grown T table.length

/-- Fewer than half of the buckets are taken. -/
def Low (T : Traits K V) (table xs : List V) : Prop :=
  (xs.length + table.countP T.isDeletedBucket) * 2 < table.length

instance : Decidable (Low T table xs) := inferInstanceAs (Decidable (_ < _))

theorem ok_bind {α β : Type} (a : α) (f : α → Except Fault β) : (Except.ok a >>= f) = f a := rfl

theorem pure_eq {α : Type} (a : α) : (pure a : Except Fault α) = .ok a := rfl

theorem int_eq {x : Int} (least : -2 ^ 31 ≤ x) (most : x < 2 ^ 31) : int x = .ok x :=
  if_pos ⟨least, most⟩

theorem Filled.room (filled : Filled T t table xs) (lawful : T.Lawful)
    (less : xs.length + table.countP T.isDeletedBucket < table.length) : Room T table :=
  filled.buckets.room lawful less

/-! ## Stores -/

theorem store_eq (table' : t.m_table = some table) (inside : q < table.length) :
    t.store q v = .ok { t with m_table := some (table.set q v) } := by
  rw [store, table']
  exact if_pos inside

theorem load_eq (table' : t.m_table = some table) (stored : table[q]? = some v) :
    t.load q = .ok v := by
  simp only [load, table', stored]

theorem lt_of_stored (stored : table[q]? = some v) : q < table.length :=
  (List.getElem?_eq_some_iff.mp stored).1

/-! ## Reinsertion -/

/-- What the new table is like while entries are put in. -/
structure Filling (T : Traits K V) (t : HashTable V) (table ys : List V) (size : Nat) : Prop where
  holds : t.m_table = some table
  buckets : Buckets T table ys
  length : table.length = size
  mask : t.m_tableSizeMask = size - 1
  deleted : table.countP T.isDeletedBucket = 0

theorem Filling.perm {size : Nat} (filling : Filling T t table ys size) (lawful : T.Lawful)
    (same : ys.Perm xs) : Filling T t table xs size where
  holds := filling.holds
  buckets :=
    ⟨filling.buckets.size, filling.buckets.kinds, filling.buckets.leads,
      filling.buckets.entries.trans same,
      (same.pairwise_iff fun {a b} apart => by rwa [T.equal_comm lawful]).mp
        filling.buckets.distinct⟩
  length := filling.length
  mask := filling.mask
  deleted := filling.deleted

theorem reinsert_eq {size : Nat} (lawful : T.Lawful) (filling : Filling T t table ys size)
    (few : ys.length < size) (legal : T.Legal (T.extract v)) (absent : Absent T (T.extract v) ys) :
    ∃ q, t.reinsert T v = .ok ({ t with m_table := some (table.set q v) }, q) ∧
      table[q]? = some T.emptyValue ∧
      Filling T { t with m_table := some (table.set q v) } (table.set q v) (v :: ys) size := by
  have room := filling.buckets.room lawful (by rw [filling.deleted, filling.length]; exact few)
  obtain ⟨place, places, ⟨-, free⟩ | ⟨found, b, stored, live, same⟩⟩ :=
    place_eq lawful filling.buckets room filling.holds (filling.length ▸ filling.mask) legal
  · have none : place.deletedEntry = none := by
      cases passed : place.deletedEntry with
      | none => rfl
      | some d =>
        have stored := (free.deleted d passed).2
        have none := List.countP_eq_zero.mp filling.deleted _ (List.mem_of_getElem? stored)
        exact absurd lawful.deleted none
    refine ⟨place.entry, ?_, free.empty, rfl, ?_, ?_, filling.mask, ?_⟩
    · simp only [reinsert, lookupForWriting, places, free.found, none, ok_bind, pure_eq, Option.getD_none, if_false, Bool.false_eq_true,
        store_eq filling.holds (lt_of_stored free.empty)]
    · exact filling.buckets.put legal absent lawful free.leads free.empty (T.isLive_empty lawful)
    · rw [List.length_set]
      exact filling.length
    · have counts := @countP_set _ _ v _ _ T.isDeletedBucket free.empty
      rw [lawful.empty_deleted, T.not_deleted_of_live (T.isLive_legal legal)] at counts
      exact counts.trans filling.deleted
  · have among := filling.buckets.mem_iff.mpr ⟨live, _, stored⟩
    rw [absent b among] at same
    cases same

/-- The entry that is followed has come to the bucket of `newEntry`. -/
def Follows (old : List V) (entry newEntry : Option Nat) (table : List V) (i : Nat) : Prop :=
  ∀ e < i, entry = some e → ∀ b, old[e]? = some b →
    ∃ p, newEntry = some p ∧ table[p]? = some b

theorem rehashLoop_eq {size : Nat} (lawful : T.Lawful) (kinds : ∀ b ∈ old, T.Kind b)
    (distinct : (old.filter T.isLive).Pairwise fun a b =>
      T.equal (T.extract a) (T.extract b) = false)
    (few : (old.filter T.isLive).length < size) (rest : i + n = old.length)
    (filling : Filling T t table ((old.take i).filter T.isLive) size)
    (followed : ∀ e, entry = some e → ∃ b, old[e]? = some b ∧ T.isLive b = true)
    (follows : Follows old entry newEntry table i) :
    ∃ table' newEntry', rehashLoop T old entry n i t newEntry =
        .ok ({ t with m_table := some table' }, newEntry') ∧
      Filling T { t with m_table := some table' } table' (old.filter T.isLive) size ∧
      Follows old entry newEntry' table' old.length := by
  induction n generalizing i t table newEntry with
  | zero =>
    obtain rfl : i = old.length := rest
    rw [List.take_length] at filling
    refine ⟨table, newEntry, ?_, ?_, follows⟩
    · rw [rehashLoop, ← filling.holds]
    · rw [← filling.holds]
      exact filling
  | succ n ih =>
    have inside : i < old.length := by omega
    have stored := List.getElem?_eq_getElem inside
    have split := List.take_append_drop i old
    rw [List.drop_eq_getElem_cons inside] at split
    have next := List.take_succ_eq_append_getElem inside
    generalize old[i] = b at stored split next
    rw [rehashLoop, stored]
    simp only
    by_cases dead : T.isEmptyOrDeletedBucket b = true
    · have notLive : ¬ T.isLive b = true := by
        rw [Traits.isLive, dead]
        decide
      rw [if_pos dead]
      have filling' : Filling T t table ((old.take (i + 1)).filter T.isLive) size := by
        rw [next, List.filter_append, List.filter_cons_of_neg notLive, List.filter_nil,
          List.append_nil]
        exact filling
      refine ih (by omega) filling' fun e before same b' stored' => ?_
      rcases Nat.lt_succ_iff_lt_or_eq.mp before with less | rfl
      · exact follows e less same b' stored'
      · obtain ⟨b'', stored'', live⟩ := followed _ same
        obtain rfl := Option.some.inj (stored.symm.trans stored'')
        exact absurd live notLive
    · have live : T.isLive b = true := by
        rw [Traits.isLive, Bool.eq_false_iff.mpr dead]
        rfl
      have all := split ▸ distinct
      rw [List.filter_append, List.filter_cons_of_pos live] at all
      have absent : Absent T (T.extract b) ((old.take i).filter T.isLive) := fun x among =>
        (List.pairwise_append.mp all).2.2 x among b List.mem_cons_self
      have fewer : ((old.take i).filter T.isLive).length < size :=
        Nat.lt_of_le_of_lt ((List.take_sublist i old).filter T.isLive).length_le few
      obtain ⟨q, reinserts, empty, filling'⟩ := reinsert_eq lawful filling fewer
        ((kinds b (List.mem_of_getElem? stored)).legal lawful live) absent
      have taken : ∀ (p : Nat) (c : V), table[p]? = some c → T.isLive c = true →
          (table.set q b)[p]? = some c := by
        intro p c there live
        rw [List.getElem?_set_ne, there]
        rintro rfl
        obtain rfl := Option.some.inj (empty.symm.trans there)
        rw [T.isLive_empty lawful] at live
        cases live
      rw [if_neg dead, reinserts]
      simp only [ok_bind]
      refine ih (by omega) (filling'.perm lawful ?_) fun e before same b' stored' => ?_
      · rw [next, List.filter_append, List.filter_cons_of_pos live, List.filter_nil]
        exact (List.perm_append_singleton _ _).symm
      · rcases Nat.lt_succ_iff_lt_or_eq.mp before with less | rfl
        · obtain ⟨p, followed', there⟩ := follows e less same b' stored'
          have other : entry ≠ some i := by
            rw [same]
            intro eq
            have := Option.some.inj eq
            omega
          refine ⟨p, by rw [if_neg other]; exact followed', taken p b' there ?_⟩
          obtain ⟨c, stored'', live'⟩ := followed e same
          obtain rfl := Option.some.inj (stored'.symm.trans stored'')
          exact live'
        · obtain rfl := Option.some.inj (stored.symm.trans stored')
          refine ⟨q, by rw [if_pos same], List.getElem?_set_self (lt_of_stored empty)⟩

/-! ## Other sizes -/

theorem Grown.pow {size : Nat} (lawful : T.Lawful) (grown : Grown T size) (small : size < 2 ^ 32) :
    ∃ p < 32, size = 2 ^ p := by
  obtain ⟨a, -, least⟩ := lawful.minimum
  obtain ⟨j, rfl⟩ := grown
  rw [least, ← Nat.pow_add] at small ⊢
  exact ⟨_, (Nat.pow_lt_pow_iff_right (by decide)).mp small, rfl⟩

theorem Grown.double {size : Nat} (grown : Grown T size) : Grown T (size * 2) := by
  obtain ⟨j, rfl⟩ := grown
  exact ⟨j + 1, by rw [Nat.pow_succ, Nat.mul_assoc]⟩

theorem Grown.half {size : Nat} (grown : Grown T size) (more : T.minimumTableSize < size) :
    Grown T (size / 2) ∧ size / 2 * 2 = size := by
  obtain ⟨j, rfl⟩ := grown
  rcases j with _ | j
  · rw [Nat.pow_zero, Nat.mul_one] at more
    exact absurd more (Nat.lt_irrefl _)
  · rw [Nat.pow_succ, ← Nat.mul_assoc, Nat.mul_div_cancel _ (by decide)]
    exact ⟨⟨j, rfl⟩, rfl⟩

/-- The entry that is followed is in the bucket of `newEntry`. -/
def Moved (old : List V) (entry newEntry : Option Nat) (table : List V) : Prop :=
  ∀ e, entry = some e → ∀ b, old[e]? = some b → ∃ p, newEntry = some p ∧ table[p]? = some b

theorem rehash_eq {size : Nat} (lawful : T.Lawful) (holds : t.m_table.getD [] = old)
    (length : t.m_tableSize = old.length) (kinds : ∀ b ∈ old, T.Kind b)
    (entries : (old.filter T.isLive).Perm xs)
    (distinct : xs.Pairwise fun a b => T.equal (T.extract a) (T.extract b) = false)
    (keyCount : t.m_keyCount = xs.length) (grown : Grown T size) (small : size < 2 ^ 32)
    (few : xs.length < size)
    (followed : ∀ e, entry = some e → ∃ b, old[e]? = some b ∧ T.isLive b = true) :
    ∃ t' newEntry table', t.rehash T size entry = .ok (t', newEntry) ∧
      Filled T t' table' xs ∧ table'.length = size ∧ table'.countP T.isDeletedBucket = 0 ∧
      Moved old entry newEntry table' := by
  obtain ⟨p, less, rfl⟩ := grown.pow lawful small
  have distinct' := (entries.symm.pairwise_iff fun {a b} apart => by
    rwa [T.equal_comm lawful]).mp distinct
  have none : (allocateTable T (2 ^ p)).countP T.isDeletedBucket = 0 := by
    refine List.countP_eq_zero.mpr fun b among => ?_
    rw [List.eq_of_mem_replicate among, lawful.empty_deleted]
    decide
  have start : Filling T
      { t with
        m_tableSize := 2 ^ p
        m_tableSizeMask := 2 ^ p - 1
        m_table := some (allocateTable T (2 ^ p)) }
      (allocateTable T (2 ^ p)) ((old.take 0).filter T.isLive) (2 ^ p) :=
    ⟨rfl, buckets_allocate lawful less, List.length_replicate, rfl, none⟩
  have fresh : Follows old entry Option.none (allocateTable T (2 ^ p)) 0 :=
    fun e before => absurd before (Nat.not_lt_zero e)
  obtain ⟨table', newEntry, loops, filling, follows⟩ := rehashLoop_eq lawful kinds distinct'
    (entries.length_eq ▸ few) (Nat.zero_add _) start followed fresh
  refine ⟨⟨some table', 2 ^ p, 2 ^ p - 1, t.m_keyCount, 0⟩, newEntry, table', ?_, ⟨filling.holds, (filling.perm lawful entries).buckets,
    filling.length.symm, ?_, keyCount, ?_, filling.length ▸ grown⟩, filling.length,
    filling.deleted, fun e same b stored => follows e (lt_of_stored stored) same b stored⟩
  · simp only [rehash, holds, length, loops, ok_bind, pure_eq]
  · rw [filling.length]
  · rw [filling.deleted]
    rfl

theorem Filled.rehash {size : Nat} (lawful : T.Lawful) (filled : Filled T t table xs)
    (grown : Grown T size) (small : size < 2 ^ 32) (few : xs.length < size)
    (followed : ∀ e, entry = some e → ∃ b, table[e]? = some b ∧ T.isLive b = true) :
    ∃ t' newEntry table', t.rehash T size entry = .ok (t', newEntry) ∧
      Filled T t' table' xs ∧ table'.length = size ∧ table'.countP T.isDeletedBucket = 0 ∧
      Moved table entry newEntry table' :=
  rehash_eq lawful (by rw [filled.holds]; rfl) filled.size filled.buckets.kinds
    filled.buckets.entries filled.buckets.distinct filled.keyCount grown small few followed

theorem minimum_lt (lawful : T.Lawful) : 1 < T.minimumTableSize ∧ T.minimumTableSize < 2 ^ 28 := by
  obtain ⟨a, few, least⟩ := lawful.minimum
  rw [least]
  refine ⟨Nat.one_lt_two_pow (Nat.succ_ne_zero a), ?_⟩
  exact Nat.pow_lt_pow_right (by decide) (by omega)

theorem mustRehashInPlace_eq (filled : Filled T t table xs) (half : xs.length * 2 ≤ table.length)
    (small : table.length < 2 ^ 29) :
    t.mustRehashInPlace = .ok (decide (xs.length * 6 < table.length * 2)) := by
  have load : int (t.m_keyCount * m_minLoad) = .ok (xs.length * 6) := by
    rw [filled.keyCount, m_minLoad, int_eq (by omega) (by omega)]
  have double : int ((t.m_tableSize : Int) * 2) = .ok (table.length * 2) := by
    rw [filled.size, int_eq (by omega) (by omega)]
  rw [mustRehashInPlace, load, double]
  simp only [ok_bind, pure_eq]
  refine congrArg Except.ok (Bool.eq_iff_iff.mpr ?_)
  rw [decide_eq_true_iff, decide_eq_true_iff]
  omega

/-- Half of the buckets may be taken. The new table has fewer, and is not much larger than the
entries need. -/
theorem expand_eq (lawful : T.Lawful) (filled : Filled T t table xs)
    (half : (xs.length + table.countP T.isDeletedBucket) * 2 ≤ table.length)
    (small : table.length < 2 ^ 29)
    (followed : ∀ e, entry = some e → ∃ b, table[e]? = some b ∧ T.isLive b = true) :
    ∃ t' newEntry table', t.expand T entry = .ok (t', newEntry) ∧ Filled T t' table' xs ∧
      Low T table' xs ∧ Moved table entry newEntry table' ∧
      table'.length ≤ max table.length (6 * xs.length) := by
  obtain ⟨p, -, power⟩ := filled.buckets.size
  have some : 0 < table.length := power ▸ Nat.two_pow_pos p
  have positive : ¬ t.m_tableSize = 0 := by
    rw [filled.size]
    omega
  rw [expand, if_neg positive, mustRehashInPlace_eq filled (by omega) small]
  simp only [ok_bind]
  by_cases inPlace : xs.length * 6 < table.length * 2
  · obtain ⟨t', newEntry, table', rehashes, filled', length, none, moved⟩ :=
      filled.rehash lawful filled.grown (by omega) (by omega) followed
    refine ⟨t', newEntry, table', ?_, filled', ?_, moved, ?_⟩
    · rw [if_pos (decide_eq_true inPlace), filled.size]
      exact rehashes
    · rw [Low, none, length]
      omega
    · rw [length]
      exact Nat.le_max_left ..
  · obtain ⟨t', newEntry, table', rehashes, filled', length, none, moved⟩ :=
      filled.rehash lawful (Grown.double filled.grown) (by omega) (by omega) followed
    refine ⟨t', newEntry, table', ?_, filled', ?_, moved, ?_⟩
    · have double : int ((t.m_tableSize : Int) * 2) = .ok (table.length * 2) := by
        rw [filled.size, int_eq (by omega) (by omega)]
      have size : ((table.length : Int) * 2).toNat = table.length * 2 := by omega
      rw [if_neg (by rw [decide_eq_true_iff]; exact inPlace), double]
      simp only [ok_bind, size]
      exact rehashes
    · rw [Low, none, length]
      omega
    · rw [length]
      exact le_max_of_le_right (by omega)

/-- The first table. -/
theorem expand_null (lawful : T.Lawful) (null : t.m_table = none) (size : t.m_tableSize = 0)
    (keyCount : t.m_keyCount = 0) :
    ∃ t' newEntry table', t.expand T none = .ok (t', newEntry) ∧ Filled T t' table' [] ∧
      Low T table' [] ∧ table'.length = T.minimumTableSize := by
  obtain ⟨least, most⟩ := minimum_lt lawful
  have grown : Grown T T.minimumTableSize := ⟨0, (Nat.mul_one _).symm⟩
  obtain ⟨t', newEntry, table', rehashes, filled, length, deleted, -⟩ :=
    @rehash_eq _ _ T t [] [] none _ lawful (by rw [null]; rfl) size
      (fun b among => absurd among List.not_mem_nil) (List.Perm.refl _) List.Pairwise.nil keyCount
      grown (by omega) (by rw [List.length_nil]; omega) fun e follow => by cases follow
  refine ⟨t', newEntry, table', ?_, filled, ?_, length⟩
  · simp only [expand, size, if_true]
    exact rehashes
  · rw [Low, deleted, length, List.length_nil]
    omega

theorem shrink_eq (lawful : T.Lawful) (filled : Filled T t table xs)
    (few : xs.length * 6 < table.length) (more : T.minimumTableSize < table.length)
    (small : table.length < 2 ^ 29) :
    ∃ t' table', t.shrink T = .ok t' ∧ Filled T t' table' xs ∧ Low T table' xs ∧
      table'.length ≤ table.length := by
  obtain ⟨grown, half⟩ := Grown.half filled.grown more
  obtain ⟨t', newEntry, table', rehashes, filled', length, deleted, -⟩ :=
    @Filled.rehash _ _ T t table xs none _ lawful filled grown (by omega) (by omega)
      fun e follow => by cases follow
  refine ⟨t', table', ?_, filled', ?_, by omega⟩
  · simp only [shrink, filled.size, rehashes, ok_bind, pure_eq]
  · rw [Low, deleted, length]
    omega

end NetRider.Wtf.HashTables
