import NetRider.Wtf.HashTableSizes

/-!
# Operations of HashTables

A table stands for the list of its entries, in any order, whose keys are all different. Each operation
does to the list what it does to a finite map.
-/

namespace NetRider.Wtf.HashTables

open HashTable

variable {K V : Type} {T : Traits K V} {t : HashTable V} {table xs ys : List V} {key : K} {b v : V}
  {i n q : Nat}

/-- `t` has the entries `xs`. -/
inductive Holds (T : Traits K V) (t : HashTable V) : List V → Prop
  | null (null : t.m_table = none) (size : t.m_tableSize = 0) (keyCount : t.m_keyCount = 0) :
    Holds T t []
  | filled {table xs : List V} (filled : Filled T t table xs) (low : Low T table xs) : Holds T t xs

theorem holds_empty : Holds T empty [] := .null rfl rfl rfl

theorem Filled.perm (filled : Filled T t table xs) (lawful : T.Lawful) (same : xs.Perm ys) :
    Filled T t table ys where
  holds := filled.holds
  buckets :=
    ⟨filled.buckets.size, filled.buckets.kinds, filled.buckets.leads,
      filled.buckets.entries.trans same,
      (same.pairwise_iff fun {a b} apart => by rwa [T.equal_comm lawful]).mp
        filled.buckets.distinct⟩
  size := filled.size
  mask := filled.mask
  keyCount := filled.keyCount.trans (by rw [same.length_eq])
  deletedCount := filled.deletedCount
  grown := filled.grown

/-- The order of the entries does not matter. -/
theorem Holds.perm (holds : Holds T t xs) (lawful : T.Lawful) (same : xs.Perm ys) :
    Holds T t ys := by
  cases holds with
  | null null size keyCount =>
    rw [List.nil_perm.mp same]
    exact .null null size keyCount
  | filled filled low =>
    refine .filled (filled.perm lawful same) ?_
    rwa [Low, ← same.length_eq]

theorem Holds.keyCount (holds : Holds T t xs) : t.m_keyCount = xs.length := by
  cases holds with
  | null null size keyCount => exact keyCount
  | filled filled low => exact filled.keyCount

theorem Holds.size (holds : Holds T t xs) (stored : t.m_table = some table) :
    t.m_tableSize = table.length := by
  cases holds with
  | null null size keyCount =>
    rw [null] at stored
    cases stored
  | filled filled low =>
    obtain rfl := Option.some.inj (filled.holds.symm.trans stored)
    exact filled.size

theorem Holds.mem_legal (holds : Holds T t xs) (lawful : T.Lawful) (among : v ∈ xs) :
    T.Legal (T.extract v) := by
  cases holds with
  | null null size keyCount => cases among
  | filled filled low =>
    obtain ⟨live, i, stored⟩ := filled.buckets.mem_iff.mp among
    exact (filled.buckets.kind stored).legal lawful live

theorem Low.room (low : Low T table xs) (filled : Filled T t table xs) (lawful : T.Lawful) :
    Room T table := by
  rw [Low] at low
  exact filled.room lawful (by omega)

/-! ## Additions -/

/-- A table that may grow to what its entries need. -/
def limit (T : Traits K V) (t : HashTable V) (keys : Nat) : Nat :=
  max (max T.minimumTableSize t.m_tableSize) (6 * keys)

theorem allocated_eq (lawful : T.Lawful) (holds : Holds T t xs) :
    ∃ t' table, t.allocated T = .ok t' ∧ Filled T t' table xs ∧ Low T table xs ∧
      table.length ≤ max T.minimumTableSize t.m_tableSize := by
  cases holds with
  | null null size keyCount =>
    obtain ⟨t', newEntry, table, expands, filled, low, length⟩ :=
      expand_null lawful null size keyCount
    refine ⟨t', table, ?_, filled, low, by omega⟩
    rw [allocated, null]
    simp only [expands, ok_bind, pure_eq]
  | @filled table _ filled low =>
    refine ⟨t, table, ?_, filled, low, ?_⟩
    · rw [allocated, filled.holds]
    · rw [filled.size]
      exact le_max_right ..

theorem shouldExpand_eq (filled : Filled T t table xs)
    (half : (xs.length + table.countP T.isDeletedBucket) * 2 ≤ table.length)
    (small : table.length < 2 ^ 29) :
    t.shouldExpand = .ok (decide (¬ Low T table xs)) := by
  have sum : int (t.m_keyCount + t.m_deletedCount) =
      .ok (xs.length + table.countP T.isDeletedBucket) := by
    rw [filled.keyCount, filled.deletedCount, int_eq (by omega) (by omega)]
  have load : int ((xs.length + table.countP T.isDeletedBucket : Int) * m_maxLoad) =
      .ok ((xs.length + table.countP T.isDeletedBucket) * 2) := by
    rw [m_maxLoad, int_eq (by omega) (by omega)]
  rw [shouldExpand, sum, ok_bind, load, ok_bind, filled.size]
  refine congrArg Except.ok (Bool.eq_iff_iff.mpr ?_)
  rw [decide_eq_true_iff, decide_eq_true_iff, Low]
  omega

theorem added_eq (lawful : T.Lawful)
    (filled : Filled T { t with m_keyCount := t.m_keyCount + 1 } table xs)
    (half : (xs.length + table.countP T.isDeletedBucket) * 2 ≤ table.length)
    (small : table.length < 2 ^ 29) (stored : table[q]? = some v) (live : T.isLive v = true) :
    ∃ t' e, t.added T q = .ok (t', e, true) ∧ Holds T t' xs ∧ t'.load e = .ok v ∧
      t'.m_tableSize ≤ max table.length (6 * xs.length) := by
  have keyCount : t.m_keyCount + 1 = xs.length := filled.keyCount
  have increases : int (t.m_keyCount + 1) = .ok (t.m_keyCount + 1) :=
    int_eq (by omega) (by omega)
  rw [added, increases]
  simp only [ok_bind, shouldExpand_eq filled half small]
  by_cases low : Low T table xs
  · rw [if_neg (by rw [decide_eq_true_iff]; exact not_not_intro low)]
    refine ⟨_, q, rfl, .filled filled low, load_eq filled.holds stored, ?_⟩
    exact Nat.le_trans (Nat.le_of_eq filled.size) (Nat.le_max_left ..)
  · obtain ⟨t', newEntry, table', expands, filled', low', moved, most⟩ :=
      @expand_eq _ _ T _ table xs (some q) lawful filled half small fun e same => by
        obtain rfl := Option.some.inj same
        exact ⟨v, stored, live⟩
    obtain ⟨p, rfl, stored'⟩ := moved q rfl v stored
    rw [if_pos (decide_eq_true low), expands]
    refine ⟨t', p, rfl, .filled filled' low', load_eq filled'.holds stored', ?_⟩
    rw [filled'.size]
    exact most

/-- A new entry has been put in place. -/
theorem put_added (lawful : T.Lawful) (filled : Filled T t table xs) (low : Low T table xs)
    (small : table.length < 2 ^ 29) (legal : T.Legal (T.extract v))
    (absent : Absent T (T.extract v) xs) (leads : Open T table (T.extract v) q) {w : V}
    (stored : table[q]? = some w) (dead : T.isLive w = false) {d : Int}
    (count : d = t.m_deletedCount - if T.isDeletedBucket w then 1 else 0) :
    ∃ t' e, HashTable.added T { t with m_table := some (table.set q v), m_deletedCount := d } q =
        .ok (t', e, true) ∧ Holds T t' (v :: xs) ∧ t'.load e = .ok v ∧
      t'.m_tableSize ≤ max table.length (6 * (xs.length + 1)) := by
  have live := T.isLive_legal legal
  have counts := @countP_set _ _ v w q T.isDeletedBucket stored
  rw [T.not_deleted_of_live live] at counts
  have even : table.length % 2 = 0 := by
    obtain ⟨a, -, least⟩ := lawful.minimum
    obtain ⟨j, grown⟩ := filled.grown
    rw [grown, least, Nat.pow_succ, Nat.mul_right_comm]
    exact Nat.mul_mod_left _ _
  rw [Low] at low
  have half : ((v :: xs).length + (table.set q v).countP T.isDeletedBucket) * 2 ≤
      (table.set q v).length := by
    rw [List.length_set, List.length_cons]
    split at counts <;> simp only [Bool.false_eq_true, if_false] at counts <;> omega
  have length : (table.set q v).length = table.length := List.length_set ..
  have filled' : Filled T
      { t with
        m_table := some (table.set q v)
        m_deletedCount := d
        m_keyCount := t.m_keyCount + 1 } (table.set q v) (v :: xs) := by
    refine ⟨rfl, filled.buckets.put legal absent lawful leads stored dead, ?_, ?_, ?_, ?_, ?_⟩
    · rw [length]
      exact filled.size
    · rw [length]
      exact filled.mask
    · rw [List.length_cons, Nat.cast_add, filled.keyCount]
      rfl
    · rw [count, filled.deletedCount]
      split at counts <;> rename_i isDeleted <;>
        simp only [Bool.false_eq_true, if_false, isDeleted, if_true] at counts ⊢ <;> omega
    · rw [length]
      exact filled.grown
  obtain ⟨t', e, adds, holds, loads, most⟩ :=
    @added_eq _ _ T { t with m_table := some (table.set q v), m_deletedCount := d } _ _ v q lawful
      filled' half (by rw [length]; exact small)
      (List.getElem?_set_self (lt_of_stored stored)) live
  refine ⟨t', e, adds, holds, loads, ?_⟩
  rw [length, List.length_cons] at most
  exact most

/-- What an addition of `v` to the entries `xs` gives. -/
def Added (T : Traits K V) (v : V) (xs : List V) (t : HashTable V) (e : Nat) (isNew : Bool) : Prop :=
  (isNew = true ∧ Absent T (T.extract v) xs ∧ Holds T t (v :: xs) ∧ t.load e = .ok v) ∨
    (isNew = false ∧ Holds T t xs ∧
      ∃ b ∈ xs, t.load e = .ok b ∧ T.equal (T.extract b) (T.extract v) = true)

theorem store_store (inside : q < table.length) {w : V} {d : Int} :
    ({ t with m_table := some (table.set q w), m_deletedCount := d } : HashTable V).store q v =
      .ok { t with m_table := some (table.set q v), m_deletedCount := d } := by
  rw [@store_eq _ _ (table.set q w) v q rfl (by rw [List.length_set]; exact inside),
    List.set_set]

theorem add_eq (lawful : T.Lawful) (holds : Holds T t xs) (legal : T.Legal (T.extract v))
    (small : t.m_tableSize < 2 ^ 29) :
    ∃ t' e isNew, t.add T v = .ok (t', e, isNew) ∧ Added T v xs t' e isNew ∧
      t'.m_tableSize ≤ limit T t (xs.length + 1) := by
  obtain ⟨-, least⟩ := minimum_lt lawful
  obtain ⟨t₁, table, allocates, filled, low, length⟩ := allocated_eq lawful holds
  have small' : table.length < 2 ^ 29 := by omega
  obtain ⟨place, places, ⟨absent, free⟩ | ⟨found, b, stored, live, same⟩⟩ :=
    place_eq lawful filled.buckets (low.room filled lawful) filled.holds filled.mask legal
  · rw [add, allocates]
    simp only [ok_bind, places, free.found, Bool.false_eq_true, if_false]
    cases passed : place.deletedEntry with
    | some d =>
      obtain ⟨leads, stored⟩ := free.deleted d passed
      have inside := lt_of_stored stored
      obtain ⟨t', e, adds, holds', loads, most⟩ :=
        put_added lawful filled low small' legal absent leads stored (T.isLive_deleted lawful)
          (d := t₁.m_deletedCount - 1) (by rw [lawful.deleted]; rfl)
      refine ⟨t', e, true, ?_, .inl ⟨rfl, absent, holds', loads⟩, ?_⟩
      · simp only [initializeBucket, store_eq filled.holds inside, ok_bind]
        rw [store_store inside]
        simp only [ok_bind]
        exact adds
      · rw [limit]
        omega
    | none =>
      have inside := lt_of_stored free.empty
      obtain ⟨t', e, adds, holds', loads, most⟩ :=
        put_added lawful filled low small' legal absent free.leads free.empty
          (T.isLive_empty lawful) (d := t₁.m_deletedCount) (by rw [lawful.empty_deleted]; simp)
      refine ⟨t', e, true, ?_, .inl ⟨rfl, absent, holds', loads⟩, ?_⟩
      · simp only [store_eq filled.holds inside, ok_bind]
        exact adds
      · rw [limit]
        omega
  · refine ⟨t₁, place.entry, false, ?_, .inr ⟨rfl, .filled filled low, b,
      filled.buckets.mem_iff.mpr ⟨live, _, stored⟩, load_eq filled.holds stored, same⟩, ?_⟩
    · rw [add, allocates]
      simp only [ok_bind, places, found, if_true, pure_eq]
    · rw [filled.size, limit]
      omega

theorem addPassingHashCode_eq (lawful : T.Lawful) (holds : Holds T t xs)
    (legal : T.Legal (T.extract v)) (small : t.m_tableSize < 2 ^ 29) :
    ∃ t' e isNew, t.addPassingHashCode T v = .ok (t', e, isNew) ∧ Added T v xs t' e isNew ∧
      t'.m_tableSize ≤ limit T t (xs.length + 1) := by
  obtain ⟨-, least⟩ := minimum_lt lawful
  obtain ⟨t₁, table, allocates, filled, low, length⟩ := allocated_eq lawful holds
  have small' : table.length < 2 ^ 29 := by omega
  obtain ⟨place, places, ⟨absent, free⟩ | ⟨found, b, stored, live, same⟩⟩ :=
    place_eq lawful filled.buckets (low.room filled lawful) filled.holds filled.mask legal
  · rw [addPassingHashCode, allocates]
    simp only [fullLookupForWriting, ok_bind, pure_eq, places, free.found, Bool.false_eq_true,
      if_false]
    cases passed : place.deletedEntry with
    | some d =>
      obtain ⟨leads, stored⟩ := free.deleted d passed
      have inside := lt_of_stored stored
      obtain ⟨t', e, adds, holds', loads, most⟩ :=
        put_added lawful filled low small' legal absent leads stored (T.isLive_deleted lawful)
          (d := t₁.m_deletedCount - 1) (by rw [lawful.deleted]; rfl)
      refine ⟨t', e, true, ?_, .inl ⟨rfl, absent, holds', loads⟩, ?_⟩
      · simp only [Option.getD_some, load_eq filled.holds stored, lawful.deleted, if_true,
          initializeBucket, store_eq filled.holds inside, ok_bind]
        rw [store_store inside]
        simp only [ok_bind]
        exact adds
      · rw [limit]
        omega
    | none =>
      have inside := lt_of_stored free.empty
      obtain ⟨t', e, adds, holds', loads, most⟩ :=
        put_added lawful filled low small' legal absent free.leads free.empty
          (T.isLive_empty lawful) (d := t₁.m_deletedCount) (by rw [lawful.empty_deleted]; simp)
      refine ⟨t', e, true, ?_, .inl ⟨rfl, absent, holds', loads⟩, ?_⟩
      · simp only [Option.getD_none, load_eq filled.holds free.empty, lawful.empty_deleted,
          Bool.false_eq_true, if_false, store_eq filled.holds inside, ok_bind]
        exact adds
      · rw [limit]
        omega
  · refine ⟨t₁, place.entry, false, ?_, .inr ⟨rfl, .filled filled low, b,
      filled.buckets.mem_iff.mpr ⟨live, _, stored⟩, load_eq filled.holds stored, same⟩, ?_⟩
    · rw [addPassingHashCode, allocates]
      simp only [fullLookupForWriting, ok_bind, places, found, if_true, pure_eq]
    · rw [filled.size, limit]
      omega

/-! ## Searches -/

/-- What the searches for a key give. -/
def Searched (T : Traits K V) (t : HashTable V) (key : K) (xs : List V) : Prop :=
  (t.lookup T key = .ok none ∧ t.find T key = .ok t.endPosition ∧
      t.contains T key = .ok false ∧ Absent T key xs) ∨
    ∃ i b, t.lookup T key = .ok (some i) ∧ t.find T key = .ok i ∧ t.contains T key = .ok true ∧
      t.load i = .ok b ∧ b ∈ xs ∧ T.equal (T.extract b) key = true

theorem search_eq (lawful : T.Lawful) (holds : Holds T t xs) (legal : T.Legal key) :
    Searched T t key xs := by
  cases holds with
  | null null size keyCount =>
    refine .inl ⟨?_, ?_, ?_, fun x among => absurd among List.not_mem_nil⟩
    · rw [lookup, null]
    · rw [find, null]
      rfl
    · rw [contains, null]
      rfl
  | filled filled low =>
    have some : ¬ t.m_table.isNone = true := by
      rw [filled.holds]
      exact Bool.false_ne_true
    rcases lookup_eq lawful filled.buckets (low.room filled lawful) filled.holds filled.mask legal
      with ⟨looks, absent⟩ | ⟨i, b, looks, stored, live, same⟩
    · refine .inl ⟨looks, ?_, ?_, absent⟩
      · rw [find, if_neg some, looks]
        rfl
      · rw [contains, if_neg some, looks]
        rfl
    · refine .inr ⟨i, b, looks, ?_, ?_, load_eq filled.holds stored,
        filled.buckets.mem_iff.mpr ⟨live, i, stored⟩, same⟩
      · rw [find, if_neg some, looks]
        rfl
      · rw [contains, if_neg some, looks]
        rfl

/-! ## Removals -/

/-- An iterator at an entry, or at the end. -/
def Valid (T : Traits K V) (t : HashTable V) (it : Nat) : Prop :=
  it = t.endPosition ∨ ∃ b, t.load it = .ok b ∧ T.isLive b = true

theorem stored_of_load (holds : t.m_table = some table) (loads : t.load i = .ok b) :
    table[i]? = some b := by
  simp only [load, holds] at loads
  cases stored : table[i]? with
  | none =>
    rw [stored] at loads
    cases loads
  | some w =>
    rw [stored] at loads
    rw [Except.ok.inj loads]

theorem shouldShrink_eq (filled : Filled T t table xs) (half : xs.length * 2 ≤ table.length)
    (small : table.length < 2 ^ 29) : t.shouldShrink T =
      .ok (decide (xs.length * 6 < table.length ∧ T.minimumTableSize < table.length)) := by
  have load : int (t.m_keyCount * m_minLoad) = .ok (xs.length * 6) := by
    rw [filled.keyCount, m_minLoad, int_eq (by omega) (by omega)]
  rw [shouldShrink, load, ok_bind, filled.size]
  refine congrArg Except.ok (Bool.eq_iff_iff.mpr ?_)
  rw [decide_eq_true_iff, decide_eq_true_iff]
  omega

theorem removeEntry_eq (lawful : T.Lawful) (filled : Filled T t table xs) (low : Low T table xs)
    (small : table.length < 2 ^ 29) (stored : table[q]? = some b) (live : T.isLive b = true) :
    ∃ t', t.removeEntry T q = .ok t' ∧ Holds T t' (erase T (T.extract b) xs) := by
  obtain ⟨buckets, length⟩ := filled.buckets.take lawful stored live
  have counts := @countP_set _ _ T.deletedValue b q T.isDeletedBucket stored
  rw [T.not_deleted_of_live live, lawful.deleted] at counts
  simp only [Bool.false_eq_true, if_false, if_true] at counts
  have same : (table.set q T.deletedValue).length = table.length := List.length_set ..
  rw [Low] at low
  have increases : int (t.m_deletedCount + 1) = .ok (t.m_deletedCount + 1) := by
    rw [filled.deletedCount, int_eq (by omega) (by omega)]
  have filled' : Filled T
      { t with
        m_table := some (table.set q T.deletedValue)
        m_deletedCount := t.m_deletedCount + 1
        m_keyCount := t.m_keyCount - 1 } (table.set q T.deletedValue)
      (erase T (T.extract b) xs) := by
    refine ⟨rfl, buckets, ?_, ?_, ?_, ?_, ?_⟩
    · rw [same]
      exact filled.size
    · rw [same]
      exact filled.mask
    · change t.m_keyCount - 1 = _
      rw [filled.keyCount]
      omega
    · change t.m_deletedCount + 1 = _
      rw [filled.deletedCount]
      omega
    · rw [same]
      exact filled.grown
  have low' : Low T (table.set q T.deletedValue) (erase T (T.extract b) xs) := by
    rw [Low, same]
    omega
  rw [removeEntry, deleteBucket, store_eq filled.holds (lt_of_stored stored)]
  simp only [ok_bind, increases]
  rw [shouldShrink_eq filled' (by rw [same]; omega) (by rw [same]; exact small), same, ok_bind]
  by_cases shrinks : (erase T (T.extract b) xs).length * 6 < table.length ∧
      T.minimumTableSize < table.length
  · obtain ⟨t', table', shrink, filled'', low'', -⟩ :=
      shrink_eq lawful filled' (by rw [same]; exact shrinks.1) (by rw [same]; exact shrinks.2)
        (by rw [same]; exact small)
    rw [if_pos (decide_eq_true shrinks)]
    exact ⟨t', shrink, .filled filled'' low''⟩
  · rw [if_neg (by rw [decide_eq_true_iff]; exact shrinks)]
    exact ⟨_, rfl, .filled filled' low'⟩

/-- What a removal through an iterator leaves. -/
def Removed (T : Traits K V) (t : HashTable V) (it : Nat) (xs : List V) (t' : HashTable V) : Prop :=
  (it = t.endPosition ∧ Holds T t' xs) ∨
    it ≠ t.endPosition ∧ ∃ b ∈ xs, t.load it = .ok b ∧ Holds T t' (erase T (T.extract b) xs)

theorem removeIterator_eq {it : Nat} (lawful : T.Lawful) (holds : Holds T t xs)
    (small : t.m_tableSize < 2 ^ 29) (valid : Valid T t it) :
    ∃ t', t.removeIterator T it = .ok t' ∧ Removed T t it xs t' := by
  by_cases last : it = t.endPosition
  · exact ⟨t, by rw [removeIterator, if_pos last], .inl ⟨last, holds⟩⟩
  · obtain ⟨b, loads, live⟩ := valid.resolve_left last
    rw [removeIterator, if_neg last]
    cases holds with
    | null null size keyCount =>
      rw [load, null] at loads
      cases loads
    | filled filled low =>
      have stored := stored_of_load filled.holds loads
      obtain ⟨t', removes, holds'⟩ :=
        removeEntry_eq lawful filled low (filled.size ▸ small) stored live
      exact ⟨t', removes, .inr ⟨last, b, filled.buckets.mem_iff.mpr ⟨live, it, stored⟩, loads,
        holds'⟩⟩

theorem erase_congr (lawful : T.Lawful) {key' : K} (same : T.equal key key' = true) :
    erase T key xs = erase T key' xs := by
  refine List.filter_congr fun x _ => ?_
  rw [T.equal_comm lawful, T.equal_congr lawful same, T.equal_comm lawful]

theorem remove_eq (lawful : T.Lawful) (holds : Holds T t xs) (small : t.m_tableSize < 2 ^ 29)
    (legal : T.Legal key) : ∃ t', t.remove T key = .ok t' ∧ Holds T t' (erase T key xs) := by
  rcases search_eq lawful holds legal with ⟨-, finds, -, absent⟩ |
    ⟨i, b, -, finds, -, loads, among, same⟩
  · refine ⟨t, ?_, by rwa [erase_absent absent]⟩
    rw [remove, finds, ok_bind, removeIterator, if_pos rfl]
  · have live := T.isLive_legal (holds.mem_legal lawful among)
    rw [remove, finds, ok_bind]
    obtain ⟨t', removes, ⟨last, -⟩ | ⟨-, b', -, loads', holds'⟩⟩ :=
      removeIterator_eq lawful holds small (.inr ⟨b, loads, live⟩)
    · exfalso
      cases holds with
      | null null size keyCount => cases among
      | filled filled low =>
        have inside := lt_of_stored (stored_of_load filled.holds loads)
        rw [endPosition, filled.size] at last
        omega
    · obtain rfl := Except.ok.inj (loads.symm.trans loads')
      exact ⟨t', removes, by rwa [← erase_congr lawful same]⟩

theorem clear_eq (holds : Holds T t xs) : Holds T t.clear [] := by
  cases holds with
  | null null size keyCount =>
    rw [clear, null]
    exact .null null size keyCount
  | filled filled low =>
    rw [clear, filled.holds]
    exact .null rfl rfl rfl

/-! ## Iteration -/

/-- The next entry from `position` on, or the end. -/
theorem skipEmptyBuckets_eq {fuel position : Nat} (filled : Filled T t table xs)
    (inside : position ≤ table.length) (enough : table.length - position < fuel) :
    ∃ it, t.skipEmptyBuckets T fuel position = .ok it ∧ position ≤ it ∧ it ≤ table.length ∧
      (table.drop position).filter T.isLive = (table.drop it).filter T.isLive ∧
      (it = table.length ∨ ∃ b, table[it]? = some b ∧ T.isLive b = true) := by
  induction fuel generalizing position with
  | zero => omega
  | succ fuel ih =>
    rw [skipEmptyBuckets, endPosition, filled.size]
    by_cases last : position = table.length
    · rw [if_pos last]
      exact ⟨position, rfl, Nat.le_refl _, inside, rfl, .inl last⟩
    · have stored := List.getElem?_eq_getElem (by omega : position < table.length)
      have split := List.drop_eq_getElem_cons (by omega : position < table.length)
      generalize table[position] = b at stored split
      rw [if_neg last, load_eq filled.holds stored, ok_bind]
      by_cases dead : T.isEmptyOrDeletedBucket b = true
      · rw [if_pos dead]
        obtain ⟨it, skips, after, before, same, ends⟩ := @ih (position + 1) (by omega) (by omega)
        refine ⟨it, skips, by omega, before, ?_, ends⟩
        rw [split, List.filter_cons_of_neg (by rw [Traits.isLive, dead]; decide), same]
      · rw [if_neg dead]
        refine ⟨position, rfl, Nat.le_refl _, inside, rfl, .inr ⟨b, stored, ?_⟩⟩
        rw [Traits.isLive, Bool.eq_false_iff.mpr dead]
        rfl

theorem visitLoop_eq {fuel it : Nat} (filled : Filled T t table xs) (inside : it ≤ table.length)
    (ends : it = table.length ∨ ∃ b, table[it]? = some b ∧ T.isLive b = true)
    (enough : table.length - it < fuel) :
    t.visitLoop T fuel it = .ok ((table.drop it).filter T.isLive) := by
  induction fuel generalizing it with
  | zero => omega
  | succ fuel ih =>
    rw [visitLoop, endPosition, filled.size]
    rcases ends with last | ⟨b, stored, live⟩
    · rw [if_pos last, last, List.drop_length]
      rfl
    · have before := lt_of_stored stored
      have split := List.drop_eq_getElem_cons before
      rw [(List.getElem?_eq_some_iff.mp stored).2] at split
      obtain ⟨next, skips, after, inside', same, ends'⟩ :=
        @skipEmptyBuckets_eq _ _ T t table xs (t.m_tableSize + 1) (it + 1) filled (by omega)
          (by rw [filled.size]; omega)
      rw [if_neg (by omega), load_eq filled.holds stored, ok_bind, HashTable.next, skips, ok_bind,
        ih inside' ends' (by omega), ok_bind, split, List.filter_cons_of_pos live, same]
      rfl

/-- Every entry is visited once. -/
theorem visit_eq (holds : Holds T t xs) : ∃ ys, t.visit T = .ok ys ∧ ys.Perm xs := by
  have none (zero : t.m_keyCount = 0) : t.visit T = .ok [] := by
    rw [visit, HashTable.begin, isEmpty, zero, if_pos (beq_self_eq_true _), ok_bind, visitLoop,
      if_pos rfl]
    rfl
  cases holds with
  | null null size keyCount => exact ⟨[], none keyCount, List.Perm.refl _⟩
  | @filled table _ filled low =>
    rcases xs with _ | ⟨x, xs⟩
    · exact ⟨[], none filled.keyCount, List.Perm.refl _⟩
    · refine ⟨table.filter T.isLive, ?_, filled.buckets.entries⟩
      have some : ¬ t.isEmpty = true := by
        rw [isEmpty, beq_iff_eq, filled.keyCount, List.length_cons]
        omega
      obtain ⟨it, skips, -, inside, same, ends⟩ :=
        @skipEmptyBuckets_eq _ _ T t table _ (t.m_tableSize + 1) 0 filled (Nat.zero_le _)
          (by rw [filled.size]; omega)
      rw [visit, HashTable.begin, if_neg some, skips, ok_bind,
        visitLoop_eq filled inside ends (by rw [filled.size]; omega), ← same, List.drop_zero]

/-! ## Copies -/

theorem addAll_eq {most : Nat} (lawful : T.Lawful) (holds : Holds T t xs)
    (legal : ∀ y ∈ ys, T.Legal (T.extract y))
    (distinct : ys.Pairwise fun a b => T.equal (T.extract a) (T.extract b) = false)
    (absent : ∀ y ∈ ys, Absent T (T.extract y) xs) (small : t.m_tableSize ≤ most)
    (least : T.minimumTableSize ≤ most) (enough : 6 * (xs.length + ys.length) ≤ most)
    (bound : most < 2 ^ 29) :
    ∃ t' zs, addAll T ys t = .ok t' ∧ Holds T t' zs ∧ zs.Perm (ys ++ xs) := by
  induction ys generalizing t xs with
  | nil => exact ⟨t, xs, rfl, holds, List.Perm.refl _⟩
  | cons y ys ih =>
    rw [List.length_cons] at enough
    obtain ⟨apart, rest⟩ := List.pairwise_cons.mp distinct
    have fresh := absent y List.mem_cons_self
    obtain ⟨t', e, isNew, adds, ⟨-, -, holds', -⟩ | ⟨-, -, b, among, -, same⟩, less⟩ :=
      add_eq lawful holds (legal y List.mem_cons_self) (by omega)
    · have apart' : ∀ z ∈ ys, Absent T (T.extract z) (y :: xs) := by
        intro z among x either
        rcases List.mem_cons.mp either with rfl | old
        · exact apart z among
        · exact absent z (List.mem_cons_of_mem y among) x old
      rw [limit] at less
      obtain ⟨t'', zs, adds', holds'', perm⟩ := ih holds'
        (fun z among => legal z (List.mem_cons_of_mem y among)) rest apart' (by omega)
        (by rw [List.length_cons]; omega)
      refine ⟨t'', zs, ?_, holds'', perm.trans List.perm_middle⟩
      rw [addAll, adds, ok_bind]
      exact adds'
    · rw [fresh b among] at same
      cases same

theorem Holds.few (holds : Holds T t xs) (lawful : T.Lawful) (small : t.m_tableSize < 2 ^ 28) :
    6 * xs.length < 2 ^ 29 := by
  cases holds with
  | null null size keyCount => exact Nat.two_pow_pos 29
  | filled filled low =>
    rw [filled.size] at small
    obtain ⟨p, -, power⟩ := Grown.pow lawful filled.grown (by omega)
    rw [power] at small
    have less : 2 ^ p ≤ 2 ^ 27 := Nat.pow_le_pow_right (by decide)
      (Nat.le_of_lt_succ ((Nat.pow_lt_pow_iff_right (by decide)).mp small))
    rw [Low, power] at low
    omega

theorem Holds.distinct (holds : Holds T t xs) :
    xs.Pairwise fun a b => T.equal (T.extract a) (T.extract b) = false := by
  cases holds with
  | null null size keyCount => exact List.Pairwise.nil
  | filled filled low => exact filled.buckets.distinct

theorem copy_eq {other : HashTable V} (lawful : T.Lawful) (holds : Holds T other xs)
    (small : other.m_tableSize < 2 ^ 28) : ∃ t', copy T other = .ok t' ∧ Holds T t' xs := by
  obtain ⟨ys, visits, perm⟩ := visit_eq holds
  obtain ⟨-, least⟩ := minimum_lt lawful
  have few := holds.few lawful small
  have distinct := (perm.symm.pairwise_iff fun {a b} apart => by
    rwa [T.equal_comm lawful]).mp holds.distinct
  obtain ⟨t', zs, adds, holds', perm'⟩ :=
    @addAll_eq _ _ T empty [] ys (2 ^ 29 - 1) lawful holds_empty
      (fun y among => holds.mem_legal lawful (perm.mem_iff.mp among)) distinct
      (fun y among x void => absurd void List.not_mem_nil) (Nat.zero_le _) (by omega)
      (by rw [List.length_nil, perm.length_eq]; omega) (by decide)
  rw [List.append_nil] at perm'
  refine ⟨t', ?_, holds'.perm lawful (perm'.trans perm)⟩
  rw [copy, visits, ok_bind]
  exact adds

theorem assign_eq {other : HashTable V} (lawful : T.Lawful) (holds : Holds T other xs)
    (small : other.m_tableSize < 2 ^ 28) : ∃ t', t.assign T other = .ok t' ∧ Holds T t' xs := by
  obtain ⟨t', copies, holds'⟩ := copy_eq lawful holds small
  refine ⟨t', ?_, holds'⟩
  rw [assign, copies, ok_bind]
  rfl

end NetRider.Wtf.HashTables
