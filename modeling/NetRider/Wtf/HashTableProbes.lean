import NetRider.Wtf.HashTable
import NetRider.Lib.Probing

/-!
# Buckets and probes

The buckets of a table hold the entries of a finite map, and each of them is found by the probes of
its key. A search that can end ends at the entry of its key, or there is none.
-/

namespace NetRider.Wtf.HashTables

open NetRider.Lib.Probing

variable {K V : Type} {T : Traits K V} {table : List V} {xs : List V} {key : K} {b v w : V}
  {i n p q : Nat}

/-! ## Legal keys -/

namespace Traits

/-- A key that is neither the empty nor the deleted value. -/
def Legal (T : Traits K V) (key : K) : Prop :=
  T.isEmptyValue key = false ∧ T.isDeletedValue key = false ∧ T.checkKey key = true

/-- `equal` is an equivalence that `hash` respects, the empty and the deleted value are told apart,
and the least size is a power of two below `2 ^ 28`. -/
structure Lawful (T : Traits K V) : Prop where
  refl : ∀ k, T.equal k k = true
  symm : ∀ {k k'}, T.equal k k' = true → T.equal k' k = true
  trans : ∀ {k k' k''}, T.equal k k' = true → T.equal k' k'' = true → T.equal k k'' = true
  hash : ∀ {k k'}, T.equal k k' = true → T.hash k = T.hash k'
  empty : T.isEmptyBucket T.emptyValue = true
  empty_deleted : T.isDeletedBucket T.emptyValue = false
  deleted : T.isDeletedBucket T.deletedValue = true
  deleted_empty : T.isEmptyBucket T.deletedValue = false
  minimum : ∃ a < 27, T.minimumTableSize = 2 ^ (a + 1)

def isLive (T : Traits K V) (b : V) : Bool := !T.isEmptyOrDeletedBucket b

/-- What a bucket of a table can hold. -/
def Kind (T : Traits K V) (b : V) : Prop :=
  b = T.emptyValue ∨ b = T.deletedValue ∨ T.Legal (T.extract b)

variable (lawful : T.Lawful)
include lawful

theorem isLive_empty : T.isLive T.emptyValue = false := by
  rw [isLive, isEmptyOrDeletedBucket, lawful.empty]
  rfl

theorem isLive_deleted : T.isLive T.deletedValue = false := by
  rw [isLive, isEmptyOrDeletedBucket, lawful.deleted, Bool.or_true]
  rfl

omit lawful in
theorem isLive_legal (legal : T.Legal (T.extract b)) : T.isLive b = true := by
  rw [isLive, isEmptyOrDeletedBucket, isEmptyBucket, isDeletedBucket, legal.1, legal.2.1]
  rfl

omit lawful in
theorem not_empty_of_live (live : T.isLive b = true) : T.isEmptyBucket b = false := by
  rw [isLive, isEmptyOrDeletedBucket, Bool.not_eq_true', Bool.or_eq_false_iff] at live
  exact live.1

omit lawful in
theorem not_deleted_of_live (live : T.isLive b = true) : T.isDeletedBucket b = false := by
  rw [isLive, isEmptyOrDeletedBucket, Bool.not_eq_true', Bool.or_eq_false_iff] at live
  exact live.2

theorem Kind.legal (kind : T.Kind b) (live : T.isLive b = true) : T.Legal (T.extract b) := by
  rcases kind with rfl | rfl | legal
  · rw [isLive_empty lawful] at live
    cases live
  · rw [isLive_deleted lawful] at live
    cases live
  · exact legal

theorem Kind.empty (kind : T.Kind b) (vacant : T.isEmptyBucket b = true) : b = T.emptyValue := by
  rcases kind with rfl | rfl | legal
  · rfl
  · rw [lawful.deleted_empty] at vacant
    cases vacant
  · rw [isEmptyBucket, legal.1] at vacant
    cases vacant

theorem Kind.deleted (kind : T.Kind b) (deleted : T.isDeletedBucket b = true) :
    b = T.deletedValue := by
  rcases kind with rfl | rfl | legal
  · rw [lawful.empty_deleted] at deleted
    cases deleted
  · rfl
  · rw [isDeletedBucket, legal.2.1] at deleted
    cases deleted

omit lawful in
/-- A legal key is compared with a bucket that holds none: the answer is no. -/
theorem Kind.not_equal (kind : T.Kind b) (dead : T.isLive b = false) (legal : T.Legal key)
    (safe : T.safeToCompareToEmptyOrDeleted = true) : T.equal (T.extract b) key = false := by
  have check := legal.2.2
  rw [checkKey, safe, Bool.not_true, Bool.false_or, Bool.and_eq_true, Bool.not_eq_true',
    Bool.not_eq_true'] at check
  rcases kind with rfl | rfl | own
  · exact check.1
  · exact check.2
  · rw [isLive_legal own] at dead
    cases dead

theorem equal_comm (k k' : K) : T.equal k k' = T.equal k' k :=
  Bool.eq_iff_iff.mpr ⟨lawful.symm, lawful.symm⟩

/-- Equal keys are equal to the same keys. -/
theorem equal_congr {k k' : K} (same : T.equal k k' = true) (k'' : K) :
    T.equal k k'' = T.equal k' k'' :=
  Bool.eq_iff_iff.mpr ⟨lawful.trans (lawful.symm same), lawful.trans same⟩

end Traits

/-! ## Visits -/

open HashTable

theorem lookupVisit_eq (kind : T.Kind b) (legal : T.Legal key) :
    lookupVisit T key () i b = if T.isEmptyBucket b then .inl none
      else if T.isLive b && T.equal (T.extract b) key then .inl (some i) else .inr () := by
  unfold lookupVisit
  cases live : T.isLive b with
  | true =>
    rw [Traits.not_empty_of_live live, Traits.not_deleted_of_live live]
    split <;> rfl
  | false =>
    by_cases safe : T.safeToCompareToEmptyOrDeleted = true
    · rw [if_pos safe, kind.not_equal live legal safe]
      rfl
    · rw [if_neg safe]
      cases vacant : T.isEmptyBucket b with
      | true => rfl
      | false =>
        rw [Traits.isLive, Traits.isEmptyOrDeletedBucket, vacant, Bool.false_or,
          Bool.not_eq_false'] at live
        rw [live]
        rfl

theorem writingVisit_eq (kind : T.Kind b) (legal : T.Legal key)
    (d : Option Nat) :
    writingVisit T key d i b = if T.isEmptyBucket b then .inl ⟨i, d, false⟩
      else if T.isLive b && T.equal (T.extract b) key then .inl ⟨i, d, true⟩
      else if T.isDeletedBucket b then .inr (some i) else .inr d := by
  unfold writingVisit
  cases live : T.isLive b with
  | true =>
    rw [Traits.not_empty_of_live live, Traits.not_deleted_of_live live]
    split <;> rfl
  | false =>
    by_cases safe : T.safeToCompareToEmptyOrDeleted = true
    · rw [if_pos safe, kind.not_equal live legal safe]
      rfl
    · rw [if_neg safe]
      cases vacant : T.isEmptyBucket b with
      | true => rfl
      | false =>
        rw [Traits.isLive, Traits.isEmptyOrDeletedBucket, vacant, Bool.false_or,
          Bool.not_eq_false'] at live
        rw [live]
        rfl

/-! ## Positions -/

/-- The `n`-th bucket that is probed. -/
def Traits.position (T : Traits K V) (size : Nat) (key : K) (n : Nat) : Nat :=
  ((T.hash key).toNat + n * (1 ||| doubleHash (T.hash key)).toNat) % size

theorem Traits.position_congr (lawful : T.Lawful) {key' : K} (same : T.equal key key' = true) :
    T.position n key = T.position n key' := by
  funext m
  rw [position, position, lawful.hash same]

theorem toNat_and_mask (small : p < 32) (x : BitVec 32) :
    (x &&& BitVec.ofNat 32 (2 ^ p - 1)).toNat = x.toNat % 2 ^ p := by
  have less : 2 ^ p < 2 ^ 32 := Nat.pow_lt_pow_right (by decide) small
  rw [BitVec.toNat_and, BitVec.toNat_ofNat, Nat.mod_eq_of_lt (by omega),
    Nat.and_two_pow_sub_one_eq_mod]

theorem toNat_step (small : p < 32) (x y : BitVec 32) :
    ((x + y) &&& BitVec.ofNat 32 (2 ^ p - 1)).toNat = (x.toNat + y.toNat) % 2 ^ p := by
  rw [toNat_and_mask small, BitVec.toNat_add,
    Nat.mod_mod_of_dvd _ (Nat.pow_dvd_pow 2 (Nat.le_of_lt small))]

/-- Steps are odd. -/
theorem odd_step (x : BitVec 32) : (1 ||| x).toNat % 2 = 1 := by
  rw [BitVec.toNat_or, Nat.or_mod_two_eq_one]
  exact .inl rfl

theorem step_ne_zero (x : BitVec 32) : 1 ||| x ≠ 0 := by
  intro zero
  have odd := odd_step x
  rw [zero] at odd
  cases odd

theorem position_covers (below : i < 2 ^ p) : ∃ n < 2 ^ p, T.position (2 ^ p) key n = i :=
  odd_step_covers (T.hash key).toNat (odd_step _) below

theorem position_succ (small : p < 32) {x : BitVec 32} (here : x.toNat = T.position (2 ^ p) key n) :
    ((x + (1 ||| doubleHash (T.hash key))) &&& BitVec.ofNat 32 (2 ^ p - 1)).toNat =
      T.position (2 ^ p) key (n + 1) := by
  rw [toNat_step small, here, Traits.position, Traits.position, Nat.mod_add_mod, Nat.succ_mul,
    Nat.add_assoc]

/-- A search goes through the positions of its key. -/
theorem probeLoop_eq {σ ρ : Type} {visit : σ → Nat → V → ρ ⊕ σ} {state : Nat → σ} {result : ρ}
    (small : p < 32) {last fuel d : Nat} {x k : BitVec 32} (rest : n + d = last)
    (enough : d < fuel) (here : x.toNat = T.position (2 ^ p) key n)
    (step : k = if n = 0 then 0 else 1 ||| doubleHash (T.hash key))
    (goes : ∀ m < last, ∃ b, table[T.position (2 ^ p) key m]? = some b ∧
      visit (state m) (T.position (2 ^ p) key m) b = .inr (state (m + 1)))
    (ends : ∃ b, table[T.position (2 ^ p) key last]? = some b ∧
      visit (state last) (T.position (2 ^ p) key last) b = .inl result) :
    probeLoop table (BitVec.ofNat 32 (2 ^ p - 1)) (T.hash key) visit fuel x k (state n) =
      .ok result := by
  induction d generalizing n fuel x k with
  | zero =>
    obtain rfl : n = last := rest
    obtain ⟨b, stored, visits⟩ := ends
    obtain ⟨fuel, rfl⟩ := Nat.exists_eq_succ_of_ne_zero (by omega : fuel ≠ 0)
    rw [probeLoop, here, stored]
    simp only [visits]
  | succ d ih =>
    obtain ⟨b, stored, visits⟩ := goes n (by omega)
    obtain ⟨fuel, rfl⟩ := Nat.exists_eq_succ_of_ne_zero (by omega : fuel ≠ 0)
    have next : (if k = 0 then 1 ||| doubleHash (T.hash key) else k) =
        1 ||| doubleHash (T.hash key) := by
      rw [step]
      by_cases first : n = 0
      · rw [if_pos first, if_pos rfl]
      · rw [if_neg first, if_neg (step_ne_zero _)]
    rw [probeLoop, here, stored]
    simp only [visits, next]
    exact ih (by omega) (by omega) (position_succ small here) (if_neg (by omega)).symm

/-! ## Buckets -/

/-- `table` holds the entries `xs`. -/
structure Buckets (T : Traits K V) (table xs : List V) : Prop where
  size : ∃ p < 32, table.length = 2 ^ p
  kinds : ∀ b ∈ table, T.Kind b
  leads : ∀ i b, table[i]? = some b → T.isLive b = true →
    Leads (T.isEmptyBucket · = true) (T.position table.length (T.extract b)) table i
  entries : (table.filter T.isLive).Perm xs
  distinct : xs.Pairwise fun a b => T.equal (T.extract a) (T.extract b) = false

/-- There is an empty bucket. -/
def Room (T : Traits K V) (table : List V) : Prop := ∃ b ∈ table, T.isEmptyBucket b = true

/-- No entry has the key. -/
def Absent (T : Traits K V) (key : K) (xs : List V) : Prop :=
  ∀ x ∈ xs, T.equal (T.extract x) key = false

/-- The probes of the key lead to bucket `i`, which holds no entry. -/
def Open (T : Traits K V) (table : List V) (key : K) (i : Nat) : Prop :=
  Leads (T.isEmptyBucket · = true) (T.position table.length key) table i

theorem Buckets.mem_iff (buckets : Buckets T table xs) :
    v ∈ xs ↔ T.isLive v = true ∧ ∃ i : Nat, table[i]? = some v := by
  rw [← buckets.entries.mem_iff, List.mem_filter, List.mem_iff_getElem?, and_comm]

theorem Buckets.kind (buckets : Buckets T table xs) (stored : table[i]? = some b) : T.Kind b :=
  buckets.kinds b (List.mem_of_getElem? stored)

/-- The search for a key comes to an end: at its entry, or at an empty bucket, and then there is
no entry. -/
theorem Buckets.search (lawful : T.Lawful) (buckets : Buckets T table xs) (room : Room T table)
    (key : K) : ∃ last < table.length, ∃ b, table[T.position table.length key last]? = some b ∧
      Taken (fun b => T.isEmptyBucket b = true ∨ T.isLive b = true ∧
        T.equal (T.extract b) key = true) (T.position table.length key) table last ∧
      (T.isEmptyBucket b = true ∧ Absent T key xs ∨
        T.isLive b = true ∧ T.equal (T.extract b) key = true) := by
  obtain ⟨p, small, size⟩ := buckets.size
  obtain ⟨e, inside, vacant⟩ := room
  obtain ⟨i, stored⟩ := List.mem_iff_getElem?.mp inside
  obtain ⟨n, few, here⟩ := @position_covers K V T key i p
    (size ▸ (List.getElem?_eq_some_iff.mp stored).1)
  rw [size]
  rw [← here] at stored
  obtain ⟨last, b, stored', stop, taken, first⟩ := @exists_first _ _ table
    (fun b => T.isEmptyBucket b = true ∨ T.isLive b = true ∧ T.equal (T.extract b) key = true)
    ⟨n, e, stored, .inl vacant⟩
  refine ⟨last, Nat.lt_of_le_of_lt (first n e stored (.inl vacant)) few, b, stored', taken, ?_⟩
  rcases stop with vacant' | found
  · refine .inl ⟨vacant', fun x among => ?_⟩
    by_contra same
    rw [Bool.not_eq_false] at same
    obtain ⟨live, j, stored''⟩ := buckets.mem_iff.mp among
    have leads := buckets.leads j x stored'' live
    rw [size, T.position_congr lawful same] at leads
    obtain ⟨m, early, there⟩ := leads.before stored' vacant'
    rw [← there] at stored''
    rcases Nat.lt_or_eq_of_le early with less | rfl
    · exact taken m less x stored'' (.inr ⟨live, same⟩)
    · obtain rfl := Option.some.inj (stored'.symm.trans stored'')
      rw [T.not_empty_of_live live] at vacant'
      cases vacant'
  · exact .inr found

theorem probe_eq {t : HashTable V} {σ ρ : Type} {visit : σ → Nat → V → ρ ⊕ σ} {state : Nat → σ}
    {result : ρ} {last : Nat} (size : ∃ p < 32, table.length = 2 ^ p)
    (mask : t.m_tableSizeMask = table.length - 1) (few : last < table.length)
    (goes : ∀ m < last, ∃ b, table[T.position table.length key m]? = some b ∧
      visit (state m) (T.position table.length key m) b = .inr (state (m + 1)))
    (ends : ∃ b, table[T.position table.length key last]? = some b ∧
      visit (state last) (T.position table.length key last) b = .inl result) :
    t.probe T table visit key (state 0) = .ok result := by
  obtain ⟨p, small, size⟩ := size
  rw [probe, mask]
  simp only [size] at goes ends few ⊢
  refine probeLoop_eq small (Nat.zero_add last) few ?_ (if_pos rfl).symm goes ends
  rw [toNat_and_mask small, Traits.position, Nat.zero_mul, Nat.add_zero]

theorem position_lt (size : ∃ p < 32, table.length = 2 ^ p) :
    T.position table.length key n < table.length := by
  obtain ⟨p, -, size⟩ := size
  rw [size]
  exact Nat.mod_lt _ (Nat.two_pow_pos p)

/-- A bucket that does not stop a search is passed by. -/
theorem Buckets.passes (buckets : Buckets T table xs) {last m : Nat}
    (taken : Taken (fun b => T.isEmptyBucket b = true ∨ T.isLive b = true ∧
      T.equal (T.extract b) key = true) (T.position table.length key) table last)
    (early : m < last) : ∃ b, table[T.position table.length key m]? = some b ∧
      T.isEmptyBucket b = false ∧ (T.isLive b && T.equal (T.extract b) key) = false := by
  have inside := @position_lt K V T table key m buckets.size
  have stored := List.getElem?_eq_getElem inside
  generalize table[T.position table.length key m] = b at stored
  have passed := taken m early b stored
  rw [not_or, not_and, Bool.not_eq_true, Bool.not_eq_true] at passed
  refine ⟨b, stored, passed.1, ?_⟩
  rw [Bool.and_eq_false_iff]
  cases live : T.isLive b with
  | true => exact .inr (passed.2 live)
  | false => exact .inl rfl

theorem lookup_eq (lawful : T.Lawful) (buckets : Buckets T table xs) (room : Room T table)
    {t : HashTable V} (table' : t.m_table = some table)
    (mask : t.m_tableSizeMask = table.length - 1) (legal : T.Legal key) :
    (t.lookup T key = .ok none ∧ Absent T key xs) ∨
      ∃ i b, t.lookup T key = .ok (some i) ∧ table[i]? = some b ∧ T.isLive b = true ∧
        T.equal (T.extract b) key = true := by
  obtain ⟨last, few, b, stored, taken, ends⟩ := buckets.search lawful room key
  have goes : ∀ m < last, ∃ b, table[T.position table.length key m]? = some b ∧
      lookupVisit T key () (T.position table.length key m) b = .inr () := by
    intro m early
    obtain ⟨b, stored, nonempty, other⟩ := buckets.passes taken early
    refine ⟨b, stored, ?_⟩
    rw [lookupVisit_eq (buckets.kind stored) legal, nonempty, other]
    rfl
  have looks := fun (result : Option Nat) => @probe_eq _ _ T table key t _ _ (lookupVisit T key)
    (fun _ => ()) result _ buckets.size mask few goes
  rw [lookup, table']
  simp only
  rcases ends with ⟨vacant, absent⟩ | ⟨live, same⟩
  · refine .inl ⟨looks none ⟨b, stored, ?_⟩, absent⟩
    rw [lookupVisit_eq (buckets.kind stored) legal, vacant]
    rfl
  · refine .inr ⟨_, b, looks _ ⟨b, stored, ?_⟩, stored, live, same⟩
    rw [lookupVisit_eq (buckets.kind stored) legal, T.not_empty_of_live live, live, same]
    rfl

/-- The last deleted bucket among the first that are probed. -/
def lastDeleted (T : Traits K V) (table : List V) (key : K) : Nat → Option Nat
  | 0 => none
  | m + 1 =>
    if (table[T.position table.length key m]?).any T.isDeletedBucket then
      some (T.position table.length key m)
    else lastDeleted T table key m

theorem lastDeleted_eq {last : Nat} (deleted : lastDeleted T table key last = some q) :
    ∃ m < last, T.position table.length key m = q ∧
      ∃ b, table[q]? = some b ∧ T.isDeletedBucket b = true := by
  induction last with
  | zero => cases deleted
  | succ last ih =>
    rw [lastDeleted] at deleted
    split at deleted
    · next here =>
      obtain rfl := Option.some.inj deleted
      obtain ⟨b, stored, isDeleted⟩ := (Option.any_eq_true _ _).mp here
      exact ⟨last, Nat.lt_succ_self _, rfl, b, stored, isDeleted⟩
    · obtain ⟨m, early, found⟩ := ih deleted
      exact ⟨m, by omega, found⟩

/-- A place for a new entry: an empty bucket, and perhaps a deleted one on the way to it. -/
structure Free (T : Traits K V) (table : List V) (key : K) (place : Place) : Prop where
  found : place.found = false
  leads : Open T table key place.entry
  empty : table[place.entry]? = some T.emptyValue
  deleted : ∀ d, place.deletedEntry = some d → Open T table key d ∧
    table[d]? = some T.deletedValue

theorem place_eq (lawful : T.Lawful) (buckets : Buckets T table xs) (room : Room T table)
    {t : HashTable V} (table' : t.m_table = some table)
    (mask : t.m_tableSizeMask = table.length - 1) (legal : T.Legal key) :
    ∃ place, t.place T key = .ok place ∧ (Absent T key xs ∧ Free T table key place ∨
      place.found = true ∧ ∃ b, table[place.entry]? = some b ∧ T.isLive b = true ∧
        T.equal (T.extract b) key = true) := by
  obtain ⟨last, few, b, stored, taken, ends⟩ := buckets.search lawful room key
  have goes : ∀ m < last, ∃ b, table[T.position table.length key m]? = some b ∧
      writingVisit T key (lastDeleted T table key m) (T.position table.length key m) b =
        .inr (lastDeleted T table key (m + 1)) := by
    intro m early
    obtain ⟨b, stored, nonempty, other⟩ := buckets.passes taken early
    refine ⟨b, stored, ?_⟩
    rw [writingVisit_eq (buckets.kind stored) legal, nonempty, other, lastDeleted, stored,
      Option.any_some]
    cases T.isDeletedBucket b <;> rfl
  have nonempty : Taken (T.isEmptyBucket · = true) (T.position table.length key) table last :=
    fun m early b stored vacant => taken m early b stored (.inl vacant)
  rw [place, table']
  simp only
  rcases ends with ⟨vacant, absent⟩ | ⟨live, same⟩
  · refine ⟨⟨T.position table.length key last, lastDeleted T table key last, false⟩, probe_eq buckets.size mask few goes ⟨b, stored, ?_⟩, .inl ⟨absent, rfl,
      ⟨last, rfl, nonempty⟩, ?_, fun d passed => ?_⟩⟩
    · rw [writingVisit_eq (buckets.kind stored) legal, vacant]
      rfl
    · rw [stored, (buckets.kind stored).empty lawful vacant]
    · obtain ⟨m, early, here, b', stored', deleted⟩ := lastDeleted_eq passed
      refine ⟨⟨m, here, nonempty.of_le (Nat.le_of_lt early)⟩, ?_⟩
      rw [stored', (buckets.kind stored').deleted lawful deleted]
  · refine ⟨⟨T.position table.length key last, lastDeleted T table key last, true⟩, probe_eq buckets.size mask few goes ⟨b, stored, ?_⟩,
      .inr ⟨rfl, b, stored, live, same⟩⟩
    rw [writingVisit_eq (buckets.kind stored) legal, T.not_empty_of_live live, live, same]
    rfl

/-! ## Changes of buckets -/

/-- The entries whose key is another one. -/
def erase (T : Traits K V) (key : K) (xs : List V) : List V :=
  xs.filter fun x => !T.equal (T.extract x) key

theorem length_set_pow (buckets : Buckets T table xs) :
    ∃ p < 32, (table.set q v).length = 2 ^ p := by
  rw [List.length_set]
  exact buckets.size

theorem countP_set {f : V → Bool} (stored : table[q]? = some w) :
    (table.set q v).countP f + (if f w then 1 else 0) = table.countP f + if f v then 1 else 0 := by
  have exchanged := (@perm_set V table q v w stored).countP_eq f
  rwa [List.countP_cons, List.countP_cons] at exchanged

/-- A new entry is put where its probes lead. -/
theorem Buckets.put (buckets : Buckets T table xs) (legal : T.Legal (T.extract v))
    (absent : Absent T (T.extract v) xs) (lawful : T.Lawful)
    (leads : Open T table (T.extract v) q) (stored : table[q]? = some w)
    (dead : T.isLive w = false) : Buckets T (table.set q v) (v :: xs) where
  size := length_set_pow buckets
  kinds b among := by
    rcases List.mem_or_eq_of_mem_set among with old | rfl
    · exact buckets.kinds b old
    · exact .inr (.inr legal)
  leads i b stored' live := by
    have full : ¬ T.isEmptyBucket v = true := by
      rw [T.not_empty_of_live (T.isLive_legal legal)]
      decide
    rw [List.length_set]
    by_cases here : q = i
    · subst here
      rw [List.getElem?_set_self (List.getElem?_eq_some_iff.mp stored).1] at stored'
      obtain rfl := Option.some.inj stored'
      exact leads.set full
    · rw [List.getElem?_set_ne here] at stored'
      exact (buckets.leads i b stored' live).set full
  entries := by
    have exchanged := (@perm_set V table q v w stored).filter T.isLive
    rw [List.filter_cons_of_neg (by rw [dead]; decide),
      List.filter_cons_of_pos (T.isLive_legal legal)] at exchanged
    exact exchanged.trans (buckets.entries.cons v)
  distinct := List.pairwise_cons.mpr ⟨fun x among => by
    rw [T.equal_comm lawful]
    exact absent x among, buckets.distinct⟩

theorem erase_absent (absent : Absent T key xs) : erase T key xs = xs :=
  List.filter_eq_self.mpr fun x among => by rw [absent x among]; rfl

theorem erase_sublist : (erase T key xs).Sublist xs := List.filter_sublist

/-- An entry is deleted. -/
theorem Buckets.take (buckets : Buckets T table xs) (lawful : T.Lawful)
    (stored : table[q]? = some w) (live : T.isLive w = true) :
    Buckets T (table.set q T.deletedValue) (erase T (T.extract w) xs) ∧
      (erase T (T.extract w) xs).length + 1 = xs.length := by
  have full : ¬ T.isEmptyBucket T.deletedValue = true := by
    rw [lawful.deleted_empty]
    decide
  have exchanged := (@perm_set V table q T.deletedValue w stored).filter T.isLive
  rw [List.filter_cons_of_pos live, List.filter_cons_of_neg (by
    rw [T.isLive_deleted lawful]
    decide)] at exchanged
  have split := exchanged.trans buckets.entries
  -- The others have other keys.
  have others : Absent T (T.extract w) ((table.set q T.deletedValue).filter T.isLive) := by
    have distinct := (split.symm.pairwise_iff fun {a b} apart => by
      rwa [T.equal_comm lawful]).mp buckets.distinct
    intro x among
    rw [T.equal_comm lawful]
    exact (List.pairwise_cons.mp distinct).1 x among
  have rest : ((table.set q T.deletedValue).filter T.isLive).Perm (erase T (T.extract w) xs) := by
    have kept := split.filter fun x => !T.equal (T.extract x) (T.extract w)
    rw [List.filter_cons_of_neg (by rw [lawful.refl]; decide)] at kept
    rwa [← erase_absent others]
  refine ⟨⟨length_set_pow buckets, fun b among => ?_, fun i b stored' live' => ?_, rest,
    buckets.distinct.sublist erase_sublist⟩, ?_⟩
  · rcases List.mem_or_eq_of_mem_set among with old | rfl
    · exact buckets.kinds b old
    · exact .inr (.inl rfl)
  · rw [List.length_set]
    by_cases here : q = i
    · subst here
      rw [List.getElem?_set_self (List.getElem?_eq_some_iff.mp stored).1] at stored'
      obtain rfl := Option.some.inj stored'
      rw [T.isLive_deleted lawful] at live'
      cases live'
    · rw [List.getElem?_set_ne here] at stored'
      exact (buckets.leads i b stored' live').set full
  · rw [← rest.length_eq, ← split.length_eq, List.length_cons]

/-- A table without entries. -/
theorem buckets_allocate (lawful : T.Lawful) (small : p < 32) :
    Buckets T (allocateTable T (2 ^ p)) [] := by
  have all : ∀ b ∈ allocateTable T (2 ^ p), b = T.emptyValue :=
    fun b among => List.eq_of_mem_replicate among
  refine ⟨⟨p, small, List.length_replicate⟩, fun b among => .inl (all b among),
    fun i b stored live => ?_, ?_, List.Pairwise.nil⟩
  · rw [all b (List.mem_of_getElem? stored), T.isLive_empty lawful] at live
    cases live
  · rw [List.filter_eq_nil_iff.mpr fun b among => by
      rw [all b among, T.isLive_empty lawful]
      decide]

/-- The entries, the deleted and the empty buckets are all there are. -/
theorem Buckets.count (buckets : Buckets T table xs) (lawful : T.Lawful) :
    table.length = xs.length + table.countP T.isDeletedBucket + table.countP T.isEmptyBucket := by
  have kinds := buckets.kinds
  rw [← buckets.entries.length_eq, ← List.countP_eq_length_filter]
  clear buckets
  induction table with
  | nil => rfl
  | cons b rest ih =>
    have rest' := ih fun c among => kinds c (List.mem_cons_of_mem b among)
    rw [List.countP_cons, List.countP_cons, List.countP_cons, List.length_cons]
    rcases kinds b List.mem_cons_self with rfl | rfl | legal
    · rw [T.isLive_empty lawful, lawful.empty, lawful.empty_deleted]
      simp only [Bool.false_eq_true, if_false, if_true]
      omega
    · rw [T.isLive_deleted lawful, lawful.deleted, lawful.deleted_empty]
      simp only [Bool.false_eq_true, if_false, if_true]
      omega
    · have live := T.isLive_legal legal
      rw [live, T.not_empty_of_live live, T.not_deleted_of_live live]
      simp only [Bool.false_eq_true, if_false, if_true]
      omega

theorem Buckets.room (buckets : Buckets T table xs) (lawful : T.Lawful)
    (less : xs.length + table.countP T.isDeletedBucket < table.length) : Room T table := by
  have count := buckets.count lawful
  obtain ⟨b, among, vacant⟩ := List.countP_pos_iff.mp
    (by omega : 0 < table.countP T.isEmptyBucket)
  exact ⟨b, among, vacant⟩

end NetRider.Wtf.HashTables
