import NetRider.Storage.SessionAreas

/-!
# Runs of session storage areas

Every run of areas that share maps is a run of areas that share nothing.
-/

namespace NetRider.Storage.Session

open Lib

/-! ## Lengths -/

section

variable {items : Items} {key : Text} {value : Option Text}

theorem insert_erase : (items.erase key).insert key value = items.insert key value := by
  apply Finmap.ext_lookup
  intro other
  by_cases same : other = key
  · rw [same, Finmap.lookup_insert, Finmap.lookup_insert]
  · rw [Finmap.lookup_insert_of_ne _ same, Finmap.lookup_insert_of_ne _ same,
      Finmap.lookup_erase_ne same]

theorem contentLength_insert_new (new : key ∉ items) :
    contentLength (items.insert key value) =
      key.length + StorageMap.textLength value + contentLength items := by
  rw [contentLength, Finmap.entries_insert_of_notMem new, Multiset.map_cons, Multiset.sum_cons]
  rfl

theorem contentLength_insert :
    contentLength (items.insert key value) =
      key.length + StorageMap.textLength value + contentLength (items.erase key) := by
  rw [← insert_erase, contentLength_insert_new Finmap.notMem_erase_self]

theorem contentLength_of_lookup (present : items.lookup key = some value) :
    contentLength items =
      key.length + StorageMap.textLength value + contentLength (items.erase key) := by
  rw [← contentLength_insert]
  congr 1
  apply Finmap.ext_lookup
  intro other
  by_cases same : other = key
  · rw [same, Finmap.lookup_insert, present]
  · rw [Finmap.lookup_insert_of_ne _ same]

theorem erase_of_notMem (absent : key ∉ items) : items.erase key = items := by
  apply Finmap.ext_lookup
  intro other
  by_cases same : other = key
  · rw [same, Finmap.lookup_erase, Finmap.lookup_eq_none.mpr absent]
  · rw [Finmap.lookup_erase_ne same]

end

/-! ## Accounts -/

/-- The length of the items is counted, and is within the quota. -/
structure Accounts (map : StorageMap) : Prop where
  strings : ∀ key stored, map.items.lookup key = some stored →
    key.length < 2 ^ 32 ∧ ∃ value, stored = some value ∧ value.length < 2 ^ 32
  quota : map.quotaSize ≤ uintMax
  length : map.currentLength = contentLength map.items % 2 ^ 32
  within : map.quotaSize ≠ noQuota → contentLength map.items ≤ map.quotaSize / sizeofUChar

theorem accounts_create {quota : Nat} (fits : quota ≤ uintMax) : Accounts (.create quota) where
  strings := by
    intro key stored found
    rw [show (StorageMap.create quota).items = ∅ from rfl, Finmap.lookup_empty] at found
    cases found
  quota := fits
  length := rfl
  within := fun _ => Nat.zero_le _

namespace Accounts

variable {map : StorageMap} {key value : Text}

/-- A key is in the map, with a value, or is not. -/
theorem lookup (accounts : Accounts map) (key : Text) :
    (map.getItem key = none ∧ key ∉ map.items) ∨
      ∃ value, map.getItem key = some value ∧ map.items.lookup key = some (some value) ∧
        key.length < 2 ^ 32 ∧ value.length < 2 ^ 32 := by
  cases found : map.items.lookup key with
  | none => exact .inl ⟨by rw [StorageMap.getItem, found]; rfl, Finmap.lookup_eq_none.mp found⟩
  | some stored =>
    obtain ⟨short, value, rfl, shortValue⟩ := accounts.strings key stored found
    exact .inr ⟨value, by rw [StorageMap.getItem, found]; rfl, rfl, short, shortValue⟩

/-- What the three steps of `setItem` count, without the rest. -/
theorem lengths (accounts : Accounts map) (key : Text) :
    ∃ old keyLength rest, StorageMap.textLength (map.getItem key) = old ∧ old < 2 ^ 32 ∧
      (if (map.getItem key).isNone then key.length else 0) = keyLength ∧
      contentLength map.items = old + rest ∧ ∀ value,
        contentLength (map.items.insert key value) =
          StorageMap.textLength value + keyLength + rest := by
  rcases accounts.lookup key with ⟨get, absent⟩ | ⟨stored, get, found, -, short⟩
  · refine ⟨0, key.length, contentLength map.items, ?_, by omega, ?_, ?_, ?_⟩
    · rw [get]
      rfl
    · rw [get]
      rfl
    · rw [Nat.zero_add]
    · intro value
      rw [contentLength_insert_new absent]
      omega
  · refine ⟨stored.length, 0, key.length + contentLength (map.items.erase key), ?_, short, ?_, ?_, ?_⟩
    · rw [get]
      rfl
    · rw [get]
      rfl
    · rw [contentLength_of_lookup found]
      simp only [StorageMap.textLength, Option.elim_some]
      omega
    · intro value
      rw [contentLength_insert]
      omega

theorem newLength (accounts : Accounts map) :
    map.newLength key (some value) = contentLength (map.items.insert key (some value)) % 2 ^ 32 := by
  obtain ⟨old, keyLength, rest, oldLength, oldShort, adjusted, before, after⟩ := accounts.lengths key
  have current := accounts.length
  rw [StorageMap.newLength, StorageMap.replacedLength, StorageMap.addedLength, oldLength,
    adjusted, after, current, before]
  simp only [StorageMap.textLength, Option.elim_some]
  omega

theorem exceedsQuota_iff (accounts : Accounts map) (short : key.length < 2 ^ 32)
    (shortValue : value.length < 2 ^ 32) :
    map.exceedsQuota key (some value) ↔
      ¬ (map.quotaSize = noQuota ∨
        contentLength (map.items.insert key (some value)) ≤ map.quotaSize / sizeofUChar) := by
  obtain ⟨old, keyLength, rest, oldLength, oldShort, adjusted, before, after⟩ := accounts.lengths key
  have keyShort : keyLength < 2 ^ 32 := by
    rw [← adjusted]
    split <;> omega
  have quota := accounts.quota
  have current := accounts.length
  rw [not_or, StorageMap.exceedsQuota, StorageMap.newLength, StorageMap.replacedLength,
    StorageMap.addedLength, oldLength, adjusted, after]
  simp only [StorageMap.textLength, Option.elim_some]
  apply and_congr_right
  intro limited
  have within := accounts.within limited
  simp only [noQuota, sizeofUChar, uintMax] at quota within limited ⊢
  rw [before] at within current
  have exact : map.currentLength = old + rest := by omega
  rw [exact]
  omega

/-- What `setItem` answers and makes of the map. -/
theorem setItem (accounts : Accounts map) (short : key.length < 2 ^ 32)
    (shortValue : value.length < 2 ^ 32) :
    let fits := map.quotaSize = noQuota ∨
      contentLength (map.items.insert key (some value)) ≤ map.quotaSize / sizeofUChar
    let result := map.setItem key (some value)
    (result.quotaException = true ↔ ¬ fits) ∧ (fits → Accounts result.map) := by
  intro fits result
  have exceeds := accounts.exceedsQuota_iff short shortValue
  by_cases room : fits
  · have inside : ¬ map.exceedsQuota key (some value) := fun exceeded => exceeds.mp exceeded room
    have made : result = ⟨{ map with
        items := map.items.insert key (some value)
        currentLength := map.newLength key (some value) }, map.getItem key, false⟩ := if_neg inside
    rw [made]
    refine ⟨by simp [room], fun _ => ⟨?_, accounts.quota, accounts.newLength, ?_⟩⟩
    · intro other stored found
      by_cases same : other = key
      · rw [same, Finmap.lookup_insert] at found
        cases found
        exact ⟨same ▸ short, value, rfl, shortValue⟩
      · rw [Finmap.lookup_insert_of_ne _ same] at found
        exact accounts.strings other stored found
    · intro limited
      exact room.resolve_left limited
  · have exceeded : map.exceedsQuota key (some value) := exceeds.mpr room
    have refused : result = ⟨map, map.getItem key, true⟩ := if_pos exceeded
    rw [refused]
    exact ⟨by simp [room], fun fit => absurd fit room⟩

theorem removeItem (accounts : Accounts map) : Accounts (map.removeItem key).1 where
  strings := by
    intro other stored found
    rw [StorageMap.removeItem_items] at found
    by_cases same : other = key
    · rw [same, Finmap.lookup_erase] at found
      cases found
    · rw [Finmap.lookup_erase_ne same] at found
      exact accounts.strings other stored found
  quota := accounts.quota
  length := by
    have current := accounts.length
    rcases accounts.lookup key with ⟨get, absent⟩ | ⟨stored, get, found, short, shortValue⟩
    · simp only [StorageMap.removeItem, get, erase_of_notMem absent, Option.isNone_none, if_true,
        StorageMap.textLength, Option.elim_none]
      omega
    · have before := contentLength_of_lookup found
      simp only [StorageMap.removeItem, get, Option.isNone_some, Bool.false_eq_true, if_false,
        StorageMap.textLength, Option.elim_some] at before ⊢
      omega
  within := by
    intro limited
    have within := accounts.within limited
    rw [StorageMap.removeItem_items]
    rcases accounts.lookup key with ⟨-, absent⟩ | ⟨stored, -, found, -, -⟩
    · rw [erase_of_notMem absent]
      exact within
    · rw [contentLength_of_lookup found] at within
      exact le_trans (Nat.le_add_left _ _) within

theorem getItem_isSome (accounts : Accounts map) : (map.getItem key).isSome ↔ key ∈ map.items := by
  rcases accounts.lookup key with ⟨get, absent⟩ | ⟨stored, get, found, -, -⟩
  · simp [get, absent]
  · simp [get, Finmap.mem_of_lookup_eq_some found]

end Accounts

/-! ## Iterators -/

/-- The iterator is invalid or at the key with the cached index. -/
def Positioned (m : CachedMap) : Prop :=
  m.iteratorIndex = uintMax ∨ m.iterator = m.iteratorIndex ∧ m.iteratorIndex < m.order.length

namespace CachedMap

def toPrivate (m : CachedMap) : PrivateArea := ⟨m.map.items, m.map.quotaSize, m.order⟩

theorem advance_eq {m : CachedMap} {steps : Nat} (inside : m.iterator + steps < m.order.length) :
    m.advance steps = some { m with
      iterator := m.iterator + steps
      iteratorIndex := m.iteratorIndex + steps } := by
  induction steps generalizing m with
  | zero => rfl
  | succ steps ih =>
    rw [advance, if_pos (by omega), ih (by simp only; omega)]
    simp only [Option.some.injEq, mk.injEq, true_and]
    omega

theorem setIteratorToIndex_eq {m : CachedMap} {index : Nat} (positioned : Positioned m)
    (small : m.order.length < 2 ^ 31) (inside : index < m.order.length) :
    m.setIteratorToIndex index = some { m with iterator := index, iteratorIndex := index } := by
  rw [Positioned, uintMax] at positioned
  unfold setIteratorToIndex
  split_ifs with same rewind
  · have at_ : m.iterator = index := by omega
    rw [← at_, at_, ← same]
    cases m
    simp_all
  · rw [advance_eq (by simpa using inside)]
    simp
  · rw [advance_eq (by omega)]
    simp only [Option.some.injEq, mk.injEq, true_and]
    omega

/-- The key at an index of the order, wherever the iterator was before. -/
theorem key_eq {m : CachedMap} (positioned : Positioned m) (small : m.order.length < 2 ^ 31)
    (index : Nat) :
    ∃ n, m.key index = some (n, m.order[index]?) ∧ n.map = m.map ∧ n.order = m.order ∧
      Positioned n := by
  unfold key length
  split_ifs with outside
  · exact ⟨m, by rw [List.getElem?_eq_none outside], rfl, rfl, positioned⟩
  · have inside : index < m.order.length := by omega
    rw [setIteratorToIndex_eq positioned small inside]
    refine ⟨{ m with iterator := index, iteratorIndex := index }, ?_, rfl, rfl, .inr ⟨rfl, inside⟩⟩
    simp [inside]

end CachedMap

/-! ## Areas -/

structure Consistent (m : CachedMap) : Prop where
  listed : Lists m.order m.map.items
  accounts : Accounts m.map
  positioned : Positioned m

structure Invariant (s : Areas) : Prop where
  wellFormed : s.WellFormed
  maps : ∀ m ∈ s.cells, Consistent m

/-- What the users of the areas know of them. -/
def views (s : Areas) : List (Option PrivateArea) :=
  (List.range s.holders.length).map fun area => (s.view area).map CachedMap.toPrivate

section

variable {s t : Areas} {area cell : Nat} {m : CachedMap}

theorem getElem?_views (inside : area < s.holders.length) :
    (views s)[area]? = some ((s.view area).map CachedMap.toPrivate) := by
  simp [views, inside]

theorem views_set {q : Option PrivateArea} (same : t.holders.length = s.holders.length)
    (self : (t.view area).map CachedMap.toPrivate = q)
    (others : ∀ other, other ≠ area → (t.view other).map CachedMap.toPrivate =
      (s.view other).map CachedMap.toPrivate) :
    views t = (views s).set area q := by
  apply List.ext_getElem
  · simp [views, same]
  · intro i left right
    simp only [views, List.getElem_map, List.getElem_range, List.getElem_set]
    split_ifs with here
    · rw [← here, self]
    · exact others i (Ne.symm here)

theorem views_append {q : Option PrivateArea} (more : t.holders.length = s.holders.length + 1)
    (last : (t.view s.holders.length).map CachedMap.toPrivate = q)
    (old : ∀ other, other < s.holders.length → t.view other = s.view other) :
    views t = views s ++ [q] := by
  rw [views, more, List.range_succ, List.map_append, List.map_singleton, last, views]
  congr 1
  apply List.map_congr_left
  intro other mem
  rw [old other (List.mem_range.mp mem)]

theorem views_same (same : t.holders.length = s.holders.length)
    (all : ∀ other, (t.view other).map CachedMap.toPrivate =
      (s.view other).map CachedMap.toPrivate) : views t = views s := by
  unfold views
  rw [same]
  apply List.map_congr_left
  intro other _
  exact all other

theorem set_view (inside : area < s.holders.length) (sees : s.view area = some m) :
    (views s).set area (some m.toPrivate) = views s := by
  apply List.ext_getElem?
  intro i
  rw [List.getElem?_set]
  split_ifs with here short
  · rw [← here, getElem?_views inside, sees]
    rfl
  · rw [← here]
    exact absurd (by simpa [views] using inside) short
  · rfl

theorem consistent_create {quota : Nat} (fits : quota ≤ uintMax) :
    Consistent (.create quota) where
  listed := ⟨List.nodup_nil, by
    rw [show (CachedMap.create quota).map.items = ∅ from rfl, Finmap.keys_empty]
    rfl, by simp [CachedMap.create]⟩
  accounts := accounts_create fits
  positioned := .inl rfl

/-- A change in place or of a copy changes the one area. -/
theorem mutate_views {order : List Text} {change : CachedMap → CachedMap} (inv : Invariant s)
    (at_ : s.cellOf area = some cell) (found : s.cells[cell]? = some m)
    (accounts : ∀ base : CachedMap, base.map = m.map → Accounts (change base).map)
    (positioned : ∀ base, Positioned base → Positioned (change base))
    (h : mutate s area cell m order change = some t) :
    Invariant t ∧ ∃ base : CachedMap, base.map = m.map ∧
      Lists (change base).order (change base).map.items ∧
      views t = (views s).set area (some (change base).toPrivate) := by
  have inside := Shared.holder_lt at_
  have old := inv.maps m (List.mem_of_getElem? found)
  unfold mutate at h
  simp only at h
  by_cases shared : 1 < s.refCount cell
  · simp only [shared, if_true] at h
    split_ifs at h with listed
    cases h
    refine ⟨⟨inv.wellFormed.assign, ?_⟩, m.copy order, rfl, listed, views_set ?_ ?_ ?_⟩
    · intro n mem
      rcases List.mem_append.mp mem with before | new
      · exact inv.maps n before
      · rw [List.mem_singleton.mp new]
        exact ⟨listed, accounts _ rfl, positioned _ (.inl rfl)⟩
    · simp [Shared.assign]
    · rw [Shared.view_assign_self inside]
      rfl
    · intro other different
      rw [Shared.view_assign_other inv.wellFormed different]
  · simp only [shared, if_false] at h
    split_ifs at h with listed
    cases h
    refine ⟨⟨inv.wellFormed.modify, ?_⟩, m, rfl, listed, views_set ?_ ?_ ?_⟩
    · intro n mem
      rcases Shared.mem_cells_modify mem with before | ⟨_, -, rfl⟩
      · exact inv.maps n before
      · exact ⟨listed, accounts m rfl, positioned m old.positioned⟩
    · rw [Shared.holders_modify]
    · rw [Shared.view_modify_self at_, Shared.view_of_cell at_ found]
      rfl
    · intro other different
      rw [Shared.view_modify_other at_ (by omega) different]

end

/-! ## Calls -/

section

variable {m : CachedMap} {key value : Text} {order : List Text}

theorem setItem_map :
    (m.setItem key value order).map = (m.map.setItem key (some value)).map := by
  unfold CachedMap.setItem
  simp only
  split_ifs with refused
  · exact (StorageMap.setItem_refused refused).symm
  · rfl

theorem setItem_positioned (positioned : Positioned m) :
    Positioned (m.setItem key value order) := by
  unfold CachedMap.setItem
  simp only
  split_ifs
  · exact positioned
  · exact .inl rfl

theorem removeItem_map : (m.removeItem key order).map = (m.map.removeItem key).1 := by
  unfold CachedMap.removeItem
  split_ifs <;> rfl

theorem removeItem_positioned (positioned : Positioned m) :
    Positioned (m.removeItem key order) := by
  unfold CachedMap.removeItem
  split_ifs
  · exact .inl rfl
  · exact positioned

theorem setItem_quotaSize {map : StorageMap} {stored : Option Text} :
    (map.setItem key stored).map.quotaSize = map.quotaSize := by
  unfold StorageMap.setItem
  split_ifs <;> rfl

end

section

variable {s t : Areas} {area cell : Nat} {m : CachedMap} {key value : Text} {order : List Text}
  {answer : Answer} (inv : Invariant s) (at_ : s.cellOf area = some cell)
  (found : s.cells[cell]? = some m)

include inv at_ found

theorem setItem_does (h : setItem s area cell m key value order = some (t, answer)) :
    Invariant t ∧ ∃ q, m.toPrivate.Does (.setItem key value order) answer q ∧
      views t = (views s).set area (some q) := by
  unfold setItem at h
  simp only at h
  by_cases short : key.length < 2 ^ 32 ∧ value.length < 2 ^ 32
  case neg =>
    rw [if_neg short] at h
    cases h
  rw [if_pos short] at h
  obtain ⟨t', mutated, made⟩ := Option.map_eq_some_iff.mp h
  cases made
  have accounts := (inv.maps m (List.mem_of_getElem? found)).accounts
  obtain ⟨refused_iff, accepted⟩ := accounts.setItem short.1 short.2
  have kept : ∀ base : CachedMap, base.map = m.map →
      Accounts (base.setItem key value order).map := by
    intro base same
    rw [setItem_map, same]
    by_cases fits : m.toPrivate.Fits key value
    · exact accepted fits
    · rw [StorageMap.setItem_refused (refused_iff.mpr fits)]
      exact accounts
  obtain ⟨inv', base, same, listed, seen⟩ := mutate_views inv at_ found kept
    (fun _ => setItem_positioned) mutated
  have items : (base.setItem key value order).map.items =
      (m.map.setItem key (some value)).map.items := by rw [setItem_map, same]
  refine ⟨inv', _, ⟨?_, listed, ?_⟩, seen⟩
  · simp only [CachedMap.toPrivate]
    rw [setItem_map, same, setItem_quotaSize]
  · by_cases fits : m.toPrivate.Fits key value
    · have quiet : (m.map.setItem key (some value)).quotaException = false :=
        Bool.eq_false_iff.mpr fun refused => refused_iff.mp refused fits
      refine .inl ⟨fits, items.trans (StorageMap.setItem_items quiet), ?_⟩
      rw [quiet, StorageMap.setItem_oldValue, if_neg Bool.false_ne_true]
      by_cases unchanged : m.map.getItem key = some value
      · rw [if_pos unchanged, if_pos]
        exact unchanged
      · rw [if_neg unchanged, if_neg]
        · rfl
        · exact unchanged
    · have refused := refused_iff.mpr fits
      refine .inr ⟨fits, items.trans (by rw [StorageMap.setItem_refused refused]; rfl), ?_⟩
      rw [if_pos refused]

theorem removeItem_does (h : removeItem s area cell m key order = some (t, answer)) :
    Invariant t ∧ ∃ q, m.toPrivate.Does (.removeItem key order) answer q ∧
      views t = (views s).set area (some q) := by
  obtain ⟨t', mutated, made⟩ := Option.map_eq_some_iff.mp h
  cases made
  have accounts := (inv.maps m (List.mem_of_getElem? found)).accounts
  have kept : ∀ base : CachedMap, base.map = m.map →
      Accounts (base.removeItem key order).map := by
    intro base same
    rw [removeItem_map, same]
    exact accounts.removeItem
  obtain ⟨inv', base, same, listed, seen⟩ := mutate_views inv at_ found kept
    (fun _ => removeItem_positioned) mutated
  have map : (base.removeItem key order).map = (m.map.removeItem key).1 := by
    rw [removeItem_map, same]
  refine ⟨inv', _, ⟨?_, listed, ?_, ?_⟩, seen⟩
  · simp only [CachedMap.toPrivate, map]
    rfl
  · simp only [CachedMap.toPrivate, map]
    rfl
  · have present := @Accounts.getItem_isSome _ key accounts
    have old : (m.map.removeItem key).2 = m.map.getItem key := rfl
    rw [old]
    by_cases there : key ∈ m.map.items
    · obtain ⟨stored, get⟩ := Option.isSome_iff_exists.mp (present.mpr there)
      rw [get, Option.isNone_some, if_neg Bool.false_ne_true, if_pos]
      · rw [← get]
        rfl
      · exact there
    · have null : m.map.getItem key = none := by
        rw [← Option.not_isSome_iff_eq_none]
        exact fun some => there (present.mp some)
      rw [null, Option.isNone_none, if_pos rfl, if_neg]
      exact there

theorem clear_does :
    Invariant (clear s area m).1 ∧ ∃ q, m.toPrivate.Does .clear (clear s area m).2 q ∧
      views (clear s area m).1 = (views s).set area (some q) := by
  have inside := Shared.holder_lt at_
  have sees := Shared.view_of_cell at_ found
  have old := inv.maps m (List.mem_of_getElem? found)
  have empty : m.length = 0 ↔ m.map.items = ∅ := by
    rw [CachedMap.length, List.length_eq_zero_iff, ← StorageMap.isEmpty_iff,
      StorageMap.isEmpty, decide_eq_true_iff, ← old.listed.2.1, List.toFinset_eq_empty_iff]
  unfold clear
  split_ifs with none
  · have items := empty.mp none
    have order : m.order = [] := List.length_eq_zero_iff.mp none
    refine ⟨inv, ⟨∅, m.map.quotaSize, []⟩, ⟨rfl, ?_⟩, ?_⟩
    · simp [CachedMap.toPrivate, items]
    · rw [← items, ← order]
      exact (set_view inside sees).symm
  · refine ⟨⟨inv.wellFormed.assign, ?_⟩, ⟨∅, m.map.quotaSize, []⟩, ⟨rfl, ?_⟩, ?_⟩
    · intro n mem
      rcases List.mem_append.mp mem with before | new
      · exact inv.maps n before
      · rw [List.mem_singleton.mp new]
        exact consistent_create old.accounts.quota
    · simp [CachedMap.toPrivate, mt empty.mpr none]
    · apply views_set
      · simp [Shared.assign]
      · rw [Shared.view_assign_self inside]
        rfl
      · intro other different
        rw [Shared.view_assign_other inv.wellFormed different]

/-- `key` moves the iterator of a map that may be shared; no area sees that. -/
theorem key_does {index : Nat} :
    ∃ t, call s area cell m (.key index) = some (t, .text m.order[index]?) ∧ Invariant t ∧
      views t = views s := by
  have old := inv.maps m (List.mem_of_getElem? found)
  obtain ⟨n, key, map, order, positioned⟩ :=
    CachedMap.key_eq old.positioned old.listed.2.2 index
  refine ⟨s.modify area fun _ => n, by rw [call, key]; rfl, ⟨inv.wellFormed.modify, ?_⟩,
    views_same ?_ ?_⟩
  · intro l mem
    rcases Shared.mem_cells_modify mem with before | ⟨_, -, rfl⟩
    · exact inv.maps l before
    · exact ⟨by rw [map, order]; exact old.listed, map ▸ old.accounts, positioned⟩
  · rw [Shared.holders_modify]
  · intro other
    apply Shared.view_modify_map at_
    intro l sees
    rw [Shared.view_of_cell at_ found] at sees
    cases sees
    rw [CachedMap.toPrivate, map, order]
    rfl

theorem call_does {request : Call} (h : call s area cell m request = some (t, answer)) :
    Invariant t ∧ ∃ q, m.toPrivate.Does request answer q ∧
      views t = (views s).set area (some q) := by
  have unchanged := set_view (Shared.holder_lt at_) (Shared.view_of_cell at_ found)
  have old := inv.maps m (List.mem_of_getElem? found)
  cases request with
  | setItem key value order => exact setItem_does inv at_ found h
  | removeItem key order => exact removeItem_does inv at_ found h
  | clear =>
    have cleared := clear_does inv at_ found
    rw [Option.some.inj h] at cleared
    exact cleared
  | key index =>
    obtain ⟨u, answered, inv', same⟩ := @key_does s area cell m inv at_ found index
    rw [answered] at h
    cases h
    exact ⟨inv', m.toPrivate, ⟨rfl, rfl⟩, same.trans unchanged.symm⟩
  | item key =>
    cases h
    exact ⟨inv, m.toPrivate, ⟨rfl, rfl⟩, unchanged.symm⟩
  | length =>
    cases h
    refine ⟨inv, m.toPrivate, ⟨rfl, ?_⟩, unchanged.symm⟩
    rw [CachedMap.length, ← List.toFinset_card_of_nodup old.listed.1, old.listed.2.1]
    rfl
  | contains key =>
    cases h
    exact ⟨inv, m.toPrivate, ⟨rfl, rfl⟩, unchanged.symm⟩

end

/-! ## Runs -/

theorem present_of_cell {s : Areas} {area cell : Nat} (inv : Invariant s)
    (at_ : s.cellOf area = some cell) :
    ∃ m, s.view area = some m ∧ (views s)[area]? = some (some m.toPrivate) := by
  obtain ⟨m, sees⟩ := Shared.view_isSome inv.wellFormed at_
  exact ⟨m, sees, by rw [getElem?_views (Shared.holder_lt at_), sees]; rfl⟩

theorem views_add {s : Areas} {m : CachedMap} (inv : Invariant s) :
    views (s.add m) = views s ++ [some m.toPrivate] := by
  apply views_append
  · simp [Shared.add]
  · rw [Shared.view_add_new]
    rfl
  · intro other old
    exact Shared.view_add_old inv.wellFormed old

theorem views_share {s : Areas} {area : Nat} {m : CachedMap} (sees : s.view area = some m) :
    views (s.share area) = views s ++ [some m.toPrivate] := by
  apply views_append
  · simp [Shared.share]
  · rw [Shared.view_share_new, sees]
    rfl
  · intro other old
    exact Shared.view_share_old old

theorem views_leave {s : Areas} {area : Nat} : views (s.leave area) = (views s).set area none := by
  apply views_set
  · simp [Shared.leave]
  · rw [Shared.view_leave_self]
    rfl
  · intro other different
    rw [Shared.view_leave_other different]

theorem step_private {s t : Areas} {a : Action} {answer : Option Answer} (inv : Invariant s)
    (h : step s a = some (t, answer)) :
    Invariant t ∧ PrivateStep (views s) a answer (views t) := by
  cases a with
  | create quota =>
    simp only [step] at h
    split_ifs at h with fits
    cases h
    refine ⟨⟨inv.wellFormed.add, ?_⟩, ?_⟩
    · intro n mem
      rcases List.mem_append.mp mem with before | new
      · exact inv.maps n before
      · rw [List.mem_singleton.mp new]
        exact consistent_create fits
    · rw [views_add inv]
      exact .create
  | copy area =>
    simp only [step] at h
    split_ifs at h with live
    cases h
    obtain ⟨cell, at_⟩ := Option.isSome_iff_exists.mp live
    obtain ⟨m, sees, there⟩ := present_of_cell inv at_
    refine ⟨⟨inv.wellFormed.share, inv.maps⟩, ?_⟩
    rw [views_share sees]
    exact .copy there
  | close area =>
    simp only [step] at h
    split_ifs at h with live
    cases h
    obtain ⟨cell, at_⟩ := Option.isSome_iff_exists.mp live
    obtain ⟨m, -, there⟩ := present_of_cell inv at_
    refine ⟨⟨inv.wellFormed.leave, inv.maps⟩, ?_⟩
    rw [views_leave]
    exact .close there
  | call area request =>
    simp only [step] at h
    cases at_ : s.cellOf area with
    | none => simp [at_] at h
    | some cell =>
      simp only [at_] at h
      cases found : s.cells[cell]? with
      | none => simp [found] at h
      | some m =>
        simp only [found] at h
        obtain ⟨⟨u, given⟩, called, made⟩ := Option.map_eq_some_iff.mp h
        cases made
        obtain ⟨inv', q, does, seen⟩ := call_does inv at_ found called
        refine ⟨inv', ?_⟩
        rw [seen]
        refine .call ?_ does
        rw [getElem?_views (Shared.holder_lt at_), Shared.view_of_cell at_ found]
        rfl

theorem run_private {s t : Areas} {as : List Action} {answers : List (Option Answer)}
    (inv : Invariant s) (h : run s as = some (t, answers)) :
    Invariant t ∧ PrivateRun (views s) as answers (views t) := by
  induction as generalizing s answers with
  | nil =>
    cases h
    exact ⟨inv, .done⟩
  | cons a as ih =>
    simp only [run] at h
    cases stepped : step s a with
    | none => simp [stepped] at h
    | some next =>
      simp only [stepped] at h
      obtain ⟨rest, ran, made⟩ := Option.map_eq_some_iff.mp h
      cases made
      obtain ⟨inv', one⟩ := step_private inv stepped
      obtain ⟨last, more⟩ := ih inv' ran
      exact ⟨last, .next one more⟩

theorem invariant_start : Invariant ⟨[], []⟩ where
  wellFormed := fun _ held => absurd held List.not_mem_nil
  maps := fun _ mem => absurd mem List.not_mem_nil

/-- **Areas are private.** Every run of areas that share their maps until one of them changes is a
run, with the same answers and events, of areas that each have items of their own; and each map
counts the length of its items and keeps it within the quota. -/
theorem areas_private {t : Areas} {as : List Action} {answers : List (Option Answer)}
    (h : run ⟨[], []⟩ as = some (t, answers)) :
    PrivateRun [] as answers (views t) ∧ ∀ m ∈ t.cells,
      m.map.currentLength = contentLength m.map.items % 2 ^ 32 ∧
        (m.map.quotaSize ≠ noQuota →
          contentLength m.map.items ≤ m.map.quotaSize / sizeofUChar) := by
  obtain ⟨inv, ran⟩ := run_private invariant_start h
  refine ⟨ran, ?_⟩
  intro m mem
  have accounts := (inv.maps m mem).accounts
  exact ⟨accounts.length, accounts.within⟩

/-- A copy keeps its item when the original's is replaced. -/
theorem areas_private_two : ∃ t, PrivateRun []
    [.create 100, .call 0 (.setItem [65] [66] [[65]]), .copy 0,
      .call 0 (.setItem [65] [67] [[65]]), .call 1 (.item [65])]
    [none, some (.changed false (some ⟨some [65], none, some [66]⟩)), none,
      some (.changed false (some ⟨some [65], some [66], some [67]⟩)), some (.text (some [66]))]
    (views t) :=
  ⟨_, (areas_private rfl).1⟩

/-! ## The keys of an area -/

/-- The calls after which the keys of an area may come in another order. -/
def Changes (area : Nat) : Action → Prop
  | .close a => a = area
  | .call a (.setItem _ _ _) => a = area
  | .call a (.removeItem _ _) => a = area
  | .call a .clear => a = area
  | _ => False

theorem privateStep_keeps {areas next : List (Option PrivateArea)} {a : Action}
    {answer : Option Answer} {area : Nat} {p : PrivateArea} (one : PrivateStep areas a answer next)
    (there : areas[area]? = some (some p)) (keeps : ¬ Changes area a) :
    next[area]? = some (some p) := by
  have inside : area < areas.length := (List.getElem?_eq_some_iff.mp there).1
  cases one with
  | create => rw [List.getElem?_append_left inside, there]
  | copy => rw [List.getElem?_append_left inside, there]
  | close present =>
    rw [List.getElem?_set_ne keeps, there]
  | @call a _ q request _ present does =>
    by_cases same : a = area
    · subst same
      rw [there] at present
      cases present
      have kept : q = p := by
        cases request with
        | setItem => exact absurd rfl keeps
        | removeItem => exact absurd rfl keeps
        | clear => exact absurd rfl keeps
        | key => exact does.1
        | item => exact does.1
        | length => exact does.1
        | contains => exact does.1
      rw [kept, List.getElem?_set_self inside]
    · rw [List.getElem?_set_ne same, there]

theorem privateRun_keeps {areas final : List (Option PrivateArea)} {as : List Action}
    {answers : List (Option Answer)} {area : Nat} {p : PrivateArea}
    (ran : PrivateRun areas as answers final) (there : areas[area]? = some (some p))
    (keep : ∀ a ∈ as, ¬ Changes area a) : final[area]? = some (some p) := by
  induction ran with
  | done => exact there
  | next one rest ih =>
    exact ih (privateStep_keeps one there (keep _ List.mem_cons_self))
      fun a mem => keep a (List.mem_cons_of_mem _ mem)

theorem view_of_views {s : Areas} {area : Nat} {p : PrivateArea}
    (there : (views s)[area]? = some (some p)) : ∃ m, s.view area = some m ∧ m.toPrivate = p := by
  have inside : area < s.holders.length := by
    have := (List.getElem?_eq_some_iff.mp there).1
    simpa [views] using this
  rw [getElem?_views inside] at there
  exact Option.map_eq_some_iff.mp (Option.some.inj there)

/-- **Keys are listed.** The keys of an area have an order, each key once, in which `key` gives
them, whichever indices are asked for and whatever is done with other areas, those with the same
map too, until the area itself is changed. -/
theorem keys_listed {s : Areas} {as : List Action} {answers : List (Option Answer)} {area : Nat}
    {m : CachedMap} (h : run ⟨[], []⟩ as = some (s, answers)) (live : s.view area = some m) :
    ∃ order : List Text, order.Nodup ∧ (∀ key, key ∈ order ↔ key ∈ m.map.items) ∧
      ∀ bs t later, run s bs = some (t, later) → (∀ b ∈ bs, ¬ Changes area b) →
        ∀ index, ∃ u, step t (.call area (.key index)) = some (u, some (.text order[index]?)) := by
  obtain ⟨inv, -⟩ := run_private invariant_start h
  have consistent := inv.maps m (Shared.cell_of_view live)
  refine ⟨m.order, consistent.listed.1, ?_, ?_⟩
  · intro key
    rw [← List.mem_toFinset, consistent.listed.2.1, Finmap.mem_keys]
  · intro bs t later ran keep index
    obtain ⟨inv', followed⟩ := run_private inv ran
    have there : (views s)[area]? = some (some m.toPrivate) := by
      obtain ⟨cell, at_, -⟩ := Option.bind_eq_some_iff.mp live
      rw [getElem?_views (Shared.holder_lt at_), live]
      rfl
    obtain ⟨n, sees, same⟩ := view_of_views (privateRun_keeps followed there keep)
    obtain ⟨cell, at_, found⟩ := Option.bind_eq_some_iff.mp sees
    obtain ⟨u, answered, -, -⟩ := @key_does t area cell n inv' at_ found index
    refine ⟨u, ?_⟩
    have order : n.order = m.order := congrArg PrivateArea.order same
    rw [order] at answered
    simp only [step, at_, found, answered]
    rfl

/-- Two areas with one map, whose iterator is at the end. -/
theorem keys_listed_two :
    let s : Areas := ⟨[⟨⟨((∅ : Items).insert [65] (some [66])).insert [67] (some [68]), 4, 100⟩,
      [[67], [65]], 2, uintMax⟩], [some 0, some 0]⟩
    ∃ order : List Text, order.Nodup ∧ (∀ key, key ∈ order ↔
      key ∈ ((∅ : Items).insert [65] (some [66])).insert [67] (some [68])) ∧
      ∀ bs t later, run s bs = some (t, later) → (∀ b ∈ bs, ¬ Changes 0 b) →
        ∀ index, ∃ u, step t (.call 0 (.key index)) = some (u, some (.text order[index]?)) := by
  intro s
  have reached : run ⟨[], []⟩ [.create 100, .call 0 (.setItem [65] [66] [[65]]),
      .call 0 (.setItem [67] [68] [[67], [65]]), .copy 0] =
      some (s, [none, some (.changed false (some ⟨some [65], none, some [66]⟩)),
        some (.changed false (some ⟨some [67], none, some [68]⟩)), none]) := rfl
  have live : s.view 0 = some ⟨⟨((∅ : Items).insert [65] (some [66])).insert [67] (some [68]), 4,
      100⟩, [[67], [65]], 2, uintMax⟩ := rfl
  exact keys_listed reached live

end NetRider.Storage.Session
