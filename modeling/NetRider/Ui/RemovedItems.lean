import Mathlib.Data.List.Nodup
import Mathlib.Data.List.Perm.Basic
import NetRider.Ui.BackForwardList

/-!
# Every item is in the list or was reported removed

The page keeps an item for the web process until it is told that the item was removed. `Session`
follows the list together with what its page has been told, also once the list has let go of it.
-/

namespace NetRider.Ui

open NetRider.Lib WebBackForwardList

open scoped List

variable {Item : Type}

/-- `told` is the log of the page, `added` the items that `addItem` took. -/
structure Session (Item : Type) where
  list : WebBackForwardList Item
  told : PageLog Item
  added : List Item
  deriving DecidableEq, Repr

namespace Session

def start (capacity : Nat) : Session Item := ⟨fresh capacity, ⟨[], []⟩, []⟩

/-- The item that a call adds: without a page, or without room for one, it adds none. -/
def taken (l : WebBackForwardList Item) : Call Item → List Item
  | .addItem (some item) => if l.capacity ≠ 0 ∧ l.page.isSome then [item] else []
  | _ => []

/-- `pageClosed` reports every entry before it lets go of the page. -/
def closed (s : Session Item) : PageLog Item :=
  { s.told with removed := s.told.removed ++ if s.list.page.isSome then s.list.entries else [] }

def step [DecidableEq Item] (s : Session Item) (call : Call Item) : Option (Session Item) :=
  (s.list.step call).map fun list =>
    { list
      told := match call with
        | .pageClosed => s.closed
        | _ => list.page.getD s.told
      added := s.added ++ taken s.list call }

/-- An item that is added is new. -/
def Fresh (s : Session Item) (call : Call Item) : Prop := ∀ item ∈ taken s.list call, item ∉ s.added

instance [DecidableEq Item] (s : Session Item) (call : Call Item) : Decidable (s.Fresh call) :=
  inferInstanceAs (Decidable (∀ item ∈ taken s.list call, item ∉ s.added))

/-- The log is the page's, and the entries with the reported items are those that were added. -/
structure Accounted (s : Session Item) : Prop where
  page : ∀ page, s.list.page = some page → page = s.told
  closed : s.list.page = none → s.list.entries = []
  index : s.list.hasCurrentIndex = true → s.list.currentIndex < s.list.entries.length
  nodup : s.added.Nodup
  account : s.list.entries ++ s.told.removed ~ s.added

/-- What a call reports is what it hands to `didChangeBackForwardList`, if it calls that. -/
def Reports (told told' : PageLog Item) : Prop :=
  ∃ removedItems, told'.removed = told.removed ++ removedItems ∧
    (removedItems = [] ∧ told'.changes = told.changes ∨
      ∃ added, told'.changes = told.changes ++ [(added, removedItems)])

end Session

/-! ## Tossing and inserting -/

theorem oldest_perm (entries : List Item) (n : Nat) :
    (entries.take n).tail ++ ((entries.drop n).reverse ++ (entries.take n).take 1) ~ entries := by
  have back : (entries.take n).tail ++ (entries.take n).take 1 ~ entries.take n := by
    have split := List.take_append_drop 1 (entries.take n)
    rw [List.drop_one] at split
    exact List.perm_append_comm.trans (.of_eq split)
  calc (entries.take n).tail ++ ((entries.drop n).reverse ++ (entries.take n).take 1)
      ~ (entries.take n).tail ++ ((entries.take n).take 1 ++ (entries.drop n).reverse) :=
        List.perm_append_comm.append_left _
    _ = ((entries.take n).tail ++ (entries.take n).take 1) ++ (entries.drop n).reverse :=
        (List.append_assoc _ _ _).symm
    _ ~ entries.take n ++ entries.drop n := back.append (List.reverse_perm _)
    _ = entries := List.take_append_drop n entries

theorem makeRoom_perm (l : WebBackForwardList Item) :
    l.makeRoom.1.entries ++ l.makeRoom.2 ~ l.entries := by
  simp only [makeRoom]
  split_ifs with has full empty
  · exact oldest_perm l.entries (l.currentIndex + 1)
  · exact oldest_perm l.entries (l.currentIndex + 1)
  · have split := List.take_append_drop (l.currentIndex + 1) l.entries
    exact ((List.reverse_perm _).append_left _).trans (.of_eq split)
  · exact .refl _

/-- The new item has a place in the vector. -/
theorem makeRoom_index (l : WebBackForwardList Item)
    (index : l.hasCurrentIndex = true → l.currentIndex < l.entries.length) :
    (if l.makeRoom.1.hasCurrentIndex then l.makeRoom.1.currentIndex + 1 else 0) ≤
      l.makeRoom.1.entries.length := by
  cases has : l.hasCurrentIndex with
  | false => simp [makeRoom, has]
  | true =>
    have inside := index has
    have kept : (l.entries.take (l.currentIndex + 1)).length = l.currentIndex + 1 := by
      rw [List.length_take]
      omega
    simp only [makeRoom, has, if_true]
    split_ifs with full empty
    · contradiction
    · exact Nat.zero_le _
    · -- the oldest item went, but not the only one
      have rest : (l.entries.take (l.currentIndex + 1)).tail.length = l.currentIndex := by
        rw [List.length_tail, kept]
        rfl
      have nonempty : l.currentIndex ≠ 0 := by
        intro zero
        rw [zero] at rest
        exact empty (List.isEmpty_iff.mpr (List.eq_nil_of_length_eq_zero (zero ▸ rest)))
      simp only [rest]
      omega
    · exact Nat.zero_le _
    · exact kept.ge
    · exact Nat.zero_le _

theorem insertCurrent_perm {l t : WebBackForwardList Item} {item : Item}
    (index : (if l.hasCurrentIndex then l.currentIndex + 1 else 0) ≤ l.entries.length)
    (h : l.insertCurrent item = some t) :
    t.entries ~ item :: l.entries ∧ t.currentIndex < t.entries.length := by
  unfold insertCurrent at h
  generalize (if l.hasCurrentIndex then l.currentIndex + 1 else 0) = place at index h
  simp only [if_pos index] at h
  split at h
  · cases h
    refine ⟨List.perm_insertIdx _ _ index, ?_⟩
    simp only [List.length_insertIdx_of_le_length index]
    exact Nat.lt_succ_of_le index
  · cases h

theorem insertCurrent_page {l t : WebBackForwardList Item} {item : Item}
    (h : l.insertCurrent item = some t) : t.page = l.page := by
  simp only [insertCurrent] at h
  split_ifs at h <;> cases h <;> rfl

/-- Leaving out an item by its index or by its identity is the same if it occurs once. -/
theorem filter_ne_eq_eraseIdx [DecidableEq Item] {entries : List Item} {n : Nat} {item : Item}
    (nodup : entries.Nodup) (found : entries[n]? = some item) :
    entries.filter (· ≠ item) = entries.eraseIdx n := by
  induction entries generalizing n with
  | nil => simp at found
  | cons x xs ih =>
    obtain ⟨new, nodup⟩ := List.nodup_cons.mp nodup
    cases n with
    | zero =>
      obtain rfl : x = item := by simpa using found
      simp only [List.filter_cons, ne_eq, not_true, decide_false, List.eraseIdx_zero, List.tail_cons]
      apply List.filter_eq_self.mpr
      intro y member
      simpa using fun same : y = x => new (same ▸ member)
    | succ n =>
      rw [List.getElem?_cons_succ] at found
      have other : x ≠ item := fun same => new (same ▸ List.mem_of_getElem? found)
      simp [other, ← ih nodup found]

/-! ## One call -/

namespace Session

theorem start_accounted (capacity : Nat) : (start capacity : Session Item).Accounted where
  page page h := by cases h; rfl
  closed h := by cases h
  index h := by cases h
  nodup := List.nodup_nil
  account := .refl _

theorem Reports.refl (told : PageLog Item) : Reports told told :=
  ⟨[], by simp, .inl ⟨rfl, rfl⟩⟩

variable {s t : Session Item}

/-- `addItem` tosses items, reports them and puts the new item behind the rest. -/
theorem addItem_accounted {item : Item} {page : PageLog Item} {l : WebBackForwardList Item}
    (ok : s.Accounted) (isOpen : s.list.page = some page) (new : item ∉ s.added)
    (h : { s.list.makeRoom.1 with
      page := some (page.note (some item) s.list.makeRoom.2) }.insertCurrent item = some l) :
    Accounted ⟨l, page.note (some item) s.list.makeRoom.2, s.added ++ [item]⟩ := by
  obtain ⟨entries, inside⟩ := @insertCurrent_perm _
    { s.list.makeRoom.1 with page := some (page.note (some item) s.list.makeRoom.2) } l item
    (makeRoom_index s.list ok.index) h
  have samePage := insertCurrent_page h
  obtain rfl := ok.page page isOpen
  refine ⟨?_, ?_, fun _ => inside, ?_, ?_⟩
  · intro page' hpage
    rw [samePage] at hpage
    exact (Option.some.inj hpage).symm
  · intro hpage
    rw [samePage] at hpage
    cases hpage
  · rw [List.nodup_append]
    refine ⟨ok.nodup, List.nodup_singleton _, ?_⟩
    intro a ha b hb same
    obtain rfl := List.mem_singleton.mp hb
    exact new (same ▸ ha)
  · have tossed := makeRoom_perm s.list
    calc l.entries ++ (s.told.removed ++ s.list.makeRoom.2)
        ~ (item :: s.list.makeRoom.1.entries) ++ (s.told.removed ++ s.list.makeRoom.2) :=
          entries.append_right _
      _ ~ (item :: s.list.makeRoom.1.entries) ++ (s.list.makeRoom.2 ++ s.told.removed) :=
          List.perm_append_comm.append_left _
      _ = item :: (s.list.makeRoom.1.entries ++ s.list.makeRoom.2 ++ s.told.removed) := by simp
      _ ~ item :: (s.list.entries ++ s.told.removed) := (tossed.append_right _).cons _
      _ ~ item :: s.added := ok.account.cons _
      _ ~ s.added ++ [item] := (List.perm_append_singleton item s.added).symm

/-- A call that does nothing. -/
theorem Accounted.unchanged {items : List Item} {told : PageLog Item} (ok : s.Accounted)
    (none_taken : items = []) (same : told = s.told) :
    Accounted ⟨s.list, told, s.added ++ items⟩ ∧ Reports s.told told := by
  subst none_taken same
  rw [List.append_nil]
  exact ⟨ok, .refl _⟩

theorem Accounted.log (ok : s.Accounted) : s.list.page.getD s.told = s.told := by
  cases isOpen : s.list.page with
  | none => rfl
  | some page => exact ok.page page isOpen

theorem addItem_step {newItem : Option Item} {l : WebBackForwardList Item} (ok : s.Accounted)
    (new : s.Fresh (.addItem newItem)) (stepped : s.list.addItem newItem = some l) :
    Accounted ⟨l, l.page.getD s.told, s.added ++ taken s.list (.addItem newItem)⟩ ∧
      Reports s.told (l.page.getD s.told) := by
  have log := ok.log
  unfold WebBackForwardList.addItem at stepped
  cases newItem with
  | none =>
    obtain rfl := Option.some.inj stepped
    exact ok.unchanged rfl log
  | some item =>
    cases isOpen : s.list.page with
    | none =>
      simp only [isOpen] at stepped
      obtain rfl := Option.some.inj stepped
      apply ok.unchanged
      · simp [taken, isOpen]
      · exact log
    | some page =>
      simp only [isOpen] at stepped
      split_ifs at stepped with zero
      · obtain rfl := Option.some.inj stepped
        apply ok.unchanged
        · simp [taken, zero]
        · exact log
      · have took : taken s.list (.addItem (some item)) = [item] := by simp [taken, isOpen, zero]
        have accounted := addItem_accounted ok isOpen (new item (by simp [took])) stepped
        have noted : l.page = some (page.note (some item) s.list.makeRoom.2) :=
          insertCurrent_page stepped
        rw [took, noted, Option.getD_some]
        refine ⟨accounted, ?_⟩
        obtain rfl := ok.page page isOpen
        exact ⟨_, rfl, .inr ⟨some item, rfl⟩⟩

variable [DecidableEq Item]

/-- `clear` reports every entry but the current one. -/
theorem clear_accounted (ok : s.Accounted) :
    Accounted ⟨s.list.clear, s.list.clear.page.getD s.told, s.added⟩ ∧
      Reports s.told (s.list.clear.page.getD s.told) := by
  unfold WebBackForwardList.clear
  cases isOpen : s.list.page with
  | none =>
    simp only [isOpen, Option.getD_none]
    exact ⟨⟨ok.page, ok.closed, ok.index, ok.nodup, ok.account⟩, .refl _⟩
  | some page =>
    obtain rfl := ok.page page isOpen
    simp only
    split_ifs with short
    · simp only [isOpen, Option.getD_some]
      exact ⟨⟨ok.page, ok.closed, ok.index, ok.nodup, ok.account⟩, .refl _⟩
    · cases current : s.list.currentItem with
      | none =>
        constructor
        · refine ⟨fun _ h => (Option.some.inj h).symm, nofun, nofun, ok.nodup, ?_⟩
          change s.told.removed ++ s.list.entries ~ s.added
          exact List.perm_append_comm.trans ok.account
        · exact ⟨s.list.entries, rfl, .inr ⟨none, rfl⟩⟩
      | some item =>
        unfold currentItem at current
        split_ifs at current with has
        have nodup := (ok.account.nodup_iff.mpr ok.nodup).of_append_left
        have reported := filter_ne_eq_eraseIdx nodup current
        obtain ⟨inside, rfl⟩ := List.getElem?_eq_some_iff.mp current
        constructor
        · refine ⟨fun _ h => (Option.some.inj h).symm, nofun, fun _ => Nat.zero_lt_one, ok.nodup, ?_⟩
          simp only [Option.getD_some, reported]
          calc [s.list.entries[s.list.currentIndex]] ++
                (s.told.removed ++ s.list.entries.eraseIdx s.list.currentIndex)
              ~ [s.list.entries[s.list.currentIndex]] ++
                (s.list.entries.eraseIdx s.list.currentIndex ++ s.told.removed) :=
                List.perm_append_comm.append_left _
            _ = s.list.entries[s.list.currentIndex] ::
                s.list.entries.eraseIdx s.list.currentIndex ++ s.told.removed := rfl
            _ ~ s.list.entries ++ s.told.removed :=
                (List.getElem_cons_eraseIdx_perm inside).append_right _
            _ ~ s.added := ok.account
        · exact ⟨_, rfl, .inr ⟨none, by rw [reported]; rfl⟩⟩

/-- `goToItem` moves the index and tells the page that nothing was removed. -/
theorem goToItem_step {item : Option Item} (ok : s.Accounted) :
    Accounted ⟨s.list.goToItem item, (s.list.goToItem item).page.getD s.told, s.added⟩ ∧
      Reports s.told ((s.list.goToItem item).page.getD s.told) := by
  have log := ok.log
  have same : Accounted ⟨s.list, s.list.page.getD s.told, s.added⟩ ∧
      Reports s.told (s.list.page.getD s.told) := by
    rw [log]
    exact ⟨ok, .refl _⟩
  unfold goToItem
  cases item with
  | none => exact same
  | some item =>
    cases isOpen : s.list.page with
    | none => simpa [isOpen] using same
    | some page =>
      simp only
      split_ifs with empty found
      · exact same
      · obtain rfl := ok.page page isOpen
        constructor
        · refine ⟨fun _ h => (Option.some.inj h).symm, nofun, fun _ => found, ok.nodup, ?_⟩
          simpa [PageLog.note] using ok.account
        · exact ⟨[], rfl, .inr ⟨none, rfl⟩⟩
      · exact same

/-- One call keeps the account, and `addItem` and `clear` hand over what they report. -/
theorem step_accounted {call : Call Item} (ok : s.Accounted) (new : s.Fresh call)
    (h : s.step call = some t) :
    t.Accounted ∧ (call ≠ .pageClosed → Reports s.told t.told) := by
  obtain ⟨l, stepped, rfl⟩ := Option.map_eq_some_iff.mp h
  cases call with
  | addItem newItem =>
    obtain ⟨accounted, reports⟩ := addItem_step ok new stepped
    exact ⟨accounted, fun _ => reports⟩
  | goToItem item =>
    obtain rfl := Option.some.inj stepped
    obtain ⟨accounted, reports⟩ := goToItem_step ok
    simp only [taken, List.append_nil]
    exact ⟨accounted, fun _ => reports⟩
  | clear =>
    obtain rfl := Option.some.inj stepped
    obtain ⟨accounted, reports⟩ := clear_accounted ok
    simp only [taken, List.append_nil]
    exact ⟨accounted, fun _ => reports⟩
  | pageClosed =>
    obtain rfl := Option.some.inj stepped
    refine ⟨⟨nofun, fun _ => rfl, nofun, ?_, ?_⟩, fun h => (h rfl).elim⟩
    · simpa [taken] using ok.nodup
    · have reported : (if s.list.page.isSome then s.list.entries else []) = s.list.entries := by
        cases isOpen : s.list.page with
        | none => simp [ok.closed isOpen]
        | some page => rfl
      simp only [taken, List.append_nil, closed, reported]
      change s.told.removed ++ s.list.entries ~ s.added
      exact List.perm_append_comm.trans ok.account

/-- **Every item is accounted for.** Whatever was called, an item that was added is in the list
once or was reported removed once, and not both; and a call that changes the list hands to
`didChangeBackForwardList` exactly what it reported. -/
theorem items_accounted {capacity : Nat} (h : Reach step Fresh (start capacity) s) :
    (∀ item ∈ s.added, s.list.entries.count item + s.told.removed.count item = 1) ∧
    ∀ call t, s.Fresh call → s.step call = some t → call ≠ .pageClosed →
      Reports s.told t.told := by
  have ok : s.Accounted := h.invariant (start_accounted capacity)
    fun _ _ _ ok new stepped => (step_accounted ok new stepped).1
  constructor
  · intro item member
    rw [← List.count_append, ok.account.count_eq item]
    exact List.count_eq_one_of_mem ok.nodup member
  · intro call t new stepped open_
    exact (step_accounted ok new stepped).2 open_

/-- Two items in a list of one: the first has been reported when the second is there. -/
theorem items_accounted_evicted :
    ∃ s : Session Nat, Reach step Fresh (start 1) s ∧ s.list.entries = [8] ∧
      s.told.removed = [7] ∧ s.list.entries.count 7 + s.told.removed.count 7 = 1 := by
  have ran : run (fun s call => if s.Fresh call then step s call else none) (start 1)
      [.addItem (some 7), .addItem (some 8)] =
        some ⟨⟨some ⟨[7], [(some 7, []), (some 8, [7])]⟩, [8], true, 0, 1⟩,
          ⟨[7], [(some 7, []), (some 8, [7])]⟩, [7, 8]⟩ := by
    decide
  have reached := Reach.start.of_run ran
  exact ⟨_, reached, rfl, rfl, (items_accounted reached).1 7 (by decide)⟩

end Session

end NetRider.Ui
