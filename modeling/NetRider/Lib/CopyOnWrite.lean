import Mathlib.Data.List.NodupEquivFin

/-!
# Values that several holders share

Cells and the cell that each holder refers to. A holder changes the value of its cell in place, or
leaves the cell for a new one. Nobody else sees the change if the holder was the only one of its
cell or took a new one.
-/

namespace NetRider.Lib

variable {α β : Type*}

structure Shared (α : Type*) where
  cells : List α
  holders : List (Option Nat)

namespace Shared

variable (s : Shared α) (holder : Nat)

def cellOf : Option Nat := s.holders[holder]?.join

def refCount (cell : Nat) : Nat := s.holders.count (some cell)

/-- What a holder sees. -/
def view : Option α := (s.cellOf holder).bind (s.cells[·]?)

/-- Change the value in the holder's cell. -/
def modify (f : α → α) : Shared α :=
  match s.cellOf holder with
  | none => s
  | some cell => { s with cells := s.cells.modify cell f }

/-- Let the holder refer to a new cell. -/
def assign (value : α) : Shared α :=
  ⟨s.cells ++ [value], s.holders.set holder (some s.cells.length)⟩

/-- A new holder of a new cell. -/
def add (value : α) : Shared α := ⟨s.cells ++ [value], s.holders ++ [some s.cells.length]⟩

/-- A new holder of the same cell. -/
def share : Shared α := { s with holders := s.holders ++ [s.cellOf holder] }

def leave : Shared α := { s with holders := s.holders.set holder none }

/-- Every holder refers to a cell that is there. -/
def WellFormed : Prop := ∀ cell, some cell ∈ s.holders → cell < s.cells.length

variable {s} {holder other : Nat} {cell : Nat} {value : α} {f : α → α}

theorem cellOf_eq_some : s.cellOf holder = some cell ↔ s.holders[holder]? = some (some cell) := by
  rw [cellOf, Option.join_eq_some_iff]

theorem WellFormed.cell_lt (wf : s.WellFormed) (at_ : s.cellOf holder = some cell) :
    cell < s.cells.length :=
  wf cell (List.mem_of_getElem? (cellOf_eq_some.mp at_))

/-- A cell with one holder has no other. -/
theorem cellOf_unique (one : s.refCount cell ≤ 1) (at_ : s.cellOf holder = some cell)
    (same : s.cellOf other = some cell) : other = holder := by
  rw [cellOf_eq_some, List.getElem?_eq_some_iff] at at_ same
  obtain ⟨lt, at_⟩ := at_
  obtain ⟨other_lt, same⟩ := same
  by_contra different
  have twice : List.Duplicate (some cell) s.holders := by
    rw [List.duplicate_iff_exists_distinct_get]
    rcases Nat.lt_or_gt_of_ne different with less | more
    · exact ⟨⟨other, other_lt⟩, ⟨holder, lt⟩, less, same.symm, at_.symm⟩
    · exact ⟨⟨holder, lt⟩, ⟨other, other_lt⟩, more, at_.symm, same.symm⟩
  have two := (List.duplicate_iff_sublist.mp twice).count_le (some cell)
  rw [List.count_cons_self, List.count_cons_self, List.count_nil] at two
  rw [refCount] at one
  omega

/-! ## What the holders see -/

section

variable (s holder f value)

@[simp] theorem holders_modify : (s.modify holder f).holders = s.holders := by
  unfold modify
  split <;> rfl

@[simp] theorem cellOf_modify : (s.modify holder f).cellOf other = s.cellOf other := by
  rw [cellOf, holders_modify, cellOf]

theorem length_modify : (s.modify holder f).cells.length = s.cells.length := by
  unfold modify
  split
  · rfl
  · exact List.length_modify ..

end

theorem view_modify (at_ : s.cellOf holder = some cell) :
    (s.modify holder f).view other =
      if s.cellOf other = some cell then (s.view other).map f else s.view other := by
  have cells : (s.modify holder f).cells = s.cells.modify cell f := by simp [modify, at_]
  rw [view, cellOf_modify, cells, view]
  cases s.cellOf other with
  | none => simp
  | some c =>
    simp only [Option.bind_some, List.getElem?_modify, Option.some.injEq]
    by_cases same : c = cell
    · simp [same]
    · simp [same, Ne.symm same]

theorem view_modify_self (at_ : s.cellOf holder = some cell) :
    (s.modify holder f).view holder = (s.view holder).map f := by
  rw [view_modify at_, if_pos at_]

theorem view_modify_other (at_ : s.cellOf holder = some cell) (one : s.refCount cell ≤ 1)
    (different : other ≠ holder) : (s.modify holder f).view other = s.view other := by
  rw [view_modify at_, if_neg]
  intro same
  exact different (cellOf_unique one at_ same)

/-- What the change keeps no holder sees changed. -/
theorem view_modify_map {p : α → β} (at_ : s.cellOf holder = some cell)
    (keeps : ∀ a, s.view holder = some a → p (f a) = p a) :
    ((s.modify holder f).view other).map p = (s.view other).map p := by
  rw [view_modify at_]
  split_ifs with same
  · have sees : s.view other = s.view holder := by rw [view, view, same, at_]
    rw [sees, Option.map_map]
    cases value : s.view holder with
    | none => rfl
    | some a => simp [keeps a value]
  · rfl

theorem cellOf_assign_self (open_ : holder < s.holders.length) :
    (s.assign holder value).cellOf holder = some s.cells.length := by
  simp [cellOf, assign, open_]

theorem cellOf_assign_other (different : other ≠ holder) :
    (s.assign holder value).cellOf other = s.cellOf other := by
  simp [cellOf, assign, List.getElem?_set_ne (Ne.symm different)]

theorem view_assign_self (open_ : holder < s.holders.length) :
    (s.assign holder value).view holder = some value := by
  rw [view, cellOf_assign_self open_]
  simp [assign]

theorem view_append (wf : s.WellFormed) {t : Shared α} (cells : t.cells = s.cells ++ [value])
    (same : t.cellOf other = s.cellOf other) : t.view other = s.view other := by
  rw [view, view, same, cells]
  cases at_ : s.cellOf other with
  | none => rfl
  | some c => simp [List.getElem?_append_left (wf.cell_lt at_)]

theorem view_assign_other (wf : s.WellFormed) (different : other ≠ holder) :
    (s.assign holder value).view other = s.view other :=
  view_append wf rfl (cellOf_assign_other different)

theorem view_add_old (wf : s.WellFormed) (old : other < s.holders.length) :
    (s.add value).view other = s.view other :=
  view_append wf rfl (by simp [cellOf, add, List.getElem?_append_left old])

theorem view_add_new : (s.add value).view s.holders.length = some value := by
  simp [view, cellOf, add]

theorem view_share_old (old : other < s.holders.length) :
    (s.share holder).view other = s.view other := by
  simp [view, cellOf, share, List.getElem?_append_left old]

theorem view_share_new : (s.share holder).view s.holders.length = s.view holder := by
  have at_ : (s.share holder).cellOf s.holders.length = s.cellOf holder := by
    simp [cellOf, share]
  rw [view, at_, view]
  rfl

theorem view_leave_self : (s.leave holder).view holder = none := by
  have at_ : (s.leave holder).cellOf holder = none := by
    rw [cellOf, leave, List.getElem?_set_self']
    cases s.holders[holder]? <;> rfl
  rw [view, at_]
  rfl

theorem view_leave_other (different : other ≠ holder) :
    (s.leave holder).view other = s.view other := by
  simp [view, cellOf, leave, List.getElem?_set_ne (Ne.symm different)]

theorem view_isSome (wf : s.WellFormed) (at_ : s.cellOf holder = some cell) :
    ∃ a, s.view holder = some a :=
  ⟨s.cells.get ⟨cell, wf.cell_lt at_⟩, by simp [view, at_, wf.cell_lt at_]⟩

theorem holder_lt (at_ : s.cellOf holder = some cell) : holder < s.holders.length :=
  (List.getElem?_eq_some_iff.mp (cellOf_eq_some.mp at_)).1

theorem view_of_cell {a : α} (at_ : s.cellOf holder = some cell) (found : s.cells[cell]? = some a) :
    s.view holder = some a := by
  rw [view, at_]
  exact found

theorem cell_of_view {a : α} (sees : s.view holder = some a) : a ∈ s.cells := by
  obtain ⟨cell, -, found⟩ := Option.bind_eq_some_iff.mp sees
  exact List.mem_of_getElem? found

theorem mem_cells_modify {a : α} (mem : a ∈ (s.modify holder f).cells) :
    a ∈ s.cells ∨ ∃ b, s.view holder = some b ∧ a = f b := by
  unfold modify at mem
  split at mem
  · exact .inl mem
  next cell at_ =>
    obtain ⟨i, found⟩ := List.mem_iff_getElem?.mp mem
    rw [List.getElem?_modify] at found
    cases old : s.cells[i]? with
    | none => simp [old] at found
    | some b =>
      by_cases same : cell = i
      · subst same
        simp only [old, if_true, Option.map_eq_map, Option.map_some, Option.some.injEq] at found
        exact .inr ⟨b, view_of_cell at_ old, found.symm⟩
      · simp only [old, same, if_false, Option.map_eq_map, Option.map_some, Option.some.injEq] at found
        exact .inl (found ▸ List.mem_of_getElem? old)

/-! ## Well-formedness -/

theorem WellFormed.modify (wf : s.WellFormed) : (s.modify holder f).WellFormed := by
  intro c held
  rw [holders_modify] at held
  rw [length_modify]
  exact wf c held

theorem WellFormed.assign (wf : s.WellFormed) : (s.assign holder value).WellFormed := by
  intro c held
  simp only [Shared.assign, List.length_append, List.length_singleton] at held ⊢
  rcases List.mem_or_eq_of_mem_set held with old | new
  · exact Nat.lt_succ_of_lt (wf c old)
  · cases new
    exact Nat.lt_succ_self _

theorem WellFormed.add (wf : s.WellFormed) : (s.add value).WellFormed := by
  intro c held
  simp only [Shared.add, List.mem_append, List.mem_singleton, List.length_append,
    List.length_singleton] at held ⊢
  rcases held with old | new
  · exact Nat.lt_succ_of_lt (wf c old)
  · cases new
    exact Nat.lt_succ_self _

theorem WellFormed.share (wf : s.WellFormed) : (s.share holder).WellFormed := by
  intro c held
  simp only [Shared.share, List.mem_append, List.mem_singleton] at held ⊢
  rcases held with old | new
  · exact wf c old
  · exact wf.cell_lt new.symm

theorem WellFormed.leave (wf : s.WellFormed) : (s.leave holder).WellFormed := by
  intro c held
  rcases List.mem_or_eq_of_mem_set held with old | new
  · exact wf c old
  · cases new

end Shared

end NetRider.Lib
