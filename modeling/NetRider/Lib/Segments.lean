import Mathlib.Data.List.Basic

/-!
# Segments

Data in segments of one size, of which the last one may be filled in part. A cell of a segment
beyond the data holds anything.
-/

namespace NetRider.Lib.Segments

variable {α : Type} {size position : Nat} {segments before : List (List α)} {segment last : List α}
  {data chunk : List α}

/-- `chunk` is written into the segment at `position`. -/
def overwrite (segment : List α) (position : Nat) (chunk : List α) : List α :=
  segment.take position ++ chunk ++ segment.drop (position + chunk.length)

theorem length_overwrite (fits : position + chunk.length ≤ segment.length) :
    (overwrite segment position chunk).length = segment.length := by
  simp only [overwrite, List.length_append, List.length_take, List.length_drop]
  omega

theorem take_overwrite (fits : position + chunk.length ≤ segment.length) :
    (overwrite segment position chunk).take (position + chunk.length) =
      segment.take position ++ chunk := by
  rw [overwrite, List.take_left' ?_]
  rw [List.length_append, List.length_take]
  omega

/-- The segments up to `position` in the last one hold the data. -/
structure Open (size : Nat) (before : List (List α)) (last : List α) (position : Nat)
    (data : List α) : Prop where
  sizes : ∀ segment ∈ before, segment.length = size
  length : last.length = size
  inside : position ≤ size
  holds : data = before.flatten ++ last.take position

/-- The segments hold the data, and none of them is empty. -/
inductive Fills (size : Nat) (segments : List (List α)) (data : List α) : Prop
  | empty (segments_nil : segments = []) (data_nil : data = [])
  | some (before : List (List α)) (last : List α) (position : Nat)
      (segments_eq : segments = before ++ [last]) (positive : 0 < position)
      (isOpen : Open size before last position data)

theorem Open.write (isOpen : Open size before last position data)
    (fits : position + chunk.length ≤ size) :
    Open size before (overwrite last position chunk) (position + chunk.length)
      (data ++ chunk) where
  sizes := isOpen.sizes
  length := by
    rw [length_overwrite (by rw [isOpen.length]; exact fits), isOpen.length]
  inside := fits
  holds := by
    rw [take_overwrite (by rw [isOpen.length]; exact fits), isOpen.holds, List.append_assoc]

/-- A segment that is full is followed by a fresh one. -/
theorem Open.next (isOpen : Open size before last size data) (fresh : segment.length = size) :
    Open size (before ++ [last]) segment 0 data where
  sizes s among := by
    rcases List.mem_append.mp among with old | new
    · exact isOpen.sizes s old
    · rw [List.mem_singleton.mp new]
      exact isOpen.length
  length := fresh
  inside := Nat.zero_le size
  holds := by
    rw [List.take_zero, List.append_nil, List.flatten_append, List.flatten_singleton, isOpen.holds,
      List.take_of_length_le (Nat.le_of_eq isOpen.length)]

theorem length_flatten (sizes : ∀ segment ∈ before, segment.length = size) :
    before.flatten.length = before.length * size := by
  induction before with
  | nil => rw [List.flatten_nil, List.length_nil, List.length_nil, Nat.zero_mul]
  | cons segment rest ih =>
    rw [List.flatten_cons, List.length_append, sizes segment List.mem_cons_self,
      ih fun s among => sizes s (List.mem_cons_of_mem segment among), List.length_cons,
      Nat.succ_mul, Nat.add_comm]

theorem Open.length_data (isOpen : Open size before last position data) :
    data.length = before.length * size + position := by
  rw [isOpen.holds, List.length_append, List.length_take, length_flatten isOpen.sizes,
    isOpen.length, Nat.min_eq_left isOpen.inside]

/-- What a segment before the last one holds. -/
theorem drop_flatten (sizes : ∀ segment ∈ before, segment.length = size) {i j : Nat}
    (stored : before[i]? = some segment) (inside : j ≤ size) :
    before.flatten.drop (i * size + j) = segment.drop j ++ (before.drop (i + 1)).flatten := by
  induction before generalizing i with
  | nil => cases stored
  | cons first rest ih =>
    have length := sizes first List.mem_cons_self
    rw [List.flatten_cons]
    cases i with
    | zero =>
      obtain rfl := Option.some.inj stored
      rw [Nat.zero_mul, Nat.zero_add, Nat.zero_add, List.drop_append_of_le_length (by omega),
        List.drop_succ_cons, List.drop_zero]
    | succ i =>
      rw [Nat.succ_mul, show i * size + size + j = first.length + (i * size + j) by omega,
        List.drop_length_add_append,
        ih (fun s among => sizes s (List.mem_cons_of_mem first among)) stored, List.drop_succ_cons]

/-- Where a position is found. -/
theorem Open.find (isOpen : Open size before last position data) {p : Nat}
    (inside : p < data.length) :
    p / size < before.length ∧ (∃ segment, before[p / size]? = some segment ∧
        segment.length = size ∧ p % size + (size - p % size) = size ∧ 0 < size - p % size ∧
        p + (size - p % size) ≤ data.length ∧
        (data.drop p).take (size - p % size) = segment.drop (p % size)) ∨
      p / size = before.length ∧ p % size + (data.length - p) ≤ size ∧
        data.drop p = (last.drop (p % size)).take (data.length - p) := by
  have total := isOpen.length_data
  have fits := isOpen.inside
  have positive : 0 < size := by
    rcases Nat.eq_zero_or_pos size with rfl | positive
    · rw [Nat.mul_zero] at total
      omega
    · exact positive
  have split := Nat.div_add_mod' p size
  have less := Nat.mod_lt p positive
  generalize p / size = i at split ⊢
  generalize p % size = j at split less ⊢
  subst split
  by_cases early : i < before.length
  · have stored := List.getElem?_eq_getElem early
    have length := isOpen.sizes _ (List.mem_of_getElem? stored)
    have more : (i + 1) * size ≤ before.length * size := Nat.mul_le_mul_right size early
    rw [Nat.succ_mul] at more
    refine .inl ⟨early, _, stored, length, by omega, by omega, by omega, ?_⟩
    rw [isOpen.holds, List.drop_append_of_le_length
      (by rw [length_flatten isOpen.sizes]; omega), drop_flatten isOpen.sizes stored
      (Nat.le_of_lt less), List.append_assoc, List.take_left' (by rw [List.length_drop, length])]
  · have upto : i = before.length := by
      by_contra other
      have more : (before.length + 1) * size ≤ i * size :=
        Nat.mul_le_mul_right size (by omega)
      rw [Nat.succ_mul] at more
      omega
    subst upto
    refine .inr ⟨rfl, by omega, ?_⟩
    rw [total, isOpen.holds, ← length_flatten isOpen.sizes, List.drop_length_add_append,
      List.drop_take]
    congr 1
    omega

end NetRider.Lib.Segments
