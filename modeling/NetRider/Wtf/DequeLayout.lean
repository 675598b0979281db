import NetRider.Wtf.Deque

/-!
# Layout of a Deque

Element `k` lies `k` slots behind `m_start`, counted around the end of the buffer, and all other
slots are empty. Every operation keeps that, with the elements of the list operation.
-/

namespace NetRider.Wtf.Deques

open NetRider.Lib.Slots

variable {α : Type} {A : Allocator} {d : Deque α} {xs : List α} {v : α} {i k n : Nat}

namespace Deque

/-- How far `i` lies behind `m_start`. -/
def offset (d : Deque α) (i : Nat) : Nat :=
  if d.m_start ≤ i then i - d.m_start else i + d.capacity - d.m_start

/-- The index `k` slots behind `m_start`. -/
def position (d : Deque α) (k : Nat) : Nat :=
  if d.m_start + k < d.capacity then d.m_start + k else d.m_start + k - d.capacity

end Deque

/-- `d` holds the elements of `xs`. -/
structure Holds (A : Allocator) (d : Deque α) (xs : List α) : Prop where
  shape : d.capacity = 0 ∧ d.m_start = 0 ∧ xs = [] ∨
    2 ≤ d.capacity ∧ d.m_start < d.capacity ∧ xs.length < d.capacity
  ends : d.m_end = d.position xs.length
  slots : ∀ i < d.capacity, d.m_buffer.slot i = xs[d.offset i]?
  allocated : d.capacity * A.sizeOf < 2 ^ 32 ∧
    (d.capacity ≠ 0 → A.fastMallocGoodSize (d.capacity * A.sizeOf) / A.sizeOf = d.capacity)

theorem holds_empty : Holds A (Deque.empty : Deque α) [] :=
  ⟨.inl ⟨rfl, rfl, rfl⟩, rfl, fun _ inside => absurd inside (Nat.not_lt_zero _),
    by rw [show (Deque.empty : Deque α).capacity = 0 from rfl, Nat.zero_mul]; decide,
    fun some => absurd rfl some⟩

namespace Holds

variable (holds : Holds A d xs)
include holds

theorem nonempty_capacity (some : k < xs.length) :
    2 ≤ d.capacity ∧ d.m_start < d.capacity ∧ xs.length < d.capacity := by
  rcases holds.shape with ⟨-, -, rfl⟩ | shape
  · exact absurd some (Nat.not_lt_zero k)
  · exact shape

/-- The slot of element `k`. -/
theorem slot_position (inside : k < xs.length) :
    d.position k < d.capacity ∧ d.m_buffer.slot (d.position k) = some xs[k] := by
  obtain ⟨-, start, room⟩ := holds.nonempty_capacity inside
  have below : d.position k < d.capacity := by
    unfold Deque.position
    split <;> omega
  have same : d.offset (d.position k) = k := by
    unfold Deque.offset Deque.position
    split <;> split <;> omega
  rw [holds.slots _ below, same]
  exact ⟨below, List.getElem?_eq_getElem inside⟩

theorem size_eq : d.size = xs.length := by
  have ends := holds.ends
  unfold Deque.position at ends
  unfold Deque.size
  rcases holds.shape with ⟨none, start, rfl⟩ | ⟨-, start, room⟩
  · rw [List.length_nil] at ends ⊢
    split <;> split at ends <;> omega
  · split <;> split at ends <;> omega

theorem isEmpty_eq : d.isEmpty = xs.isEmpty := by
  have ends := holds.ends
  unfold Deque.position at ends
  have same : d.m_start = d.m_end ↔ xs.length = 0 := by
    rcases holds.shape with ⟨none, start, rfl⟩ | ⟨-, start, room⟩
    · rw [List.length_nil] at ends ⊢
      split at ends <;> omega
    · split at ends <;> omega
  rw [Deque.isEmpty, Bool.eq_iff_iff, beq_iff_eq, List.isEmpty_iff, same, List.length_eq_zero_iff]

/-- The elements do not reach around the end of the buffer. -/
theorem unwrapped (order : d.m_start ≤ d.m_end) : d.m_end = d.m_start + xs.length ∧
    d.m_end ≤ d.capacity ∧ d.m_buffer.Live d.m_start (d.m_end - d.m_start) := by
  have ends := holds.ends
  have behind : d.m_end = d.m_start + xs.length := by
    unfold Deque.position at ends
    rcases holds.shape with ⟨none, start, rfl⟩ | ⟨-, start, room⟩
    · rw [List.length_nil] at ends ⊢
      split at ends <;> omega
    · split at ends <;> omega
  have inside : d.m_end ≤ d.capacity := by
    rcases holds.shape with ⟨none, start, rfl⟩ | ⟨-, start, room⟩
    · rw [List.length_nil] at behind
      omega
    · unfold Deque.position at ends
      split at ends <;> omega
  refine ⟨behind, inside, ?_, fun i above below => ?_⟩
  · rw [Deque.capacity] at inside
    omega
  · have offset : d.offset i = i - d.m_start := if_pos above
    rw [holds.slots i (by omega), offset]
    exact ⟨_, List.getElem?_eq_getElem (by omega)⟩

/-- The elements reach around the end of the buffer. -/
theorem wrapped (order : ¬ d.m_start ≤ d.m_end) : d.m_end + d.capacity = d.m_start + xs.length ∧
    d.m_start < d.capacity ∧ xs.length < d.capacity ∧ 2 ≤ d.capacity ∧
    d.m_buffer.Live 0 d.m_end ∧ d.m_buffer.Live d.m_start (d.capacity - d.m_start) := by
  have ends := holds.ends
  rcases holds.shape with ⟨none, start, rfl⟩ | ⟨two, start, room⟩
  · omega
  have around : d.m_end + d.capacity = d.m_start + xs.length := by
    unfold Deque.position at ends
    split at ends <;> omega
  have shape : d.m_buffer.capacity = d.capacity := rfl
  refine ⟨around, start, room, two, ⟨by omega, fun i _ below => ?_⟩,
    ⟨by omega, fun i above below => ?_⟩⟩
  · have offset : d.offset i = i + d.capacity - d.m_start := if_neg (by omega)
    rw [holds.slots i (by omega), offset]
    exact ⟨_, List.getElem?_eq_getElem (by omega)⟩
  · have offset : d.offset i = i - d.m_start := if_pos above
    rw [holds.slots i (by omega), offset]
    exact ⟨_, List.getElem?_eq_getElem (by omega)⟩

/-- The slots before and behind the elements. -/
theorem free_slot (inside : i < d.capacity) (outside : xs.length ≤ d.offset i) :
    d.m_buffer.slot i = none := by
  rw [holds.slots i inside]
  exact List.getElem?_eq_none outside

end Holds

/-! ## Allocation -/

theorem distance_eq {first last : Nat} (order : first ≤ last) :
    distance first last = .ok (last - first) :=
  if_pos order

theorem allocateBuffer_eq (sound : A.Sound) (room : n * A.sizeOf < 2 ^ 32) : ∃ c,
    (allocateBuffer A n : Except Fault (Storage α)) = .ok (Storage.fresh c) ∧ n ≤ c ∧
    c = A.fastMallocGoodSize (n * A.sizeOf) / A.sizeOf ∧ c * A.sizeOf < 2 ^ 32 ∧
    A.fastMallocGoodSize (c * A.sizeOf) / A.sizeOf = c := by
  have positive := sound.positive
  have bounded := sound.bounded room
  have small : A.fastMallocGoodSize (n * A.sizeOf) / A.sizeOf < 2 ^ 32 :=
    Nat.lt_of_le_of_lt (Nat.div_le_self _ _) bounded
  have least : n ≤ A.fastMallocGoodSize (n * A.sizeOf) / A.sizeOf :=
    (Nat.le_div_iff_mul_le positive).mpr (sound.enough _)
  have most := Nat.div_mul_le_self (A.fastMallocGoodSize (n * A.sizeOf)) A.sizeOf
  refine ⟨_, ?_, least, rfl, Nat.lt_of_le_of_lt most bounded, ?_⟩
  · have fits : n ≤ (2 ^ 32 - 1) / A.sizeOf := (Nat.le_div_iff_mul_le positive).mpr (by omega)
    rw [allocateBuffer, if_neg (by omega)]
    simp only [Nat.mod_eq_of_lt small]
  · have above := sound.monotone (Nat.mul_le_mul_right A.sizeOf least)
    have below := sound.monotone most
    rw [sound.settled] at below
    rw [Nat.le_antisymm below above]

theorem allocateBuffer_exhausted (sound : A.Sound) (room : ¬ n * A.sizeOf < 2 ^ 32) :
    (allocateBuffer A n : Except Fault (Storage α)) = .error .exhausted :=
  if_pos ((Nat.div_lt_iff_lt_mul sound.positive).mpr (by omega))

/-- A buffer is copied with its capacity. -/
theorem vectorBuffer_eq (sound : A.Sound) (holds : Holds A d xs) :
    (vectorBuffer A d.capacity : Except Fault (Storage α)) = .ok (Storage.fresh d.capacity) := by
  by_cases none : d.capacity = 0
  · rw [vectorBuffer, if_neg (not_not_intro none), none]
  · obtain ⟨c, allocates, -, size, -⟩ := @allocateBuffer_eq α A d.capacity sound holds.allocated.1
    rw [vectorBuffer, if_pos none, allocates, size, holds.allocated.2 none]

/-! ## Whole deques -/

theorem holds_of_slots {d' : Deque α} (holds : Holds A d xs) (start : d'.m_start = d.m_start)
    (ends : d'.m_end = d.m_end) (capacity : d'.capacity = d.capacity)
    (slots : ∀ i < d.capacity, d'.m_buffer.slot i = d.m_buffer.slot i) : Holds A d' xs := by
  refine ⟨?_, ?_, fun i inside => ?_, ?_⟩
  · rw [capacity, start]
    exact holds.shape
  · rw [ends, Deque.position, capacity, start]
    exact holds.ends
  · rw [capacity] at inside
    rw [slots i inside, Deque.offset, capacity, start]
    exact holds.slots i inside
  · rw [capacity]
    exact holds.allocated

theorem copy_eq (sound : A.Sound) (holds : Holds A d xs) :
    ∃ d', Deque.copy A d = .ok d' ∧ Holds A d' xs := by
  rw [Deque.copy, vectorBuffer_eq sound holds]
  simp only [bind, Except.bind]
  have free (first n : Nat) (inside : first + n ≤ d.capacity) :
      (Storage.fresh d.capacity : Storage α).Free first n := ⟨inside, fun _ _ _ => rfl⟩
  by_cases order : d.m_start ≤ d.m_end
  · obtain ⟨behind, within, live⟩ := holds.unwrapped order
    obtain ⟨buffer, copies, capacity, slots⟩ :=
      Storage.copyRange_eq live (free _ _ (show _ ≤ d.m_buffer.capacity from live.1))
    simp only [if_pos order, distance_eq order, copies, pure, Except.pure]
    refine ⟨_, rfl, holds_of_slots holds rfl rfl capacity fun i inside => ?_⟩
    rw [slots]
    split
    · next within => exact congrArg _ (by omega)
    · refine (holds.free_slot inside ?_).symm
      unfold Deque.offset
      split <;> omega
  · obtain ⟨around, start, room, -, live, live'⟩ := holds.wrapped order
    obtain ⟨buffer, copies, capacity, slots⟩ :=
      Storage.copyRange_eq live (free _ _ (show _ ≤ d.m_buffer.capacity from live.1))
    have same : buffer.capacity = d.capacity := capacity
    obtain ⟨buffer', copies', capacity', slots'⟩ :=
      @Storage.copyRange_eq _ d.m_buffer buffer d.m_start d.m_start _ live'
        ⟨by omega, fun i above below => by rw [slots, if_neg (by omega)]; rfl⟩
    simp only [if_neg order, distance_eq (Nat.zero_le _), copies, same,
      distance_eq (Nat.le_of_lt start), copies', pure, Except.pure, Nat.sub_zero]
    refine ⟨_, rfl, holds_of_slots holds rfl rfl (capacity'.trans same) fun i inside => ?_⟩
    rw [slots']
    split
    · next within => exact congrArg _ (by omega)
    · next above =>
      rw [slots]
      split
      · next within => exact congrArg _ (by omega)
      · refine (holds.free_slot inside ?_).symm
        unfold Deque.offset
        split <;> omega

theorem destroyAll_eq (holds : Holds A d xs) : ∃ m, d.destroyAll = .ok m := by
  by_cases order : d.m_start ≤ d.m_end
  · obtain ⟨-, -, live⟩ := holds.unwrapped order
    obtain ⟨m, destroys, -⟩ := Storage.destructRange_eq live
    rw [Deque.destroyAll, if_pos order, distance_eq order]
    exact ⟨m, destroys⟩
  · obtain ⟨around, start, room, -, live, live'⟩ := holds.wrapped order
    obtain ⟨m, destroys, capacity, slots⟩ := Storage.destructRange_eq live
    have live'' : m.Live d.m_start (d.capacity - d.m_start) := by
      refine ⟨capacity ▸ live'.1, fun i above below => ?_⟩
      rw [slots, if_neg (by omega)]
      exact live'.2 i above below
    obtain ⟨m', destroys', -⟩ := Storage.destructRange_eq live''
    rw [Deque.destroyAll, if_neg order, distance_eq (Nat.zero_le _), distance_eq (Nat.le_of_lt start)]
    simp only [bind, Except.bind, Nat.sub_zero, destroys]
    exact ⟨m', destroys'⟩

theorem assign_eq {other : Deque α} {ys : List α} (sound : A.Sound) (holds : Holds A d xs)
    (holds' : Holds A other ys) : ∃ d', d.assign A other = .ok d' ∧ Holds A d' ys := by
  obtain ⟨d', copies, result⟩ := copy_eq sound holds'
  obtain ⟨m, destroys⟩ := destroyAll_eq holds
  refine ⟨d', ?_, result⟩
  simp only [Deque.assign, copies, Deque.swap, destroys, bind, Except.bind, pure, Except.pure]

theorem clear_eq (holds : Holds A d xs) : d.clear = .ok Deque.empty := by
  obtain ⟨m, destroys⟩ := destroyAll_eq holds
  simp only [Deque.clear, destroys, bind, Except.bind, pure, Except.pure]

/-! ## Growth -/

/-- The buffer that a full deque of `n` elements asks for may be allocated. -/
def Room (A : Allocator) (n : Nat) : Prop :=
  max 16 (n + 1 + (n + 1) / 4 + 1) * A.sizeOf < 2 ^ 32

/-- The capacity that is asked for where it has to grow. -/
def grown (d : Deque α) : Nat := max 16 (d.capacity + d.capacity / 4 + 1)

theorem holds_mk {c start stop : Nat} {buffer : Storage α} (capacity : buffer.capacity = c)
    (shape : 2 ≤ c ∧ start < c ∧ xs.length < c)
    (ends : stop =
      if start + xs.length < c then start + xs.length else start + xs.length - c)
    (slots : ∀ i < c, buffer.slot i = xs[if start ≤ i then i - start else i + c - start]?)
    (small : c * A.sizeOf < 2 ^ 32)
    (settled : A.fastMallocGoodSize (c * A.sizeOf) / A.sizeOf = c) :
    Holds A ⟨start, stop, buffer⟩ xs := by
  subst capacity
  exact ⟨.inr shape, ends, slots, small, fun _ => settled⟩

/-- A buffer of capacity `c` is what the allocator gives for `c` elements. -/
def Settled (A : Allocator) (c : Nat) : Prop :=
  c * A.sizeOf < 2 ^ 32 ∧ A.fastMallocGoodSize (c * A.sizeOf) / A.sizeOf = c

theorem expandCapacity_unwrapped {c : Nat} (holds : Holds A d xs) (order : d.m_start ≤ d.m_end)
    (allocates : allocateBuffer A (max 16 (d.capacity + d.capacity / 4 + 1)) =
      .ok (Storage.fresh c : Storage α))
    (larger : d.capacity < c ∧ 16 ≤ c) (settled : Settled A c) :
    ∃ d', d.expandCapacity A = .ok d' ∧ Holds A d' xs ∧ d'.capacity = c := by
  obtain ⟨behind, within, live⟩ := holds.unwrapped order
  obtain ⟨old, buffer, moves, -, capacity, -, slots⟩ :=
    @Storage.moveRange_eq _ _ (Storage.fresh c) _ d.m_start _ live
      ⟨show _ ≤ c by omega, fun _ _ _ => rfl⟩
  have same : buffer.capacity = c := capacity
  simp only [Deque.expandCapacity, allocates, if_pos order, distance_eq order, moves, bind,
    Except.bind, pure, Except.pure]
  refine ⟨_, rfl, holds_mk same (by omega) ?_ (fun i inside => ?_) settled.1 settled.2, same⟩
  · rw [if_pos (by omega), behind]
  · rw [slots]
    split
    · next between =>
      rw [if_pos between.1, holds.slots _ (by omega), Deque.offset, if_pos (by omega)]
      exact congrArg (xs[·]?) (by omega)
    · refine (List.getElem?_eq_none ?_).symm
      split <;> omega

theorem expandCapacity_wrapped {c : Nat} (holds : Holds A d xs) (order : ¬ d.m_start ≤ d.m_end)
    (allocates : allocateBuffer A (max 16 (d.capacity + d.capacity / 4 + 1)) =
      .ok (Storage.fresh c : Storage α))
    (larger : d.capacity < c ∧ 16 ≤ c) (settled : Settled A c) :
    ∃ d', d.expandCapacity A = .ok d' ∧ Holds A d' xs ∧ d'.capacity = c := by
  obtain ⟨around, start, roomy, two, live, live'⟩ := holds.wrapped order
  have whole : d.m_buffer.capacity = d.capacity := rfl
  obtain ⟨old, buffer, moves, capacity', capacity, slots', slots⟩ :=
    @Storage.moveRange_eq _ _ (Storage.fresh c) _ 0 _ live
      ⟨show _ ≤ c by omega, fun _ _ _ => rfl⟩
  have same : buffer.capacity = c := capacity
  have live'' : old.Live d.m_start (d.capacity - d.m_start) := by
    refine ⟨by omega, fun i above below => ?_⟩
    rw [slots', if_neg (by omega)]
    exact live'.2 i above below
  obtain ⟨old', buffer', moves', -, capacity'', -, slots''⟩ :=
    @Storage.moveRange_eq _ old buffer d.m_start (c - (d.capacity - d.m_start)) _ live''
      ⟨by omega, fun i above below => by rw [slots, if_neg (by omega)]; rfl⟩
  have same' : buffer'.capacity = c := capacity''.trans same
  simp only [Deque.expandCapacity, allocates, if_neg order, distance_eq (Nat.zero_le _),
    distance_eq (Nat.le_of_lt start), moves, same, moves', bind, Except.bind, pure, Except.pure,
    Nat.sub_zero]
  refine ⟨_, rfl, holds_mk same' (by omega) ?_ (fun i inside => ?_) settled.1 settled.2, same'⟩
  · rw [if_neg (by omega)]
    omega
  · rw [slots'']
    split
    · next between =>
      rw [if_pos between.1, slots', if_neg (by omega), holds.slots _ (by omega), Deque.offset,
        if_pos (by omega)]
      exact congrArg (xs[·]?) (by omega)
    · rw [slots]
      split
      · next between =>
        rw [if_neg (by omega), holds.slots _ (by omega), Deque.offset, if_neg (by omega)]
        exact congrArg (xs[·]?) (by omega)
      · refine (List.getElem?_eq_none ?_).symm
        split <;> omega

/-- What growing does. -/
theorem expandCapacity_eq (sound : A.Sound) (holds : Holds A d xs)
    (room : max 16 (d.capacity + d.capacity / 4 + 1) * A.sizeOf < 2 ^ 32) :
    ∃ d', d.expandCapacity A = .ok d' ∧ Holds A d' xs ∧ d.capacity < d'.capacity ∧
      16 ≤ d'.capacity := by
  obtain ⟨c, allocates, most, -, settled⟩ := @allocateBuffer_eq α A _ sound room
  have larger : d.capacity < c ∧ 16 ≤ c := by omega
  have expands : ∃ d', d.expandCapacity A = .ok d' ∧ Holds A d' xs ∧ d'.capacity = c := by
    by_cases order : d.m_start ≤ d.m_end
    · exact expandCapacity_unwrapped holds order allocates larger settled
    · exact expandCapacity_wrapped holds order allocates larger settled
  obtain ⟨d', expands, holds', capacity⟩ := expands
  exact ⟨d', expands, holds', by omega⟩

theorem expandCapacityIfNeeded_cases (holds : Holds A d xs) :
    xs.length + 1 < d.capacity ∧ d.expandCapacityIfNeeded A = .ok d ∨
      (xs.length + 1 = d.capacity ∨ d.capacity = 0 ∧ xs = []) ∧
        d.expandCapacityIfNeeded A = d.expandCapacity A := by
  have ends := holds.ends
  unfold Deque.position at ends
  unfold Deque.expandCapacityIfNeeded
  rcases holds.shape with ⟨none, start, rfl⟩ | ⟨two, start, room⟩
  · rw [List.length_nil] at ends
    have stop : d.m_end = 0 := by
      split at ends <;> omega
    refine .inr ⟨.inr ⟨none, rfl⟩, ?_⟩
    rw [if_neg (by omega), if_neg (by omega), if_neg (by omega)]
  · by_cases front : d.m_start = 0
    · rw [if_pos (by omega)] at ends
      rw [if_neg (not_not_intro front)]
      by_cases some : d.m_end = 0
      · rw [if_neg (not_not_intro some), if_pos (by omega)]
        exact .inl ⟨by omega, rfl⟩
      · rw [if_pos some]
        by_cases full : d.m_end = d.capacity - 1
        · rw [if_neg (not_not_intro full)]
          exact .inr ⟨.inl (by omega), rfl⟩
        · rw [if_pos full]
          exact .inl ⟨by omega, rfl⟩
    · rw [if_pos front]
      by_cases full : d.m_end + 1 = d.m_start
      · rw [if_neg (not_not_intro full)]
        refine .inr ⟨.inl ?_, rfl⟩
        split at ends <;> omega
      · rw [if_pos full]
        refine .inl ⟨?_, rfl⟩
        split at ends <;> omega

/-- Afterwards there is an empty slot besides the one that always stays empty. -/
theorem expandCapacityIfNeeded_eq (sound : A.Sound) (holds : Holds A d xs) :
    (∃ d', d.expandCapacityIfNeeded A = .ok d' ∧ Holds A d' xs ∧ xs.length + 1 < d'.capacity) ∨
      d.expandCapacityIfNeeded A = .error .exhausted ∧ ¬ Room A xs.length := by
  rcases expandCapacityIfNeeded_cases holds with ⟨roomy, keeps⟩ | ⟨full, expands⟩
  · exact .inl ⟨d, keeps, holds, roomy⟩
  have asked : max 16 (xs.length + 1 + (xs.length + 1) / 4 + 1) =
      max 16 (d.capacity + d.capacity / 4 + 1) := by
    rcases full with full | ⟨none, rfl⟩
    · rw [full]
    · rw [none, List.length_nil]
      decide
  rw [expands, Room, asked]
  by_cases room : max 16 (d.capacity + d.capacity / 4 + 1) * A.sizeOf < 2 ^ 32
  · obtain ⟨d', expands', holds', larger⟩ := expandCapacity_eq sound holds room
    refine .inl ⟨d', expands', holds', ?_⟩
    rcases full with full | ⟨none, rfl⟩
    · omega
    · rw [List.length_nil]
      omega
  · refine .inr ⟨?_, room⟩
    rw [Deque.expandCapacity, allocateBuffer_exhausted sound room]
    rfl

/-! ## Single elements -/

theorem getElem?_append_one (other : k ≠ xs.length) : (xs ++ [v])[k]? = xs[k]? := by
  rcases Nat.lt_or_gt_of_ne other with below | above
  · exact List.getElem?_append_left below
  · have short : (xs ++ [v]).length ≤ k := by
      rw [List.length_append, List.length_singleton]
      omega
    rw [List.getElem?_eq_none short, List.getElem?_eq_none (by omega)]

theorem append_eq (sound : A.Sound) (holds : Holds A d xs) :
    (∃ d', d.append A v = .ok d' ∧ Holds A d' (xs ++ [v])) ∨
      d.append A v = .error .exhausted ∧ ¬ Room A xs.length := by
  rcases expandCapacityIfNeeded_eq sound holds with ⟨d', expands, holds', room⟩ | ⟨fails, full⟩
  · have ends := holds'.ends
    unfold Deque.position at ends
    obtain ⟨two, start, -⟩ := holds'.shape.resolve_left (by omega)
    have inside : d'.m_end < d'.capacity := by
      split at ends <;> omega
    have empty := holds'.free_slot inside (by
      unfold Deque.offset
      split at ends <;> split <;> omega)
    simp only [Deque.append, expands, Storage.construct_eq inside empty, bind, Except.bind, pure,
      Except.pure]
    refine .inl ⟨_, rfl, @holds_mk _ _ (xs ++ [v]) d'.capacity _ _ _ rfl ?_ ?_ (fun i below => ?_)
      holds'.allocated.1 (holds'.allocated.2 (by omega))⟩
    · rw [List.length_append, List.length_singleton]
      omega
    · rw [List.length_append, List.length_singleton, Deque.next]
      split at ends <;> split <;> split <;> omega
    · by_cases here : i = d'.m_end
      · rw [here, Storage.slot_set_self]
        refine (List.getElem?_concat_length ..).symm.trans (congrArg ((xs ++ [v])[·]?) ?_)
        split at ends <;> split <;> omega
      · rw [Storage.slot_set_ne here, holds'.slots i below]
        refine (getElem?_append_one ?_).symm
        unfold Deque.offset
        split at ends <;> split <;> omega
  · refine .inr ⟨?_, full⟩
    rw [Deque.append, fails]
    rfl

theorem prepend_eq (sound : A.Sound) (holds : Holds A d xs) :
    (∃ d', d.prepend A v = .ok d' ∧ Holds A d' (v :: xs)) ∨
      d.prepend A v = .error .exhausted ∧ ¬ Room A xs.length := by
  rcases expandCapacityIfNeeded_eq sound holds with ⟨d', expands, holds', room⟩ | ⟨fails, full⟩
  · have ends := holds'.ends
    unfold Deque.position at ends
    obtain ⟨two, start, -⟩ := holds'.shape.resolve_left (by omega)
    have before : d'.previous d'.m_start =
        if d'.m_start = 0 then d'.capacity - 1 else d'.m_start - 1 := rfl
    have inside : d'.previous d'.m_start < d'.capacity := by
      split at before <;> omega
    have empty := holds'.free_slot inside (by
      unfold Deque.offset
      split at before <;> split <;> omega)
    simp only [Deque.prepend, expands, Storage.construct_eq inside empty, bind, Except.bind, pure,
      Except.pure]
    refine .inl ⟨_, rfl, @holds_mk _ _ (v :: xs) d'.capacity _ _ _ rfl ?_ ?_ (fun i below => ?_)
      holds'.allocated.1 (holds'.allocated.2 (by omega))⟩
    · rw [List.length_cons]
      omega
    · rw [List.length_cons]
      split at ends <;> split at before <;> split <;> omega
    · by_cases here : i = d'.previous d'.m_start
      · rw [here, Storage.slot_set_self, if_pos (Nat.le_refl _), Nat.sub_self]
        rfl
      · have next : (if d'.previous d'.m_start ≤ i then i - d'.previous d'.m_start
            else i + d'.capacity - d'.previous d'.m_start) = d'.offset i + 1 := by
          unfold Deque.offset
          split at before <;> split <;> split <;> omega
        rw [Storage.slot_set_ne here, holds'.slots i below, next, List.getElem?_cons_succ]
  · refine .inr ⟨?_, full⟩
    rw [Deque.prepend, fails]
    rfl

theorem first_eq (holds : Holds A d (v :: xs)) : d.first = .ok v := by
  obtain ⟨inside, object⟩ := holds.slot_position (k := 0) (Nat.succ_pos _)
  have shape := holds.nonempty_capacity (k := 0) (Nat.succ_pos _)
  have front : d.position 0 = d.m_start := if_pos (by omega)
  rw [front] at inside object
  exact Storage.load_eq inside object

theorem removeFirst_eq (holds : Holds A d (v :: xs)) :
    ∃ d', d.removeFirst = .ok d' ∧ Holds A d' xs := by
  obtain ⟨inside, object⟩ := holds.slot_position (k := 0) (Nat.succ_pos _)
  obtain ⟨two, start, room⟩ := holds.nonempty_capacity (k := 0) (Nat.succ_pos _)
  have front : d.position 0 = d.m_start := if_pos (by omega)
  rw [front] at inside object
  have ends := holds.ends
  unfold Deque.position at ends
  rw [List.length_cons] at ends room
  simp only [Deque.removeFirst, Storage.destroy_eq inside object, bind, Except.bind, pure,
    Except.pure]
  have behind : d.next d.m_start =
      if d.m_start = d.capacity - 1 then 0 else d.m_start + 1 := rfl
  refine ⟨_, rfl, @holds_mk _ _ xs d.capacity _ _ _ rfl ?_ ?_ (fun i below => ?_)
    holds.allocated.1 (holds.allocated.2 (by omega))⟩
  · split at behind <;> omega
  · split at ends <;> split at behind <;> split <;> omega
  · by_cases here : i = d.m_start
    · rw [here, Storage.slot_set_self]
      refine (List.getElem?_eq_none ?_).symm
      split at behind <;> split <;> omega
    · have next : (if d.next d.m_start ≤ i then i - d.next d.m_start
          else i + d.capacity - d.next d.m_start) + 1 = d.offset i := by
        unfold Deque.offset
        split at behind <;> split <;> split <;> omega
      rw [Storage.slot_set_ne here, holds.slots i below, ← next, List.getElem?_cons_succ]

/-- The slot before `m_end`. -/
theorem position_last (holds : Holds A d (xs ++ [v])) :
    d.position xs.length = d.previous d.m_end := by
  have room := holds.nonempty_capacity (k := 0) (by simp)
  have ends := holds.ends
  rw [List.length_append, List.length_singleton] at ends room
  unfold Deque.position at ends ⊢
  unfold Deque.previous
  split at ends <;> split <;> split <;> omega

theorem slot_last (holds : Holds A d (xs ++ [v])) : d.previous d.m_end < d.capacity ∧
    d.m_buffer.slot (d.previous d.m_end) = some v := by
  obtain ⟨inside, object⟩ := holds.slot_position (k := xs.length) (by simp)
  rw [List.getElem_concat_length rfl] at object
  rw [← position_last holds]
  exact ⟨inside, object⟩

theorem last_eq (holds : Holds A d (xs ++ [v])) : d.last = .ok v :=
  Storage.load_eq (slot_last holds).1 (slot_last holds).2

theorem removeLast_eq (holds : Holds A d (xs ++ [v])) :
    ∃ d', d.removeLast = .ok d' ∧ Holds A d' xs := by
  obtain ⟨inside, object⟩ := slot_last holds
  obtain ⟨two, start, room⟩ := holds.nonempty_capacity (k := 0) (by simp)
  have place := position_last holds
  unfold Deque.position at place
  rw [List.length_append, List.length_singleton] at room
  simp only [Deque.removeLast, Storage.destroy_eq inside object, bind, Except.bind, pure,
    Except.pure]
  refine ⟨_, rfl, @holds_mk _ _ xs d.capacity _ _ _ rfl ?_ place.symm (fun i below => ?_)
    holds.allocated.1 (holds.allocated.2 (by omega))⟩
  · omega
  · by_cases here : i = d.previous d.m_end
    · rw [here, Storage.slot_set_self]
      refine (List.getElem?_eq_none ?_).symm
      split at place <;> split <;> omega
    · rw [Storage.slot_set_ne here, holds.slots i below]
      refine getElem?_append_one ?_
      unfold Deque.offset
      split at place <;> split <;> omega

/-! ## Removal in the middle -/

theorem advance_eq (holds : Holds A d xs) (steps : i + k ≤ xs.length) :
    d.advance (d.position i) k = d.position (i + k) := by
  induction k generalizing i with
  | zero => rfl
  | succ k ih =>
    obtain ⟨two, start, room⟩ := holds.nonempty_capacity (k := i) (by omega)
    have next : d.next (d.position i) = d.position (i + 1) := by
      unfold Deque.next Deque.position
      split <;> split <;> split <;> omega
    rw [Deque.advance, next, ih (by omega)]
    exact congrArg d.position (by omega)

theorem position_zero (holds : Holds A d xs) : d.position 0 = d.m_start := by
  unfold Deque.position
  rcases holds.shape with ⟨none, start, -⟩ | ⟨-, start, -⟩
  · rw [if_neg (by omega)]
    omega
  · exact if_pos start

/-- An element in the segment from `m_start` on: those before it are moved up. -/
theorem removeAt_upper (holds : Holds A d xs) (inside : k < xs.length)
    (segment : d.m_start ≤ d.position k) :
    ∃ d', d.removeAt (d.position k) = .ok d' ∧ Holds A d' (xs.eraseIdx k) := by
  obtain ⟨two, start, room⟩ := holds.nonempty_capacity inside
  obtain ⟨below, object⟩ := holds.slot_position inside
  have ends := holds.ends
  have place : d.position k = d.m_start + k := by
    unfold Deque.position at segment ⊢
    split at segment <;> split <;> omega
  unfold Deque.position at ends
  rw [place] at below object ⊢
  have whole : d.m_buffer.capacity = d.capacity := rfl
  have live : (d.m_buffer.set (d.m_start + k) none).Live d.m_start k := by
    refine Storage.Live.set ⟨by omega, fun i above below' => ?_⟩ (.inr (Nat.le_refl _))
    have offset : d.offset i = i - d.m_start := if_pos above
    rw [holds.slots i (by omega), offset]
    exact ⟨_, List.getElem?_eq_getElem (by omega)⟩
  obtain ⟨buffer, moves, capacity, slots⟩ :=
    Storage.moveDescending_eq live Storage.slot_set_self (by rw [Storage.set_capacity]; omega)
  have overlapping : Deque.moveOverlapping (d.m_buffer.set (d.m_start + k) none) d.m_start
      (d.m_start + k) (d.m_start + 1) = .ok buffer := by
    rw [Deque.moveOverlapping, distance_eq (by omega)]
    simp only [bind, Except.bind]
    rw [if_neg (by omega), ← moves]
    congr 1 <;> omega
  obtain ⟨next, after⟩ : ∃ next, next = (d.m_start + 1) % d.capacity := ⟨_, rfl⟩
  have after' : next = if d.m_start + 1 < d.capacity then d.m_start + 1 else 0 := by
    rw [after]
    split
    · next fits => exact Nat.mod_eq_of_lt fits
    · rw [show d.m_start + 1 = d.capacity by omega, Nat.mod_self]
  have shorter := List.length_eraseIdx_of_lt inside
  refine ⟨⟨next, d.m_end, buffer⟩, ?_, @holds_mk _ _ _ d.capacity _ _ _ capacity ?_ ?_
    (fun i below' => ?_) holds.allocated.1 (holds.allocated.2 (by omega))⟩
  · rw [Deque.removeAt, if_neg (by split at ends <;> omega)]
    simp only [Storage.destroy_eq below object, bind, Except.bind, pure, Except.pure,
      if_pos (show d.m_start ≤ d.m_start + k by omega), overlapping, after]
  · split at after' <;> omega
  · split at ends <;> split at after' <;> split <;> omega
  · rw [slots, List.getElem?_eraseIdx]
    by_cases between : d.m_start < i ∧ i ≤ d.m_start + k
    · have offset : (if next ≤ i then i - next else i + d.capacity - next) = i - 1 - d.m_start := by
        split at after' <;> split <;> omega
      have offset' : d.offset (i - 1) = i - 1 - d.m_start := if_pos (by omega)
      rw [if_pos between, offset, if_pos (by omega), Storage.slot_set_ne (by omega),
        holds.slots _ (by omega), offset']
    · rw [if_neg between]
      by_cases first : i = d.m_start
      · rw [if_pos first, if_neg (by split at after' <;> split <;> omega)]
        refine (List.getElem?_eq_none ?_).symm
        split at after' <;> split <;> omega
      · have offset : (if next ≤ i then i - next else i + d.capacity - next) + 1 = d.offset i := by
          unfold Deque.offset
          split at after' <;> split <;> split <;> omega
        have behind : k < d.offset i := by
          unfold Deque.offset
          split <;> omega
        rw [if_neg first, if_neg (by omega), offset, Storage.slot_set_ne (by omega),
          holds.slots i below']

/-- An element in the segment before `m_end`: those behind it are moved down. -/
theorem removeAt_lower (holds : Holds A d xs) (inside : k < xs.length)
    (segment : ¬ d.m_start ≤ d.position k) :
    ∃ d', d.removeAt (d.position k) = .ok d' ∧ Holds A d' (xs.eraseIdx k) := by
  obtain ⟨two, start, room⟩ := holds.nonempty_capacity inside
  obtain ⟨below, object⟩ := holds.slot_position inside
  have ends := holds.ends
  obtain ⟨p, place⟩ : ∃ p, p = d.position k := ⟨_, rfl⟩
  have place' := place
  unfold Deque.position at ends place'
  rw [← place] at below object segment ⊢
  have around : p + d.capacity = d.m_start + k ∧ d.m_end + d.capacity = d.m_start + xs.length := by
    split at place' <;> split at ends <;> omega
  have whole : d.m_buffer.capacity = d.capacity := rfl
  have live : (d.m_buffer.set p none).Live (p + 1) (d.m_end - (p + 1)) := by
    refine Storage.Live.set ⟨by omega, fun i above below' => ?_⟩ (.inl (by omega))
    have offset : d.offset i = i + d.capacity - d.m_start := if_neg (by omega)
    rw [holds.slots i (by omega), offset]
    exact ⟨_, List.getElem?_eq_getElem (by omega)⟩
  obtain ⟨buffer, moves, capacity, slots⟩ := Storage.moveAscending_eq live Storage.slot_set_self
  have overlapping : Deque.moveOverlapping (d.m_buffer.set p none) (p + 1) d.m_end p =
      .ok buffer := by
    rw [Deque.moveOverlapping, distance_eq (by omega)]
    simp only [bind, Except.bind]
    rw [if_pos (by omega), ← moves]
  have before : (d.m_end + d.capacity - 1) % d.capacity = d.m_end - 1 := by
    rw [show d.m_end + d.capacity - 1 = d.m_end - 1 + d.capacity by omega, Nat.add_mod_right,
      Nat.mod_eq_of_lt (by omega)]
  have shorter := List.length_eraseIdx_of_lt inside
  refine ⟨⟨d.m_start, d.m_end - 1, buffer⟩, ?_, @holds_mk _ _ _ d.capacity _ _ _ capacity ?_ ?_
    (fun i below' => ?_) holds.allocated.1 (holds.allocated.2 (by omega))⟩
  · rw [Deque.removeAt, if_neg (by omega)]
    simp only [Storage.destroy_eq below object, bind, Except.bind, pure, Except.pure,
      if_neg segment, overlapping, before]
  · omega
  · split <;> omega
  · rw [slots, List.getElem?_eraseIdx]
    by_cases between : p ≤ i ∧ i < p + (d.m_end - (p + 1))
    · have offset : d.offset (i + 1) = i + 1 + d.capacity - d.m_start := if_neg (by omega)
      rw [if_pos between, if_neg (by omega : ¬ d.m_start ≤ i), if_neg (by omega),
        Storage.slot_set_ne (by omega), holds.slots _ (by omega), offset]
      exact congrArg (xs[·]?) (by omega)
    · rw [if_neg between]
      by_cases last : i = p + (d.m_end - (p + 1))
      · rw [if_pos last, if_neg (by omega : ¬ d.m_start ≤ i), if_neg (by omega)]
        exact (List.getElem?_eq_none (by omega)).symm
      · rw [if_neg last, Storage.slot_set_ne (by omega), holds.slots i below', Deque.offset]
        by_cases small : (if d.m_start ≤ i then i - d.m_start
            else i + d.capacity - d.m_start) < k
        · rw [if_pos small]
        · rw [if_neg small, List.getElem?_eq_none (by split at small <;> split <;> omega),
            List.getElem?_eq_none (by split at small <;> split <;> omega)]

/-- The element `k` steps behind `begin()` is removed, and `end()` is not one. -/
theorem remove_eq (holds : Holds A d xs) (steps : k ≤ xs.length) :
    ∃ d', d.remove k = .ok d' ∧ Holds A d' (xs.eraseIdx k) := by
  have place := @advance_eq _ _ _ _ 0 k holds (by omega)
  rw [position_zero holds, Nat.zero_add] at place
  rw [Deque.remove, place]
  rcases Nat.lt_or_eq_of_le steps with inside | rfl
  · by_cases segment : d.m_start ≤ d.position k
    · exact removeAt_upper holds inside segment
    · exact removeAt_lower holds inside segment
  · rw [Deque.removeAt, ← holds.ends, if_pos rfl, List.eraseIdx_of_length_le (Nat.le_refl _)]
    exact ⟨d, rfl, holds⟩

/-! ## Iteration -/

theorem forward_eq (holds : Holds A d xs) (fuel : xs.length - k ≤ n) (inside : k ≤ xs.length) :
    d.forward (d.position k) n = .ok (xs.drop k) := by
  induction n generalizing k with
  | zero =>
    obtain rfl : k = xs.length := by omega
    rw [Deque.forward, if_pos holds.ends.symm, List.drop_length]
  | succ n ih =>
    rcases Nat.lt_or_eq_of_le inside with some | rfl
    · obtain ⟨below, object⟩ := holds.slot_position some
      obtain ⟨two, start, room⟩ := holds.nonempty_capacity some
      have ends := holds.ends
      have next : d.next (d.position k) = d.position (k + 1) := by
        unfold Deque.next Deque.position
        split <;> split <;> split <;> omega
      have other : d.position k ≠ d.m_end := by
        rw [ends]
        unfold Deque.position
        split <;> split <;> omega
      rw [Deque.forward, if_neg other, Storage.load_eq below object, next]
      simp only [bind, Except.bind, ih (by omega) some, pure, Except.pure]
      rw [List.drop_eq_getElem_cons some]
    · rw [Deque.forward, if_pos holds.ends.symm, List.drop_length]

theorem backward_eq (holds : Holds A d xs) (fuel : k ≤ n) (inside : k ≤ xs.length) :
    d.backward (d.position k) n = .ok (xs.take k).reverse := by
  induction n generalizing k with
  | zero =>
    obtain rfl : k = 0 := by omega
    rw [Deque.backward, if_pos (position_zero holds)]
    rfl
  | succ n ih =>
    rcases k with _ | k
    · rw [Deque.backward, if_pos (position_zero holds)]
      rfl
    · obtain ⟨below, object⟩ := holds.slot_position (k := k) (by omega)
      obtain ⟨two, start, room⟩ := holds.nonempty_capacity (k := k) (by omega)
      have previous : d.previous (d.position (k + 1)) = d.position k := by
        unfold Deque.previous Deque.position
        split <;> split <;> split <;> omega
      have other : d.position (k + 1) ≠ d.m_start := by
        unfold Deque.position
        split <;> omega
      rw [Deque.backward, if_neg other, previous, Storage.load_eq below object]
      simp only [bind, Except.bind, @ih k (by omega) (by omega), pure, Except.pure]
      rw [List.take_succ_eq_append_getElem (by omega), List.reverse_append]
      rfl

end NetRider.Wtf.Deques
