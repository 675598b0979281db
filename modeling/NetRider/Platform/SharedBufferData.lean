import Mathlib
import NetRider.Platform.SharedBuffer

/-!
# The bytes of a buffer

A buffer denotes the bytes of its vector and those in its segments. Each operation is a lemma about
the bytes that a buffer denotes.
-/

namespace NetRider.Platform.SharedBuffers

open NetRider.Lib.Segments

variable {b other : SharedBuffer} {bytes bytes' : List UInt8} {segments before : List (List Cell)}
  {last data filled : List Cell} {position fuel : Nat}

/-- The vector holds the first bytes, and the segments hold the rest. Segments are used for more
than 4096 bytes only. -/
structure Denotes (b : SharedBuffer) (bytes : List UInt8) : Prop where
  size : b.m_size = bytes.length
  small : bytes.length < 2 ^ 31
  flat : b.m_buffer.length ≤ bytes.length
  buffer : b.m_buffer = cells (bytes.take b.m_buffer.length)
  segments : Fills segmentSize b.m_segments (cells (bytes.drop b.m_buffer.length))
  large : b.m_segments ≠ [] → segmentSize < bytes.length

theorem length_cells (bytes : List UInt8) : (cells bytes).length = bytes.length :=
  List.length_map _

theorem cells_append (bytes bytes' : List UInt8) :
    cells (bytes ++ bytes') = cells bytes ++ cells bytes' :=
  List.map_append ..

theorem cells_take (n : Nat) (bytes : List UInt8) :
    cells (bytes.take n) = (cells bytes).take n :=
  List.map_take ..

theorem cells_drop (n : Nat) (bytes : List UInt8) :
    cells (bytes.drop n) = (cells bytes).drop n :=
  List.map_drop ..

theorem minus_eq {a c : Nat} (less : c ≤ a) (small : a < 2 ^ 32) : minus a c = a - c := by
  rw [minus]
  omega

theorem length_allocateSegment : allocateSegment.length = segmentSize := List.length_replicate

theorem denotes_nil : Denotes .new [] where
  size := rfl
  small := by decide
  flat := Nat.le_refl _
  buffer := rfl
  segments := .empty rfl rfl
  large other := absurd rfl other

/-- All bytes are in the vector. -/
theorem denotes_flat (size : b.m_size = bytes.length) (small : bytes.length < 2 ^ 31)
    (buffer : b.m_buffer = cells bytes) (segments : b.m_segments = []) : Denotes b bytes where
  size := size
  small := small
  flat := Nat.le_of_eq (by rw [buffer, length_cells])
  buffer := by rw [buffer, length_cells, List.take_length]
  segments := .empty segments (by rw [buffer, length_cells, List.drop_length]; rfl)
  large other := absurd segments other

namespace Denotes

/-- Where the segments end. -/
theorem rest (denotes : Denotes b bytes) :
    b.m_segments = [] ∧ b.m_buffer = cells bytes ∨
      ∃ before last position, b.m_segments = before ++ [last] ∧ 0 < position ∧
        Open segmentSize before last position (cells (bytes.drop b.m_buffer.length)) := by
  cases denotes.segments with
  | empty none nothing =>
    refine .inl ⟨none, ?_⟩
    have all : bytes.length ≤ b.m_buffer.length := by
      have length := congrArg List.length nothing
      rw [length_cells, List.length_drop, List.length_nil] at length
      omega
    have buffer := denotes.buffer
    rwa [List.take_of_length_le all] at buffer
  | some before last position eq positive isOpen =>
    exact .inr ⟨before, last, position, eq, positive, isOpen⟩

end Denotes

/-! ## Appending -/

theorem writeLast_eq (isOpen : Open segmentSize before last position filled)
    (fits : position + data.length ≤ segmentSize) :
    SharedBuffer.writeLast (before ++ [last]) position data =
      .ok (before ++ [overwrite last position data]) := by
  rw [SharedBuffer.writeLast, List.getLast?_concat, List.dropLast_concat]
  exact if_pos (by rw [isOpen.length]; exact fits)

/-- The loop fills the last segment and as many new ones as it needs. -/
theorem copyLoop_eq (isOpen : Open segmentSize before last position filled)
    (inside : position < segmentSize) (nonempty : data ≠ []) (enough : data.length ≤ fuel) :
    ∃ before' last' position', SharedBuffer.copyLoop fuel (before ++ [last]) position data =
        .ok (before' ++ [last']) ∧ 0 < position' ∧
      Open segmentSize before' last' position' (filled ++ data) := by
  induction fuel generalizing before last position filled data with
  | zero => exact absurd (List.eq_nil_of_length_eq_zero (Nat.le_zero.mp enough)) nonempty
  | succ fuel ih =>
    have some_data := List.length_pos_of_ne_nil nonempty
    have length : (data.take (min data.length (segmentSize - position))).length =
        min data.length (segmentSize - position) := by
      rw [List.length_take]
      omega
    have fits : position + (data.take (min data.length (segmentSize - position))).length ≤
        segmentSize := by omega
    have written := isOpen.write fits
    rw [SharedBuffer.copyLoop]
    rw [writeLast_eq isOpen fits]
    simp only
    by_cases all : data.length = min data.length (segmentSize - position)
    · rw [if_pos all]
      rw [← all, List.take_length] at written ⊢
      exact ⟨_, _, _, rfl, by omega, written⟩
    · rw [if_neg all]
      have full : position + (data.take (min data.length (segmentSize - position))).length =
          segmentSize := by omega
      rw [full] at written
      have more : data.drop (min data.length (segmentSize - position)) ≠ [] :=
        List.ne_nil_of_length_pos (by rw [List.length_drop]; omega)
      obtain ⟨before', last', position', loops, positive, isOpen'⟩ :=
        ih (written.next length_allocateSegment) (by decide) more
          (by rw [List.length_drop]; omega)
      refine ⟨before', last', position', loops, positive, ?_⟩
      rw [List.append_assoc, List.take_append_drop] at isOpen'
      exact isOpen'

/-- **Appended bytes are behind the others.** -/
theorem Denotes.append (denotes : Denotes b bytes)
    (small : bytes.length + bytes'.length < 2 ^ 31) :
    ∃ b', b.append (cells bytes') = .ok b' ∧ Denotes b' (bytes ++ bytes') := by
  have flat := denotes.flat
  rw [SharedBuffer.append, length_cells]
  by_cases none : bytes'.length = 0
  · obtain rfl := List.eq_nil_of_length_eq_zero none
    rw [List.append_nil]
    exact ⟨b, if_pos none, denotes⟩
  rw [if_neg none]
  have size : (b.m_size + bytes'.length) % 2 ^ 32 = (bytes ++ bytes').length := by
    rw [List.length_append, denotes.size, Nat.mod_eq_of_lt (by omega)]
  simp only [size]
  by_cases few : (bytes ++ bytes').length ≤ segmentSize
  · rw [if_pos few]
    rcases denotes.rest with ⟨segments, buffer⟩ | ⟨before, last, position, eq, -⟩
    · refine ⟨_, rfl, denotes_flat rfl (by rw [List.length_append]; exact small) ?_ segments⟩
      simp only
      rw [buffer, cells_append]
    · have large := denotes.large (by rw [eq]; exact List.concat_ne_nil _ _)
      rw [List.length_append] at few
      omega
  · rw [if_neg few]
    have rest_length : (cells (bytes.drop b.m_buffer.length)).length =
        bytes.length - b.m_buffer.length := by rw [length_cells, List.length_drop]
    have minus_size : minus b.m_size b.m_buffer.length = bytes.length - b.m_buffer.length := by
      rw [denotes.size, minus_eq flat (by have := denotes.small; omega)]
    have nonempty : cells bytes' ≠ [] := by
      apply List.ne_nil_of_length_pos
      rw [length_cells]
      omega
    -- The segments that the loop starts with.
    have start : ∃ before last, (if offsetInSegment (minus b.m_size b.m_buffer.length) = 0 then
          b.m_segments ++ [allocateSegment] else b.m_segments) = before ++ [last] ∧
        Open segmentSize before last (offsetInSegment (minus b.m_size b.m_buffer.length))
          (cells (bytes.drop b.m_buffer.length)) := by
      rw [minus_size]
      rcases denotes.rest with ⟨segments, buffer⟩ | ⟨before, last, position, eq, positive, isOpen⟩
      · have zero : bytes.length - b.m_buffer.length = 0 := by
          rw [buffer, length_cells, Nat.sub_self]
        rw [zero, show offsetInSegment 0 = 0 from rfl, if_pos rfl, segments]
        refine ⟨[], allocateSegment, rfl, ?_, length_allocateSegment, Nat.zero_le _, ?_⟩
        · intro s among
          cases among
        · rw [List.eq_nil_of_length_eq_zero (rest_length.trans zero)]
          rfl
      · have total := isOpen.length_data
        rw [rest_length] at total
        have inside := isOpen.inside
        rw [total, offsetInSegment, Nat.add_comm, Nat.add_mul_mod_self_right]
        rcases Nat.lt_or_eq_of_le inside with less | rfl
        · rw [Nat.mod_eq_of_lt less, if_neg (by omega), eq]
          exact ⟨before, last, rfl, isOpen⟩
        · rw [Nat.mod_self, if_pos rfl, eq]
          exact ⟨before ++ [last], allocateSegment, rfl, isOpen.next length_allocateSegment⟩
    obtain ⟨before, last, segments, isOpen⟩ := start
    obtain ⟨before', last', position', loops, positive, isOpen'⟩ :=
      copyLoop_eq isOpen (Nat.mod_lt _ (by decide)) nonempty
        (Nat.le_of_eq (length_cells bytes'))
    rw [segments, loops]
    refine ⟨_, rfl, ?_, ?_, ?_, ?_, ?_, fun _ => Nat.lt_of_not_le few⟩
    · rfl
    · rw [List.length_append]
      exact small
    · rw [List.length_append]
      exact Nat.le_add_right_of_le flat
    · rw [List.take_append_of_le_length flat]
      exact denotes.buffer
    · rw [List.drop_append_of_le_length flat, cells_append]
      exact .some before' last' position' rfl positive isOpen'

/-! ## Reading -/

/-- **Some data are the bytes at the position.** -/
theorem Denotes.someData (denotes : Denotes b bytes) {p : Nat} (inside : p < bytes.length) :
    ∃ memory n, b.getSomeData p = .ok (memory, n) ∧ 0 < n ∧ p + n ≤ bytes.length ∧
      n ≤ memory.length ∧ memory.take n = cells ((bytes.drop p).take n) := by
  have flat := denotes.flat
  have small := denotes.small
  rw [SharedBuffer.getSomeData, denotes.size, if_neg (Nat.not_le.mpr inside)]
  simp only
  by_cases early : p < b.m_buffer.length
  · rw [if_pos early]
    refine ⟨_, _, rfl, by omega, by omega, Nat.le_of_eq (List.length_drop).symm, ?_⟩
    rw [List.take_of_length_le (Nat.le_of_eq List.length_drop)]
    have buffer := congrArg (List.drop p) denotes.buffer
    rw [buffer, ← cells_drop, List.drop_take]
  · rw [if_neg early]
    rcases denotes.rest with ⟨segments, buffer⟩ | ⟨before, last, position, eq, positive, isOpen⟩
    · rw [buffer, length_cells] at early
      exact absurd inside early
    · have rest_length : (cells (bytes.drop b.m_buffer.length)).length =
          bytes.length - b.m_buffer.length := by rw [length_cells, List.length_drop]
      have total := isOpen.length_data
      rw [rest_length] at total
      have fits := isOpen.inside
      -- The bytes from `p` on, in the segments.
      have there : cells (bytes.drop p) =
          (cells (bytes.drop b.m_buffer.length)).drop (p - b.m_buffer.length) := by
        rw [← cells_drop, List.drop_drop]
        congr 2
        omega
      rw [eq, List.length_append, List.length_singleton]
      rw [minus_eq flat (by omega)]
      rcases isOpen.find (p := p - b.m_buffer.length) (by rw [rest_length]; omega) with
        ⟨less, segment, stored, length, split, room, upto, taken⟩ | ⟨at_last, room, dropped⟩
      · rw [rest_length] at upto
        rw [segmentIndex, List.getElem?_append_left less, stored]
        simp only
        rw [if_neg (by omega)]
        refine ⟨_, _, rfl, room, ?_, ?_, ?_⟩
        · rw [offsetInSegment]
          omega
        · rw [offsetInSegment, List.length_drop]
          omega
        · rw [offsetInSegment, cells_take, there, taken, List.take_of_length_le (by
            rw [List.length_drop]
            omega)]
      · rw [rest_length] at room dropped
        rw [segmentIndex, at_last, List.getElem?_concat_length]
        simp only
        rw [if_pos (Nat.add_sub_cancel before.length 1).symm]
        have segmented : min ((before.length + 1) * segmentSize % 2 ^ 32)
            (bytes.length - b.m_buffer.length) = bytes.length - b.m_buffer.length := by
          have size : segmentSize = 4096 := rfl
          rw [size] at fits total ⊢
          omega
        rw [segmented, minus_eq (by omega) (by omega)]
        refine ⟨_, _, rfl, by omega, by omega, ?_, ?_⟩
        · rw [offsetInSegment, List.length_drop, isOpen.length]
          omega
        · rw [offsetInSegment, cells_take, there, dropped, List.take_take, Nat.min_self]

theorem copyBufferAndClear_eq (isOpen : Open segmentSize before last position data) :
    SharedBuffer.copyBufferAndClear (before ++ [last]) data.length = data := by
  have inside := isOpen.inside
  rw [isOpen.length_data, isOpen.holds]
  have sizes := isOpen.sizes
  clear isOpen
  induction before with
  | nil =>
    rw [List.nil_append, List.length_nil, Nat.zero_mul, Nat.zero_add, List.flatten_nil,
      List.nil_append, SharedBuffer.copyBufferAndClear, SharedBuffer.copyBufferAndClear,
      List.append_nil, Nat.min_eq_left inside]
  | cons segment rest ih =>
    have length := sizes segment List.mem_cons_self
    have split : (segment :: rest).length * segmentSize + position =
        segmentSize + (rest.length * segmentSize + position) := by
      rw [List.length_cons, Nat.succ_mul]
      omega
    rw [List.cons_append, SharedBuffer.copyBufferAndClear, split,
      Nat.min_eq_right (Nat.le_add_right ..), Nat.add_sub_cancel_left,
      ih fun s among => sizes s (List.mem_cons_of_mem segment among),
      List.take_of_length_le (Nat.le_of_eq length), List.flatten_cons, List.append_assoc]

/-- **`buffer()` puts all bytes into the vector.** -/
theorem Denotes.flattened (denotes : Denotes b bytes) :
    b.buffer.m_buffer = cells bytes ∧ Denotes b.buffer bytes := by
  have flat := denotes.flat
  have size := denotes.size
  suffices all : b.buffer.m_buffer = cells bytes ∧ b.buffer.m_size = bytes.length ∧
      b.buffer.m_segments = [] from
    ⟨all.1, denotes_flat all.2.1 denotes.small all.1 all.2.2⟩
  rw [SharedBuffer.buffer]
  rcases denotes.rest with ⟨segments, buffer⟩ | ⟨before, last, position, eq, positive, isOpen⟩
  · have none : ¬ b.m_buffer.length < b.m_size := by
      rw [buffer, length_cells, size]
      exact Nat.lt_irrefl _
    simp only [if_neg none]
    exact ⟨buffer, size, segments⟩
  · have rest_length : (cells (bytes.drop b.m_buffer.length)).length =
        b.m_size - b.m_buffer.length := by rw [length_cells, List.length_drop, size]
    have total := isOpen.length_data
    have more : b.m_buffer.length < b.m_size := by omega
    simp only [if_pos more]
    rw [eq, ← rest_length, copyBufferAndClear_eq isOpen, Nat.sub_self, List.replicate_zero,
      List.append_nil]
    refine ⟨?_, size, trivial⟩
    have buffer := denotes.buffer
    generalize b.m_buffer.length = n at buffer
    rw [buffer, ← cells_append, List.take_append_drop]

/-- The segments hold a multiple of 4096 bytes. -/
def Whole (b : SharedBuffer) : Prop :=
  (b.m_size - b.m_buffer.length) % segmentSize = 0

/-- **A copy denotes the same bytes if the last segment is full.** -/
theorem Denotes.copied (denotes : Denotes b bytes) (whole : Whole b) : Denotes b.copy bytes := by
  refine denotes_flat denotes.size denotes.small ?_ rfl
  rw [SharedBuffer.copy]
  simp only
  rcases denotes.rest with ⟨segments, buffer⟩ | ⟨before, last, position, eq, positive, isOpen⟩
  · rw [segments, buffer, List.flatten_nil, List.append_nil]
  · have total := isOpen.length_data
    have inside := isOpen.inside
    rw [length_cells, List.length_drop, ← denotes.size] at total
    rw [Whole, total, Nat.add_comm, Nat.add_mul_mod_self_right] at whole
    have full : position = segmentSize := by
      rcases Nat.lt_or_eq_of_le inside with less | same
      · rw [Nat.mod_eq_of_lt less] at whole
        omega
      · exact same
    have holds := isOpen.holds
    rw [full, List.take_of_length_le (Nat.le_of_eq isOpen.length)] at holds
    rw [eq, List.flatten_append, List.flatten_singleton, ← holds]
    have buffer := denotes.buffer
    generalize b.m_buffer.length = n at buffer
    rw [buffer, ← cells_append, List.take_append_drop]

/-- The copy's vector gets whole segments. -/
theorem Denotes.length_copied (denotes : Denotes b bytes) (alone : b.m_buffer = []) :
    ∃ n, b.copy.m_buffer.length = n * segmentSize ∧ bytes.length ≤ n * segmentSize ∧
      n * segmentSize < bytes.length + segmentSize := by
  rw [SharedBuffer.copy, alone]
  simp only [List.nil_append]
  rcases denotes.rest with ⟨segments, buffer⟩ | ⟨before, last, position, eq, positive, isOpen⟩
  · have none : bytes.length = 0 := by
      rw [← length_cells, ← buffer, alone]
      rfl
    rw [segments, none]
    exact ⟨0, (Nat.zero_mul _).symm, Nat.zero_le _, by decide⟩
  · have total := isOpen.length_data
    rw [alone, length_cells, List.length_nil, List.drop_zero] at total
    have inside := isOpen.inside
    refine ⟨before.length + 1, ?_, ?_, ?_⟩
    · rw [eq, List.flatten_append, List.flatten_singleton, List.length_append,
        length_flatten isOpen.sizes, isOpen.length, Nat.succ_mul]
    · rw [total, Nat.succ_mul]
      exact Nat.add_le_add_left inside _
    · rw [total, Nat.succ_mul]
      omega

/-- What is behind the first segment's size goes into the segments. -/
theorem append_buffer {b' : SharedBuffer} (appends : b.append data = .ok b')
    (large : segmentSize < (b.m_size + data.length) % 2 ^ 32) : b'.m_buffer = b.m_buffer := by
  rw [SharedBuffer.append] at appends
  split at appends
  · cases appends
    rfl
  · simp only [if_neg (Nat.not_le.mpr large)] at appends
    generalize SharedBuffer.copyLoop _ _ _ _ = copied at appends
    cases copied with
    | error fault => cases appends
    | ok segments =>
      cases appends
      rfl

theorem getSomeData_end (denotes : Denotes b bytes) {p : Nat} (beyond : bytes.length ≤ p) :
    b.getSomeData p = .ok ([], 0) := by
  rw [SharedBuffer.getSomeData, denotes.size, if_pos beyond]

/-! ## Loops over a buffer -/

/-- What the `ArrayBuffer` holds when the first `p` bytes are in it. -/
def partly (bytes : List UInt8) (p : Nat) : List Cell :=
  cells (bytes.take p) ++ List.replicate (bytes.length - p) none

theorem overwrite_partly {p n : Nat} (inside : p + n ≤ bytes.length) :
    overwrite (partly bytes p) p (cells ((bytes.drop p).take n)) = partly bytes (p + n) := by
  have taken : (cells (bytes.take p)).length = p := by
    rw [length_cells, List.length_take]
    omega
  have added : (cells ((bytes.drop p).take n)).length = n := by
    rw [length_cells, List.length_take, List.length_drop]
    omega
  rw [overwrite, added, partly, List.take_left' taken, ← cells_append, partly, List.take_add]
  congr 1
  have start : (cells (bytes.take p) ++ List.replicate (bytes.length - p) none).drop (p + n) =
      (List.replicate (bytes.length - p) (none : Cell)).drop n := by
    rw [← List.drop_drop, List.drop_left' taken]
  rw [start, List.drop_replicate]
  congr 1
  omega

theorem arrayLoop_eq (denotes : Denotes b bytes) {p : Nat} (inside : p ≤ bytes.length)
    (enough : bytes.length - p < fuel) :
    b.arrayLoop fuel (partly bytes p) p = .ok (some (cells bytes)) := by
  have length : (partly bytes p).length = bytes.length := by
    rw [partly, List.length_append, length_cells, List.length_take, List.length_replicate]
    omega
  induction fuel generalizing p with
  | zero => exact absurd enough (Nat.not_lt_zero _)
  | succ fuel ih =>
    rw [SharedBuffer.arrayLoop]
    rcases Nat.lt_or_eq_of_le inside with less | rfl
    · obtain ⟨memory, n, reads, positive, upto, room, same⟩ := denotes.someData less
      rw [reads]
      simp only
      rw [if_neg (by omega), if_pos ⟨room, by omega⟩, same, overwrite_partly upto]
      refine ih upto (by omega) ?_
      rw [partly, List.length_append, length_cells, List.length_take, List.length_replicate]
      omega
    · rw [getSomeData_end denotes (Nat.le_refl _)]
      simp only [if_true]
      rw [if_pos length.symm, partly, List.take_length, Nat.sub_self, List.replicate_zero,
        List.append_nil]

/-- **`createArrayBuffer` yields the bytes.** -/
theorem Denotes.array (denotes : Denotes b bytes) :
    b.createArrayBuffer = .ok (some (cells bytes)) := by
  rw [SharedBuffer.createArrayBuffer, denotes.size]
  exact arrayLoop_eq denotes (Nat.zero_le _) (Nat.lt_succ_of_le (Nat.sub_le ..))

theorem appendLoop_eq (denotes : Denotes other bytes')
    (small : bytes.length + bytes'.length < 2 ^ 31) {p : Nat} (inside : p ≤ bytes'.length)
    (start : Denotes b (bytes ++ bytes'.take p)) (enough : bytes'.length - p < fuel) :
    ∃ b', SharedBuffer.appendLoop other fuel b p = .ok b' ∧ Denotes b' (bytes ++ bytes') := by
  induction fuel generalizing b p with
  | zero => exact absurd enough (Nat.not_lt_zero _)
  | succ fuel ih =>
    rw [SharedBuffer.appendLoop]
    rcases Nat.lt_or_eq_of_le inside with less | rfl
    · obtain ⟨memory, n, reads, positive, upto, room, same⟩ := denotes.someData less
      rw [reads]
      simp only
      have sum : (bytes ++ bytes'.take p).length + ((bytes'.drop p).take n).length < 2 ^ 31 := by
        rw [List.length_append, List.length_take, List.length_take, List.length_drop]
        omega
      obtain ⟨b', appends, denotes'⟩ := start.append sum
      rw [if_neg (by omega), if_pos room, same, appends]
      rw [List.append_assoc, ← List.take_add] at denotes'
      exact ih upto denotes' (by omega)
    · rw [getSomeData_end denotes (Nat.le_refl _)]
      rw [List.take_length] at start
      exact ⟨b, rfl, start⟩

/-- **Another buffer's bytes are appended.** -/
theorem Denotes.appendOther (denotes : Denotes b bytes) (others : Denotes other bytes')
    (small : bytes.length + bytes'.length < 2 ^ 31) :
    ∃ b', b.appendBuffer other = .ok b' ∧ Denotes b' (bytes ++ bytes') := by
  rw [SharedBuffer.appendBuffer, others.size]
  refine appendLoop_eq others small (Nat.zero_le _) ?_ (Nat.lt_succ_of_le (Nat.sub_le ..))
  rw [List.take_zero, List.append_nil]
  exact denotes

/-- What a caller sees. -/
theorem Denotes.refines (denotes : Denotes b bytes) : Refines b bytes where
  size := denotes.size
  data := by
    rw [SharedBuffer.data, denotes.flattened.1, ← cells_take, List.take_length]
  some_data p inside := by
    obtain ⟨memory, n, reads, positive, upto, -, same⟩ := denotes.someData inside
    exact ⟨memory, n, reads, positive, upto, same⟩
  no_data p beyond := getSomeData_end denotes beyond
  array := denotes.array

/-! ## Runs -/

/-- Each buffer denotes its string. -/
def AllDenote (buffers : List SharedBuffer) (strings : List (List UInt8)) : Prop :=
  buffers.length = strings.length ∧
    ∀ (i : Nat) b, buffers[i]? = some b → Denotes b (strings.getD i [])

/-- An operation on buffers that are there, another one in the case of two, which leaves every
string shorter than `2 ^ 31`. A buffer is copied when its last segment is full. -/
def Good (buffers : List SharedBuffer) (strings : List (List UInt8)) (operation : Operation) :
    Prop :=
  (∀ string ∈ stepStrings strings operation, string.length < 2 ^ 31) ∧
    match operation with
    | .create _ | .adoptVector _ => True
    | .append i _ | .data i | .clear i => i < buffers.length
    | .appendBuffer i j => i < buffers.length ∧ j < buffers.length ∧ i ≠ j
    | .copy i => ∃ b, buffers[i]? = some b ∧ Whole b

/-- Every operation of the run is good. -/
def AllGood : List SharedBuffer → List (List UInt8) → List Operation → Prop
  | _, _, [] => True
  | buffers, strings, operation :: rest =>
    Good buffers strings operation ∧ ∀ buffers', step buffers operation = .ok buffers' →
      AllGood buffers' (stepStrings strings operation) rest

theorem AllDenote.concat {buffers : List SharedBuffer} {strings : List (List UInt8)}
    (all : AllDenote buffers strings) (denotes : Denotes b bytes) :
    AllDenote (buffers ++ [b]) (strings ++ [bytes]) := by
  refine ⟨by rw [List.length_append, List.length_append, all.1]; rfl, fun i b' stored => ?_⟩
  rw [List.getD_eq_getElem?_getD]
  by_cases old : i < buffers.length
  · rw [List.getElem?_append_left old] at stored
    rw [List.getElem?_append_left (all.1 ▸ old), ← List.getD_eq_getElem?_getD]
    exact all.2 i b' stored
  · rw [List.getElem?_append_right (Nat.le_of_not_lt old)] at stored
    rw [List.getElem?_append_right (all.1 ▸ Nat.le_of_not_lt old), ← all.1]
    obtain ⟨inside, rfl⟩ := List.getElem?_eq_some_iff.mp stored
    rw [List.length_singleton, Nat.lt_one_iff] at inside
    simp only [inside]
    exact denotes

theorem AllDenote.set {buffers : List SharedBuffer} {strings : List (List UInt8)} {i : Nat}
    (all : AllDenote buffers strings) (denotes : Denotes b bytes) :
    AllDenote (buffers.set i b) (strings.set i bytes) := by
  refine ⟨by rw [List.length_set, List.length_set, all.1], fun j b' stored => ?_⟩
  rw [List.getD_eq_getElem?_getD]
  by_cases same : i = j
  · subst same
    have inside := (List.getElem?_eq_some_iff.mp stored).1
    rw [List.length_set] at inside
    rw [List.getElem?_set_self inside] at stored
    obtain rfl := Option.some.inj stored
    rw [List.getElem?_set_self (all.1 ▸ inside)]
    exact denotes
  · rw [List.getElem?_set_ne same] at stored
    rw [List.getElem?_set_ne same, ← List.getD_eq_getElem?_getD]
    exact all.2 j b' stored

theorem AllDenote.get {buffers : List SharedBuffer} {strings : List (List UInt8)} {i : Nat}
    (all : AllDenote buffers strings) (inside : i < buffers.length) :
    ∃ b, buffers[i]? = some b ∧ Denotes b (strings.getD i []) := by
  have stored := List.getElem?_eq_getElem inside
  exact ⟨_, stored, all.2 i _ stored⟩

/-- A good operation has no fault and does to the buffers what it does to the strings. -/
theorem step_good {buffers : List SharedBuffer} {strings : List (List UInt8)}
    {operation : Operation} (all : AllDenote buffers strings)
    (good : Good buffers strings operation) :
    ∃ buffers', step buffers operation = .ok buffers' ∧
      AllDenote buffers' (stepStrings strings operation) := by
  obtain ⟨short, good⟩ := good
  cases operation with
  | create bytes =>
    have few := short bytes (List.mem_append_right _ (List.mem_singleton_self _))
    have small : ([] : List UInt8).length + bytes.length < 2 ^ 31 := by
      rw [List.length_nil]
      omega
    obtain ⟨b, creates, denotes⟩ := denotes_nil.append small
    rw [step, SharedBuffer.create, creates]
    exact ⟨_, rfl, all.concat denotes⟩
  | adoptVector bytes =>
    have few := short bytes (List.mem_append_right _ (List.mem_singleton_self _))
    refine ⟨_, rfl, all.concat (denotes_flat ?_ few rfl rfl)⟩
    exact length_cells bytes
  | append i bytes =>
    obtain ⟨b, stored, denotes⟩ := all.get good
    have inside : i < strings.length := all.1 ▸ good
    have few := short (strings.getD i [] ++ bytes) (List.mem_set inside _)
    rw [List.length_append] at few
    obtain ⟨b', appends, denotes'⟩ := denotes.append few
    rw [step, stored]
    simp only
    rw [appends]
    exact ⟨_, rfl, all.set denotes'⟩
  | appendBuffer i j =>
    obtain ⟨first, second, -⟩ := good
    obtain ⟨b, stored, denotes⟩ := all.get first
    obtain ⟨other, stored', others⟩ := all.get second
    have inside : i < strings.length := all.1 ▸ first
    have few := short (strings.getD i [] ++ strings.getD j []) (List.mem_set inside _)
    rw [List.length_append] at few
    obtain ⟨b', appends, denotes'⟩ := denotes.appendOther others few
    rw [step, stored, stored']
    simp only
    rw [appends]
    exact ⟨_, rfl, all.set denotes'⟩
  | copy i =>
    obtain ⟨b, stored, whole⟩ := good
    rw [step, stored]
    exact ⟨_, rfl, all.concat ((all.2 i b stored).copied whole)⟩
  | data i =>
    obtain ⟨b, stored, denotes⟩ := all.get good
    rw [step, stored]
    refine ⟨_, rfl, ?_⟩
    have same := all.set (i := i) denotes.flattened.2
    have inside : i < strings.length := all.1 ▸ good
    rwa [List.getD_eq_getElem?_getD, List.getElem?_eq_getElem inside, Option.getD_some,
      List.set_getElem_self inside] at same
  | clear i =>
    obtain ⟨b, stored, -⟩ := all.get good
    rw [step, stored]
    exact ⟨_, rfl, all.set denotes_nil⟩

theorem run_good {buffers : List SharedBuffer} {strings : List (List UInt8)}
    {operations : List Operation} (all : AllDenote buffers strings)
    (good : AllGood buffers strings operations) :
    ∃ buffers', run buffers operations = .ok buffers' ∧
      AllDenote buffers' (operations.foldl stepStrings strings) := by
  induction operations generalizing buffers strings with
  | nil => exact ⟨buffers, rfl, all⟩
  | cons operation rest ih =>
    obtain ⟨buffers', steps, all'⟩ := step_good all good.1
    rw [run, steps]
    exact ih all' (good.2 buffers' steps)

/-- **While copied buffers have full segments, buffers refine byte strings.** -/
theorem buffers_refine {operations : List Operation} (good : AllGood [] [] operations) :
    ∃ buffers, run [] operations = .ok buffers ∧
      buffers.length = (operations.foldl stepStrings []).length ∧
      ∀ (i : Nat) b, buffers[i]? = some b →
        Refines b ((operations.foldl stepStrings []).getD i []) := by
  obtain ⟨buffers, runs, all⟩ := run_good ⟨rfl, fun i b stored => by cases stored⟩ good
  exact ⟨buffers, runs, all.1, fun i b stored => (all.2 i b stored).refines⟩

theorem buffers_refine_copied :
    ∃ buffers, run [] [.create [7], .copy 0, .append 1 [8]] = .ok buffers ∧
      buffers.length = 2 ∧ ∀ (i : Nat) b, buffers[i]? = some b →
        Refines b ([[7], [7, 8]].getD i []) := by
  have good : AllGood [] [] [.create [7], .copy 0, .append 1 [8]] := by
    refine ⟨⟨by decide, trivial⟩, fun _ steps => ?_⟩
    cases steps
    refine ⟨⟨by decide, _, rfl, rfl⟩, fun _ steps => ?_⟩
    cases steps
    exact ⟨⟨by decide, by decide⟩, fun _ _ => trivial⟩
  exact buffers_refine good

/-- The last segment of 4097 bytes holds one of them. The copy's vector gets all of it, and some
data at 0 are more than there are. -/
theorem copy_too_long :
    ((run [] [.create (List.replicate 4097 7), .copy 0]).toOption.bind (·[1]?)).map
      (fun b => (b.m_size, (b.getSomeData 0).map (·.2))) = some (4097, .ok 8192) := by
  have count : (List.replicate 4097 (7 : UInt8)).length = 4097 := List.length_replicate
  obtain ⟨b, creates, denotes⟩ := @Denotes.append .new [] (List.replicate 4097 7) denotes_nil
    (by rw [count]; decide)
  rw [List.nil_append] at denotes
  have alone := append_buffer creates (by rw [length_cells, count]; decide)
  obtain ⟨n, length, enough, few⟩ := denotes.length_copied alone
  have two : b.copy.m_buffer.length = 8192 := by
    rw [count, show segmentSize = 4096 from rfl] at enough few
    rw [length, show segmentSize = 4096 from rfl]
    omega
  have size : b.copy.m_size = 4097 := denotes.size.trans count
  rw [run, step, SharedBuffer.create, creates]
  change some (b.copy.m_size, (b.copy.getSomeData 0).map (·.2)) = _
  rw [SharedBuffer.getSomeData, size, two]
  rfl

end NetRider.Platform.SharedBuffers
