import Mathlib.Logic.Function.Basic
import Mathlib.Tactic.Common

/-!
# Raw storage

Slots that hold an object or none, with the loops that copy, move and destroy ranges of objects. An
object is made in an empty slot and taken from one that is not empty; everything else is a fault.
-/

namespace NetRider.Lib.Slots

inductive Fault
  | outside
  | empty
  | occupied
  | exhausted
deriving DecidableEq

structure Storage (α : Type) where
  capacity : Nat
  slot : Nat → Option α

namespace Storage

variable {α : Type}

def fresh (capacity : Nat) : Storage α := ⟨capacity, fun _ => none⟩

def set (m : Storage α) (i : Nat) (object : Option α) : Storage α :=
  { m with slot := Function.update m.slot i object }

def load (m : Storage α) (i : Nat) : Except Fault α :=
  if i < m.capacity then
    match m.slot i with
    | some v => .ok v
    | none => .error .empty
  else .error .outside

def construct (m : Storage α) (i : Nat) (v : α) : Except Fault (Storage α) :=
  if i < m.capacity then
    match m.slot i with
    | some _ => .error .occupied
    | none => .ok (m.set i (some v))
  else .error .outside

def destroy (m : Storage α) (i : Nat) : Except Fault (Storage α) :=
  if i < m.capacity then
    match m.slot i with
    | some _ => .ok (m.set i none)
    | none => .error .empty
  else .error .outside

/-- Destroys `n` objects from `first` on. -/
def destructRange (m : Storage α) (first : Nat) : Nat → Except Fault (Storage α)
  | 0 => .ok m
  | n + 1 => do
    let m ← m.destroy first
    m.destructRange (first + 1) n

def copyRange (src dst : Storage α) (first dest : Nat) : Nat → Except Fault (Storage α)
  | 0 => .ok dst
  | n + 1 => do
    let v ← src.load first
    let dst ← dst.construct dest v
    copyRange src dst (first + 1) (dest + 1) n

/-- Moves `n` objects to another storage. -/
def moveRange (src dst : Storage α) (first dest : Nat) : Nat → Except Fault (Storage α × Storage α)
  | 0 => .ok (src, dst)
  | n + 1 => do
    let v ← src.load first
    let dst ← dst.construct dest v
    let src ← src.destroy first
    moveRange src dst (first + 1) (dest + 1) n

/-- Moves `n` objects within the storage, the lowest first. -/
def moveAscending (m : Storage α) (first dest : Nat) : Nat → Except Fault (Storage α)
  | 0 => .ok m
  | n + 1 => do
    let v ← m.load first
    let m ← m.construct dest v
    let m ← m.destroy first
    m.moveAscending (first + 1) (dest + 1) n

/-- Moves the `n` objects before `last` so that they end before `dest`, the highest first. -/
def moveDescending (m : Storage α) (last dest : Nat) : Nat → Except Fault (Storage α)
  | 0 => .ok m
  | n + 1 => do
    let v ← m.load (last - 1)
    let m ← m.construct (dest - 1) v
    let m ← m.destroy (last - 1)
    m.moveDescending (last - 1) (dest - 1) n

variable {m src dst : Storage α} {i first last dest n : Nat} {v : α}

/-! ## Single slots -/

@[simp] theorem set_capacity {o : Option α} : (m.set i o).capacity = m.capacity := rfl

@[simp] theorem slot_set_self {o : Option α} : (m.set i o).slot i = o := Function.update_self ..

theorem slot_set_ne {o : Option α} {j : Nat} (other : j ≠ i) : (m.set i o).slot j = m.slot j :=
  Function.update_of_ne other ..

theorem load_eq (inside : i < m.capacity) (live : m.slot i = some v) : m.load i = .ok v := by
  rw [load, if_pos inside, live]

theorem construct_eq (inside : i < m.capacity) (free : m.slot i = none) :
    m.construct i v = .ok (m.set i (some v)) := by
  rw [construct, if_pos inside, free]

theorem destroy_eq (inside : i < m.capacity) (live : m.slot i = some v) :
    m.destroy i = .ok (m.set i none) := by
  rw [destroy, if_pos inside, live]

/-! ## Ranges -/

/-- The slots from `first` to before `first + n` hold objects. -/
def Live (m : Storage α) (first n : Nat) : Prop :=
  first + n ≤ m.capacity ∧ ∀ i, first ≤ i → i < first + n → ∃ v, m.slot i = some v

/-- The slots from `first` to before `first + n` hold none. -/
def Free (m : Storage α) (first n : Nat) : Prop :=
  first + n ≤ m.capacity ∧ ∀ i, first ≤ i → i < first + n → m.slot i = none

theorem Live.set {o : Option α} (live : m.Live first n) (other : i < first ∨ first + n ≤ i) :
    (m.set i o).Live first n := by
  refine ⟨live.1, fun j above below => ?_⟩
  rw [slot_set_ne (by omega)]
  exact live.2 j above below

theorem Free.set {o : Option α} (free : m.Free first n) (other : i < first ∨ first + n ≤ i) :
    (m.set i o).Free first n := by
  refine ⟨free.1, fun j above below => ?_⟩
  rw [slot_set_ne (by omega)]
  exact free.2 j above below

theorem Live.tail (live : m.Live first (n + 1)) : m.Live (first + 1) n :=
  ⟨by have inside := live.1; omega, fun i above below => live.2 i (by omega) (by omega)⟩

theorem Free.tail (free : m.Free first (n + 1)) : m.Free (first + 1) n :=
  ⟨by have inside := free.1; omega, fun i above below => free.2 i (by omega) (by omega)⟩

theorem Live.head (live : m.Live first (n + 1)) :
    first < m.capacity ∧ ∃ v, m.slot first = some v :=
  ⟨by have inside := live.1; omega, live.2 first (by omega) (by omega)⟩

theorem Free.head (free : m.Free first (n + 1)) : first < m.capacity ∧ m.slot first = none :=
  ⟨by have inside := free.1; omega, free.2 first (by omega) (by omega)⟩

theorem destructRange_eq (live : m.Live first n) : ∃ m', m.destructRange first n = .ok m' ∧
    m'.capacity = m.capacity ∧
    ∀ i, m'.slot i = if first ≤ i ∧ i < first + n then none else m.slot i := by
  induction n generalizing m first with
  | zero => exact ⟨m, rfl, rfl, fun i => (if_neg (by omega)).symm⟩
  | succ n ih =>
    obtain ⟨inside, v, object⟩ := live.head
    obtain ⟨m', destroys, capacity, slots⟩ :=
      @ih (m.set first none) (first + 1) (live.tail.set (.inl (by omega)))
    refine ⟨m', ?_, capacity, fun i => ?_⟩
    · rw [destructRange, destroy_eq inside object]
      exact destroys
    · rw [slots]
      by_cases here : i = first
      · rw [if_neg (by omega), if_pos (by omega), here, slot_set_self]
      · rw [slot_set_ne here]
        exact if_congr (by omega) rfl rfl

theorem copyRange_eq (live : src.Live first n) (free : dst.Free dest n) : ∃ dst',
    copyRange src dst first dest n = .ok dst' ∧ dst'.capacity = dst.capacity ∧
    ∀ i, dst'.slot i =
      if dest ≤ i ∧ i < dest + n then src.slot (first + (i - dest)) else dst.slot i := by
  induction n generalizing dst first dest with
  | zero => exact ⟨dst, rfl, rfl, fun i => (if_neg (by omega)).symm⟩
  | succ n ih =>
    obtain ⟨inside, v, object⟩ := live.head
    obtain ⟨inside', empty⟩ := free.head
    obtain ⟨dst', copies, capacity, slots⟩ :=
      @ih (dst.set dest (some v)) (first + 1) (dest + 1) live.tail
        (free.tail.set (.inl (by omega)))
    refine ⟨dst', ?_, capacity, fun i => ?_⟩
    · rw [copyRange, load_eq inside object]
      simp only [bind, Except.bind, construct_eq inside' empty]
      exact copies
    · rw [slots]
      by_cases here : i = dest
      · rw [if_neg (by omega), if_pos (by omega), here, slot_set_self, Nat.sub_self]
        exact object.symm
      · rw [slot_set_ne here]
        by_cases within : dest + 1 ≤ i ∧ i < dest + 1 + n
        · rw [if_pos within, if_pos (by omega)]
          exact congrArg src.slot (by omega)
        · rw [if_neg within, if_neg (by omega)]

theorem moveRange_eq (live : src.Live first n) (free : dst.Free dest n) : ∃ src' dst',
    moveRange src dst first dest n = .ok (src', dst') ∧ src'.capacity = src.capacity ∧
    dst'.capacity = dst.capacity ∧
    (∀ i, src'.slot i = if first ≤ i ∧ i < first + n then none else src.slot i) ∧
    ∀ i, dst'.slot i =
      if dest ≤ i ∧ i < dest + n then src.slot (first + (i - dest)) else dst.slot i := by
  induction n generalizing src dst first dest with
  | zero =>
    exact ⟨src, dst, rfl, rfl, rfl, fun i => (if_neg (by omega)).symm,
      fun i => (if_neg (by omega)).symm⟩
  | succ n ih =>
    obtain ⟨inside, v, object⟩ := live.head
    obtain ⟨inside', empty⟩ := free.head
    obtain ⟨src', dst', moves, capacity, capacity', slots, slots'⟩ :=
      @ih (src.set first none) (dst.set dest (some v)) (first + 1) (dest + 1)
        (live.tail.set (.inl (by omega))) (free.tail.set (.inl (by omega)))
    refine ⟨src', dst', ?_, capacity, capacity', fun i => ?_, fun i => ?_⟩
    · rw [moveRange, load_eq inside object]
      simp only [bind, Except.bind, construct_eq inside' empty, destroy_eq inside object]
      exact moves
    · rw [slots]
      by_cases here : i = first
      · rw [if_neg (by omega), if_pos (by omega), here, slot_set_self]
      · rw [slot_set_ne here]
        exact if_congr (by omega) rfl rfl
    · rw [slots']
      by_cases here : i = dest
      · rw [if_neg (by omega), if_pos (by omega), here, slot_set_self, Nat.sub_self]
        exact object.symm
      · rw [slot_set_ne here]
        by_cases within : dest + 1 ≤ i ∧ i < dest + 1 + n
        · rw [if_pos within, if_pos (by omega), slot_set_ne (by omega)]
          exact congrArg src.slot (by omega)
        · rw [if_neg within, if_neg (by omega)]

/-! ## Ranges moved by one slot -/

/-- The slot before the range is empty, and takes its first object. -/
theorem moveAscending_eq (live : m.Live (dest + 1) n) (free : m.slot dest = none) : ∃ m',
    m.moveAscending (dest + 1) dest n = .ok m' ∧ m'.capacity = m.capacity ∧
    ∀ i, m'.slot i = if dest ≤ i ∧ i < dest + n then m.slot (i + 1)
      else if i = dest + n then none else m.slot i := by
  induction n generalizing m dest with
  | zero =>
    refine ⟨m, rfl, rfl, fun i => ?_⟩
    rw [if_neg (by omega)]
    split
    · next here => rw [here, Nat.add_zero, free]
    · rfl
  | succ n ih =>
    obtain ⟨inside, v, object⟩ := live.head
    have moved : (m.set dest (some v)).slot (dest + 1) = some v := by
      rw [slot_set_ne (by omega), object]
    obtain ⟨m', moves, capacity, slots⟩ := @ih ((m.set dest (some v)).set (dest + 1) none) (dest + 1)
      ((live.tail.set (.inl (by omega))).set (.inl (by omega))) slot_set_self
    refine ⟨m', ?_, capacity, fun i => ?_⟩
    · rw [moveAscending, load_eq inside object]
      simp only [bind, Except.bind, construct_eq (by omega : dest < m.capacity) free,
        @destroy_eq _ (m.set dest (some v)) _ _ inside moved]
      exact moves
    · rw [slots]
      by_cases here : i = dest
      · rw [if_neg (by omega), if_neg (by omega), if_pos (by omega), here,
          slot_set_ne (by omega), slot_set_self, object]
      · by_cases within : dest + 1 ≤ i ∧ i < dest + 1 + n
        · rw [if_pos within, if_pos (by omega), slot_set_ne (by omega), slot_set_ne (by omega)]
        · rw [if_neg within]
          by_cases behind : i = dest + 1 + n
          · rw [if_pos behind, if_neg (by omega), if_pos (by omega)]
          · rw [if_neg behind, if_neg (by omega), if_neg (by omega), slot_set_ne (by omega),
              slot_set_ne here]

/-- The slot behind the range is empty, and takes its last object. -/
theorem moveDescending_eq (live : m.Live first n) (free : m.slot (first + n) = none)
    (inside : first + n < m.capacity) : ∃ m',
    m.moveDescending (first + n) (first + n + 1) n = .ok m' ∧ m'.capacity = m.capacity ∧
    ∀ i, m'.slot i = if first < i ∧ i ≤ first + n then m.slot (i - 1)
      else if i = first then none else m.slot i := by
  induction n generalizing m with
  | zero =>
    refine ⟨m, rfl, rfl, fun i => ?_⟩
    rw [if_neg (by omega)]
    split
    · next here => rw [here, ← free, Nat.add_zero]
    · rfl
  | succ n ih =>
    obtain ⟨v, object⟩ := live.2 (first + n) (by omega) (by omega)
    have inside' : first + n + 1 < m.capacity := inside
    have free' : m.slot (first + n + 1) = none := free
    have moved : (m.set (first + n + 1) (some v)).slot (first + n) = some v := by
      rw [slot_set_ne (by omega), object]
    have shorter : m.Live first n :=
      ⟨by omega, fun i above below => live.2 i above (by omega)⟩
    obtain ⟨m', moves, capacity, slots⟩ :=
      @ih ((m.set (first + n + 1) (some v)).set (first + n) none)
        ((shorter.set (.inr (by omega))).set (.inr (by omega))) slot_set_self
        (by simp only [set_capacity]; omega)
    refine ⟨m', ?_, capacity, fun i => ?_⟩
    · rw [moveDescending]
      simp only [show first + (n + 1) - 1 = first + n by omega,
        show first + (n + 1) + 1 - 1 = first + n + 1 by omega,
        load_eq (by omega : first + n < m.capacity) object, bind, Except.bind,
        construct_eq inside' free',
        @destroy_eq _ (m.set (first + n + 1) (some v)) _ _
          (by simp only [set_capacity]; omega) moved]
      exact moves
    · rw [slots]
      by_cases here : i = first + n + 1
      · rw [if_neg (by omega), if_neg (by omega), if_pos (by omega), here,
          slot_set_ne (by omega), slot_set_self, Nat.add_sub_cancel, object]
      · by_cases within : first < i ∧ i ≤ first + n
        · rw [if_pos within, if_pos (by omega), slot_set_ne (by omega), slot_set_ne (by omega)]
        · rw [if_neg within]
          by_cases start : i = first
          · rw [if_pos start, if_neg (by omega), if_pos start]
          · rw [if_neg start, if_neg (by omega), if_neg start, slot_set_ne (by omega),
              slot_set_ne here]

end Storage

end NetRider.Lib.Slots
