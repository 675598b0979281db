import NetRider.Wtf.DequeLayout

/-!
# Runs of Deques

Any number of deques, each under a name, with the operations on one or two of them, and the lists
they stand for. Whatever is done to the deques gives the elements of the lists, in both directions.
-/

namespace NetRider.Wtf.Deques

open NetRider.Lib.Slots

variable {α : Type} {A : Allocator}

inductive Op (α : Type)
  | append (i : Nat) (value : α)
  | prepend (i : Nat) (value : α)
  | removeFirst (i : Nat)
  | removeLast (i : Nat)
  | takeFirst (i : Nat)
  | takeLast (i : Nat)
  | remove (i : Nat) (steps : Nat)
  | clear (i : Nat)
  /-- Deque `i` is made from `j`. -/
  | copy (i j : Nat)
  | assign (i j : Nat)
  | swap (i j : Nat)

abbrev Store (α : Type) := Nat → Deque α

/-- What an operation makes of the deques, and the elements it returns. -/
def step (A : Allocator) (s : Store α) : Op α → Except Fault (Store α × List α)
  | .append i v => do return (Function.update s i (← (s i).append A v), [])
  | .prepend i v => do return (Function.update s i (← (s i).prepend A v), [])
  | .removeFirst i => do return (Function.update s i (← (s i).removeFirst), [])
  | .removeLast i => do return (Function.update s i (← (s i).removeLast), [])
  | .takeFirst i => do
    let (v, d) ← (s i).takeFirst
    return (Function.update s i d, [v])
  | .takeLast i => do
    let (v, d) ← (s i).takeLast
    return (Function.update s i d, [v])
  | .remove i k => do return (Function.update s i (← (s i).remove k), [])
  | .clear i => do return (Function.update s i (← (s i).clear), [])
  | .copy i j => do return (Function.update s i (← Deque.copy A (s j)), [])
  | .assign i j => do return (Function.update s i (← (s i).assign A (s j)), [])
  | .swap i j =>
    let (d, d') := (s i).swap (s j)
    .ok (Function.update (Function.update s i d) j d', [])

abbrev Lists (α : Type) := Nat → List α

/-- The same on lists. -/
def listStep (l : Lists α) : Op α → Lists α × List α
  | .append i v => (Function.update l i (l i ++ [v]), [])
  | .prepend i v => (Function.update l i (v :: l i), [])
  | .removeFirst i => (Function.update l i (l i).tail, [])
  | .removeLast i => (Function.update l i (l i).dropLast, [])
  | .takeFirst i => (Function.update l i (l i).tail, (l i).head?.toList)
  | .takeLast i => (Function.update l i (l i).dropLast, (l i).getLast?.toList)
  | .remove i k => (Function.update l i ((l i).eraseIdx k), [])
  | .clear i => (Function.update l i [], [])
  | .copy i j => (Function.update l i (l j), [])
  | .assign i j => (Function.update l i (l j), [])
  | .swap i j => (Function.update (Function.update l i (l j)) j (l i), [])

/-- Nothing is removed from an empty deque, and an iterator is at most at `end()`. -/
def Legal (l : Lists α) : Op α → Prop
  | .removeFirst i | .removeLast i | .takeFirst i | .takeLast i => l i ≠ []
  | .remove i k => k ≤ (l i).length
  | _ => True

def run (A : Allocator) (s : Store α) : List (Op α) → Except Fault (Store α × List α)
  | [] => .ok (s, [])
  | op :: rest => do
    let (s, out) ← step A s op
    let (s, outs) ← run A s rest
    return (s, out ++ outs)

def listRun (l : Lists α) : List (Op α) → Lists α × List α
  | [] => (l, [])
  | op :: rest =>
    let (l, out) := listStep l op
    let (l, outs) := listRun l rest
    (l, out ++ outs)

def AllLegal (l : Lists α) : List (Op α) → Prop
  | [] => True
  | op :: rest => Legal l op ∧ AllLegal (listStep l op).1 rest

/-- What can be seen of `d` are the elements of `xs`, and no buffer is full. -/
structure Shows (d : Deque α) (xs : List α) : Prop where
  forward : ∀ fuel, xs.length ≤ fuel → d.forward d.m_start fuel = .ok xs
  backward : ∀ fuel, xs.length ≤ fuel → d.backward d.m_end fuel = .ok xs.reverse
  size : d.size = xs.length
  isEmpty : d.isEmpty = xs.isEmpty
  first : ∀ v, xs.head? = some v → d.first = .ok v
  last : ∀ v, xs.getLast? = some v → d.last = .ok v
  room : d.m_start = d.m_end → xs = []

def AllHold (A : Allocator) (s : Store α) (l : Lists α) : Prop := ∀ i, Holds A (s i) (l i)

theorem Holds.shows {d : Deque α} {xs : List α} (holds : Holds A d xs) : Shows d xs where
  forward fuel enough := by
    have visits := @forward_eq _ _ _ _ 0 fuel holds (by omega) (Nat.zero_le _)
    rwa [position_zero holds] at visits
  backward fuel enough := by
    have visits := @backward_eq _ _ _ _ xs.length fuel holds enough (Nat.le_refl _)
    rwa [← holds.ends, List.take_length] at visits
  size := holds.size_eq
  isEmpty := holds.isEmpty_eq
  first v front := by
    rcases xs with _ | ⟨x, xs⟩
    · cases front
    · obtain rfl := Option.some.inj front
      exact first_eq holds
  last v back := by
    obtain ⟨ys, rfl⟩ := List.getLast?_eq_some_iff.mp back
    exact last_eq holds
  room same := by
    have empty := holds.isEmpty_eq
    rwa [Deque.isEmpty, same, beq_self_eq_true, eq_comm, List.isEmpty_iff] at empty

/-- One deque is changed. -/
theorem AllHold.update {s : Store α} {l : Lists α} (all : AllHold A s l) {i : Nat} {d : Deque α}
    {xs : List α} (holds : Holds A d xs) :
    AllHold A (Function.update s i d) (Function.update l i xs) := by
  intro j
  by_cases same : j = i
  · subst same
    rw [Function.update_self, Function.update_self]
    exact holds
  · rw [Function.update_of_ne same, Function.update_of_ne same]
    exact all j

/-- A deque is full, and larger buffers cannot be had. -/
def Exhausted (A : Allocator) (l : Lists α) : Prop := ∃ i, ¬ Room A (l i).length

theorem step_eq {s : Store α} {l : Lists α} {op : Op α} (sound : A.Sound) (all : AllHold A s l)
    (legal : Legal l op) :
    (∃ s', step A s op = .ok (s', (listStep l op).2) ∧ AllHold A s' (listStep l op).1) ∨
      step A s op = .error .exhausted ∧ Exhausted A l := by
  cases op with
  | append i v =>
    rcases @append_eq _ _ _ _ v sound (all i) with ⟨d, appends, holds⟩ | ⟨fails, full⟩
    · refine .inl ⟨_, ?_, all.update holds⟩
      simp only [step, appends, bind, Except.bind, pure, Except.pure, listStep]
    · refine .inr ⟨?_, i, full⟩
      simp only [step, fails, bind, Except.bind]
  | prepend i v =>
    rcases @prepend_eq _ _ _ _ v sound (all i) with ⟨d, prepends, holds⟩ | ⟨fails, full⟩
    · refine .inl ⟨_, ?_, all.update holds⟩
      simp only [step, prepends, bind, Except.bind, pure, Except.pure, listStep]
    · refine .inr ⟨?_, i, full⟩
      simp only [step, fails, bind, Except.bind]
  | removeFirst i =>
    obtain ⟨v, rest, elements⟩ := List.exists_cons_of_ne_nil legal
    have before := all i
    rw [elements] at before
    obtain ⟨d, removes, holds⟩ := removeFirst_eq before
    refine .inl ⟨Function.update s i d, ?_, ?_⟩
    · simp only [step, removes, bind, Except.bind, pure, Except.pure, listStep]
    · simp only [listStep, elements]
      exact all.update holds
  | removeLast i =>
    have elements := List.dropLast_concat_getLast legal
    have before := all i
    rw [← elements] at before
    obtain ⟨d, removes, holds⟩ := removeLast_eq before
    refine .inl ⟨_, ?_, all.update holds⟩
    simp only [step, removes, bind, Except.bind, pure, Except.pure, listStep]
  | takeFirst i =>
    obtain ⟨v, rest, elements⟩ := List.exists_cons_of_ne_nil legal
    have before := all i
    rw [elements] at before
    obtain ⟨d, removes, holds⟩ := removeFirst_eq before
    refine .inl ⟨Function.update s i d, ?_, ?_⟩
    · simp only [step, Deque.takeFirst, first_eq before, removes, bind, Except.bind, pure,
        Except.pure, listStep, elements, List.head?_cons, Option.toList_some]
    · simp only [listStep, elements]
      exact all.update holds
  | takeLast i =>
    have elements := List.dropLast_concat_getLast legal
    have before := all i
    rw [← elements] at before
    obtain ⟨d, removes, holds⟩ := removeLast_eq before
    refine .inl ⟨_, ?_, all.update holds⟩
    simp only [step, Deque.takeLast, last_eq before, removes, bind, Except.bind, pure,
      Except.pure, listStep, List.getLast?_eq_some_getLast legal, Option.toList_some]
  | remove i k =>
    obtain ⟨d, removes, holds⟩ := remove_eq (all i) legal
    refine .inl ⟨_, ?_, all.update holds⟩
    simp only [step, removes, bind, Except.bind, pure, Except.pure, listStep]
  | clear i =>
    refine .inl ⟨_, ?_, all.update holds_empty⟩
    simp only [step, clear_eq (all i), bind, Except.bind, pure, Except.pure, listStep]
  | copy i j =>
    obtain ⟨d, copies, holds⟩ := copy_eq sound (all j)
    refine .inl ⟨_, ?_, all.update holds⟩
    simp only [step, copies, bind, Except.bind, pure, Except.pure, listStep]
  | assign i j =>
    obtain ⟨d, assigns, holds⟩ := assign_eq sound (all i) (all j)
    refine .inl ⟨_, ?_, all.update holds⟩
    simp only [step, assigns, bind, Except.bind, pure, Except.pure, listStep]
  | swap i j => exact .inl ⟨_, rfl, (all.update (all j)).update (all i)⟩

/-- The operations up to some point lead to a deque that is full. -/
def RunsOut (A : Allocator) (l : Lists α) (ops : List (Op α)) : Prop :=
  ∃ done, done <+: ops ∧ Exhausted A (listRun l done).1

theorem run_eq {s : Store α} {l : Lists α} {ops : List (Op α)} (sound : A.Sound)
    (all : AllHold A s l) (legal : AllLegal l ops) :
    (∃ s', run A s ops = .ok (s', (listRun l ops).2) ∧ AllHold A s' (listRun l ops).1) ∨
      run A s ops = .error .exhausted ∧ RunsOut A l ops := by
  induction ops generalizing s l with
  | nil => exact .inl ⟨s, rfl, all⟩
  | cons op rest ih =>
    rcases step_eq sound all legal.1 with ⟨s', steps, all'⟩ | ⟨fails, full⟩
    · rcases ih all' legal.2 with ⟨s'', runs, all''⟩ | ⟨fails, done, first, full⟩
      · refine .inl ⟨s'', ?_, all''⟩
        simp only [run, steps, runs, bind, Except.bind, pure, Except.pure, listRun]
      · refine .inr ⟨?_, op :: done, List.cons_prefix_cons.mpr ⟨rfl, first⟩, full⟩
        simp only [run, steps, fails, bind, Except.bind]
    · refine .inr ⟨?_, [], List.nil_prefix, full⟩
      simp only [run, fails, bind, Except.bind]

end NetRider.Wtf.Deques
