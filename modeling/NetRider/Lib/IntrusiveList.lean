import Mathlib

/-!
# Intrusive doubly linked lists

The nodes hold the pointers of the list that they are on, and a list is its two ends. A table is
several lists over the same pointers: a node is on at most one of them.
-/

namespace NetRider.Lib

/-- The pointers of all nodes. -/
structure Links (N : Type*) where
  next : N → Option N
  prev : N → Option N

structure Ends (N : Type*) where
  head : Option N
  tail : Option N

variable {N I : Type*}

section

variable [DecidableEq N]

/-- The previous pointer of the node is left as it is. -/
def pushFront (links : Links N) (ends : Ends N) (r : N) : Links N × Ends N :=
  (⟨Function.update links.next r ends.head,
      match ends.head with
      | some head => Function.update links.prev head (some r)
      | none => links.prev⟩,
    ⟨some r, if ends.head = none then some r else ends.tail⟩)

/-- Takes the node out from between its neighbours. The ends move if the node is one of them. -/
def unlink (links : Links N) (ends : Ends N) (r : N) : Links N × Ends N :=
  let next := links.next r
  let prev := links.prev r
  if next = none ∧ prev = none ∧ ends.head ≠ some r then (links, ends)
  else
    (⟨match prev with
      | some p => Function.update (Function.update links.next r none) p next
      | none => Function.update links.next r none,
      match next with
      | some n => Function.update (Function.update links.prev r none) n prev
      | none => Function.update links.prev r none⟩,
    ⟨if prev = none ∧ ends.head = some r then next else ends.head,
      if next = none ∧ ends.tail = some r then prev else ends.tail⟩)

end

/-! ## Segments -/

/-- The nodes follow each other, between a node before and a node after. -/
def Segment (links : Links N) : Option N → List N → Option N → Prop
  | _, [], _ => True
  | before, x :: xs, after =>
    links.prev x = before ∧ links.next x = xs.head?.or after ∧ Segment links (some x) xs after

variable {links links' : Links N} {before after : Option N} {xs ys : List N} {r : N}

theorem Segment.congr (same : ∀ x ∈ xs, links'.next x = links.next x ∧ links'.prev x = links.prev x)
    (segment : Segment links before xs after) : Segment links' before xs after := by
  induction xs generalizing before with
  | nil => trivial
  | cons x xs ih =>
    obtain ⟨prev, next, rest⟩ := segment
    obtain ⟨sameNext, samePrev⟩ := same x List.mem_cons_self
    exact ⟨samePrev.trans prev, sameNext.trans next,
      ih (fun y member => same y (List.mem_cons_of_mem x member)) rest⟩

theorem segment_append : Segment links before (xs ++ ys) after ↔
    Segment links before xs (ys.head?.or after) ∧ Segment links (xs.getLast?.or before) ys after := by
  induction xs generalizing before with
  | nil => simp [Segment]
  | cons x xs ih =>
    have last : (x :: xs).getLast?.or before = xs.getLast?.or (some x) := by
      cases xs with
      | nil => rfl
      | cons y ys => rw [List.getLast?_cons_cons]; cases h : (y :: ys).getLast? <;> simp_all
    have first : (xs ++ ys).head?.or after = xs.head?.or (ys.head?.or after) := by
      rw [List.head?_append, Option.or_assoc]
    simp only [List.cons_append, Segment, ih, last, first, and_assoc]

/-- Only the last pointer to the next node changes. -/
theorem Segment.retarget {after' : Option N} (nodup : xs.Nodup)
    (prev : ∀ x ∈ xs, links'.prev x = links.prev x)
    (next : ∀ x ∈ xs, xs.getLast? ≠ some x → links'.next x = links.next x)
    (last : ∀ x, xs.getLast? = some x → links'.next x = after')
    (segment : Segment links before xs after) : Segment links' before xs after' := by
  induction xs generalizing before with
  | nil => trivial
  | cons x xs ih =>
    obtain ⟨prevFirst, nextFirst, rest⟩ := segment
    obtain ⟨first, nodupRest⟩ := List.nodup_cons.mp nodup
    cases xs with
    | nil => exact ⟨(prev x List.mem_cons_self).trans prevFirst, last x rfl, trivial⟩
    | cons y ys =>
      rw [List.getLast?_cons_cons] at next last
      have inner : (y :: ys).getLast? ≠ some x := by
        intro found
        exact first (List.mem_of_getLast? found)
      refine ⟨(prev x List.mem_cons_self).trans prevFirst,
        (next x List.mem_cons_self inner).trans nextFirst, ?_⟩
      exact ih nodupRest (fun z member => prev z (List.mem_cons_of_mem x member))
        (fun z member => next z (List.mem_cons_of_mem x member)) last rest

/-- Only the first pointer to the previous node changes. -/
theorem Segment.resource {before' : Option N} (nodup : xs.Nodup)
    (next : ∀ x ∈ xs, links'.next x = links.next x)
    (prev : ∀ x ∈ xs, xs.head? ≠ some x → links'.prev x = links.prev x)
    (first : ∀ x, xs.head? = some x → links'.prev x = before')
    (segment : Segment links before xs after) : Segment links' before' xs after := by
  cases xs with
  | nil => trivial
  | cons x xs =>
    obtain ⟨-, nextFirst, rest⟩ := segment
    obtain ⟨other, -⟩ := List.nodup_cons.mp nodup
    refine ⟨first x rfl, (next x List.mem_cons_self).trans nextFirst, rest.congr ?_⟩
    intro y member
    refine ⟨next y (List.mem_cons_of_mem x member), prev y (List.mem_cons_of_mem x member) ?_⟩
    rintro ⟨⟩
    exact other member

/-- The nodes of the list, from the head to the tail. -/
structure Represents (links : Links N) (ends : Ends N) (xs : List N) : Prop where
  nodup : xs.Nodup
  head : ends.head = xs.head?
  tail : ends.tail = xs.getLast?
  linked : Segment links none xs none

variable {ends : Ends N}

theorem Represents.congr (represents : Represents links ends xs)
    (same : ∀ x ∈ xs, links'.next x = links.next x ∧ links'.prev x = links.prev x) :
    Represents links' ends xs :=
  ⟨represents.nodup, represents.head, represents.tail, represents.linked.congr same⟩

theorem Represents.around {l : List N} (represents : Represents links ends (l ++ r :: ys)) :
    links.prev r = l.getLast? ∧ links.next r = ys.head? ∧ Segment links none l (some r) ∧
      Segment links (some r) ys none := by
  obtain ⟨left, prev, next, right⟩ := segment_append.mp represents.linked
  rw [Option.or_none] at prev next
  exact ⟨prev, next, left, right⟩

section

variable [DecidableEq N]

theorem pushFront_of_not_mem {x : N} (represents : Represents links ends xs) (different : x ≠ r)
    (other : x ∉ xs) : (pushFront links ends r).1.next x = links.next x ∧
      (pushFront links ends r).1.prev x = links.prev x := by
  constructor
  · exact Function.update_of_ne different ..
  · dsimp only [pushFront]
    cases head : ends.head with
    | none => rfl
    | some h =>
      rw [represents.head] at head
      apply Function.update_of_ne
      rintro rfl
      exact other (List.mem_of_mem_head? head)

theorem Represents.pushFront (represents : Represents links ends xs) (new : r ∉ xs)
    (loose : links.prev r = none) :
    Represents (pushFront links ends r).1 (pushFront links ends r).2 (r :: xs) where
  nodup := List.nodup_cons.mpr ⟨new, represents.nodup⟩
  head := rfl
  tail := by
    dsimp only [Lib.pushFront]
    rw [represents.head, represents.tail]
    cases xs with
    | nil => rfl
    | cons x xs => rw [List.head?_cons, if_neg (Option.some_ne_none x), List.getLast?_cons_cons]
  linked := by
    dsimp only [Lib.pushFront]
    rw [represents.head]
    have linked := represents.linked
    cases xs with
    | nil => exact ⟨loose, Function.update_self .., trivial⟩
    | cons x xs =>
      obtain ⟨-, next, rest⟩ := linked
      obtain ⟨different, apart⟩ := not_or.mp (List.mem_cons.not.mp new)
      obtain ⟨first, -⟩ := List.nodup_cons.mp represents.nodup
      refine ⟨?_, Function.update_self .., Function.update_self .., ?_, ?_⟩
      · exact (Function.update_of_ne different ..).trans loose
      · exact (Function.update_of_ne (Ne.symm different) ..).trans next
      · apply rest.congr
        intro y member
        constructor
        · apply Function.update_of_ne
          rintro rfl
          exact apart member
        · apply Function.update_of_ne
          rintro rfl
          exact first member

/-- The pointers after a node was taken out. -/
theorem unlink_eq (represents : Represents links ends xs) (member : r ∈ xs) :
    unlink links ends r =
      (⟨match links.prev r with
        | some p => Function.update (Function.update links.next r none) p (links.next r)
        | none => Function.update links.next r none,
        match links.next r with
        | some n => Function.update (Function.update links.prev r none) n (links.prev r)
        | none => Function.update links.prev r none⟩,
      ⟨if links.prev r = none ∧ ends.head = some r then links.next r else ends.head,
        if links.next r = none ∧ ends.tail = some r then links.prev r else ends.tail⟩) := by
  obtain ⟨l, ys, rfl⟩ := List.append_of_mem member
  obtain ⟨prev, -, -, -⟩ := represents.around
  dsimp only [unlink]
  rw [if_neg]
  rintro ⟨-, none_, other⟩
  rw [prev, List.getLast?_eq_none_iff] at none_
  rw [represents.head, none_] at other
  exact other rfl

theorem unlink_of_not_mem {x : N} (represents : Represents links ends xs) (member : r ∈ xs)
    (other : x ∉ xs) : (unlink links ends r).1.next x = links.next x ∧
      (unlink links ends r).1.prev x = links.prev x := by
  rw [unlink_eq represents member]
  obtain ⟨l, ys, rfl⟩ := List.append_of_mem member
  obtain ⟨prev, next, -, -⟩ := represents.around
  have different : x ≠ r := by
    rintro rfl
    exact other member
  rw [prev, next]
  constructor
  · dsimp only
    cases last : l.getLast? with
    | none => exact Function.update_of_ne different ..
    | some p =>
      have apart : x ≠ p := by
        rintro rfl
        exact other (List.mem_append_left _ (List.mem_of_getLast? last))
      exact (Function.update_of_ne apart ..).trans (Function.update_of_ne different ..)
  · dsimp only
    cases first : ys.head? with
    | none => exact Function.update_of_ne different ..
    | some n =>
      have apart : x ≠ n := by
        rintro rfl
        exact other (List.mem_append_right _ (List.mem_cons_of_mem r (List.mem_of_mem_head? first)))
      exact (Function.update_of_ne apart ..).trans (Function.update_of_ne different ..)

theorem unlink_self (represents : Represents links ends xs) (member : r ∈ xs) :
    (unlink links ends r).1.next r = none ∧ (unlink links ends r).1.prev r = none := by
  rw [unlink_eq represents member]
  obtain ⟨l, ys, rfl⟩ := List.append_of_mem member
  obtain ⟨prev, next, -, -⟩ := represents.around
  obtain ⟨-, nodup, apart⟩ := List.nodup_append.mp represents.nodup
  rw [prev, next]
  constructor
  · dsimp only
    cases last : l.getLast? with
    | none => exact Function.update_self ..
    | some p =>
      have different := apart p (List.mem_of_getLast? last) r List.mem_cons_self
      exact (Function.update_of_ne (Ne.symm different) ..).trans (Function.update_self ..)
  · dsimp only
    cases first : ys.head? with
    | none => exact Function.update_self ..
    | some n =>
      have different : r ≠ n := by
        rintro rfl
        exact (List.nodup_cons.mp nodup).1 (List.mem_of_mem_head? first)
      exact (Function.update_of_ne different ..).trans (Function.update_self ..)

theorem Represents.unlink (represents : Represents links ends xs) (member : r ∈ xs) :
    Represents (unlink links ends r).1 (unlink links ends r).2 (xs.erase r) := by
  have eq := unlink_eq represents member
  obtain ⟨l, ys, rfl⟩ := List.append_of_mem member
  obtain ⟨prev, next, left, right⟩ := represents.around
  obtain ⟨nodupLeft, nodupRight, apart⟩ := List.nodup_append.mp represents.nodup
  obtain ⟨notRight, nodupRest⟩ := List.nodup_cons.mp nodupRight
  have notLeft : r ∉ l := fun there => apart r there r List.mem_cons_self rfl
  have between : ∀ x ∈ l, ∀ y ∈ ys, x ≠ y :=
    fun x there y here => apart x there y (List.mem_cons_of_mem r here)
  have erased : (l ++ r :: ys).erase r = l ++ ys := by
    rw [List.erase_append_right _ notLeft, List.erase_cons_head]
  rw [erased, eq, prev, next]
  have nextOf : ∀ x, x ≠ r → l.getLast? ≠ some x →
      (match l.getLast? with
        | some p => Function.update (Function.update links.next r none) p ys.head?
        | none => Function.update links.next r none) x = links.next x := by
    intro x different inner
    cases last : l.getLast? with
    | none => exact Function.update_of_ne different ..
    | some p =>
      have other : x ≠ p := by
        rintro rfl
        exact inner last
      exact (Function.update_of_ne other ..).trans (Function.update_of_ne different ..)
  have prevOf : ∀ x, x ≠ r → ys.head? ≠ some x →
      (match ys.head? with
        | some n => Function.update (Function.update links.prev r none) n l.getLast?
        | none => Function.update links.prev r none) x = links.prev x := by
    intro x different inner
    cases first : ys.head? with
    | none => exact Function.update_of_ne different ..
    | some n =>
      have other : x ≠ n := by
        rintro rfl
        exact inner first
      exact (Function.update_of_ne other ..).trans (Function.update_of_ne different ..)
  have inLeft : ∀ x ∈ l, x ≠ r ∧ ys.head? ≠ some x := by
    intro x there
    constructor
    · rintro rfl
      exact notLeft there
    · intro first
      exact between x there x (List.mem_of_mem_head? first) rfl
  have inRight : ∀ x ∈ ys, x ≠ r ∧ l.getLast? ≠ some x := by
    intro x here
    constructor
    · rintro rfl
      exact notRight here
    · intro last
      exact between x (List.mem_of_getLast? last) x here rfl
  constructor
  · exact List.nodup_append.mpr ⟨nodupLeft, nodupRest, between⟩
  · dsimp only
    rw [represents.head]
    cases l with
    | nil => simp
    | cons x l => rw [List.getLast?_cons, if_neg (fun both => Option.some_ne_none _ both.1)]; rfl
  · dsimp only
    rw [represents.tail]
    cases ys with
    | nil => simp
    | cons y ys =>
      rw [List.head?_cons, if_neg (fun both => Option.some_ne_none _ both.1)]
      simp only [List.getLast?_append, List.getLast?_cons_cons]
  · rw [segment_append, Option.or_none, Option.or_none]
    constructor
    · apply left.retarget nodupLeft
      · intro x there
        exact prevOf x (inLeft x there).1 (inLeft x there).2
      · intro x there inner
        exact nextOf x (inLeft x there).1 inner
      · intro x last
        dsimp only
        rw [last]
        exact Function.update_self ..
    · apply right.resource nodupRest
      · intro x here
        exact nextOf x (inRight x here).1 (inRight x here).2
      · intro x here inner
        exact prevOf x (inRight x here).1 inner
      · intro x first
        dsimp only
        rw [first]
        exact Function.update_self ..

end

/-! ## Several lists -/

/-- Each node is on at most one list, and the pointers of a node on no list are null. -/
structure Table (links : Links N) (ends : I → Ends N) (lists : I → List N) : Prop where
  each : ∀ i, Represents links (ends i) (lists i)
  apart : ∀ i j r, r ∈ lists i → r ∈ lists j → i = j
  loose : ∀ r, (∀ i, r ∉ lists i) → links.next r = none ∧ links.prev r = none

section

variable [DecidableEq N] [DecidableEq I] {table : I → Ends N} {lists : I → List N} {i : I}

theorem Table.pushFront (ok : Table links table lists) (new : ∀ j, r ∉ lists j) :
    Table (pushFront links (table i) r).1
      (Function.update table i (Lib.pushFront links (table i) r).2)
      (Function.update lists i (r :: lists i)) := by
  have kept : ∀ x, x ≠ r → x ∉ lists i → _ := fun x => pushFront_of_not_mem (ok.each i)
  constructor
  · intro j
    by_cases same : j = i
    · subst same
      rw [Function.update_self, Function.update_self]
      exact (ok.each j).pushFront (new j) (ok.loose r new).2
    · rw [Function.update_of_ne same, Function.update_of_ne same]
      apply (ok.each j).congr
      intro x member
      apply kept
      · rintro rfl
        exact new j member
      · intro here
        exact same (ok.apart j i x member here)
  · intro j k x first second
    have origin : ∀ j, x ∈ Function.update lists i (r :: lists i) j →
        x = r ∧ j = i ∨ x ∈ lists j := by
      intro j member
      by_cases same : j = i
      · subst same
        rw [Function.update_self, List.mem_cons] at member
        exact member.imp_left fun equal => ⟨equal, rfl⟩
      · rw [Function.update_of_ne same] at member
        exact .inr member
    rcases origin j first with ⟨own, atFirst⟩ | old
    · rcases origin k second with ⟨-, atSecond⟩ | old
      · exact atFirst.trans atSecond.symm
      · exact absurd (own ▸ old) (new k)
    · rcases origin k second with ⟨own, -⟩ | older
      · exact absurd (own ▸ old) (new j)
      · exact ok.apart j k x old older
  · intro x nowhere
    have here := nowhere i
    rw [Function.update_self, List.mem_cons, not_or] at here
    rw [(kept x here.1 here.2).1, (kept x here.1 here.2).2]
    apply ok.loose
    intro j member
    apply nowhere j
    by_cases same : j = i
    · subst same
      exact absurd member here.2
    · rwa [Function.update_of_ne same]

theorem Table.unlink (ok : Table links table lists) (member : r ∈ lists i) :
    Table (unlink links (table i) r).1
      (Function.update table i (Lib.unlink links (table i) r).2)
      (Function.update lists i ((lists i).erase r)) := by
  have kept : ∀ x, x ∉ lists i → _ := fun x => unlink_of_not_mem (ok.each i) member
  have within : ∀ j x, x ∈ Function.update lists i ((lists i).erase r) j → x ∈ lists j := by
    intro j x there
    by_cases same : j = i
    · subst same
      rw [Function.update_self] at there
      exact List.mem_of_mem_erase there
    · rwa [Function.update_of_ne same] at there
  constructor
  · intro j
    by_cases same : j = i
    · subst same
      rw [Function.update_self, Function.update_self]
      exact (ok.each j).unlink member
    · rw [Function.update_of_ne same, Function.update_of_ne same]
      apply (ok.each j).congr
      intro x there
      apply kept
      intro here
      exact same (ok.apart j i x there here)
  · intro j k x first second
    exact ok.apart j k x (within j x first) (within k x second)
  · intro x nowhere
    by_cases same : x = r
    · subst same
      exact unlink_self (ok.each i) member
    · have here : x ∉ lists i := by
        intro there
        apply nowhere i
        rw [Function.update_self]
        exact (List.mem_erase_of_ne same).mpr there
      rw [(kept x here).1, (kept x here).2]
      apply ok.loose
      intro j there
      apply nowhere j
      by_cases equal : j = i
      · subst equal
        exact absurd there here
      · rwa [Function.update_of_ne equal]

end

end NetRider.Lib
