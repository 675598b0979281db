import Mathlib

/-!
# Indexes by a key

A map that finds the members of a set by a key of theirs. No two members share a key then.
-/

namespace NetRider.Lib

variable {K N : Type*}

/-- The map finds just the members, each under its key. -/
def Indexes (map : K → Option N) (key : N → K) (members : Set N) : Prop :=
  ∀ a n, map a = some n ↔ n ∈ members ∧ key n = a

variable {map : K → Option N} {key key' : N → K} {members : Set N} {n : N} {a : K}

theorem Indexes.find (indexes : Indexes map key members) (member : n ∈ members) :
    map (key n) = some n :=
  (indexes _ n).mpr ⟨member, rfl⟩

theorem Indexes.unused (indexes : Indexes map key members) (none_ : map a = none) :
    ∀ n ∈ members, key n ≠ a := by
  rintro n member rfl
  rw [indexes.find member] at none_
  cases none_

theorem Indexes.absent (indexes : Indexes map key members) (unused : ∀ n ∈ members, key n ≠ a) :
    map a = none := by
  by_contra there
  obtain ⟨n, found⟩ := Option.ne_none_iff_exists'.mp there
  obtain ⟨member, same⟩ := (indexes a n).mp found
  exact unused n member same

theorem Indexes.inj (indexes : Indexes map key members) {k : N} (first : n ∈ members)
    (second : k ∈ members) (same : key n = key k) : n = k := by
  have found := indexes.find first
  rw [same, indexes.find second] at found
  exact (Option.some.inj found).symm

variable [DecidableEq K]

theorem Indexes.remove (indexes : Indexes map key members) (member : n ∈ members) :
    Indexes (Function.update map (key n) none) key (members \ {n}) := by
  intro a k
  by_cases same : a = key n
  · subst same
    simp only [Function.update_self, reduceCtorEq, false_iff]
    rintro ⟨⟨other, different⟩, equal⟩
    exact different (indexes.inj other member equal)
  · rw [Function.update_of_ne same, indexes]
    constructor
    · rintro ⟨other, rfl⟩
      refine ⟨⟨other, ?_⟩, rfl⟩
      rintro rfl
      exact same rfl
    · rintro ⟨⟨other, -⟩, equal⟩
      exact ⟨other, equal⟩

theorem Indexes.insert (indexes : Indexes map key members) (absent : map a = none)
    (self : key' n = a) (others : ∀ k ∈ members, key' k = key k) :
    Indexes (Function.update map a (some n)) key' (insert n members) := by
  intro b k
  by_cases same : b = a
  · subst same
    rw [Function.update_self]
    constructor
    · rintro ⟨⟩
      exact ⟨Set.mem_insert n members, self⟩
    · rintro ⟨rfl | old, equal⟩
      · rfl
      · rw [others k old] at equal
        exact absurd equal (indexes.unused absent k old)
  · rw [Function.update_of_ne same, indexes]
    constructor
    · rintro ⟨old, equal⟩
      exact ⟨.inr old, (others k old).trans equal⟩
    · rintro ⟨rfl | old, equal⟩
      · exact absurd (equal.symm.trans self) same
      · exact ⟨old, (others k old).symm.trans equal⟩

end NetRider.Lib
