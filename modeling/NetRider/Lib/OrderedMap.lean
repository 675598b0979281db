import Mathlib.Data.Finset.Max
import Mathlib.Order.Bounds.Basic

/-!
# Finite maps over a linear order

The map as its users see it: which keys it has, what each holds, and the
nearest key before or after a given one.
-/

namespace NetRider.Lib

variable {K V : Type*}

section
variable [LinearOrder K]

def least (s : Finset K) : Option K := if h : s.Nonempty then some (s.min' h) else none

def greatest (s : Finset K) : Option K := if h : s.Nonempty then some (s.max' h) else none

theorem least_spec (s : Finset K) :
    match least s with
    | none => ∀ x, x ∉ s
    | some k => k ∈ s ∧ ∀ x ∈ s, k ≤ x := by
  unfold least
  by_cases h : s.Nonempty
  · simpa [h] using ⟨s.min'_mem h, fun x hx => s.min'_le x hx⟩
  · simpa [h] using fun x hx => h ⟨x, hx⟩

theorem greatest_spec (s : Finset K) :
    match greatest s with
    | none => ∀ x, x ∉ s
    | some k => k ∈ s ∧ ∀ x ∈ s, x ≤ k := by
  unfold greatest
  by_cases h : s.Nonempty
  · simpa [h] using ⟨s.max'_mem h, fun x hx => s.le_max' x hx⟩
  · simpa [h] using fun x hx => h ⟨x, hx⟩

end

structure OrderedMap (K V : Type*) where
  keys : Finset K
  get : K → Option V
  mem_keys : ∀ k, k ∈ keys ↔ (get k).isSome = true

namespace OrderedMap

def empty : OrderedMap K V := ⟨∅, fun _ => none, by simp⟩

variable [LinearOrder K]

def insert (m : OrderedMap K V) (k : K) (v : V) : OrderedMap K V where
  keys := Insert.insert k m.keys
  get := Function.update m.get k (some v)
  mem_keys x := by
    by_cases h : x = k
    · simp [h]
    · simp [h, m.mem_keys]

@[simp]
theorem insert_keys (m : OrderedMap K V) (k : K) (v : V) :
    (m.insert k v).keys = Insert.insert k m.keys :=
  rfl

def last (m : OrderedMap K V) : Option K := greatest m.keys

def firstFrom (m : OrderedMap K V) (k : K) : Option K := least (m.keys.filter (k ≤ ·))

def firstAfter (m : OrderedMap K V) (k : K) : Option K := least (m.keys.filter (k < ·))

def lastBefore (m : OrderedMap K V) (k : K) : Option K := greatest (m.keys.filter (· < k))

omit [LinearOrder K] in
theorem get_eq_none {m : OrderedMap K V} {k : K} (h : k ∉ m.keys) : m.get k = none := by
  simpa using mt (m.mem_keys k).mpr h

end OrderedMap

end NetRider.Lib
