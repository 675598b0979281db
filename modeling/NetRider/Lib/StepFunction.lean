import Mathlib

/-!
# Step functions as lists of their changes

A function of an ordered type that changes its value finitely often is a list of its changes:

* `valueAt`, `Canonical`: the changes with their values; `canonical_ext`: a list that makes only
  real changes, in order, is determined by its function;
* `inside`, `odd`: a two-valued function, whose changes need no values; `inside_ext` is the same
  for it.
-/

namespace NetRider.Lib

variable {α V : Type*} [LinearOrder α]

/-! ## Changes with values -/

/-- The value at `p` if the value is `v` before the first change. -/
def valueAt : V → List (α × V) → α → V
  | v, [], _ => v
  | v, (q, w) :: changes, p => if q ≤ p then valueAt w changes p else v

/-- The value behind the last change. -/
def endValue : V → List (α × V) → V
  | v, [] => v
  | _, (_, w) :: changes => endValue w changes

/-- The changes are in order, and each of them changes the value. -/
def Canonical : V → List (α × V) → Prop
  | _, [] => True
  | v, (q, w) :: changes => w ≠ v ∧ (∀ change ∈ changes, q < change.1) ∧ Canonical w changes

theorem valueAt_before {changes : List (α × V)} {v : V} {p : α}
    (before : ∀ change ∈ changes, p < change.1) : valueAt v changes p = v := by
  cases changes with
  | nil => rfl
  | cons change changes =>
    have first : p < change.1 := before change List.mem_cons_self
    exact if_neg (not_le.mpr first)

theorem valueAt_first {changes : List (α × V)} {v w : V} {q : α}
    (after : ∀ change ∈ changes, q < change.1) : valueAt v ((q, w) :: changes) q = w := by
  rw [valueAt, if_pos le_rfl, valueAt_before after]

theorem valueAt_behind {changes : List (α × V)} {v : V} {p : α}
    (behind : ∀ change ∈ changes, change.1 ≤ p) : valueAt v changes p = endValue v changes := by
  induction changes generalizing v with
  | nil => rfl
  | cons change changes ih =>
    obtain ⟨first, rest⟩ := List.forall_mem_cons.mp behind
    rw [valueAt, if_pos first]
    exact ih rest

/-- Each change shows at its own place. -/
theorem valueAt_of_mem {changes : List (α × V)} {v w : V} {q : α} (canonical : Canonical v changes)
    (member : (q, w) ∈ changes) : valueAt v changes q = w := by
  induction changes generalizing v with
  | nil => cases member
  | cons change changes ih =>
    obtain rfl | member := List.mem_cons.mp member
    · exact valueAt_first canonical.2.1
    · have behind : change.1 ≤ q := (canonical.2.1 _ member).le
      rw [valueAt, if_pos behind]
      exact ih canonical.2.2 member

theorem valueAt_mem (v : V) (changes : List (α × V)) (p : α) :
    valueAt v changes p = v ∨ ∃ change ∈ changes, change.2 = valueAt v changes p := by
  induction changes generalizing v with
  | nil => exact .inl rfl
  | cons change changes ih =>
    rw [valueAt]
    split_ifs with behind
    · right
      obtain same | ⟨change', member, same⟩ := ih change.2
      · exact ⟨change, List.mem_cons_self, same.symm⟩
      · exact ⟨change', List.mem_cons_of_mem _ member, same⟩
    · exact .inl rfl

omit [LinearOrder α] in
theorem endValue_append (v : V) (changes : List (α × V)) (change : α × V) :
    endValue v (changes ++ [change]) = change.2 := by
  induction changes generalizing v with
  | nil => rfl
  | cons first changes ih => exact ih first.2

/-- The first place where the function changes is the first change. -/
theorem first_change_le {changes changes' : List (α × V)} {v w w' : V} {q q' : α}
    (canonical : Canonical v ((q, w) :: changes))
    (same : valueAt v ((q, w) :: changes) q = valueAt v ((q', w') :: changes') q) : q' ≤ q := by
  by_contra later
  rw [valueAt_first canonical.2.1, valueAt, if_neg later] at same
  exact canonical.1 same

/-- **Canonical lists.** Two of them with the same function are equal. -/
theorem canonical_ext {changes changes' : List (α × V)} {v : V} (canonical : Canonical v changes)
    (canonical' : Canonical v changes')
    (same : ∀ p, valueAt v changes p = valueAt v changes' p) : changes = changes' := by
  induction changes generalizing v changes' with
  | nil =>
    cases changes' with
    | nil => rfl
    | cons change' changes' =>
      have here := same change'.1
      rw [valueAt_first canonical'.2.1] at here
      exact absurd here.symm canonical'.1
  | cons change changes ih =>
    obtain ⟨q, w⟩ := change
    cases changes' with
    | nil =>
      have here := same q
      rw [valueAt_first canonical.2.1] at here
      exact absurd here canonical.1
    | cons change' changes' =>
      obtain ⟨q', w'⟩ := change'
      obtain rfl : q = q' :=
        le_antisymm (first_change_le canonical' (same q').symm) (first_change_le canonical (same q))
      have here := same q
      rw [valueAt_first canonical.2.1, valueAt_first canonical'.2.1] at here
      subst here
      congr 1
      apply ih canonical.2.2 canonical'.2.2
      intro p
      by_cases behind : q ≤ p
      · simpa only [valueAt, if_pos behind] using same p
      · have before := not_le.mp behind
        rw [valueAt_before fun change member => before.trans (canonical.2.1 change member),
          valueAt_before fun change member => before.trans (canonical'.2.1 change member)]

/-! ## Two values -/

/-- Whether the function, which is false before the first change, is true at `p`. -/
def inside : List α → α → Bool
  | [], _ => false
  | q :: changes, p => xor (decide (q ≤ p)) (inside changes p)

def odd : List α → Bool
  | [] => false
  | _ :: changes => !odd changes

theorem inside_before {changes : List α} {p : α} (before : ∀ q ∈ changes, p < q) :
    inside changes p = false := by
  induction changes with
  | nil => rfl
  | cons q changes ih =>
    have first : ¬ q ≤ p := not_le.mpr (before q List.mem_cons_self)
    rw [inside, ih fun q member => before q (List.mem_cons_of_mem _ member)]
    simpa using first

theorem inside_first {changes : List α} {q : α} (after : ∀ q' ∈ changes, q < q') :
    inside (q :: changes) q = true := by
  simp [inside, inside_before after]

theorem first_inside_le {changes changes' : List α} {q q' : α}
    (sorted : (q :: changes).Pairwise (· < ·)) (sorted' : (q' :: changes').Pairwise (· < ·))
    (same : inside (q :: changes) q = inside (q' :: changes') q) : q' ≤ q := by
  by_contra later
  have before : ∀ p ∈ q' :: changes', q < p := by
    intro p member
    obtain rfl | member := List.mem_cons.mp member
    · exact not_le.mp later
    · exact (not_le.mp later).trans (List.rel_of_pairwise_cons sorted' member)
  rw [inside_first fun _ => List.rel_of_pairwise_cons sorted, inside_before before] at same
  cases same

theorem inside_ext {changes changes' : List α} (sorted : changes.Pairwise (· < ·))
    (sorted' : changes'.Pairwise (· < ·)) (same : ∀ p, inside changes p = inside changes' p) :
    changes = changes' := by
  induction changes generalizing changes' with
  | nil =>
    cases changes' with
    | nil => rfl
    | cons q' changes' =>
      have here := same q'
      rw [inside_first fun _ => List.rel_of_pairwise_cons sorted'] at here
      cases here
  | cons q changes ih =>
    cases changes' with
    | nil =>
      have here := same q
      rw [inside_first fun _ => List.rel_of_pairwise_cons sorted] at here
      cases here
    | cons q' changes' =>
      obtain rfl : q = q' := le_antisymm (first_inside_le sorted' sorted (same q').symm)
        (first_inside_le sorted sorted' (same q))
      congr 1
      apply ih sorted.of_cons sorted'.of_cons
      intro p
      exact Bool.xor_right_inj.mp (same p)

theorem inside_append (changes changes' : List α) (p : α) :
    inside (changes ++ changes') p = xor (inside changes p) (inside changes' p) := by
  induction changes with
  | nil => simp [inside]
  | cons q changes ih => simp [inside, ih]

theorem inside_behind {changes : List α} {p : α} (behind : ∀ q ∈ changes, q ≤ p) :
    inside changes p = odd changes := by
  induction changes with
  | nil => rfl
  | cons q changes ih =>
    obtain ⟨first, rest⟩ := List.forall_mem_cons.mp behind
    simp [inside, odd, first, ih rest]

/-- Of two changes the first switches the function on and the second off. -/
theorem inside_pair {changes : List α} {q q' p : α}
    (sorted : (q :: q' :: changes).Pairwise (· < ·)) :
    inside (q :: q' :: changes) p = true ↔ (q ≤ p ∧ p < q') ∨ inside changes p = true := by
  have ordered : q < q' := List.rel_of_pairwise_cons sorted List.mem_cons_self
  simp only [inside]
  by_cases second : q' ≤ p
  · have first : q ≤ p := ordered.le.trans second
    simp [first, second, not_lt.mpr second]
  · have none : inside changes p = false := inside_before fun x member =>
      (not_le.mp second).trans (List.rel_of_pairwise_cons sorted.of_cons member)
    simp [second, none, not_le.mp second]

end NetRider.Lib
