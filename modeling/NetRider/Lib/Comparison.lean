import Mathlib.Data.List.Lex
import Mathlib.Order.Lattice

/-!
# Three-way comparison of sequences

A comparator returns a negative number, zero or a positive number. `Decides x s t` says that
`x` is right about `s` and `t` however they continue.
-/

namespace NetRider.Lib

variable {α : Type*} [LinearOrder α]

/-- `x` is negative, zero or positive as `s` is below, equal to or above `t`, and when it is
not zero the two differ at a place that both have. -/
inductive Decides : Int → List α → List α → Prop
  | same (s : List α) : Decides 0 s s
  | less {x : Int} {a b : α} (p s t : List α) (negative : x < 0) (lt : a < b) :
      Decides x (p ++ a :: s) (p ++ b :: t)
  | greater {x : Int} {a b : α} (p s t : List α) (positive : 0 < x) (lt : b < a) :
      Decides x (p ++ a :: s) (p ++ b :: t)

namespace Decides

variable {x y z : Int} {s t u : List α}

theorem append_left (p : List α) (h : Decides x s t) : Decides x (p ++ s) (p ++ t) := by
  cases h with
  | same => exact same _
  | less q s t negative lt => simpa using less (p ++ q) s t negative lt
  | greater q s t positive lt => simpa using greater (p ++ q) s t positive lt

theorem cons (a : α) (h : Decides x s t) : Decides x (a :: s) (a :: t) :=
  h.append_left [a]

/-- A difference stays the first one whatever follows. -/
theorem append_right (h : Decides x s t) (differ : x ≠ 0) (u v : List α) :
    Decides x (s ++ u) (t ++ v) := by
  cases h with
  | same => exact absurd rfl differ
  | less p s t negative lt => simpa using less p (s ++ u) (t ++ v) negative lt
  | greater p s t positive lt => simpa using greater p (s ++ u) (t ++ v) positive lt

theorem head_lt {a b : α} (negative : x < 0) (lt : a < b) : Decides x (a :: s) (b :: t) :=
  less [] s t negative lt

theorem head_gt {a b : α} (positive : 0 < x) (lt : b < a) : Decides x (a :: s) (b :: t) :=
  greater [] s t positive lt

theorem neg_swap (h : Decides x s t) : Decides (-x) t s := by
  cases h with
  | same => exact same _
  | less p s t negative lt => exact greater p t s (by omega) lt
  | greater p s t positive lt => exact less p t s (by omega) lt

theorem lt_append (p s t : List α) {a b : α} (lt : a < b) : p ++ a :: s < p ++ b :: t := by
  induction p with
  | nil => exact List.cons_lt_cons_iff.mpr (.inl lt)
  | cons c p ih => exact List.cons_lt_cons_iff.mpr (.inr ⟨rfl, ih⟩)

/-- The sign of a comparison is the lexicographic order. -/
theorem sign_eq (h : Decides x s t) : x.sign = if s < t then -1 else if s = t then 0 else 1 := by
  cases h with
  | same => simp
  | less p s t negative lt => rw [if_pos (lt_append p s t lt), Int.sign_eq_neg_one_of_neg negative]
  | greater p s t positive lt =>
    have above := lt_append p t s lt
    rw [if_neg above.not_gt, if_neg above.ne', Int.sign_eq_one_of_pos positive]

theorem nonpos_iff (h : Decides x s t) : x ≤ 0 ↔ s ≤ t := by
  cases h with
  | same => simp
  | less p s t negative lt => simp [negative.le, (lt_append p s t lt).le]
  | greater p s t positive lt => simp [positive.not_ge, (lt_append p t s lt).not_ge]

theorem neg_iff (h : Decides x s t) : x < 0 ↔ s < t := by
  cases h with
  | same => simp
  | less p s t negative lt => simp [negative, lt_append p s t lt]
  | greater p s t positive lt => simp [positive.le.not_gt, (lt_append p t s lt).not_gt]

theorem eq_zero_iff (h : Decides x s t) : x = 0 ↔ s = t := by
  cases h with
  | same => simp
  | less p s t negative lt => simp [negative.ne, lt.ne]
  | greater p s t positive lt => simp [positive.ne', lt.ne']

/-- Two comparisons of the same sequences have the same sign. -/
theorem sign_unique (h : Decides x s t) (h' : Decides y s t) : x.sign = y.sign := by
  rw [h.sign_eq, h'.sign_eq]

theorem sign_swap (h : Decides x s t) (h' : Decides y t s) : x.sign = -y.sign := by
  rw [h.sign_eq, h'.sign_eq]
  rcases lt_trichotomy s t with below | rfl | above
  · simp [below, below.not_gt, below.ne']
  · simp
  · simp [above, above.not_gt, above.ne']

theorem nonpos_trans (first : Decides x s t) (second : Decides y t u) (third : Decides z s u)
    (hx : x ≤ 0) (hy : y ≤ 0) : z ≤ 0 :=
  third.nonpos_iff.mpr ((first.nonpos_iff.mp hx).trans (second.nonpos_iff.mp hy))

end Decides

end NetRider.Lib
