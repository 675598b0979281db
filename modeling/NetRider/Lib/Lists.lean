import Mathlib.Data.List.Basic
import Mathlib.Data.List.Nodup

/-!
# Order of elements in a list

`[a, b] <+ l` says that `a` comes before `b` in `l`.
-/

namespace NetRider.Lib

open scoped List

variable {α : Type*}

theorem before_append_singleton {l : List α} {a b : α} (h : a ∈ l) : [a, b] <+ l ++ [b] :=
  (List.singleton_sublist.mpr h).append (List.Sublist.refl [b])

theorem mem_of_before {l : List α} {a b : α} (h : [a, b] <+ l) : a ∈ l ∧ b ∈ l :=
  ⟨h.subset (by simp), h.subset (by simp)⟩

/-- In a list without repetitions the order is strict. -/
theorem before_asymm {l : List α} (nodup : l.Nodup) {a b : α} (h : [a, b] <+ l) :
    ¬ [b, a] <+ l := by
  induction l with
  | nil => simp at h
  | cons x xs ih =>
    obtain ⟨fresh, nodup⟩ := List.nodup_cons.mp nodup
    intro h'
    rcases List.sublist_cons_iff.mp h with hx | ⟨r, hr, hx⟩
    · rcases List.sublist_cons_iff.mp h' with hx' | ⟨r', hr', _⟩
      · exact ih nodup hx hx'
      · cases hr'; exact fresh (mem_of_before hx).2
    · cases hr
      rcases List.sublist_cons_iff.mp h' with hx' | ⟨r', hr', _⟩
      · exact fresh (mem_of_before hx').2
      · cases hr'; exact fresh (List.singleton_sublist.mp hx)

/-- An element added at the end comes before nothing. -/
theorem before_snoc {l : List α} {a b t : α} (h : [a, b] <+ l ++ [t]) :
    [a, b] <+ l ∨ (a ∈ l ∧ b = t) := by
  obtain ⟨p, q, hpq, hp, hq⟩ := List.sublist_append_iff.mp h
  rcases List.sublist_singleton.mp hq with rfl | rfl
  · rw [List.append_nil] at hpq; exact .inl (hpq ▸ hp)
  · cases p with
    | nil => simp at hpq
    | cons x xs =>
      cases xs with
      | nil =>
        simp only [List.cons_append, List.nil_append, List.cons.injEq, and_true] at hpq
        exact .inr ⟨hpq.1 ▸ List.singleton_sublist.mp hp, hpq.2⟩
      | cons y ys => simp at hpq

end NetRider.Lib
