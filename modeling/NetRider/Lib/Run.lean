import Mathlib.Data.List.Basic

/-!
# Runs of a partial step function

A component is a step function that may refuse an action (`none`: the code
crashed, or the action is not enabled). Two ways to speak of its runs:

* `run`: the state after a given list of actions;
* `Reach`: the states reached by steps that all meet a condition.
-/

namespace NetRider.Lib

variable {State Action Spec : Type*}

/-- The state after the actions, if none of them is refused. -/
def run (step : State → Action → Option State) : State → List Action → Option State
  | s, [] => some s
  | s, a :: as =>
    match step s a with
    | some t => run step t as
    | none => none

theorem run_append (step : State → Action → Option State) (s : State) (as bs : List Action) :
    run step s (as ++ bs) = (run step s as).bind fun t => run step t bs := by
  induction as generalizing s with
  | nil => rfl
  | cons a as ih =>
    simp only [List.cons_append, run]
    cases step s a with
    | none => rfl
    | some t => exact ih t

/-- A step function refines an abstract one along every run. -/
theorem run_simulates {step : State → Action → Option State} {spec : Spec → Action → Spec}
    {R : State → Spec → Prop}
    (one : ∀ s z a t, R s z → step s a = some t → R t (spec z a))
    {as : List Action} {s t : State} {z : Spec} (start : R s z) (h : run step s as = some t) :
    R t (as.foldl spec z) := by
  induction as generalizing s z with
  | nil => cases h; exact start
  | cons a as ih =>
    simp only [run] at h
    cases next : step s a with
    | none => simp [next] at h
    | some u =>
      simp only [next] at h
      exact ih (one s z a u start next) h

/-- The states reached from `init` by steps that all meet `ok`. -/
inductive Reach (step : State → Action → Option State) (ok : State → Action → Prop)
    (init : State) : State → Prop
  | start : Reach step ok init init
  | next {s t : State} (a : Action) :
      Reach step ok init s → ok s a → step s a = some t → Reach step ok init t

/-- What one step preserves holds in every reached state. -/
theorem Reach.invariant {step : State → Action → Option State} {ok : State → Action → Prop}
    {init s : State} {I : State → Prop} (start : I init)
    (one : ∀ s a t, I s → ok s a → step s a = some t → I t)
    (h : Reach step ok init s) : I s := by
  induction h with
  | start => exact start
  | next a _ met stepped ih => exact one _ a _ ih met stepped

/-- A run that checks the condition at every step. -/
theorem Reach.of_run {step : State → Action → Option State} {ok : State → Action → Prop}
    [∀ s a, Decidable (ok s a)] {init s t : State} {as : List Action}
    (reached : Reach step ok init s)
    (h : run (fun s a => if ok s a then step s a else none) s as = some t) :
    Reach step ok init t := by
  induction as generalizing s with
  | nil => cases h; exact reached
  | cons a as ih =>
    simp only [run] at h
    by_cases met : ok s a
    · rw [if_pos met] at h
      cases next : step s a with
      | none => simp [next] at h
      | some u =>
        simp only [next] at h
        exact ih (.next a reached met next) h
    · simp [if_neg met] at h

end NetRider.Lib
