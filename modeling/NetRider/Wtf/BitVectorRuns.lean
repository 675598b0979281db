import NetRider.Wtf.BitVectorCounts
import Mathlib.Logic.Function.Basic

/-!
# Runs of BitVectors

Any number of vectors, each under a name, and the sets they stand for. Two kinds of step lose or
leave a word: a merge with a vector that has fewer words, and the intersection of a vector that is
out of line with one that is not. The sizes that `create` can round up end below `2 ^ 32`.
-/

namespace NetRider.Wtf.BitVectors

open BitVector

inductive Op
  | set (i : Nat) (bit : Nat)
  | clear (i : Nat) (bit : Nat)
  | ensureSize (i : Nat) (numBits : Nat)
  | clearAll (i : Nat)
  | assign (i j : Nat)
  | merge (i j : Nat)
  | filter (i j : Nat)
  | exclude (i j : Nat)

abbrev Store := Nat → BitVector

def step (s : Store) : Op → Except Fault Store
  | .set i bit => do return Function.update s i (← (s i).set bit)
  | .clear i bit => do return Function.update s i (← (s i).clear bit)
  | .ensureSize i numBits => do return Function.update s i (← (s i).ensureSize numBits)
  | .clearAll i => do return Function.update s i (← (s i).clearAll)
  | .assign i j => do return Function.update s i (← (s i).assign (s j))
  | .merge i j => do return Function.update s i (← (s i).merge (s j))
  | .filter i j => do return Function.update s i (← (s i).filter (s j))
  | .exclude i j => do return Function.update s i (← (s i).exclude (s j))

abbrev Sets := Nat → Set Nat

/-- The same on sets. -/
def setStep (l : Sets) : Op → Sets
  | .set i bit => Function.update l i (insert bit (l i))
  | .clear i bit => Function.update l i (l i \ {bit})
  | .ensureSize _ _ => l
  | .clearAll i => Function.update l i ∅
  | .assign i j => Function.update l i (l j)
  | .merge i j => Function.update l i (l i ∪ l j)
  | .filter i j => Function.update l i (l i ∩ l j)
  | .exclude i j => Function.update l i (l i \ l j)

def run (s : Store) : List Op → Except Fault Store
  | [] => .ok s
  | op :: rest => do run (← step s op) rest

def setRun (l : Sets) (ops : List Op) : Sets := ops.foldl setStep l

/-- The step does not come to a defect. -/
def Fits (s : Store) : Op → Prop
  | .set _ bit => bit < 2 ^ 32 - 64
  | .ensureSize _ numBits => numBits ≤ 2 ^ 32 - 64
  | .merge i j => ¬ Shorter (s i) (s j)
  | .filter i j => ¬ Leftover (s i) (s j)
  | _ => True

def AllFit (s : Store) : List Op → Prop
  | [] => True
  | op :: rest => Fits s op ∧ ∀ s', step s op = .ok s' → AllFit s' rest

/-- `v` is valid and stands for `S`. -/
def Holds (v : BitVector) (S : Set Nat) : Prop := v.Valid ∧ ∀ i, v.Has i ↔ i ∈ S

/-- What is read of `v` is right for `S`. -/
structure Shows (v : BitVector) (S : Set Nat) : Prop where
  get : ∀ i, ∃ b, v.get i = .ok b ∧ (b = true ↔ i ∈ S)
  bitCount : v.bitCount = .ok S.ncard

/-- What is computed of `v` and `other` is right for `S` and `T`. -/
structure Compares (v other : BitVector) (S T : Set Nat) : Prop where
  equals : ∃ b, v.equals other = .ok b ∧ (b = true ↔ S = T)
  hash : S = T → ∃ h, v.hash = .ok h ∧ other.hash = .ok h

variable {v v' other : BitVector} {S T : Set Nat} {s : Store} {l : Sets} {op : Op}
  {ops : List Op}

theorem Holds.shows (holds : Holds v S) : Shows v S where
  get i := ⟨_, get_eq holds.1, holds.2 i⟩
  bitCount := by
    rw [bitCount_eq holds.1, show {i | v.Has i} = S from Set.ext holds.2]

theorem Holds.compares (holds : Holds v S) (holds' : Holds other T) : Compares v other S T where
  equals := by
    obtain ⟨b, equals, iff⟩ := equals_eq holds.1 holds'.1
    refine ⟨b, equals, iff.trans ?_⟩
    rw [Set.ext_iff]
    exact forall_congr' fun i => iff_congr (holds.2 i) (holds'.2 i)
  hash same := by
    refine ⟨_, hash_eq holds.1, ?_⟩
    rw [← hash_eq holds.1]
    refine hash_congr holds'.1 holds.1 fun i => ?_
    rw [holds.2, holds'.2, same]

def AllHold (s : Store) (l : Sets) : Prop := ∀ i, Holds (s i) (l i)

/-- One vector is changed. -/
theorem AllHold.update (all : AllHold s l) {i : Nat} (holds : Holds v S) :
    AllHold (Function.update s i v) (Function.update l i S) := by
  intro j
  by_cases same : j = i
  · subst same
    rw [Function.update_self, Function.update_self]
    exact holds
  · rw [Function.update_of_ne same, Function.update_of_ne same]
    exact all j

theorem step_eq (all : AllHold s l) (fits : Fits s op) :
    ∃ s', step s op = .ok s' ∧ AllHold s' (setStep l op) := by
  have has (i j) : (s i).Has j ↔ j ∈ l i := (all i).2 j
  cases op with
  | set i bit =>
    obtain ⟨v, sets, valid, members⟩ := set_eq (all i).1 fits
    refine ⟨_, ?_, all.update ⟨valid, fun j => ?_⟩⟩
    · simp only [step, sets, bind, Except.bind, pure, Except.pure]
    · rw [members, has, Set.mem_insert_iff]
  | clear i bit =>
    obtain ⟨v, clears, valid, members⟩ := @clear_eq bit _ (all i).1
    refine ⟨_, ?_, all.update ⟨valid, fun j => ?_⟩⟩
    · simp only [step, clears, bind, Except.bind, pure, Except.pure]
    · rw [members, has, Set.mem_sdiff, Set.mem_singleton_iff, and_comm]
  | ensureSize i numBits =>
    have small : numBits ≤ 2 ^ 32 - 64 := fits
    obtain ⟨v, ensures, valid, -, members⟩ := @ensureSize_eq numBits _ (all i).1 (by omega)
    have kept : AllHold (Function.update s i v) (Function.update l i (l i)) :=
      all.update ⟨valid, fun j => by rw [Has, members, ← has, Has]⟩
    rw [Function.update_eq_self] at kept
    refine ⟨_, ?_, kept⟩
    simp only [step, ensures, bind, Except.bind, pure, Except.pure]
  | clearAll i =>
    obtain ⟨v, clears, valid, none⟩ := clearAll_eq (all i).1
    refine ⟨_, ?_, all.update ⟨valid, fun j => iff_of_false (none j) (Set.notMem_empty j)⟩⟩
    simp only [step, clears, bind, Except.bind, pure, Except.pure]
  | assign i k =>
    obtain ⟨v, assigns, valid, members⟩ := @assign_eq (s i) _ (all k).1
    refine ⟨_, ?_, all.update ⟨valid, fun j => (members j).trans (has k j)⟩⟩
    simp only [step, assigns, bind, Except.bind, pure, Except.pure]
  | merge i k =>
    obtain ⟨v, merges, valid, members⟩ := merge_eq (all i).1 (all k).1 fits
    refine ⟨_, ?_, all.update ⟨valid, fun j => ?_⟩⟩
    · simp only [step, merges, bind, Except.bind, pure, Except.pure]
    · rw [members, has, has, Set.mem_union]
  | filter i k =>
    obtain ⟨v, filters, valid, members⟩ := filter_eq (all i).1 (all k).1 fits
    refine ⟨_, ?_, all.update ⟨valid, fun j => ?_⟩⟩
    · simp only [step, filters, bind, Except.bind, pure, Except.pure]
    · rw [members, has, has, Set.mem_inter_iff]
  | exclude i k =>
    obtain ⟨v, excludes, valid, members⟩ := exclude_eq (all i).1 (all k).1
    refine ⟨_, ?_, all.update ⟨valid, fun j => ?_⟩⟩
    · simp only [step, excludes, bind, Except.bind, pure, Except.pure]
    · rw [members, has, has, Set.mem_sdiff]

theorem run_eq (all : AllHold s l) (fit : AllFit s ops) :
    ∃ s', run s ops = .ok s' ∧ AllHold s' (setRun l ops) := by
  induction ops generalizing s l with
  | nil => exact ⟨s, rfl, all⟩
  | cons op rest ih =>
    obtain ⟨s', steps, all'⟩ := step_eq all fit.1
    obtain ⟨s'', runs, all''⟩ := ih all' (fit.2 s' steps)
    refine ⟨s'', ?_, all''⟩
    simp only [run, steps, bind, Except.bind]
    exact runs

theorem holds_empty : Holds empty ∅ :=
  ⟨valid_empty, fun i => iff_of_false has_empty (Set.notMem_empty i)⟩

/-- **A run without a defect computes with sets.** -/
theorem bitVectors_are_sets (ops : List Op) (fit : AllFit (fun _ => empty) ops) :
    ∃ s, run (fun _ => empty) ops = .ok s ∧
      (∀ i, Shows (s i) (setRun (fun _ => ∅) ops i)) ∧
      ∀ i j, Compares (s i) (s j) (setRun (fun _ => ∅) ops i) (setRun (fun _ => ∅) ops j) := by
  obtain ⟨s, runs, all⟩ := run_eq (fun _ => holds_empty) fit
  exact ⟨s, runs, fun i => (all i).shows, fun i j => (all i).compares (all j)⟩

theorem bitVectors_are_sets_mixed : ∃ s,
    run (fun _ => empty) [.set 0 3, .set 1 70, .merge 0 1, .filter 1 0, .clear 0 3] = .ok s ∧
      Shows (s 0) {70} ∧ Compares (s 0) (s 1) {70} {70} := by
  have fit : AllFit (fun _ => empty)
      [.set 0 3, .set 1 70, .merge 0 1, .filter 1 0, .clear 0 3] := by
    refine ⟨(by decide : 3 < 2 ^ 32 - 64), fun s steps => ?_⟩
    obtain rfl := Except.ok.inj steps
    refine ⟨(by decide : 70 < 2 ^ 32 - 64), fun s steps => ?_⟩
    obtain rfl := Except.ok.inj steps
    refine ⟨fun shorter => absurd shorter.1 (by decide), fun s steps => ?_⟩
    obtain rfl := Except.ok.inj steps
    exact ⟨fun leftover => absurd leftover.2.1 (by decide), fun s steps => ⟨trivial,
      fun s steps => trivial⟩⟩
  obtain ⟨s, runs, shows, compares⟩ := bitVectors_are_sets _ fit
  have first : setRun (fun _ => ∅)
      [.set 0 3, .set 1 70, .merge 0 1, .filter 1 0, .clear 0 3] 0 = {70} := by
    ext i
    simp [setRun, setStep]
  have second : setRun (fun _ => ∅)
      [.set 0 3, .set 1 70, .merge 0 1, .filter 1 0, .clear 0 3] 1 = {70} := by
    ext i
    simp [setRun, setStep]
  have compares' := compares 0 1
  rw [first, second] at compares'
  exact ⟨s, runs, first ▸ shows 0, compares'⟩

/-- An intersection with an empty vector leaves a bit behind, and a merge reads behind the words
of the other vector. -/
theorem filter_leaves_bit :
    (∃ s, run (fun _ => empty) [.set 0 64, .filter 0 1] = .ok s ∧ (s 0).get 64 = .ok true ∧
      64 ∉ setRun (fun _ => ∅) [.set 0 64, .filter 0 1] 0) ∧
    run (fun _ => empty) [.set 0 64, .ensureSize 1 64, .merge 0 1] = .error .outside := by
  refine ⟨⟨_, rfl, by rfl, ?_⟩, by rfl⟩
  simp [setRun, setStep]

end NetRider.Wtf.BitVectors
