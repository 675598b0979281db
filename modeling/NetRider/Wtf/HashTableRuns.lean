import NetRider.Wtf.HashTableOperations
import Mathlib.Logic.Function.Basic

/-!
# Runs of HashTables

Any number of tables, each under a name, and the finite maps they stand for: lists of entries with
different keys. An iterator is followed by the entry it stands at.
-/

namespace NetRider.Wtf.HashTables

open HashTable

variable {K V : Type} {T : Traits K V}

inductive Op (K V : Type)
  | add (i : Nat) (value : V)
  | addPassingHashCode (i : Nat) (value : V)
  | remove (i : Nat) (key : K)
  | removeIterator (i : Nat) (it : Nat)
  | clear (i : Nat)
  /-- Table `i` is made from `j`. -/
  | copy (i j : Nat)
  | assign (i j : Nat)
  | swap (i j : Nat)
  | find (i : Nat) (key : K)

/-- What an operation tells. -/
inductive Out (V : Type)
  /-- The entry in the bucket that an addition returns. -/
  | added (entry : V) (isNew : Bool)
  /-- The entry that a search finds or an iterator stands at. -/
  | found (entry : Option V)
  | done

abbrev Store (V : Type) := Nat → HashTable V

/-- The entry at an iterator. -/
def entryAt (t : HashTable V) (it : Nat) : Except Fault (Option V) :=
  if it = t.endPosition then .ok none else do return some (← t.load it)

def step (T : Traits K V) (s : Store V) : Op K V → Except Fault (Store V × Out V)
  | .add i value => do
    let (t, entry, isNew) ← (s i).add T value
    return (Function.update s i t, .added (← t.load entry) isNew)
  | .addPassingHashCode i value => do
    let (t, entry, isNew) ← (s i).addPassingHashCode T value
    return (Function.update s i t, .added (← t.load entry) isNew)
  | .remove i key => do return (Function.update s i (← (s i).remove T key), .done)
  | .removeIterator i it => do
    let entry ← entryAt (s i) it
    return (Function.update s i (← (s i).removeIterator T it), .found entry)
  | .clear i => .ok (Function.update s i (s i).clear, .done)
  | .copy i j => do return (Function.update s i (← copy T (s j)), .done)
  | .assign i j => do return (Function.update s i (← (s i).assign T (s j)), .done)
  | .swap i j =>
    let (t, t') := (s i).swap (s j)
    .ok (Function.update (Function.update s i t) j t', .done)
  | .find i key => do return (s, .found (← entryAt (s i) (← (s i).find T key)))

abbrev Maps (V : Type) := Nat → List V

/-- The same on finite maps: what an addition to `xs` makes of them and tells. -/
inductive AddStep (T : Traits K V) (value : V) (xs : List V) : List V → Out V → Prop
  | new (absent : Absent T (T.extract value) xs) : AddStep T value xs (value :: xs) (.added value true)
  | old {entry : V} (among : entry ∈ xs)
      (same : T.equal (T.extract entry) (T.extract value) = true) :
      AddStep T value xs xs (.added entry false)

/-- What a search for `key` in `xs` tells. -/
inductive FindStep (T : Traits K V) (key : K) (xs : List V) : Out V → Prop
  | none (absent : Absent T key xs) : FindStep T key xs (.found none)
  | some {entry : V} (among : entry ∈ xs) (same : T.equal (T.extract entry) key = true) :
      FindStep T key xs (.found (some entry))

/-- The same on finite maps. -/
inductive MapStep (T : Traits K V) (l : Maps V) : Op K V → Maps V → Out V → Prop
  | add {i value xs out} (adds : AddStep T value (l i) xs out) :
      MapStep T l (.add i value) (Function.update l i xs) out
  | addPassingHashCode {i value xs out} (adds : AddStep T value (l i) xs out) :
      MapStep T l (.addPassingHashCode i value) (Function.update l i xs) out
  | remove {i key} : MapStep T l (.remove i key) (Function.update l i (erase T key (l i))) .done
  | removeIterator {i it entry} (among : entry ∈ l i) :
      MapStep T l (.removeIterator i it)
        (Function.update l i (erase T (T.extract entry) (l i))) (.found (some entry))
  | removeEnd {i it} : MapStep T l (.removeIterator i it) l (.found none)
  | clear {i} : MapStep T l (.clear i) (Function.update l i []) .done
  | copy {i j} : MapStep T l (.copy i j) (Function.update l i (l j)) .done
  | assign {i j} : MapStep T l (.assign i j) (Function.update l i (l j)) .done
  | swap {i j} : MapStep T l (.swap i j) (Function.update (Function.update l i (l j)) j (l i)) .done
  | find {i key out} (finds : FindStep T key (l i) out) : MapStep T l (.find i key) l out

/-- Keys are neither empty nor deleted, and an iterator stands at an entry or at the end. -/
def Legal (T : Traits K V) (s : Store V) : Op K V → Prop
  | .add _ value | .addPassingHashCode _ value => T.Legal (T.extract value)
  | .remove _ key | .find _ key => T.Legal key
  | .removeIterator i it => Valid T (s i) it
  | _ => True

def Small (s : Store V) : Prop := ∀ i, (s i).m_tableSize < 2 ^ 28

def run (T : Traits K V) (s : Store V) : List (Op K V) → Except Fault (Store V × List (Out V))
  | [] => .ok (s, [])
  | op :: rest => do
    let (s, out) ← step T s op
    let (s, outs) ← run T s rest
    return (s, out :: outs)

inductive MapRun (T : Traits K V) : Maps V → List (Op K V) → Maps V → List (Out V) → Prop
  | nil {l} : MapRun T l [] l []
  | cons {l l' l'' op rest out outs} (first : MapStep T l op l' out)
      (others : MapRun T l' rest l'' outs) : MapRun T l (op :: rest) l'' (out :: outs)

/-- Every operation is legal, and leaves small tables. -/
def AllLegal (T : Traits K V) (s : Store V) : List (Op K V) → Prop
  | [] => True
  | op :: rest => Legal T s op ∧
    ∀ s' out, step T s op = .ok (s', out) → Small s' ∧ AllLegal T s' rest

/-- What can be seen of `t` are the entries `xs`, each once and with its own key. -/
structure Shows (T : Traits K V) (t : HashTable V) (xs : List V) : Prop where
  search : ∀ key, T.Legal key → Searched T t key xs
  visit : ∃ ys, t.visit T = .ok ys ∧ ys.Perm xs
  distinct : xs.Pairwise fun a b => T.equal (T.extract a) (T.extract b) = false
  keyCount : t.m_keyCount = xs.length
  counts : ∀ table, t.m_table = some table →
    t.m_keyCount = table.countP T.isLive ∧ t.m_deletedCount = table.countP T.isDeletedBucket

theorem Holds.shows {t : HashTable V} {xs : List V} (lawful : T.Lawful) (holds : Holds T t xs) :
    Shows T t xs where
  search key legal := search_eq lawful holds legal
  visit := visit_eq holds
  distinct := holds.distinct
  keyCount := holds.keyCount
  counts table stored := by
    cases holds with
    | null null size keyCount =>
      rw [null] at stored
      cases stored
    | filled filled low =>
      obtain rfl := Option.some.inj (filled.holds.symm.trans stored)
      refine ⟨?_, filled.deletedCount⟩
      rw [filled.keyCount, ← filled.buckets.entries.length_eq, List.countP_eq_length_filter]

def AllHold (T : Traits K V) (s : Store V) (l : Maps V) : Prop := ∀ i, Holds T (s i) (l i)

variable {s : Store V} {l : Maps V} {op : Op K V} {ops : List (Op K V)}

/-- One table is changed. -/
theorem AllHold.update (all : AllHold T s l) {i : Nat} {t : HashTable V} {xs : List V}
    (holds : Holds T t xs) : AllHold T (Function.update s i t) (Function.update l i xs) := by
  intro j
  by_cases same : j = i
  · subst same
    rw [Function.update_self, Function.update_self]
    exact holds
  · rw [Function.update_of_ne same, Function.update_of_ne same]
    exact all j

theorem Added.step {t : HashTable V} {value : V} {xs : List V} {e : Nat} {isNew : Bool}
    (added : Added T value xs t e isNew) : ∃ ys entry, t.load e = .ok entry ∧ Holds T t ys ∧
      AddStep T value xs ys (.added entry isNew) := by
  rcases added with ⟨rfl, absent, holds, loads⟩ | ⟨rfl, holds, b, among, loads, same⟩
  · exact ⟨_, value, loads, holds, .new absent⟩
  · exact ⟨_, b, loads, holds, .old among same⟩

theorem entryAt_end {t : HashTable V} : entryAt t t.endPosition = .ok none := if_pos rfl

theorem step_eq (lawful : T.Lawful) (all : AllHold T s l) (small : Small s) (legal : Legal T s op) :
    ∃ s' l' out, step T s op = .ok (s', out) ∧ AllHold T s' l' ∧ MapStep T l op l' out := by
  have small' (i) : (s i).m_tableSize < 2 ^ 29 := Nat.lt_trans (small i) (by decide)
  cases op with
  | add i value =>
    obtain ⟨t, e, isNew, adds, added, -⟩ := add_eq lawful (all i) legal (small' i)
    obtain ⟨ys, entry, loads, holds, adds'⟩ := added.step
    refine ⟨_, _, _, ?_, all.update holds, .add adds'⟩
    simp only [step, adds, ok_bind, loads, pure_eq]
  | addPassingHashCode i value =>
    obtain ⟨t, e, isNew, adds, added, -⟩ := addPassingHashCode_eq lawful (all i) legal (small' i)
    obtain ⟨ys, entry, loads, holds, adds'⟩ := added.step
    refine ⟨_, _, _, ?_, all.update holds, .addPassingHashCode adds'⟩
    simp only [step, adds, ok_bind, loads, pure_eq]
  | remove i key =>
    obtain ⟨t, removes, holds⟩ := remove_eq lawful (all i) (small' i) legal
    refine ⟨_, _, _, ?_, all.update holds, .remove⟩
    simp only [step, removes, ok_bind, pure_eq]
  | removeIterator i it =>
    obtain ⟨t, removes, ⟨last, holds⟩ | ⟨inside, b, among, loads, holds⟩⟩ :=
      removeIterator_eq lawful (all i) (small' i) legal
    · have kept := all.update (i := i) holds
      rw [Function.update_eq_self] at kept
      refine ⟨_, _, _, ?_, kept, .removeEnd⟩
      subst last
      simp only [step, entryAt_end, removes, ok_bind, pure_eq]
    · refine ⟨_, _, _, ?_, all.update holds, .removeIterator among⟩
      simp only [step, entryAt, if_neg inside, loads, removes, ok_bind, pure_eq]
  | clear i => exact ⟨_, _, _, rfl, all.update (clear_eq (all i)), .clear⟩
  | copy i j =>
    obtain ⟨t, copies, holds⟩ := copy_eq lawful (all j) (small j)
    refine ⟨_, _, _, ?_, all.update holds, .copy⟩
    simp only [step, copies, ok_bind, pure_eq]
  | assign i j =>
    obtain ⟨t, assigns, holds⟩ := @assign_eq _ _ T (s i) _ _ lawful (all j) (small j)
    refine ⟨_, _, _, ?_, all.update holds, .assign⟩
    simp only [step, assigns, ok_bind, pure_eq]
  | swap i j => exact ⟨_, _, _, rfl, (all.update (all j)).update (all i), .swap⟩
  | find i key =>
    rcases search_eq lawful (all i) legal with ⟨-, finds, -, absent⟩ |
      ⟨e, b, -, finds, -, loads, among, same⟩
    · refine ⟨s, l, _, ?_, all, .find (.none absent)⟩
      simp only [step, finds, ok_bind, entryAt_end, pure_eq]
    · refine ⟨s, l, _, ?_, all, .find (.some among same)⟩
      have inside : e ≠ (s i).endPosition := by
        cases holds : (s i).m_table with
        | none =>
          rw [load, holds] at loads
          cases loads
        | some table =>
          have before := lt_of_stored (stored_of_load holds loads)
          rw [endPosition, (all i).size holds]
          omega
      simp only [step, finds, ok_bind, entryAt, if_neg inside, loads, pure_eq]

theorem run_eq (lawful : T.Lawful) (all : AllHold T s l) (small : Small s)
    (legal : AllLegal T s ops) :
    ∃ s' l' outs, run T s ops = .ok (s', outs) ∧ AllHold T s' l' ∧ MapRun T l ops l' outs := by
  induction ops generalizing s l with
  | nil => exact ⟨s, l, [], rfl, all, .nil⟩
  | cons op rest ih =>
    obtain ⟨s', l', out, steps, all', first⟩ := step_eq lawful all small legal.1
    obtain ⟨small', legal'⟩ := legal.2 s' out steps
    obtain ⟨s'', l'', outs, runs, all'', others⟩ := ih all' small' legal'
    refine ⟨s'', l'', out :: outs, ?_, all'', .cons first others⟩
    simp only [run, steps, runs, ok_bind, pure_eq]

/-- **Hash tables are finite maps.** -/
theorem hashTables_refine_maps (lawful : T.Lawful) (ops : List (Op K V))
    (legal : AllLegal T (fun _ => empty) ops) :
    ∃ s l outs, run T (fun _ => empty) ops = .ok (s, outs) ∧
      MapRun T (fun _ => []) ops l outs ∧ ∀ i, Shows T (s i) (l i) := by
  obtain ⟨s, l, outs, runs, all, maps⟩ := run_eq lawful (fun _ => holds_empty)
    (fun _ => Nat.two_pow_pos 28) legal
  exact ⟨s, l, outs, runs, maps, fun i => (all i).shows lawful⟩

/-- Numbers under themselves, 0 the empty and 1 the deleted value. -/
def numbers : Traits Nat Nat :=
  ⟨id, BitVec.ofNat 32, (· == ·), true, (· == 0), (· == 1), 0, 1, 8⟩

theorem numbers_lawful : numbers.Lawful where
  refl _ := beq_self_eq_true _
  symm same := beq_iff_eq.mpr (beq_iff_eq.mp same).symm
  trans same same' := beq_iff_eq.mpr ((beq_iff_eq.mp same).trans (beq_iff_eq.mp same'))
  hash same := congrArg _ (beq_iff_eq.mp same)
  empty := rfl
  empty_deleted := rfl
  deleted := rfl
  deleted_empty := rfl
  minimum := ⟨2, by decide, rfl⟩

theorem Small.update {t : HashTable V} (small : Small s) (i : Nat) (size : t.m_tableSize < 2 ^ 28) :
    Small (Function.update s i t) := by
  intro j
  by_cases same : j = i
  · subst same
    rw [Function.update_self]
    exact size
  · rw [Function.update_of_ne same]
    exact small j

theorem AllLegal.cons {s' : Store V} {out : Out V} (first : Legal T s op)
    (steps : step T s op = .ok (s', out)) (small : Small s') (rest : AllLegal T s' ops) :
    AllLegal T s (op :: ops) := by
  refine ⟨first, fun s'' out' steps' => ?_⟩
  obtain ⟨rfl, -⟩ := Prod.mk.inj (Except.ok.inj (steps.symm.trans steps'))
  exact ⟨small, rest⟩

theorem hashTables_refine_maps_collision : ∃ s l outs,
    run numbers (fun _ => empty) [.add 0 5, .add 0 13, .remove 0 5, .copy 1 0] = .ok (s, outs) ∧
      MapRun numbers (fun _ => []) [.add 0 5, .add 0 13, .remove 0 5, .copy 1 0] l outs ∧
      ∀ i, Shows numbers (s i) (l i) := by
  have start : Small (fun _ => (empty : HashTable Nat)) := fun _ => Nat.two_pow_pos 28
  have one := start.update (t := ⟨some [0, 0, 0, 0, 0, 5, 0, 0], 8, 7, 1, 0⟩) 0 (by decide)
  have two := one.update (t := ⟨some [0, 0, 0, 0, 0, 5, 13, 0], 8, 7, 2, 0⟩) 0 (by decide)
  have three := two.update (t := ⟨some [0, 0, 0, 0, 0, 1, 13, 0], 8, 7, 1, 1⟩) 0 (by decide)
  have four := three.update (t := ⟨some [0, 0, 0, 0, 0, 13, 0, 0], 8, 7, 1, 0⟩) 1 (by decide)
  have legal : AllLegal numbers (fun _ => empty) [.add 0 5, .add 0 13, .remove 0 5, .copy 1 0] :=
    .cons ⟨rfl, rfl, rfl⟩ (show step numbers _ (.add 0 5) = .ok (_, .added 5 true) from rfl) one
      (.cons ⟨rfl, rfl, rfl⟩ (show step numbers _ (.add 0 13) = .ok (_, .added 13 true) from rfl) two
        (.cons ⟨rfl, rfl, rfl⟩ (show step numbers _ (.remove 0 5) = .ok (_, .done) from rfl) three
          (.cons trivial (show step numbers _ (.copy 1 0) = .ok (_, .done) from rfl) four trivial)))
  exact hashTables_refine_maps numbers_lawful _ legal

end NetRider.Wtf.HashTables
