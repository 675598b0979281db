import NetRider.LevelDb.Transaction

/-!
# The overlay of a transaction over its snapshot

What the merged iterator is for: it walks the keys that are live in the overlay of the tree over
the snapshot, in one direction.

* `Lands` says that the iterator stands on the nearest live key of a region;
* `Merged` says where the two cursors stand for a region of keys still to come;
* skipping deleted keys keeps `Merged` and ends on a live key.
-/

namespace NetRider.LevelDb

open NetRider.Lib

variable {K V : Type} [LinearOrder K]

/-! ## The order an iterator walks in -/

def Precedes (d : Direction) (a b : K) : Prop :=
  match d with
  | .kForward => a < b
  | .kReverse => b < a

theorem Precedes.irrefl {d : Direction} {a : K} : ¬ Precedes d a a := by
  cases d <;> exact lt_irrefl a

theorem Precedes.trans {d : Direction} {a b c : K} (ab : Precedes d a b) (bc : Precedes d b c) :
    Precedes d a c := by
  cases d with
  | kForward => exact lt_trans (show a < b from ab) bc
  | kReverse => exact lt_trans (show c < b from bc) ab

theorem Precedes.asymm {d : Direction} {a b : K} (ab : Precedes d a b) : ¬ Precedes d b a :=
  fun ba => irrefl (ab.trans ba)

theorem precedes_or_eq {d : Direction} {a b : K} (h : ¬ Precedes d b a) :
    a = b ∨ Precedes d a b := by
  cases d with
  | kForward => exact (not_lt.mp h : a ≤ b).eq_or_lt
  | kReverse => exact (not_lt.mp h : b ≤ a).eq_or_lt.imp_left Eq.symm

/-- What precedes nothing that `b` comes before precedes nothing `a` comes before. -/
theorem Precedes.not_of_not {d : Direction} {a b c : K} (ab : Precedes d a b)
    (h : ¬ Precedes d c b) : Precedes d a c := by
  rcases precedes_or_eq h with rfl | bc
  · exact ab
  · exact ab.trans bc

theorem comesFirst_iff {d : Direction} {a b : K} :
    LevelDBTransaction.comesFirst d a b = true ↔ Precedes d a b := by
  cases d <;> simp [LevelDBTransaction.comesFirst, Precedes]

/-- The first key with `P`, in the direction of travel. -/
def Nearest (d : Direction) (P : K → Prop) : Option K → Prop
  | none => ∀ k, ¬ P k
  | some k => P k ∧ ∀ j, P j → ¬ Precedes d j k

theorem nearest_congr {d : Direction} {P Q : K → Prop} (h : ∀ k, P k ↔ Q k) {o : Option K} :
    Nearest d P o ↔ Nearest d Q o := by
  rw [show P = Q from funext fun k => propext (h k)]

theorem least_nearest {P : K → Prop} [DecidablePred P] (s : Finset K) :
    Nearest .kForward (fun k => k ∈ s ∧ P k) (least (s.filter P)) := by
  have spec := least_spec (s.filter P)
  cases h : least (s.filter P) with
  | none => simpa [h, Nearest] using spec
  | some k =>
    simp only [h, Finset.mem_filter] at spec
    exact ⟨spec.1, fun j has => not_lt.mpr (spec.2 j has)⟩

theorem greatest_nearest {P : K → Prop} [DecidablePred P] (s : Finset K) :
    Nearest .kReverse (fun k => k ∈ s ∧ P k) (greatest (s.filter P)) := by
  have spec := greatest_spec (s.filter P)
  cases h : greatest (s.filter P) with
  | none => simpa [h, Nearest] using spec
  | some k =>
    simp only [h, Finset.mem_filter] at spec
    exact ⟨spec.1, fun j has => not_lt.mpr (spec.2 j has)⟩

/-! ## The overlay -/

namespace LevelDBTransaction

/-- What the transaction holds at `k`: the tree's entry if it has one, else the snapshot's. -/
def live (x : LevelDBTransaction K V) (k : K) : Option V :=
  match x.tree.nodes.get k with
  | some node => if node.deleted then none else some node.value
  | none => x.snapshot.get k

/-- The iterator stands on the nearest live key of the region, with its value, and is
invalid exactly when there is none. -/
structure Lands (d : Direction) (R : K → Prop) (x : LevelDBTransaction K V) : Prop where
  valid : x.isValid = x.key.isSome
  nearest : Nearest d (fun k => R k ∧ (x.live k).isSome = true) x.key
  value : ∀ k, x.key = some k → x.value = x.live k

omit [LinearOrder K] in
theorem live_of_not_mem {x : LevelDBTransaction K V} {k : K} (h : k ∉ x.tree.nodes.keys) :
    x.live k = x.snapshot.get k := by
  simp [live, OrderedMap.get_eq_none h]

omit [LinearOrder K] in
/-- A live key outside the tree is one of the snapshot's. -/
theorem mem_of_live {x : LevelDBTransaction K V} {k : K} (lives : (x.live k).isSome = true)
    (absent : k ∉ x.tree.nodes.keys) : k ∈ x.snapshot.keys := by
  rw [live_of_not_mem absent] at lives
  exact (x.snapshot.mem_keys k).mpr lives

/-! ## The cursors -/

/-- The tree cursor is on the nearest tree key of the region, by a path of this tree. -/
def TreeNear (d : Direction) (R : K → Prop) (x : LevelDBTransaction K V) (t : TreeIterator K) :
    Prop :=
  t.stamp = x.tree.inserts ∧ Nearest d (fun k => k ∈ x.tree.nodes.keys ∧ R k) t.position

/-- The database cursor has passed no key of the region that the tree does not hold. -/
def DbNear (d : Direction) (R : K → Prop) (x : LevelDBTransaction K V) : Option K → Prop
  | none => ∀ k ∈ x.snapshot.keys, R k → k ∈ x.tree.nodes.keys
  | some c => c ∈ x.snapshot.keys ∧ R c ∧
      ∀ k ∈ x.snapshot.keys, R k → k ∈ x.tree.nodes.keys ∨ ¬ Precedes d k c

/-- Both cursors are set for the region `R`, which reaches to the end. -/
structure Merged (d : Direction) (R : K → Prop) (x : LevelDBTransaction K V) : Prop where
  direction : x.iterator.direction = d
  up : ∀ a b, R a → Precedes d a b → R b
  tree : TreeNear d R x x.iterator.treeIterator
  db : DbNear d R x x.iterator.dbIterator

theorem firstAfter_nearest (m : OrderedMap K V) (c : K) :
    Nearest .kForward (fun k => k ∈ m.keys ∧ Precedes .kForward c k) (m.firstAfter c) :=
  least_nearest (P := (c < ·)) m.keys

theorem lastBefore_nearest (m : OrderedMap K V) (c : K) :
    Nearest .kReverse (fun k => k ∈ m.keys ∧ Precedes .kReverse c k) (m.lastBefore c) :=
  greatest_nearest (P := (· < c)) m.keys

theorem dbStep_near (d : Direction) (x : LevelDBTransaction K V) (c : K) :
    ∃ db, x.dbStep d (some c) = some db ∧
      Nearest d (fun k => k ∈ x.snapshot.keys ∧ Precedes d c k) db := by
  refine ⟨_, rfl, ?_⟩
  cases d with
  | kForward => exact firstAfter_nearest _ _
  | kReverse => exact lastBefore_nearest _ _

theorem treeStep_near {d : Direction} {x : LevelDBTransaction K V} {t : TreeIterator K} {c : K}
    (fresh : t.stamp = x.tree.inserts) (at_c : t.position = some c) :
    ∃ t', x.treeStep d t = some t' ∧ TreeNear d (Precedes d c) x t' := by
  cases d with
  | kForward =>
    refine ⟨⟨x.tree.nodes.firstAfter c, x.tree.inserts⟩, ?_, rfl, firstAfter_nearest _ _⟩
    simp [treeStep, TreeIterator.next, TreeIterator.path, fresh, at_c]
  | kReverse =>
    refine ⟨⟨x.tree.nodes.lastBefore c, x.tree.inserts⟩, ?_, rfl, lastBefore_nearest _ _⟩
    simp [treeStep, TreeIterator.prev, TreeIterator.path, fresh, at_c]

theorem dbNear_of_nearest {d : Direction} {R : K → Prop} {x : LevelDBTransaction K V}
    {db : Option K} (h : Nearest d (fun k => k ∈ x.snapshot.keys ∧ R k) db) : DbNear d R x db := by
  cases db with
  | none => exact fun k mem inR => absurd ⟨mem, inR⟩ (h k)
  | some c => exact ⟨h.1.1, h.1.2, fun k mem inR => .inr (h.2 k ⟨mem, inR⟩)⟩

/-! ## Settling on a live key -/

theorem resolveConflict_merged {d : Direction} {R : K → Prop} {x : LevelDBTransaction K V}
    (merged : Merged d R x) :
    ∃ db, x.resolveConflict = some (x.withIterator { x.iterator with dbIterator := db }) ∧
      DbNear d R x db ∧
      (∀ k, x.iterator.treeIterator.position = some k → db ≠ some k) := by
  obtain ⟨rfl, up, ⟨-, tree⟩, db⟩ := merged
  by_cases conflict : x.iterator.treeIterator.isValid = true ∧
      x.iterator.treeIterator.position = x.iterator.dbIterator
  · obtain ⟨k, at_k⟩ := Option.isSome_iff_exists.mp conflict.1
    have db_k : x.iterator.dbIterator = some k := conflict.2 ▸ at_k
    obtain ⟨db', stepped, near⟩ := dbStep_near x.iterator.direction x k
    rw [at_k] at tree
    rw [db_k] at db
    refine ⟨db', by simp [resolveConflict, conflict, db_k, stepped], ?_, ?_⟩
    · -- what the tree does not hold was not before `k`, and is not `k`
      have ahead : ∀ j ∈ x.snapshot.keys, R j → j ∈ x.tree.nodes.keys ∨
          Precedes x.iterator.direction k j := by
        intro j mem inR
        apply (db.2.2 j mem inR).elim .inl
        intro h
        rcases precedes_or_eq h with rfl | h
        · exact .inl tree.1.1
        · exact .inr h
      cases db' with
      | none =>
        intro j mem inR
        exact (ahead j mem inR).resolve_right fun h => near j ⟨mem, h⟩
      | some c =>
        refine ⟨near.1.1, up k c tree.1.2 near.1.2, ?_⟩
        intro j mem inR
        exact (ahead j mem inR).imp_right fun h => near.2 j ⟨mem, h⟩
    · rintro j at_j rfl
      obtain rfl : k = j := Option.some.inj (at_k.symm.trans at_j)
      exact Precedes.irrefl near.1.2
  · refine ⟨x.iterator.dbIterator, by simp [resolveConflict, conflict, withIterator], db, ?_⟩
    intro k at_k db_k
    exact conflict ⟨by simp [TreeIterator.isValid, at_k], at_k.trans db_k.symm⟩

/-- The cursors differ and the tree's is not on a marker that comes first. -/
structure Settled (d : Direction) (x : LevelDBTransaction K V) : Prop where
  apart : ∀ k, x.iterator.treeIterator.position = some k → x.iterator.dbIterator ≠ some k
  shown : ∀ k, x.iterator.treeIterator.position = some k →
    (∀ c, x.iterator.dbIterator = some c → Precedes d k c) →
    ∃ node, x.tree.nodes.get k = some node ∧ node.deleted = false

/-- The node a tree cursor stands on. -/
theorem node_at {d : Direction} {R : K → Prop} {x : LevelDBTransaction K V} {k : K}
    (near : TreeNear d R x x.iterator.treeIterator)
    (at_k : x.iterator.treeIterator.position = some k) :
    R k ∧ ∃ node, x.tree.nodes.get k = some node := by
  have near := near.2
  rw [at_k] at near
  exact ⟨near.1.2, Option.isSome_iff_exists.mp ((x.tree.nodes.mem_keys k).mp near.1.1)⟩

theorem onDeleteMarker_spec {d : Direction} {R : K → Prop} {x : LevelDBTransaction K V}
    (direction : x.iterator.direction = d) (near : TreeNear d R x x.iterator.treeIterator) :
    ∃ skip, x.onDeleteMarker = some skip ∧
      (skip = true ↔ ∃ k node, x.iterator.treeIterator.position = some k ∧
        x.tree.nodes.get k = some node ∧ node.deleted = true ∧
        ∀ c, x.iterator.dbIterator = some c → Precedes d k c) := by
  have fresh := near.1
  cases at_k : x.iterator.treeIterator.position with
  | none => exact ⟨false, by simp [onDeleteMarker, at_k]⟩
  | some k =>
    obtain ⟨-, node, found⟩ := node_at near at_k
    cases at_c : x.iterator.dbIterator with
    | none =>
      refine ⟨node.deleted, ?_, by simp [found]⟩
      simp [onDeleteMarker, at_k, TreeIterator.isDeleted, TreeIterator.path, fresh, found, at_c]
    | some c =>
      refine ⟨node.deleted && comesFirst d k c, ?_, by simp [found, comesFirst_iff]⟩
      simp [onDeleteMarker, at_k, TreeIterator.isDeleted, TreeIterator.path, fresh, found, at_c,
        direction]

/-- One round on a marker: the tree cursor moves past it and nothing live is passed. -/
theorem skip_merged {d : Direction} {R : K → Prop} {x : LevelDBTransaction K V} {k : K}
    {node : TreeNode V} (merged : Merged d R x)
    (at_k : x.iterator.treeIterator.position = some k)
    (found : x.tree.nodes.get k = some node) (deleted : node.deleted = true)
    (first : ∀ c, x.iterator.dbIterator = some c → Precedes d k c) :
    ∃ t, x.treeStep d x.iterator.treeIterator = some t ∧
      Merged d (Precedes d k) (x.withIterator { x.iterator with treeIterator := t }) ∧
      ∀ j, (x.live j).isSome = true → (Precedes d k j ↔ R j) := by
  obtain ⟨direction, up, tree, db_near⟩ := merged
  obtain ⟨t, stepped, t_near⟩ := treeStep_near (x := x) (d := d) tree.1 at_k
  have near := tree.2
  rw [at_k] at near
  have ahead_in : ∀ j, Precedes d k j → R j := fun j h => up k j near.1.2 h
  refine ⟨t, stepped, ⟨direction, fun a b h ab => h.trans ab, t_near, ?_⟩, ?_⟩
  · change DbNear d (Precedes d k) x x.iterator.dbIterator
    cases db : x.iterator.dbIterator with
    | none =>
      rw [db] at db_near
      exact fun j mem h => db_near j mem (ahead_in j h)
    | some c =>
      rw [db] at db_near
      exact ⟨db_near.1, first c db, fun j mem h => db_near.2.2 j mem (ahead_in j h)⟩
  · refine fun j lives => ⟨ahead_in j, ?_⟩
    intro inR
    by_cases mem : j ∈ x.tree.nodes.keys
    · rcases precedes_or_eq (near.2 j ⟨mem, inR⟩) with rfl | h
      · simp [live, found, deleted] at lives
      · exact h
    · have snap := mem_of_live lives mem
      cases db : x.iterator.dbIterator with
      | none =>
        rw [db] at db_near
        exact absurd (db_near j snap inR) mem
      | some c =>
        rw [db] at db_near
        exact (first c db).not_of_not ((db_near.2.2 j snap inR).resolve_left mem)

theorem fewer_ahead {d : Direction} {R : K → Prop} [DecidablePred R] {s : Finset K} {k : K}
    [DecidablePred (Precedes d k)] (mem : k ∈ s) (inR : R k) (within : ∀ j, Precedes d k j → R j) :
    (s.filter (Precedes d k)).card < (s.filter R).card := by
  refine Finset.card_lt_card ⟨Finset.monotone_filter_right _ fun j _ => within j, ?_⟩
  intro sub
  have := sub (Finset.mem_filter.mpr ⟨mem, inR⟩)
  exact Precedes.irrefl (Finset.mem_filter.mp this).2

theorem handleConflictsAndDeletes_stop {x y : LevelDBTransaction K V} {fuel : Nat}
    (resolved : x.resolveConflict = some y) (marker : y.onDeleteMarker = some false) :
    handleConflictsAndDeletes (fuel + 1) x = some y := by
  simp [handleConflictsAndDeletes, resolved, marker]

theorem handleConflictsAndDeletes_skip {x y : LevelDBTransaction K V} {fuel : Nat}
    {t : TreeIterator K} (resolved : x.resolveConflict = some y)
    (marker : y.onDeleteMarker = some true)
    (stepped : y.treeStep y.iterator.direction y.iterator.treeIterator = some t) :
    handleConflictsAndDeletes (fuel + 1) x =
      handleConflictsAndDeletes fuel (y.withIterator { y.iterator with treeIterator := t }) := by
  simp [handleConflictsAndDeletes, resolved, marker, stepped]

theorem handleConflictsAndDeletes_settles {d : Direction} {R : K → Prop} [DecidablePred R]
    {x : LevelDBTransaction K V} {fuel : Nat} (merged : Merged d R x)
    (enough : (x.tree.nodes.keys.filter R).card < fuel) :
    ∃ R' it, handleConflictsAndDeletes fuel x = some (x.withIterator it) ∧
      Merged d R' (x.withIterator it) ∧ Settled d (x.withIterator it) ∧
      ∀ k, (x.live k).isSome = true → (R' k ↔ R k) := by
  classical
  induction fuel generalizing x R with
  | zero => omega
  | succ fuel ih =>
    obtain ⟨db, resolved, db_near, apart⟩ := resolveConflict_merged merged
    obtain ⟨direction, up, tree, -⟩ := merged
    generalize moved : x.withIterator { x.iterator with dbIterator := db } = y at resolved
    have merged : Merged d R y := by subst moved; exact ⟨direction, up, tree, db_near⟩
    obtain ⟨skip, marker, skips⟩ := onDeleteMarker_spec merged.direction merged.tree
    cases skip with
    | false =>
      refine ⟨R, y.iterator, ?_, ?_, ?_, fun k _ => Iff.rfl⟩
      · rw [handleConflictsAndDeletes_stop resolved marker, ← moved]
        rfl
      · subst moved; exact merged
      · subst moved
        refine ⟨apart, ?_⟩
        intro k at_k first
        obtain ⟨-, node, found⟩ := node_at merged.tree at_k
        refine ⟨node, found, ?_⟩
        by_contra h
        exact absurd (skips.mpr ⟨k, node, at_k, found, by simpa using h, first⟩) (by simp)
    | true =>
      obtain ⟨k, node, at_k, found, deleted, first⟩ := skips.mp rfl
      obtain ⟨t, stepped, merged', kept⟩ := skip_merged merged at_k found deleted first
      have inR := (node_at merged.tree at_k).1
      have fewer := fewer_ahead ((y.tree.nodes.mem_keys k).mpr (by simp [found])) inR
        fun j h => merged.up k j inR h
      have same_tree : y.tree = x.tree := by subst moved; rfl
      obtain ⟨R', it, looped, merged', settled, same⟩ := ih merged'
        (by change (y.tree.nodes.keys.filter (Precedes d k)).card < fuel
            rw [same_tree] at fewer ⊢
            omega)
      refine ⟨R', it, ?_, ?_, ?_, fun j lives => ?_⟩
      · rw [← merged.direction] at stepped
        rw [handleConflictsAndDeletes_skip resolved marker stepped, looped, ← moved]
        rfl
      · subst moved; exact merged'
      · subst moved; exact settled
      · subst moved; exact (same j lives).trans (kept j lives)

end LevelDBTransaction

end NetRider.LevelDb
