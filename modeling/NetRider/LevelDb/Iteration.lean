import NetRider.LevelDb.Overlay
import NetRider.Lib.Run

/-!
# Iteration over a transaction that is being written to

The iterator walks the live keys whatever is written meanwhile.

* `Between` is kept by writes, and a step turns it back into `Merged`;
* `settle_lands` takes that to the nearest live key of the region.

Going back, a refresh of the tree cursor needs a tree key at or after the
database cursor (`Sheltered`); going forward it needs nothing.
-/

namespace NetRider.LevelDb

open NetRider.Lib

variable {K V : Type} [LinearOrder K]

namespace LevelDBTransaction

/-! ## Between two steps -/

/-- What writes keep while the iterator stands on a key. -/
def Between (d : Direction) (x : LevelDBTransaction K V) : Prop :=
  x.iterator.direction = d ∧
  match x.iterator.current with
  | none => x.iterator.dbIterator = none
  | some .tree => ∃ c, x.iterator.treeIterator.position = some c ∧ c ∈ x.tree.nodes.keys ∧
      (x.iterator.treeChanged = false → x.iterator.treeIterator.stamp = x.tree.inserts) ∧
      DbNear d (Precedes d c) x x.iterator.dbIterator
  | some .db => ∃ c, x.iterator.dbIterator = some c ∧ c ∈ x.snapshot.keys ∧
      (x.iterator.treeChanged = false → TreeNear d (Precedes d c) x x.iterator.treeIterator)

/-- The current cursor is on an entry of its own side. -/
def Standing (x : LevelDBTransaction K V) : Prop :=
  match x.iterator.current with
  | none => x.iterator.dbIterator = none
  | some .tree => ∃ c, x.iterator.treeIterator.position = some c ∧ c ∈ x.tree.nodes.keys ∧
      (x.iterator.treeChanged = false → x.iterator.treeIterator.stamp = x.tree.inserts)
  | some .db => ∃ c, x.iterator.dbIterator = some c ∧ c ∈ x.snapshot.keys

theorem Between.standing {d : Direction} {x : LevelDBTransaction K V} (h : Between d x) :
    Standing x := by
  obtain ⟨-, h⟩ := h
  unfold Standing
  cases current : x.iterator.current with
  | none => rw [current] at h; exact h
  | some source =>
    rw [current] at h
    cases source with
    | tree => obtain ⟨c, at_c, mem, fresh, -⟩ := h; exact ⟨c, at_c, mem, fresh⟩
    | db => obtain ⟨c, at_c, mem, -⟩ := h; exact ⟨c, at_c, mem⟩

/-! ## Refreshing the tree cursor -/

theorem seek_nearest (t : Tree K V) (target : K) :
    (TreeIterator.seek t target).stamp = t.inserts ∧
      Nearest .kForward (fun k => k ∈ t.nodes.keys ∧ target ≤ k)
        (TreeIterator.seek t target).position := by
  unfold TreeIterator.seek
  by_cases mem : target ∈ t.nodes.keys
  · simpa [mem] using ⟨⟨mem, le_rfl⟩, fun j has => not_lt.mpr has.2⟩
  · rw [if_neg mem]
    refine ⟨rfl, (nearest_congr fun k => and_congr_right fun has => ?_).mp
      (firstAfter_nearest t.nodes target)⟩
    exact ⟨le_of_lt, fun h => lt_of_le_of_ne h fun e => mem (e ▸ has)⟩

/-- Seeking `c` and stepping over it, as `refreshTreeIterator` and `next` do. -/
theorem seek_after (x : LevelDBTransaction K V) (c : K) :
    ∃ t, (if (TreeIterator.seek x.tree c).position = some c then
        (TreeIterator.seek x.tree c).next x.tree else some (TreeIterator.seek x.tree c)) = some t ∧
      TreeNear .kForward (Precedes .kForward c) x t := by
  obtain ⟨fresh, near⟩ := seek_nearest x.tree c
  by_cases found : (TreeIterator.seek x.tree c).position = some c
  · obtain ⟨t, stepped, t_near⟩ := treeStep_near (d := .kForward) (x := x) fresh found
    exact ⟨t, by rw [if_pos found]; exact stepped, t_near⟩
  · refine ⟨_, if_neg found, fresh, ?_⟩
    have absent : c ∉ x.tree.nodes.keys := fun mem => found (by simp [TreeIterator.seek, mem])
    refine (nearest_congr fun k => and_congr_right fun has => ?_).mp near
    exact ⟨fun h => lt_of_le_of_ne h fun e => absent (e ▸ has), le_of_lt⟩

/-- Seeking `c` and stepping back lands before `c` when the tree has a key from `c` on. -/
theorem seek_before {x : LevelDBTransaction K V} {c : K} (some_from : ∃ k ∈ x.tree.nodes.keys, c ≤ k) :
    (TreeIterator.seek x.tree c).isValid = true ∧
    ∃ t, (TreeIterator.seek x.tree c).prev x.tree = some t ∧
      TreeNear .kReverse (Precedes .kReverse c) x t := by
  obtain ⟨fresh, near⟩ := seek_nearest x.tree c
  cases found : (TreeIterator.seek x.tree c).position with
  | none =>
    obtain ⟨k, mem, from_c⟩ := some_from
    rw [found] at near
    exact absurd ⟨mem, from_c⟩ (near k)
  | some p =>
    rw [found] at near
    obtain ⟨t, stepped, t_fresh, t_near⟩ := treeStep_near (d := .kReverse) (x := x) fresh found
    refine ⟨by simp [TreeIterator.isValid, found], t, stepped, t_fresh, ?_⟩
    refine (nearest_congr fun k => and_congr_right fun has => ?_).mp t_near
    exact ⟨fun h => not_le.mp fun from_c => near.2 k ⟨has, from_c⟩ h,
      fun h => lt_of_lt_of_le (show k < c from h) near.1.2⟩

/-- A refresh that goes back has a tree key at or after the database cursor. -/
def Sheltered (x : LevelDBTransaction K V) : Prop :=
  x.iterator.treeChanged = true → x.iterator.current = some .db →
    ∀ c, x.iterator.dbIterator = some c → ∃ k ∈ x.tree.nodes.keys, c ≤ k

theorem refreshIfChanged_tree {x : LevelDBTransaction K V} {c : K}
    (current : x.iterator.current = some .tree)
    (at_c : x.iterator.treeIterator.position = some c) (mem : c ∈ x.tree.nodes.keys)
    (fresh : x.iterator.treeChanged = false → x.iterator.treeIterator.stamp = x.tree.inserts) :
    x.refreshIfChanged = some (x.withIterator { x.iterator with
      treeIterator := ⟨some c, x.tree.inserts⟩
      treeChanged := false }) := by
  obtain ⟨snapshot, tree, ⟨position, stamp⟩, db, cur, d, changed⟩ := x
  cases changed with
  | false => simp_all [refreshIfChanged, withIterator]
  | true => simp_all [refreshIfChanged, refreshTreeIterator, TreeIterator.isValid,
      TreeIterator.reset, withIterator]

theorem refreshIfChanged_db {x : LevelDBTransaction K V} {c : K}
    (current : x.iterator.current = some .db) (at_c : x.iterator.dbIterator = some c) :
    ∃ t, x.refreshIfChanged = some (x.withIterator { x.iterator with
        treeIterator := t
        treeChanged := false }) ∧
      ((x.iterator.treeChanged = false →
          TreeNear x.iterator.direction (Precedes x.iterator.direction c) x
            x.iterator.treeIterator) →
        (x.iterator.direction = .kReverse → Sheltered x) →
        TreeNear x.iterator.direction (Precedes x.iterator.direction c) x t) := by
  obtain ⟨snapshot, tree, it, db, cur, d, changed⟩ := x
  obtain rfl : cur = some .db := current
  obtain rfl : db = some c := at_c
  cases changed with
  | false => exact ⟨it, by simp [refreshIfChanged, withIterator], fun near _ => near rfl⟩
  | true =>
    cases d with
    | kForward =>
      obtain ⟨t, sought, near⟩ := seek_after (⟨snapshot, tree, it, some c, some .db, .kForward,
        true⟩ : LevelDBTransaction K V) c
      refine ⟨t, ?_, fun _ _ => near⟩
      by_cases found : (TreeIterator.seek tree c).position = some c
      · simp_all [refreshIfChanged, refreshTreeIterator, withIterator]
      · simp_all [refreshIfChanged, refreshTreeIterator, withIterator]
    | kReverse =>
      by_cases valid : ∃ k ∈ tree.nodes.keys, c ≤ k
      · obtain ⟨isValid, t, stepped, near⟩ := seek_before (x := (⟨snapshot, tree, it, some c,
          some .db, .kReverse, true⟩ : LevelDBTransaction K V)) valid
        refine ⟨t, ?_, fun _ _ => near⟩
        simp_all [refreshIfChanged, refreshTreeIterator, withIterator]
      · refine ⟨TreeIterator.seek tree c, ?_, fun _ sheltered => ?_⟩
        · have position : (TreeIterator.seek tree c).position = none := by
            have near := (seek_nearest tree c).2
            cases found : (TreeIterator.seek tree c).position with
            | none => rfl
            | some p => rw [found] at near; exact absurd ⟨p, near.1⟩ valid
          simp [refreshIfChanged, refreshTreeIterator, TreeIterator.isValid, withIterator, position]
        · exact absurd (sheltered rfl rfl rfl c rfl) valid

theorem refreshIfChanged_invalid {x : LevelDBTransaction K V}
    (current : x.iterator.current = none) (at_end : x.iterator.dbIterator = none) :
    x.refreshIfChanged = some (x.withIterator { x.iterator with treeChanged := false }) := by
  obtain ⟨snapshot, tree, it, db, cur, d, changed⟩ := x
  cases changed <;> simp_all [refreshIfChanged, refreshTreeIterator, withIterator]

theorem refresh_between {d : Direction} {x : LevelDBTransaction K V}
    (between : Between d x) (sheltered : d = .kReverse → Sheltered x) :
    ∃ y, x.refreshIfChanged = some y ∧ Between d y ∧ y.iterator.treeChanged = false ∧
      y.currentKey = x.currentKey := by
  obtain ⟨rfl, h⟩ := between
  cases current : x.iterator.current with
  | none =>
    rw [current] at h
    refine ⟨_, refreshIfChanged_invalid current h, ⟨rfl, ?_⟩, rfl, ?_⟩
    · simpa [withIterator, current] using h
    · simp [currentKey, withIterator, current]
  | some source =>
    rw [current] at h
    cases source with
    | tree =>
      obtain ⟨c, at_c, mem, fresh, db⟩ := h
      refine ⟨_, refreshIfChanged_tree current at_c mem fresh, ⟨rfl, ?_⟩, rfl, ?_⟩
      · simp only [withIterator, current]
        exact ⟨c, rfl, mem, by simp, db⟩
      · simp [currentKey, withIterator, current, at_c]
    | db =>
      obtain ⟨c, at_c, mem, near⟩ := h
      obtain ⟨t, refreshed, t_near⟩ := refreshIfChanged_db current at_c
      refine ⟨_, refreshed, ⟨rfl, ?_⟩, rfl, ?_⟩
      · simp only [withIterator, current]
        exact ⟨c, at_c, mem, fun _ => t_near near sheltered⟩
      · simp [currentKey, withIterator, current]

/-! ## Reading the current entry -/

theorem key_eq {x : LevelDBTransaction K V} (standing : Standing x) : x.key = x.currentKey := by
  unfold Standing at standing
  cases current : x.iterator.current with
  | none =>
    rw [current] at standing
    simp [key, refreshIfChanged_invalid current standing, currentKey, withIterator, current]
  | some source =>
    rw [current] at standing
    cases source with
    | tree =>
      obtain ⟨c, at_c, mem, fresh⟩ := standing
      simp [key, refreshIfChanged_tree current at_c mem fresh, currentKey, withIterator, current,
        at_c]
    | db =>
      obtain ⟨c, at_c, -⟩ := standing
      obtain ⟨t, refreshed, -⟩ := refreshIfChanged_db current at_c
      simp [key, refreshed, currentKey, withIterator, current]

theorem value_of_tree {x : LevelDBTransaction K V} {c : K} {node : TreeNode V}
    (standing : Standing x) (current : x.iterator.current = some .tree)
    (at_c : x.iterator.treeIterator.position = some c) (found : x.tree.nodes.get c = some node) :
    x.value = some node.value := by
  simp only [Standing, current] at standing
  obtain ⟨c', at_c', mem, fresh⟩ := standing
  obtain rfl : c = c' := Option.some.inj (at_c.symm.trans at_c')
  simp [value, refreshIfChanged_tree current at_c mem fresh, currentValue, withIterator, current,
    TreeIterator.value, TreeIterator.path, found]

theorem value_of_db {x : LevelDBTransaction K V} {c : K}
    (current : x.iterator.current = some .db) (at_c : x.iterator.dbIterator = some c) :
    x.value = x.snapshot.get c := by
  obtain ⟨t, refreshed, -⟩ := refreshIfChanged_db current at_c
  simp [value, refreshed, currentValue, withIterator, current, at_c]

theorem lands_on_tree {d : Direction} {R : K → Prop} {x : LevelDBTransaction K V} {p : K}
    {node : TreeNode V} (current : x.iterator.current = some .tree)
    (at_p : x.iterator.treeIterator.position = some p)
    (fresh : x.iterator.treeIterator.stamp = x.tree.inserts)
    (found : x.tree.nodes.get p = some node) (shown : node.deleted = false) (inR : R p)
    (nearest : ∀ j, R j → (x.live j).isSome = true → ¬ Precedes d j p) : Lands d R x := by
  have mem : p ∈ x.tree.nodes.keys := (x.tree.nodes.mem_keys p).mpr (by simp [found])
  have standing : Standing x := by
    simpa only [Standing, current] using ⟨p, at_p, mem, fun _ => fresh⟩
  have lives : x.live p = some node.value := by simp [live, found, shown]
  have at_key : x.key = some p := by simp [key_eq standing, currentKey, current, at_p]
  refine ⟨by simp [at_key, isValid, current], ?_, ?_⟩
  · rw [at_key]
    exact ⟨⟨inR, by simp [lives]⟩, fun j has => nearest j has.1 has.2⟩
  · intro k at_k
    obtain rfl : p = k := Option.some.inj (at_key.symm.trans at_k)
    rw [value_of_tree standing current at_p found, lives]

theorem lands_on_db {d : Direction} {R : K → Prop} {x : LevelDBTransaction K V} {c : K}
    (current : x.iterator.current = some .db) (at_c : x.iterator.dbIterator = some c)
    (mem : c ∈ x.snapshot.keys) (absent : c ∉ x.tree.nodes.keys) (inR : R c)
    (nearest : ∀ j, R j → (x.live j).isSome = true → ¬ Precedes d j c) : Lands d R x := by
  have standing : Standing x := by simpa only [Standing, current] using ⟨c, at_c, mem⟩
  have at_key : x.key = some c := by simp [key_eq standing, currentKey, current, at_c]
  refine ⟨by simp [at_key, isValid, current], ?_, ?_⟩
  · rw [at_key]
    refine ⟨⟨inR, ?_⟩, fun j has => nearest j has.1 has.2⟩
    rw [live_of_not_mem absent]
    exact (x.snapshot.mem_keys c).mp mem
  · intro k at_k
    obtain rfl : c = k := Option.some.inj (at_key.symm.trans at_k)
    rw [value_of_db current at_c, live_of_not_mem absent]

theorem lands_nowhere {d : Direction} {R : K → Prop} {x : LevelDBTransaction K V}
    (current : x.iterator.current = none) (at_end : x.iterator.dbIterator = none)
    (dead : ∀ j, R j → ¬ (x.live j).isSome = true) : Lands d R x := by
  have standing : Standing x := by simpa only [Standing, current] using at_end
  have at_key : x.key = none := by simp [key_eq standing, currentKey, current]
  refine ⟨by simp [at_key, isValid, current], ?_, by simp [at_key]⟩
  rw [at_key]
  exact fun j has => dead j has.1 has.2

/-- The nearer of two settled cursors is on the nearest live key. -/
theorem setCurrentIterator_lands {d : Direction} {R : K → Prop} {x : LevelDBTransaction K V}
    (merged : Merged d R x) (settled : Settled d x) :
    Between d x.setCurrentIterator ∧ Lands d R x.setCurrentIterator := by
  obtain ⟨direction, up, ⟨fresh, tree⟩, db⟩ := merged
  obtain ⟨apart, shown⟩ := settled
  cases at_p : x.iterator.treeIterator.position with
  | none =>
    rw [at_p] at tree
    have untreed : ∀ j, R j → j ∉ x.tree.nodes.keys := fun j inR mem => tree j ⟨mem, inR⟩
    cases at_c : x.iterator.dbIterator with
    | none =>
      rw [at_c] at db
      have current : x.setCurrentIterator.iterator.current = none := by
        simp [setCurrentIterator, withIterator, at_p, at_c]
      refine ⟨⟨direction, ?_⟩, lands_nowhere current at_c fun j inR lives => ?_⟩
      · rw [current]; exact at_c
      · have absent := untreed j inR
        exact absent (db j (mem_of_live lives absent) inR)
    | some c =>
      rw [at_c] at db
      have current : x.setCurrentIterator.iterator.current = some .db := by
        simp [setCurrentIterator, withIterator, at_p, at_c]
      refine ⟨⟨direction, ?_⟩, lands_on_db current at_c db.1 (untreed c db.2.1) db.2.1 ?_⟩
      · rw [current]
        refine ⟨c, at_c, db.1, fun _ => ⟨fresh, ?_⟩⟩
        rw [show x.setCurrentIterator.iterator.treeIterator.position = none from at_p]
        exact fun k has => tree k ⟨has.1, up c k db.2.1 has.2⟩
      · intro j inR lives
        have absent := untreed j inR
        exact (db.2.2 j (mem_of_live lives absent) inR).resolve_left absent
  | some p =>
    rw [at_p] at tree
    cases at_c : x.iterator.dbIterator with
    | none =>
      rw [at_c] at db
      have current : x.setCurrentIterator.iterator.current = some .tree := by
        simp [setCurrentIterator, withIterator, at_p, at_c]
      obtain ⟨node, found, kept⟩ := shown p at_p (by simp [at_c])
      refine ⟨⟨direction, ?_⟩,
        lands_on_tree current at_p fresh found kept tree.1.2 fun j inR lives => ?_⟩
      · rw [current]
        refine ⟨p, at_p, tree.1.1, fun _ => fresh, ?_⟩
        rw [show x.setCurrentIterator.iterator.dbIterator = none from at_c]
        exact fun k mem ahead => db k mem (up p k tree.1.2 ahead)
      · by_cases mem : j ∈ x.tree.nodes.keys
        · exact tree.2 j ⟨mem, inR⟩
        · exact absurd (db j (mem_of_live lives mem) inR) mem
    | some c =>
      rw [at_c] at db
      by_cases first : Precedes d c p
      · have current : x.setCurrentIterator.iterator.current = some .db := by
          simp [setCurrentIterator, withIterator, at_p, at_c, direction, comesFirst_iff, first]
        have absent : c ∉ x.tree.nodes.keys := fun mem => tree.2 c ⟨mem, db.2.1⟩ first
        refine ⟨⟨direction, ?_⟩, lands_on_db current at_c db.1 absent db.2.1 ?_⟩
        · rw [current]
          refine ⟨c, at_c, db.1, fun _ => ⟨fresh, ?_⟩⟩
          rw [show x.setCurrentIterator.iterator.treeIterator.position = some p from at_p]
          exact ⟨⟨tree.1.1, first⟩, fun j has => tree.2 j ⟨has.1, up c j db.2.1 has.2⟩⟩
        · intro j inR lives
          by_cases mem : j ∈ x.tree.nodes.keys
          · exact (first.not_of_not (tree.2 j ⟨mem, inR⟩)).asymm
          · exact (db.2.2 j (mem_of_live lives mem) inR).resolve_left mem
      · have current : x.setCurrentIterator.iterator.current = some .tree := by
          simp [setCurrentIterator, withIterator, at_p, at_c, direction, comesFirst_iff, first]
        have ahead : Precedes d p c :=
          (precedes_or_eq first).resolve_left fun e => apart p at_p (e ▸ at_c)
        obtain ⟨node, found, kept⟩ := shown p at_p (by simpa [at_c] using ahead)
        refine ⟨⟨direction, ?_⟩,
          lands_on_tree current at_p fresh found kept tree.1.2 fun j inR lives => ?_⟩
        · rw [current]
          refine ⟨p, at_p, tree.1.1, fun _ => fresh, ?_⟩
          rw [show x.setCurrentIterator.iterator.dbIterator = some c from at_c]
          exact ⟨db.1, ahead, fun k mem h => db.2.2 k mem (up p k tree.1.2 h)⟩
        · by_cases mem : j ∈ x.tree.nodes.keys
          · exact tree.2 j ⟨mem, inR⟩
          · have := (db.2.2 j (mem_of_live lives mem) inR).resolve_left mem
            exact (ahead.not_of_not this).asymm

theorem settle_lands {d : Direction} {R : K → Prop} {x : LevelDBTransaction K V}
    (merged : Merged d R x) : ∃ y, x.settle = some y ∧ Between d y ∧ Lands d R y := by
  classical
  have enough : (x.tree.nodes.keys.filter R).card < x.tree.nodes.keys.card + 1 :=
    Nat.lt_succ_of_le (Finset.card_filter_le _ _)
  obtain ⟨R', it, handled, merged', settled, same⟩ :=
    handleConflictsAndDeletes_settles merged enough
  obtain ⟨between, lands⟩ := setCurrentIterator_lands merged' settled
  refine ⟨_, by simp [settle, handled], between, lands.valid, ?_, lands.value⟩
  exact (nearest_congr fun k => and_congr_left fun lives => same k lives).mp lands.nearest

/-! ## One call -/

theorem dbNear_set {d : Direction} {R : K → Prop} {x : LevelDBTransaction K V} {db : Option K}
    (key : K) (value : V) (deleted : Bool) (h : DbNear d R x db) :
    DbNear d R (x.set key value deleted) db := by
  have grows : ∀ k, k ∈ x.tree.nodes.keys → k ∈ (x.set key value deleted).tree.nodes.keys := by
    intro k mem
    unfold set
    split <;> simp [mem]
  have snapshot : (x.set key value deleted).snapshot = x.snapshot := by unfold set; split <;> rfl
  cases db with
  | none => exact fun k mem inR => grows k (h k (snapshot ▸ mem) inR)
  | some c =>
    refine ⟨snapshot ▸ h.1, h.2.1, ?_⟩
    intro k mem inR
    exact (h.2.2 k (snapshot ▸ mem) inR).imp_left (grows k)

/-- A write leaves the cursors alone; an insertion is what the next refresh makes up for. -/
theorem set_between {d : Direction} {x : LevelDBTransaction K V} (key : K) (value : V)
    (deleted : Bool) (between : Between d x) : Between d (x.set key value deleted) := by
  have db_near : ∀ R db, DbNear d R x db → DbNear d R (x.set key value deleted) db :=
    fun R db => dbNear_set key value deleted
  obtain ⟨direction, h⟩ := between
  unfold set at db_near ⊢
  by_cases has : key ∈ x.tree.nodes.keys
  · simp only [has, if_true] at db_near ⊢
    refine ⟨direction, ?_⟩
    cases current : x.iterator.current with
    | none => rw [current] at h; exact h
    | some source =>
      rw [current] at h
      cases source with
      | tree =>
        obtain ⟨c, at_c, mem, fresh, db⟩ := h
        exact ⟨c, at_c, by simp [mem], fresh, db_near _ _ db⟩
      | db =>
        obtain ⟨c, at_c, mem, near⟩ := h
        refine ⟨c, at_c, mem, ?_⟩
        intro unchanged
        obtain ⟨fresh, near⟩ := near unchanged
        refine ⟨fresh, (nearest_congr fun k => ?_).mp near⟩
        simp [Finset.insert_eq_of_mem has]
  · simp only [has, if_false] at db_near ⊢
    refine ⟨direction, ?_⟩
    cases current : x.iterator.current with
    | none => rw [current] at h; exact h
    | some source =>
      rw [current] at h
      cases source with
      | tree =>
        obtain ⟨c, at_c, mem, fresh, db⟩ := h
        exact ⟨c, at_c, by simp [mem], by simp, db_near _ _ db⟩
      | db =>
        obtain ⟨c, at_c, mem, near⟩ := h
        exact ⟨c, at_c, mem, by simp⟩

/-- Once refreshed, moving the current cursor on sets both cursors for the keys ahead. -/
theorem stepCurrent_merged {d : Direction} {x : LevelDBTransaction K V} {c : K}
    (between : Between d x) (unchanged : x.iterator.treeChanged = false)
    (at_c : x.currentKey = some c) :
    ∃ y, x.stepCurrent d = some y ∧ Merged d (Precedes d c) y := by
  obtain ⟨direction, h⟩ := between
  cases current : x.iterator.current with
  | none => simp [currentKey, current] at at_c
  | some source =>
    rw [current] at h
    cases source with
    | tree =>
      obtain ⟨c', position, -, fresh, db⟩ := h
      obtain rfl : c' = c := by simpa [currentKey, current, position] using at_c
      obtain ⟨t, stepped, near⟩ := treeStep_near (d := d) (fresh unchanged) position
      exact ⟨x.withIterator { x.iterator with treeIterator := t },
        by simp [stepCurrent, current, stepped], direction, fun a b h ab => h.trans ab, near, db⟩
    | db =>
      obtain ⟨c', position, -, near⟩ := h
      obtain rfl : c' = c := by simpa [currentKey, current, position] using at_c
      obtain ⟨db, stepped, db_near⟩ := dbStep_near d x c'
      exact ⟨x.withIterator { x.iterator with dbIterator := db },
        by simp [stepCurrent, current, position, stepped], direction,
        fun a b h ab => h.trans ab, near unchanged, dbNear_of_nearest db_near⟩

theorem currentKey_of_valid {d : Direction} {x : LevelDBTransaction K V} (between : Between d x)
    (valid : x.isValid = true) : ∃ c, x.currentKey = some c := by
  obtain ⟨-, h⟩ := between
  cases current : x.iterator.current with
  | none => simp [isValid, current] at valid
  | some source =>
    rw [current] at h
    cases source with
    | tree => obtain ⟨c, at_c, -⟩ := h; exact ⟨c, by simp [currentKey, current, at_c]⟩
    | db => obtain ⟨c, at_c, -⟩ := h; exact ⟨c, by simp [currentKey, current, at_c]⟩

/-- `next()` going forward, `prev()` going back. -/
def advance (d : Direction) (x : LevelDBTransaction K V) : Option (LevelDBTransaction K V) :=
  match d with
  | .kForward => x.next
  | .kReverse => x.prev

theorem advance_lands {d : Direction} {x : LevelDBTransaction K V} (between : Between d x)
    (sheltered : d = .kReverse → Sheltered x) (valid : x.isValid = true) :
    ∃ c y, x.key = some c ∧ advance d x = some y ∧ Between d y ∧ Lands d (Precedes d c) y := by
  obtain ⟨c, at_c⟩ := currentKey_of_valid between valid
  obtain ⟨x₁, refreshed, between₁, unchanged, same⟩ := refresh_between between sheltered
  obtain ⟨x₂, stepped, merged⟩ := stepCurrent_merged between₁ unchanged (same.trans at_c)
  obtain ⟨y, settled, between', lands⟩ := settle_lands merged
  refine ⟨c, y, (key_eq between.standing).trans at_c, ?_, between', lands⟩
  cases d with
  | kForward => simp [advance, next, refreshed, between₁.1, stepped, settled]
  | kReverse => simp [advance, prev, refreshed, between₁.1, stepped, settled]

theorem seek_lands (x : LevelDBTransaction K V) (target : K) :
    ∃ y, x.seek target = some y ∧ Between .kForward y ∧ Lands .kForward (target ≤ ·) y := by
  refine settle_lands ⟨rfl, fun a b h ab => h.trans (le_of_lt ab), seek_nearest x.tree target, ?_⟩
  exact dbNear_of_nearest (least_nearest (P := (target ≤ ·)) x.snapshot.keys)

theorem seekToLast_lands (x : LevelDBTransaction K V) :
    ∃ y, x.seekToLast = some y ∧ Between .kReverse y ∧ Lands .kReverse (fun _ => True) y := by
  have last (s : Finset K) : Nearest .kReverse (fun k => k ∈ s ∧ True) (greatest s) := by
    simpa using greatest_nearest (P := fun _ => True) s
  exact settle_lands ⟨rfl, fun a b _ _ => trivial, ⟨rfl, last _⟩, dbNear_of_nearest (last _)⟩

/-! ## Whole runs -/

/-- The calls of a run in one direction: writes, reads and steps from a key. `guarded` is
asked of every call that may refresh the tree cursor. -/
def Travels (d : Direction) (guarded : LevelDBTransaction K V → Prop)
    (x : LevelDBTransaction K V) : Call K V → Prop
  | .put _ _ => True
  | .remove _ _ => True
  | .read => guarded x
  | .next => d = .kForward ∧ x.isValid = true ∧ guarded x
  | .prev => d = .kReverse ∧ x.isValid = true ∧ guarded x
  | .seek _ => False
  | .seekToLast => False

theorem travels_between {d : Direction} {guarded : LevelDBTransaction K V → Prop}
    (shelters : ∀ x, guarded x → d = .kReverse → Sheltered x) {x y : LevelDBTransaction K V}
    (start : Between d x) (reached : Reach step (Travels d guarded) x y) : Between d y := by
  apply reached.invariant start
  intro x call y between travels stepped
  cases call with
  | put key value => cases stepped; exact set_between _ _ _ between
  | remove key value => cases stepped; exact set_between _ _ _ between
  | read =>
    obtain ⟨y', refreshed, between', -⟩ := refresh_between between (shelters x travels)
    cases refreshed.symm.trans stepped
    exact between'
  | next =>
    obtain ⟨rfl, valid, guard⟩ := travels
    obtain ⟨-, y', -, advanced, between', -⟩ := advance_lands between (shelters x guard) valid
    cases advanced.symm.trans stepped
    exact between'
  | prev =>
    obtain ⟨rfl, valid, guard⟩ := travels
    obtain ⟨-, y', -, advanced, between', -⟩ := advance_lands between (shelters x guard) valid
    cases advanced.symm.trans stepped
    exact between'
  | seek target => exact travels.elim
  | seekToLast => exact travels.elim

/-- **Forward iteration.** A seek lands on the first live key from its target, and in any
run of writes, reads and steps after it every `next()` lands on the first live key after
the one it leaves. -/
theorem forward_iteration (x : LevelDBTransaction K V) (target : K) :
    ∃ x₁, x.step (.seek target) = some x₁ ∧ Lands .kForward (target ≤ ·) x₁ ∧
      ∀ y, Reach step (Travels .kForward fun _ => True) x₁ y → y.isValid = true →
        ∃ c z, y.key = some c ∧ y.step .next = some z ∧ Lands .kForward (c < ·) z := by
  obtain ⟨x₁, sought, between, lands⟩ := seek_lands x target
  refine ⟨x₁, sought, lands, ?_⟩
  intro y reached valid
  have between := travels_between (d := .kForward) (fun _ _ h => nomatch h) between reached
  obtain ⟨c, z, at_c, advanced, -, lands⟩ := advance_lands between (fun h => nomatch h) valid
  exact ⟨c, z, at_c, advanced, lands⟩

/-- **Backward iteration.** The same for `seekToLast()` and `prev()`, in runs where every
refresh finds a tree key at or after the database cursor it stands on. -/
theorem backward_iteration (x : LevelDBTransaction K V) :
    ∃ x₁, x.step .seekToLast = some x₁ ∧ Lands .kReverse (fun _ => True) x₁ ∧
      ∀ y, Reach step (Travels .kReverse Sheltered) x₁ y → y.isValid = true → Sheltered y →
        ∃ c z, y.key = some c ∧ y.step .prev = some z ∧ Lands .kReverse (· < c) z := by
  obtain ⟨x₁, sought, between, lands⟩ := seekToLast_lands x
  refine ⟨x₁, sought, lands, ?_⟩
  intro y reached valid sheltered
  have between := travels_between (fun _ h _ => h) between reached
  obtain ⟨c, z, at_c, advanced, -, lands⟩ := advance_lands between (fun _ => sheltered) valid
  exact ⟨c, z, at_c, advanced, lands⟩

/-- Nothing written yet, over a database that holds 1 and 5. -/
def oneAndFive : LevelDBTransaction Nat Nat where
  snapshot := (OrderedMap.empty.insert 1 1).insert 5 5
  tree := ⟨OrderedMap.empty, 0⟩
  iterator := ⟨⟨none, 0⟩, none, none, .kForward, false⟩

/-- Standing on 5, the iterator steps over a 3 that was just written. -/
theorem prev_misses_a_write :
    ∃ y z, run step oneAndFive [.seekToLast, .put 3 3] = some y ∧ y.isValid = true ∧
      y.key = some 5 ∧ y.step .prev = some z ∧ ¬ Lands .kReverse (· < 5) z := by
  refine ⟨_, _, rfl, by decide, by decide, rfl, ?_⟩
  intro lands
  -- the step ends on 1, and 3 is live
  exact lands.nearest.2 3 ⟨by decide, by decide⟩ (by decide : (1 : Nat) < 3)

end LevelDBTransaction

end NetRider.LevelDb
