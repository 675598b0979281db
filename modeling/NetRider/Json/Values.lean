import Mathlib.Data.List.TakeDrop
import NetRider.Json.Grammar

/-!
# The values of literals

An object is known by its names and by the value under each of them. The last member of a name gives
its value, so a numeral counts only where no later member replaces it.
-/

namespace NetRider.Json

open NetRider.Wtf

section

variable {Number : Type}

/-! ## Properties -/

theorem lookup_cons_ite (properties : Properties Number) (name : List UChar) (value : JSValue Number)
    (other : List UChar) :
    List.lookup other ((name, value) :: properties) =
      if other = name then some value else properties.lookup other := by
  rw [List.lookup_cons]
  split_ifs with same
  · simp [same]
  · have differs : (other == name) = false := by simp [same]
    rw [differs]

theorem hasProperty_iff {properties : Properties Number} {name : List UChar} :
    hasProperty properties name = true ↔ name ∈ properties.map Prod.fst := by
  simp [hasProperty]

theorem lookup_replaceProperty {properties : Properties Number} {name : List UChar}
    (present : name ∈ properties.map Prod.fst) (value : JSValue Number) (other : List UChar) :
    (replaceProperty properties name value).lookup other =
      if other = name then some value else properties.lookup other := by
  have elsewhere : other ≠ name → ∀ properties : Properties Number,
      (replaceProperty properties name value).lookup other = properties.lookup other := by
    intro asked properties
    induction properties with
    | nil => rfl
    | cons property properties ih =>
      obtain ⟨first, v⟩ := property
      rw [replaceProperty] at ih ⊢
      rw [List.map_cons]
      dsimp only
      split_ifs with same
      · rw [lookup_cons_ite, lookup_cons_ite, same, if_neg asked, if_neg asked, ih]
      · rw [lookup_cons_ite, lookup_cons_ite, ih]
  split_ifs with asked
  · subst asked
    induction properties with
    | nil => cases present
    | cons property properties ih =>
      obtain ⟨first, v⟩ := property
      rw [replaceProperty] at ih ⊢
      rw [List.map_cons]
      dsimp only
      split_ifs with same
      · rw [lookup_cons_ite, if_pos rfl]
      · rw [lookup_cons_ite, if_neg fun h => same h.symm]
        rcases List.mem_cons.mp present with here | there
        · exact absurd here.symm same
        · exact ih there
  · exact elsewhere asked properties

theorem lookup_of_not_has {properties : Properties Number} {name : List UChar}
    (absent : ¬ hasProperty properties name = true) : properties.lookup name = none := by
  rw [List.lookup_eq_none_iff]
  intro property member
  rw [hasProperty_iff] at absent
  rw [bne_iff_ne]
  rintro rfl
  exact absent (List.mem_map_of_mem member)

theorem lookup_insert {before after : Properties Number} {name other : List UChar}
    {value : JSValue Number} (absent : (before ++ after).lookup name = none) :
    (before ++ (name, value) :: after).lookup other =
      if other = name then some value else (before ++ after).lookup other := by
  rw [List.lookup_append] at absent ⊢
  rw [List.lookup_append, List.lookup_cons]
  by_cases asked : other = name
  · have noneBefore : before.lookup name = none := (Option.or_eq_none_iff.mp absent).1
    simp [asked, noneBefore]
  · have differs : (other == name) = false := by simp [asked]
    simp [asked, differs]

/-- The value under a name after a property was put. -/
theorem lookup_putProperty (properties : Properties Number) (name : List UChar) (value : JSValue Number)
    (other : List UChar) :
    (putProperty properties name value).lookup other =
      if other = name then some value else properties.lookup other := by
  unfold putProperty putDirectIndex putDirect
  by_cases present : hasProperty properties name = true
  · simp only [present, if_true, ite_self]
    exact lookup_replaceProperty (hasProperty_iff.mp present) value other
  · have absent := lookup_of_not_has present
    simp only [present, Bool.false_eq_true, if_false, List.span_eq_takeWhile_dropWhile]
    split_ifs with index asked asked
    · rw [lookup_insert (by rwa [List.takeWhile_append_dropWhile]), if_pos asked]
    · rw [lookup_insert (by rwa [List.takeWhile_append_dropWhile]), if_neg asked,
        List.takeWhile_append_dropWhile]
    · rw [lookup_insert (by rwa [List.append_nil]), if_pos asked]
    · rw [lookup_insert (by rwa [List.append_nil]), if_neg asked, List.append_nil]

/-! ## Names -/

/-- The names after a property was put, which do not depend on the values. -/
def putName (names : List (List UChar)) (name : List UChar) : List (List UChar) :=
  if name ∈ names then names
  else if asIndex name ≠ notAnIndex then
    names.takeWhile (asIndex · < asIndex name) ++ name :: names.dropWhile (asIndex · < asIndex name)
  else names ++ [name]

theorem names_putProperty (properties : Properties Number) (name : List UChar) (value : JSValue Number) :
    (putProperty properties name value).map Prod.fst = putName (properties.map Prod.fst) name := by
  have replaced : ∀ properties : Properties Number,
      (replaceProperty properties name value).map Prod.fst = properties.map Prod.fst := by
    intro properties
    rw [replaceProperty, List.map_map]
    apply List.map_congr_left
    intro property _
    simp only [Function.comp_apply]
    split_ifs with same
    · exact same.symm
    · rfl
  unfold putProperty putDirectIndex putDirect putName
  by_cases present : hasProperty properties name = true
  · have member := hasProperty_iff.mp present
    simp only [present, if_true, member, ite_self, replaced]
  · have absent : ¬ name ∈ properties.map Prod.fst := fun member => present (hasProperty_iff.mpr member)
    simp only [present, absent, if_false, Bool.false_eq_true, List.span_eq_takeWhile_dropWhile]
    split_ifs
    · rw [List.map_append, List.map_cons, List.takeWhile_map, List.dropWhile_map]
      rfl
    · rw [List.map_append, List.map_singleton]

theorem nodup_putName {names : List (List UChar)} (distinct : names.Nodup) (name : List UChar) :
    (putName names name).Nodup := by
  unfold putName
  split_ifs with present
  · exact distinct
  · have split := List.takeWhile_append_dropWhile (p := (asIndex · < asIndex name)) (l := names)
    rw [← split] at distinct present
    exact List.perm_middle.nodup_iff.mpr (List.nodup_cons.mpr ⟨present, distinct⟩)
  · exact List.nodup_append.mpr ⟨distinct, by simp, by
      intro a inNames b isName same
      rw [List.mem_singleton] at isName
      subst isName
      exact present (same ▸ inNames)⟩

/-- An object is its names and the values under them. -/
theorem properties_ext {a b : Properties Number} (distinct : (a.map Prod.fst).Nodup)
    (names : a.map Prod.fst = b.map Prod.fst) (values : ∀ name, a.lookup name = b.lookup name) :
    a = b := by
  induction a generalizing b with
  | nil =>
    rw [List.map_nil, eq_comm, List.map_eq_nil_iff] at names
    exact names.symm
  | cons property a ih =>
    obtain ⟨name, v⟩ := property
    cases b with
    | nil => cases names
    | cons property' b =>
      obtain ⟨name', v'⟩ := property'
      obtain ⟨rfl, others⟩ := List.cons.inj names
      rw [List.map_cons, List.nodup_cons] at distinct
      have first := values name
      simp only [lookup_cons_ite, if_true, Option.some_inj] at first
      have rest : a = b := by
        apply ih distinct.2 others
        intro other
        by_cases same : other = name
        · subst same
          rw [lookup_of_not_has fun present => distinct.1 (hasProperty_iff.mp present),
            lookup_of_not_has fun present => distinct.1 (by
              rw [others]
              exact hasProperty_iff.mp present)]
        · have here := values other
          simpa only [lookup_cons_ite, if_neg same] using here
      rw [first, rest]

variable {doubles : Doubles Number}

/-- The last member of a name gives its value. -/
theorem lookup_evaluateMembers (minusZero : Number) (ms : List (PropertyKey × Literal))
    (properties : Properties Number) (name : List UChar) :
    (evaluateMembers doubles minusZero properties ms).lookup name =
      ((ms.reverse.find? (·.1.name = name)).map (·.2.evaluate doubles minusZero)).or
        (properties.lookup name) := by
  induction ms generalizing properties with
  | nil => simp [evaluateMembers]
  | cons m ms ih =>
    obtain ⟨key, e⟩ := m
    rw [evaluateMembers, ih, lookup_putProperty, List.reverse_cons, List.find?_append]
    cases ms.reverse.find? (·.1.name = name) with
    | some later => simp
    | none =>
      by_cases same : key.name = name
      · simp [same]
      · have other : ¬ name = key.name := fun h => same h.symm
        simp [same, other]

/-! ## The numeral "-0" -/

mutual

/-- What "-0" stands for matters just where the numeral is kept. -/
theorem evaluate_eq_iff {a b : Number} (differ : a ≠ b) : ∀ j : Literal,
    j.evaluate doubles a = j.evaluate doubles b ↔ ¬ j.KeepsMinusZero
  | .null => by simp [Literal.evaluate, Literal.KeepsMinusZero]
  | .boolean _ => by simp [Literal.evaluate, Literal.KeepsMinusZero]
  | .string _ => by simp [Literal.evaluate, Literal.KeepsMinusZero]
  | .number n => by
    by_cases isMinusZero : n = .minusZero
    · simp [Literal.evaluate, Literal.KeepsMinusZero, isMinusZero, differ]
    · simp [Literal.evaluate, Literal.KeepsMinusZero, isMinusZero]
  | .array es => by
    rw [Literal.evaluate, Literal.evaluate, Literal.KeepsMinusZero, JSValue.array.injEq]
    exact evaluateElements_eq_iff differ es
  | .object ms => by
    have members := evaluateMembers_eq_iff differ ms (p := []) (q := []) rfl List.nodup_nil
    rw [Literal.evaluate, Literal.evaluate, Literal.KeepsMinusZero, JSValue.object.injEq, members]
    simp

theorem evaluateElements_eq_iff {a b : Number} (differ : a ≠ b) : ∀ es : List Literal,
    evaluateElements doubles a es = evaluateElements doubles b es ↔ ¬ ElementsKeepMinusZero es
  | [] => by simp [evaluateElements, ElementsKeepMinusZero]
  | e :: es => by
    rw [evaluateElements, evaluateElements, ElementsKeepMinusZero, List.cons.injEq,
      evaluate_eq_iff differ e, evaluateElements_eq_iff differ es, not_or]

/-- Only the names that the members do not put again depend on what was there before. -/
theorem evaluateMembers_eq_iff {a b : Number} (differ : a ≠ b) :
    ∀ (ms : List (PropertyKey × Literal)) {p q : Properties Number},
      p.map Prod.fst = q.map Prod.fst → (p.map Prod.fst).Nodup →
      (evaluateMembers doubles a p ms = evaluateMembers doubles b q ms ↔
        (∀ name, (∀ m ∈ ms, m.1.name ≠ name) → p.lookup name = q.lookup name) ∧
          ¬ MembersKeepMinusZero ms)
  | [], p, q, names, distinct => by
    rw [evaluateMembers, evaluateMembers, MembersKeepMinusZero]
    constructor
    · rintro rfl
      exact ⟨fun _ _ => rfl, not_false⟩
    · rintro ⟨values, -⟩
      exact properties_ext distinct names fun name => values name nofun
  | (key, e) :: ms, p, q, names, distinct => by
    have putNames : (putProperty p key.name (e.evaluate doubles a)).map Prod.fst =
        (putProperty q key.name (e.evaluate doubles b)).map Prod.fst := by
      rw [names_putProperty, names_putProperty, names]
    have putDistinct : ((putProperty p key.name (e.evaluate doubles a)).map Prod.fst).Nodup := by
      rw [names_putProperty]
      exact nodup_putName distinct _
    rw [evaluateMembers, evaluateMembers, evaluateMembers_eq_iff differ ms putNames putDistinct,
      MembersKeepMinusZero]
    simp only [lookup_putProperty]
    have value := evaluate_eq_iff differ e
    constructor
    · rintro ⟨values, notLater⟩
      refine ⟨?_, ?_⟩
      · intro name other
        have here := values name fun m member => other m (List.mem_cons_of_mem _ member)
        have differs : ¬ name = key.name := fun same => other (key, e) List.mem_cons_self same.symm
        rwa [if_neg differs, if_neg differs] at here
      · rintro (⟨keeps, last⟩ | later)
        · have here := values key.name last
          rw [if_pos rfl, if_pos rfl, Option.some_inj] at here
          exact value.mp here keeps
        · exact notLater later
    · rintro ⟨values, notKept⟩
      refine ⟨?_, fun later => notKept (.inr later)⟩
      intro name other
      split_ifs with same
      · subst same
        rw [value.mpr fun keeps => notKept (.inl ⟨keeps, other⟩)]
      · apply values name
        intro m member
        rcases List.mem_cons.mp member with rfl | inRest
        · exact fun same' => same same'.symm
        · exact other m inRest

end

end

end NetRider.Json
