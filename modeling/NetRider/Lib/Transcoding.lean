import Mathlib

/-!
# Bounded conversions

A conversion takes units from a source and writes units of another kind while there is room. One
turn takes some units, at least one, and writes what they stand for, or stops with a result.
-/

namespace NetRider.Lib

/-- Why a conversion stopped, what is left of the source and what has been written. -/
structure Conversion (σ τ ε : Type*) where
  result : ε
  source : List σ
  target : List τ
  deriving DecidableEq

section

variable {σ τ ε : Type*}

/-- What has been written before comes first. -/
def Conversion.after (written : List τ) (c : Conversion σ τ ε) : Conversion σ τ ε :=
  { c with target := written ++ c.target }

/-- The loop; every turn shortens the source, so `fuel` is its length. -/
def convertLoop (ok : ε) (turn : Nat → List σ → Except ε (List τ × List σ)) :
    Nat → Nat → List σ → Conversion σ τ ε
  | 0, _, source => ⟨ok, source, []⟩
  | fuel + 1, room, source =>
    if source.isEmpty then ⟨ok, source, []⟩
    else
      match turn room source with
      | .error result => ⟨result, source, []⟩
      | .ok (units, rest) =>
        (convertLoop ok turn fuel (room - units.length) rest).after units

def convert (ok : ε) (turn : Nat → List σ → Except ε (List τ × List σ)) (room : Nat)
    (source : List σ) : Conversion σ τ ε :=
  convertLoop ok turn source.length room source

/-- A turn that looks at the room only to stop: `free` is the turn with room for everything. -/
structure Bounded (full : ε) (turn : Nat → List σ → Except ε (List τ × List σ))
    (free : List σ → Except ε (List τ × List σ)) : Prop where
  turn_eq : ∀ room source, source ≠ [] → turn room source =
    match free source with
    | .error result => .error result
    | .ok (units, rest) => if units.length ≤ room then .ok (units, rest) else .error full
  consumes : ∀ source units rest, free source = .ok (units, rest) →
    ∃ used, used ≠ [] ∧ source = used ++ rest
  honest : ∀ source, free source ≠ .error full

/-- Some turns with room for everything. -/
inductive Turns (free : List σ → Except ε (List τ × List σ)) : List σ → List τ → List σ → Prop
  | done (source) : Turns free source [] source
  | turn {source units rest out last} : free source = .ok (units, rest) →
    Turns free rest out last → Turns free source (units ++ out) last

/-- How a conversion that has come to `rest` with this much room ends. -/
def Stops (ok full : ε) (free : List σ → Except ε (List τ × List σ)) (room : Nat) (rest : List σ)
    (result : ε) : Prop :=
  if rest = [] then result = ok
  else
    match free rest with
    | .error stopped => result = stopped
    | .ok (units, _) => room < units.length ∧ result = full

variable {ok full : ε} {turn : Nat → List σ → Except ε (List τ × List σ)}
  {free : List σ → Except ε (List τ × List σ)} {source rest last : List σ} {out out' : List τ}
  {room : Nat}

theorem Turns.trans (first : Turns free source out rest) (second : Turns free rest out' last) :
    Turns free source (out ++ out') last := by
  induction first with
  | done source => exact second
  | turn taken _ ih =>
    rw [List.append_assoc]
    exact .turn taken (ih second)

theorem Turns.suffix (bounded : Bounded full turn free) (turns : Turns free source out rest) :
    rest <:+ source := by
  induction turns with
  | done source => exact List.suffix_refl source
  | turn taken _ ih =>
    obtain ⟨used, -, rfl⟩ := bounded.consumes _ _ _ taken
    exact ih.trans (List.suffix_append used _)

theorem Bounded.shortens (bounded : Bounded full turn free) {units : List τ}
    (taken : free source = .ok (units, rest)) : rest.length < source.length := by
  obtain ⟨used, some, rfl⟩ := bounded.consumes _ _ _ taken
  have := List.length_pos_iff.mpr some
  rw [List.length_append]
  omega

theorem Bounded.ne_nil (bounded : Bounded full turn free) {units : List τ}
    (taken : free source = .ok (units, rest)) : source ≠ [] :=
  List.ne_nil_of_length_pos (Nat.zero_lt_of_lt (bounded.shortens taken))

/-- What the loop does. -/
theorem convertLoop_spec (bounded : Bounded full turn free) {fuel : Nat}
    (enough : source.length ≤ fuel) :
    Turns free source (convertLoop ok turn fuel room source).target
        (convertLoop ok turn fuel room source).source ∧
      (convertLoop ok turn fuel room source).target.length ≤ room ∧
      Stops ok full free (room - (convertLoop ok turn fuel room source).target.length)
        (convertLoop ok turn fuel room source).source
        (convertLoop ok turn fuel room source).result := by
  induction fuel generalizing room source with
  | zero =>
    obtain rfl := List.length_eq_zero_iff.mp (Nat.le_zero.mp enough)
    exact ⟨.done _, Nat.zero_le _, rfl⟩
  | succ fuel ih =>
    rw [convertLoop]
    cases source with
    | nil => exact ⟨.done _, Nat.zero_le _, rfl⟩
    | cons unit units =>
      have some : unit :: units ≠ [] := List.cons_ne_nil _ _
      rw [List.isEmpty_cons, if_neg Bool.false_ne_true, bounded.turn_eq room _ some]
      cases taken : free (unit :: units) with
      | error result =>
        refine ⟨.done _, Nat.zero_le _, ?_⟩
        simp only [Stops, if_neg some, taken]
      | ok pair =>
        obtain ⟨written, rest⟩ := pair
        by_cases fits : written.length ≤ room
        · have shorter := bounded.shortens taken
          obtain ⟨turns, bound, ends⟩ := @ih rest (room - written.length) (by omega)
          simp only [if_pos fits, Conversion.after, List.length_append]
          refine ⟨.turn taken turns, by omega, ?_⟩
          rwa [← Nat.sub_sub]
        · refine ⟨?_, ?_, ?_⟩
          · simp only [if_neg fits]
            exact .done _
          · simp only [if_neg fits, List.length_nil, Nat.zero_le]
          · simp only [if_neg fits, Stops, if_neg some, taken, List.length_nil, Nat.sub_zero,
              and_true]
            exact not_le.mp fits

theorem convert_spec (bounded : Bounded full turn free) (room : Nat) (source : List σ) :
    Turns free source (convert ok turn room source).target (convert ok turn room source).source ∧
      (convert ok turn room source).target.length ≤ room ∧
      Stops ok full free (room - (convert ok turn room source).target.length)
        (convert ok turn room source).source (convert ok turn room source).result :=
  convertLoop_spec bounded le_rfl

/-- Nothing else can come out. -/
theorem ends_unique {free : List σ → Except ε (List τ × List σ)} {room : Nat} {out out' : List τ}
    {rest rest' : List σ} {result result' : ε} (turns : Turns free source out rest)
    (bound : out.length ≤ room) (ends : Stops ok full free (room - out.length) rest result)
    (bounded : Bounded full turn free) (turns' : Turns free source out' rest')
    (bound' : out'.length ≤ room)
    (ends' : Stops ok full free (room - out'.length) rest' result') :
    result = result' ∧ rest = rest' ∧ out = out' := by
  induction turns generalizing room out' with
  | done source =>
    cases turns' with
    | done =>
      refine ⟨?_, rfl, rfl⟩
      unfold Stops at ends ends'
      split_ifs at ends ends'
      · exact ends.trans ends'.symm
      · cases taken : free rest' with
        | error stopped =>
          rw [taken] at ends ends'
          exact ends.trans ends'.symm
        | ok pair =>
          rw [taken] at ends ends'
          exact ends.2.trans ends'.2.symm
    | turn taken more =>
      rw [Stops, if_neg (bounded.ne_nil taken), taken] at ends
      rw [List.length_append] at bound'
      exact absurd ends.1 (by simp; omega)
  | @turn source units next written last taken more ih =>
    cases turns' with
    | done =>
      rw [Stops, if_neg (bounded.ne_nil taken), taken] at ends'
      rw [List.length_append] at bound
      exact absurd ends'.1 (by simp; omega)
    | @turn _ units' next' written' _ taken' more' =>
      obtain ⟨rfl, rfl⟩ := Prod.mk.inj (Except.ok.inj (taken.symm.trans taken'))
      rw [List.length_append] at bound bound' ends ends'
      rw [← Nat.sub_sub] at ends ends'
      obtain ⟨results, rests, outs⟩ := ih (by omega) ends more' (by omega) ends'
      exact ⟨results, rests, congrArg _ outs⟩

/-- The result is the one that the turns with room for everything lead to. -/
theorem convert_eq (bounded : Bounded full turn free) {result : ε}
    (turns : Turns free source out rest) (bound : out.length ≤ room)
    (ends : Stops ok full free (room - out.length) rest result) :
    convert ok turn room source = ⟨result, rest, out⟩ := by
  obtain ⟨turns', bound', ends'⟩ := @convert_spec _ _ _ ok _ _ _ bounded room source
  obtain ⟨results, rests, outs⟩ := ends_unique turns' bound' ends' bounded turns bound ends
  cases made : convert ok turn room source
  simp_all

theorem convert_done (bounded : Bounded full turn free) (turns : Turns free source out [])
    (bound : out.length ≤ room) : convert ok turn room source = ⟨ok, [], out⟩ :=
  convert_eq bounded turns bound rfl

/-- **Resuming.** What a conversion would have written with more room is what it wrote and what
another one makes of the rest of the source. -/
theorem convert_resume (bounded : Bounded full turn free) (room more : Nat) (source : List σ) :
    convert ok turn ((convert ok turn room source).target.length + more) source =
      (convert ok turn more (convert ok turn room source).source).after
        (convert ok turn room source).target := by
  obtain ⟨turns, -, -⟩ := @convert_spec _ _ _ ok _ _ _ bounded room source
  obtain ⟨turns', bound', ends'⟩ :=
    @convert_spec _ _ _ ok _ _ _ bounded more (convert ok turn room source).source
  refine convert_eq bounded (turns.trans turns') ?_ ?_
  · rw [List.length_append]
    omega
  · rwa [List.length_append, ← Nat.sub_sub, Nat.add_sub_cancel_left]

/-- With another result the room does not matter. -/
theorem Stops.of_ne {result : ε} (ends : Stops ok full free room rest result)
    (other : result ≠ full) (room' : Nat) :
    Stops ok full free room' rest result := by
  unfold Stops at *
  split_ifs at * with empty
  · exact ends
  · cases taken : free rest with
    | error stopped => rwa [taken] at ends
    | ok pair =>
      rw [taken] at ends
      exact absurd ends.2 other

theorem convert_larger (bounded : Bounded full turn free) {room' : Nat}
    (other : (convert ok turn room source).result ≠ full) (larger : room ≤ room') :
    convert ok turn room' source = convert ok turn room source := by
  obtain ⟨turns, bound, ends⟩ := @convert_spec _ _ _ ok _ _ _ bounded room source
  exact convert_eq bounded turns (bound.trans larger) (ends.of_ne other _)

theorem convert_settled (bounded : Bounded full turn free) {room' : Nat}
    (other : (convert ok turn room source).result ≠ full)
    (other' : (convert ok turn room' source).result ≠ full) :
    convert ok turn room' source = convert ok turn room source := by
  rcases le_total room room' with larger | smaller
  · exact convert_larger bounded other larger
  · exact (convert_larger bounded other' smaller).symm

theorem Turns.length_le {k : Nat}
    (short : ∀ source units rest, free source = .ok (units, rest) →
      units.length + k * rest.length ≤ k * source.length)
    (turns : Turns free source out rest) : out.length + k * rest.length ≤ k * source.length := by
  induction turns with
  | done source => simp
  | turn taken _ ih =>
    have bound := short _ _ _ taken
    rw [List.length_append]
    omega

/-- Room for `k` units for each one of the source is enough if no turn writes more. -/
theorem convert_enough (bounded : Bounded full turn free) (other : ok ≠ full) {k : Nat}
    (short : ∀ source units rest, free source = .ok (units, rest) →
      units.length + k * rest.length ≤ k * source.length)
    (enough : k * source.length ≤ room) : (convert ok turn room source).result ≠ full := by
  obtain ⟨turns, bound, ends⟩ := @convert_spec _ _ _ ok _ _ _ bounded room source
  have written := turns.length_le short
  unfold Stops at ends
  split_ifs at ends with empty
  · rw [ends]
    exact other
  · cases taken : free (convert ok turn room source).source with
    | error stopped =>
      rw [taken] at ends
      intro same
      exact bounded.honest _ (by rw [taken, ← ends, same])
    | ok pair =>
      rw [taken] at ends
      have more := short _ _ _ taken
      omega

/-- **Resuming with enough room.** -/
theorem convert_resume_enough (bounded : Bounded full turn free) (other : ok ≠ full) {k : Nat}
    (short : ∀ source units rest, free source = .ok (units, rest) →
      units.length + k * rest.length ≤ k * source.length) {room' more : Nat}
    (enough : k * source.length ≤ room')
    (enough' : k * (convert ok turn room source).source.length ≤ more) :
    convert ok turn room' source =
      (convert ok turn more (convert ok turn room source).source).after
        (convert ok turn room source).target := by
  have whole := convert_enough bounded other short enough
  have rest := convert_enough bounded other short enough'
  have resumed := @convert_resume _ _ _ ok _ _ _ bounded room more source
  rw [← resumed]
  refine (convert_settled bounded whole ?_).symm
  rw [resumed]
  exact rest

end

end NetRider.Lib
