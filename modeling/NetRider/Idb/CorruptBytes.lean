import Mathlib.Data.List.Infix
import Mathlib.Logic.Relation
import NetRider.Idb.KeyDecoding

/-!
# Decoders on arbitrary bytes

An integer may be written with any number of bytes, and a length is doubled and added to a cursor
before the sum is compared with the limit. `.undefined` is a shift by 64 or more, or a cursor that
leaves the buffer because a length was accepted that does not fit.
-/

namespace NetRider.Idb

/-! ## What is written -/

/-- The integer written at a cursor, however large, and what is behind it. -/
def writtenInt : List UInt8 → Option (Nat × List UInt8)
  | [] => none
  | c :: p =>
    if c.toNat < 128 then some (c.toNat, p)
    else (writtenInt p).map fun (n, q) => (c.toNat % 128 + 128 * n, q)

/-- So many bytes of an integer that goes on, and another byte behind them. -/
def goesOn : Nat → List UInt8 → Bool
  | 0, p => !p.isEmpty
  | bytes + 1, c :: p => decide (128 ≤ c.toNat) && goesOn bytes p
  | _ + 1, [] => false

/-- More than ten bytes. -/
abbrev Overlong (p : List UInt8) : Prop := goesOn 10 p = true

/-- The address of the cursor plus the offset is none. -/
def Wraps (limit : Nat) (p : List UInt8) (offset : Int) : Prop := 2 ^ 64 ≤ limit - p.length + offset

instance (limit : Nat) (p : List UInt8) (offset : Int) : Decidable (Wraps limit p offset) :=
  inferInstanceAs (Decidable (_ ≤ _))

/-- What is decoded is not undefined, and the cursor behind it is in the buffer. -/
def Confined {α : Type} (p : List UInt8) (outcome : Decoded (α × List UInt8)) : Prop :=
  outcome ≠ .error .undefined ∧ ∀ a q, outcome = .ok (a, q) → q <:+ p

/-! ## Integers -/

theorem writtenInt_suffix {p q : List UInt8} {n : Nat} (written : writtenInt p = some (n, q)) :
    q <:+ p ∧ q.length < p.length := by
  induction p generalizing n with
  | nil => simp [writtenInt] at written
  | cons c p ih =>
    rw [writtenInt] at written
    split_ifs at written with last
    · simp only [Option.some.injEq, Prod.mk.injEq] at written
      obtain ⟨-, rfl⟩ := written
      exact ⟨List.suffix_cons c p, by simp⟩
    · simp only [Option.map_eq_some_iff, Prod.mk.injEq, Prod.exists] at written
      obtain ⟨m, r, rest, -, rfl⟩ := written
      obtain ⟨suffix, shorter⟩ := ih rest
      exact ⟨suffix.trans (List.suffix_cons c p), by simp only [List.length_cons]; omega⟩

theorem int64_emod (n : Nat) : int64 ((n % 2 ^ 64 : Nat) : Int) = int64 n := by
  unfold int64
  rw [Int.bmod_def, Int.bmod_def]
  omega

/-- What is collected from a group, with the bits above 64 lost. -/
theorem collect_eq {shift found group : Nat} (low : found < 2 ^ shift) (near : shift ≤ 63) :
    found ||| (group <<< shift) % 2 ^ 64 = (found + group * 2 ^ shift) % 2 ^ 64 := by
  obtain ⟨rest, sum⟩ : ∃ rest, 64 = shift + rest := ⟨64 - shift, by omega⟩
  have kept : (group <<< shift) % 2 ^ 64 = (group % 2 ^ rest) <<< shift := by
    rw [Nat.shiftLeft_eq, Nat.shiftLeft_eq, sum, pow_add, Nat.mul_comm (2 ^ shift),
      Nat.mul_mod_mul_right]
  have small : found + group % 2 ^ rest * 2 ^ shift < 2 ^ 64 := by
    have below : (group % 2 ^ rest + 1) * 2 ^ shift ≤ 2 ^ rest * 2 ^ shift :=
      Nat.mul_le_mul_right _ (Nat.mod_lt group (Nat.two_pow_pos rest))
    rw [← pow_add, Nat.add_comm rest, ← sum, Nat.add_mul] at below
    omega
  have split : found + group * 2 ^ shift =
      found + group % 2 ^ rest * 2 ^ shift + group / 2 ^ rest * 2 ^ 64 := by
    conv_lhs => rw [← Nat.mod_add_div group (2 ^ rest)]
    rw [sum, pow_add]
    ring
  rw [kept, or_shiftLeft low, split, Nat.add_mul_mod_self_right, Nat.mod_eq_of_lt small]

/-- The loop with so many rounds ahead of it in which the shift is below 64. -/
theorem decodeVarIntLoop_eq {rounds shift found : Nat} (p : List UInt8) (low : found < 2 ^ shift)
    (ahead : shift + 7 * rounds = 70) (more : 0 < rounds) :
    decodeVarIntLoop shift found p =
      if goesOn rounds p then .error .undefined
      else match writtenInt p with
        | none => .error .notOk
        | some (n, q) => .ok (int64 ↑(found + n * 2 ^ shift), q) := by
  induction p generalizing rounds shift found with
  | nil =>
    obtain ⟨rounds, rfl⟩ : ∃ n, rounds = n + 1 := ⟨rounds - 1, by omega⟩
    rfl
  | cons c p ih =>
    obtain ⟨rounds, rfl⟩ : ∃ n, rounds = n + 1 := ⟨rounds - 1, by omega⟩
    have group := @collect_eq shift found (c.toNat % 128) low (by omega)
    rw [decodeVarIntLoop, if_pos (by omega)]
    simp only [and_low, group, ne_eq, and_high_eq_zero_iff c.toNat_lt, ite_not]
    by_cases last : c.toNat < 128
    · have ends : goesOn (rounds + 1) (c :: p) = false := by
        simp [goesOn, last]
      simp only [if_pos last, ends, Bool.false_eq_true, if_false, writtenInt, int64_emod,
        Nat.mod_eq_of_lt last]
    · have goes : goesOn (rounds + 1) (c :: p) = goesOn rounds p := by
        simp [goesOn, Nat.le_of_not_lt last]
      simp only [if_neg last, goes, writtenInt]
      rcases Nat.eq_zero_or_pos rounds with rfl | more
      · have far : ¬ shift + 7 < 64 := by omega
        cases p with
        | nil => rfl
        | cons d p => simp [decodeVarIntLoop, goesOn, far]
      · have low' : found + c.toNat % 128 * 2 ^ shift < 2 ^ (shift + 7) := by
          have top : c.toNat % 128 * 2 ^ shift ≤ 127 * 2 ^ shift := Nat.mul_le_mul_right _ (by omega)
          rw [pow_add]
          omega
        have small : found + c.toNat % 128 * 2 ^ shift < 2 ^ 64 :=
          low'.trans_le (Nat.pow_le_pow_right (by decide) (by omega))
        rw [Nat.mod_eq_of_lt small, ih low' (by omega) more]
        cases writtenInt p with
        | none => rfl
        | some rest =>
          have sum : found + c.toNat % 128 * 2 ^ shift + rest.1 * 2 ^ (shift + 7) =
              found + (c.toNat % 128 + 128 * rest.1) * 2 ^ shift := by
            rw [pow_add]
            ring
          simp only [Option.map_some, sum]

/-- What `decodeVarInt` finds: up to ten bytes, with the bits above 64 lost. -/
theorem decodeVarInt_eq (p : List UInt8) :
    decodeVarInt p =
      if Overlong p then .error .undefined
      else match writtenInt p with
        | none => .error .notOk
        | some (n, q) => .ok (int64 n, q) := by
  have loop := @decodeVarIntLoop_eq 10 0 0 p (by decide) (by decide) (by decide)
  rw [decodeVarInt, loop]
  cases writtenInt p <;> simp

theorem decodeVarInt_of_written {p q : List UInt8} {n : Nat} (bounded : ¬ Overlong p)
    (written : writtenInt p = some (n, q)) :
    ∃ len, decodeVarInt p = .ok (len, q) ∧ int64 n = len := by
  rw [decodeVarInt_eq, if_neg bounded, written]
  exact ⟨_, rfl, rfl⟩

theorem decodeVarInt_undefined_iff {p : List UInt8} :
    decodeVarInt p = .error .undefined ↔ Overlong p := by
  rw [decodeVarInt_eq]
  split_ifs with overlong
  · exact iff_of_true rfl overlong
  · cases writtenInt p <;> simpa using overlong

theorem decodeVarInt_confined_iff {p : List UInt8} :
    Confined p (decodeVarInt p) ↔ ¬ Overlong p := by
  rw [Confined, ne_eq, decodeVarInt_undefined_iff]
  refine ⟨And.left, fun bounded => ⟨bounded, ?_⟩⟩
  intro n q decoded
  rw [decodeVarInt_eq, if_neg bounded] at decoded
  cases written : writtenInt p with
  | none => simp [written] at decoded
  | some found =>
    simp only [written, Except.ok.injEq, Prod.mk.injEq] at decoded
    exact decoded.2 ▸ (writtenInt_suffix written).1

/-! ## Strings -/

/-- Twice a length that is decoded, in unbounded integers, added to the cursor behind it. -/
def LengthInSpace (limit : Nat) (p : List UInt8) : Prop :=
  ∀ n q, writtenInt p = some (n, q) → 0 ≤ int64 n → ¬ Wraps limit q (int64 n * 2)

theorem lengthInSpace_iff {limit n : Nat} {len : Int} {p q : List UInt8}
    (written : writtenInt p = some (n, q)) (value : int64 n = len) :
    LengthInSpace limit p ↔ (0 ≤ len → ¬ Wraps limit q (len * 2)) := by
  rw [LengthInSpace, ← value, written]
  refine ⟨fun inside => inside n q rfl, fun inside m r same => ?_⟩
  obtain ⟨rfl, rfl⟩ : n = m ∧ q = r := by simpa using same
  exact inside

theorem int64_lt (n : Int) : int64 n < 2 ^ 63 := by
  unfold int64
  rw [Int.bmod_def]
  omega

/-- What the test rejects does not fit, and what it accepts fits unless the sum wraps around. -/
theorem beyond_cases {limit : Nat} {p : List UInt8} {offset : Int} (placed : Placed limit p)
    (nonneg : 0 ≤ offset) (small : offset < 2 ^ 64) :
    beyond limit p offset ∧ p.length < offset ∧ ¬ Wraps limit p offset ∨
      ¬ beyond limit p offset ∧ offset ≤ p.length ∧ ¬ Wraps limit p offset ∨
      ¬ beyond limit p offset ∧ p.length < offset ∧ Wraps limit p offset := by
  have fits := placed.fits
  have space := placed.small
  unfold beyond Wraps
  omega

theorem wraps_iff_exceeds {limit : Nat} {p : List UInt8} {offset : Int} (placed : Placed limit p)
    (nonneg : 0 ≤ offset) (small : offset < 2 ^ 64) (near : ¬ beyond limit p offset) :
    Wraps limit p offset ↔ p.length < offset := by
  rcases beyond_cases placed nonneg small with ⟨far, -, -⟩ | ⟨-, fits, inside⟩ | ⟨-, exceeds, wraps⟩
  · exact absurd far near
  · exact iff_of_false inside (by omega)
  · exact iff_of_true wraps exceeds

theorem readBytes_of_fits {p : List UInt8} {offset : Int} (fits : offset ≤ p.length) :
    readBytes p offset.toNat = .ok (p.take offset.toNat, p.drop offset.toNat) :=
  if_pos (Int.toNat_le.mpr fits)

theorem readBytes_of_exceeds {p : List UInt8} {offset : Int} (exceeds : p.length < offset) :
    readBytes p offset.toNat = .error .undefined :=
  if_neg (by omega)

/-- The bytes behind a length that passes the test. -/
theorem confined_of_length {limit : Nat} {len : Int} {p q : List UInt8} {α : Type}
    {f : List UInt8 → α} (small : len < 2 ^ 63) (placed : Placed limit q) (suffix : q <:+ p) :
    Confined p (if len < 0 ∨ beyond limit q (len * 2) then .error .notOk
      else do
        let (bytes, r) ← readBytes q (len * 2).toNat
        .ok (f bytes, r)) ↔
      (0 ≤ len → ¬ Wraps limit q (len * 2)) := by
  by_cases negative : len < 0
  · rw [if_pos (.inl negative)]
    exact iff_of_true ⟨by simp, by simp⟩ fun nonneg => by omega
  have nonneg : 0 ≤ len := by omega
  rw [imp_iff_right nonneg]
  rcases beyond_cases placed (show 0 ≤ len * 2 by omega) (by omega) with
    ⟨far, -, inside⟩ | ⟨near, fits, inside⟩ | ⟨near, exceeds, wraps⟩
  · rw [if_pos (.inr far)]
    exact iff_of_true ⟨by simp, by simp⟩ inside
  · rw [if_neg (not_or.mpr ⟨negative, near⟩), readBytes_of_fits fits]
    refine iff_of_true ⟨by simp [bind, Except.bind], ?_⟩ inside
    have behind := (List.drop_suffix (len * 2).toNat q).trans suffix
    simpa [bind, Except.bind] using behind
  · rw [if_neg (not_or.mpr ⟨negative, near⟩), readBytes_of_exceeds exceeds]
    exact iff_of_false (fun confined => confined.1 rfl) (not_not.mpr wraps)

theorem decodeStringWithLength_confined_iff {limit : Nat} {p : List UInt8}
    (placed : Placed limit p) :
    Confined p (decodeStringWithLength limit p) ↔ ¬ Overlong p ∧ LengthInSpace limit p := by
  rw [decodeStringWithLength]
  by_cases overlong : Overlong p
  · rw [decodeVarInt_undefined_iff.mpr overlong]
    exact iff_of_false (fun confined => confined.1 rfl) (fun sound => sound.1 overlong)
  rw [and_iff_right overlong]
  cases written : writtenInt p with
  | none =>
    rw [decodeVarInt_eq, if_neg overlong, written]
    simp [Confined, LengthInSpace, written, bind, Except.bind]
  | some found =>
    obtain ⟨n, q⟩ := found
    obtain ⟨suffix, shorter⟩ := writtenInt_suffix written
    have placed' : Placed limit q := ⟨by have := placed.fits; omega, placed.small⟩
    have small := int64_lt n
    obtain ⟨len, decoded, value⟩ := decodeVarInt_of_written overlong written
    rw [value] at small
    rw [decoded]
    exact (confined_of_length small placed' suffix).trans (lengthInSpace_iff written value).symm

/-! ## Two strings -/

/-- `Confined` for a comparison. -/
def BothConfined (p q : List UInt8) (outcome : Decoded Compared) : Prop :=
  outcome ≠ .error .undefined ∧ ∀ x r s, outcome = .ok (x, r, s) → r <:+ p ∧ s <:+ q

/-- The offset is too large, and the sum shows it. -/
def Rejected (limit : Nat) (p : List UInt8) (offset : Int) : Prop :=
  p.length < offset ∧ ¬ Wraps limit p offset

theorem beyond_iff_rejected {limit : Nat} {p : List UInt8} {offset : Int} (placed : Placed limit p)
    (nonneg : 0 ≤ offset) (small : offset < 2 ^ 64) :
    beyond limit p offset ↔ Rejected limit p offset := by
  rcases beyond_cases placed nonneg small with far | ⟨near, fits, -⟩ | ⟨near, -, wraps⟩
  · exact iff_of_true far.1 far.2
  · exact iff_of_false near fun rejected => absurd rejected.1 (by omega)
  · exact iff_of_false near fun rejected => rejected.2 wraps

/-- A length that is too large for the address space is not compared, since the other one is
rejected. -/
def LengthsInSpace (limitP limitQ : Nat) (p q : List UInt8) : Prop :=
  ∀ m r n s, writtenInt p = some (m, r) → writtenInt q = some (n, s) →
    0 ≤ int64 m → 0 ≤ int64 n → Wraps limitP r (int64 m * 2) ∨ Wraps limitQ s (int64 n * 2) →
    Rejected limitP r (int64 m * 2) ∨ Rejected limitQ s (int64 n * 2)

section

variable {limitP limitQ : Nat} {p q : List UInt8}

theorem both_undefined {α β : Type} {a : Decoded α} {b : Decoded β}
    (undefined : a = .error .undefined ∨ b = .error .undefined) : both a b = .error .undefined := by
  rcases undefined with rfl | rfl
  · rfl
  · cases a with
    | error fault => cases fault <;> rfl
    | ok a => rfl

theorem both_notOk {α β : Type} {a : Decoded α} {b : Decoded β}
    (defined : a ≠ .error .undefined ∧ b ≠ .error .undefined)
    (notOk : a = .error .notOk ∨ b = .error .notOk) : both a b = .error .notOk := by
  rcases notOk with rfl | rfl
  · cases b with
    | error fault =>
      cases fault with
      | notOk => rfl
      | undefined => exact absurd rfl defined.2
    | ok b => rfl
  · cases a with
    | error fault =>
      cases fault with
      | notOk => rfl
      | undefined => exact absurd rfl defined.1
    | ok a => rfl

theorem decodeVarInt_notOk (bounded : ¬ Overlong p) (ends : writtenInt p = none) :
    decodeVarInt p = .error .notOk := by
  rw [decodeVarInt_eq, if_neg bounded, ends]

theorem lengthsInSpace_iff {m n : Nat} {lenP lenQ : Int} {r s : List UInt8}
    (written : writtenInt p = some (m, r)) (value : int64 m = lenP)
    (written' : writtenInt q = some (n, s)) (value' : int64 n = lenQ) :
    LengthsInSpace limitP limitQ p q ↔
      (0 ≤ lenP → 0 ≤ lenQ → Wraps limitP r (lenP * 2) ∨ Wraps limitQ s (lenQ * 2) →
        Rejected limitP r (lenP * 2) ∨ Rejected limitQ s (lenQ * 2)) := by
  rw [LengthsInSpace, ← value, ← value', written, written']
  refine ⟨fun inside => inside m r n s rfl rfl, fun inside m' r' n' s' same same' => ?_⟩
  obtain ⟨rfl, rfl⟩ : m = m' ∧ r = r' := by simpa using same
  obtain ⟨rfl, rfl⟩ : n = n' ∧ s = s' := by simpa using same'
  exact inside

theorem compareEncodedStrings_confined_iff (placed : Placed limitP p) (placedQ : Placed limitQ q) :
    BothConfined p q (compareEncodedStringsWithLength limitP limitQ p q) ↔
      ¬ Overlong p ∧ ¬ Overlong q ∧ LengthsInSpace limitP limitQ p q := by
  rw [compareEncodedStringsWithLength]
  by_cases overlong : Overlong p ∨ Overlong q
  · rw [both_undefined (overlong.imp decodeVarInt_undefined_iff.mpr decodeVarInt_undefined_iff.mpr)]
    exact iff_of_false (fun confined => confined.1 rfl)
      fun fits => overlong.elim fits.1 fits.2.1
  obtain ⟨first, second⟩ := not_or.mp overlong
  rw [and_iff_right first, and_iff_right second]
  by_cases ends : writtenInt p = none ∨ writtenInt q = none
  · rw [both_notOk ⟨mt decodeVarInt_undefined_iff.mp first, mt decodeVarInt_undefined_iff.mp second⟩
      (ends.imp (decodeVarInt_notOk first) (decodeVarInt_notOk second))]
    refine iff_of_true ⟨by simp [bind, Except.bind], by simp [bind, Except.bind]⟩ ?_
    intro m r n s written written'
    simp [written, written'] at ends
  · obtain ⟨some_p, some_q⟩ := not_or.mp ends
    obtain ⟨⟨m, r⟩, written⟩ := Option.ne_none_iff_exists'.mp some_p
    obtain ⟨⟨n, s⟩, written'⟩ := Option.ne_none_iff_exists'.mp some_q
    obtain ⟨suffix, shorter⟩ := writtenInt_suffix written
    obtain ⟨suffix', shorter'⟩ := writtenInt_suffix written'
    have placed' : Placed limitP r := ⟨by have := placed.fits; omega, placed.small⟩
    have placedQ' : Placed limitQ s := ⟨by have := placedQ.fits; omega, placedQ.small⟩
    have small := int64_lt m
    have small' := int64_lt n
    obtain ⟨lenP, decoded, value⟩ := decodeVarInt_of_written first written
    obtain ⟨lenQ, decoded', value'⟩ := decodeVarInt_of_written second written'
    rw [lengthsInSpace_iff written value written' value']
    rw [value] at small
    rw [value'] at small'
    rw [decoded, decoded', both_ok]
    simp only [bind, Except.bind]
    by_cases negative : lenP < 0 ∨ lenQ < 0
    · rw [if_pos negative]
      exact iff_of_true ⟨by simp, by simp⟩ (by omega)
    rw [if_neg negative, imp_iff_right (by omega), imp_iff_right (by omega)]
    have rejected := beyond_iff_rejected placed' (show 0 ≤ lenP * 2 by omega) (by omega)
    have rejected' := beyond_iff_rejected placedQ' (show 0 ≤ lenQ * 2 by omega) (by omega)
    by_cases far : beyond limitP r (lenP * 2) ∨ beyond limitQ s (lenQ * 2)
    · rw [if_pos far]
      exact iff_of_true ⟨by simp, by simp⟩ fun _ => far.imp rejected.mp rejected'.mp
    rw [if_neg far]
    have none_rejected := mt (Or.imp rejected.mpr rejected'.mpr) far
    obtain ⟨near, near'⟩ := not_or.mp far
    have wraps := wraps_iff_exceeds placed' (show 0 ≤ lenP * 2 by omega) (by omega) near
    have wraps' := wraps_iff_exceeds placedQ' (show 0 ≤ lenQ * 2 by omega) (by omega) near'
    by_cases fits : lenP * 2 ≤ r.length
    · by_cases fits' : lenQ * 2 ≤ s.length
      · rw [readBytes_of_fits fits, readBytes_of_fits fits']
        have behind := (List.drop_suffix (lenP * 2).toNat r).trans suffix
        have behind' := (List.drop_suffix (lenQ * 2).toNat s).trans suffix'
        refine iff_of_true ⟨?_, fun x r' s' same => ?_⟩ fun wrapped => ?_
        · simp only
          split_ifs <;> simp
        · simp only at same
          split_ifs at same <;> cases same <;> exact ⟨behind, behind'⟩
        · rw [wraps, wraps'] at wrapped
          omega
      · rw [readBytes_of_fits fits, readBytes_of_exceeds (by omega)]
        refine iff_of_false (fun confined => confined.1 rfl) fun inside => none_rejected (inside ?_)
        exact .inr (wraps'.mpr (by omega))
    · rw [readBytes_of_exceeds (by omega)]
      refine iff_of_false (fun confined => confined.1 rfl) fun inside => none_rejected (inside ?_)
      exact .inl (wraps.mpr (by omega))

end

/-! ## Whole keys -/

/-- The first of so many keys is walked over, with lengths in unbounded integers. An array leaves
its elements to come. -/
def walkStep : Nat × List UInt8 → Option (Nat × List UInt8)
  | (keys + 1, type :: p) =>
    if type = IDBKeyArrayTypeByte then
      match writtenInt p with
      | none => none
      | some (n, q) => if int64 n < 0 then none else some (keys + (int64 n).toNat, q)
    else if type = IDBKeyStringTypeByte then
      match writtenInt p with
      | none => none
      | some (n, q) =>
        if 0 ≤ int64 n ∧ int64 n * 2 ≤ q.length then some (keys, q.drop (int64 n * 2).toNat) else none
    else if type = IDBKeyDateTypeByte ∨ type = IDBKeyNumberTypeByte then
      if 8 ≤ p.length then some (keys, p.drop 8) else none
    else some (keys, p)
  | _ => none

/-- The length or the double of the key at a cursor. -/
def FieldInSpace (limit : Nat) : List UInt8 → Prop
  | [] => True
  | type :: p =>
    (type = IDBKeyArrayTypeByte → ¬ Overlong p) ∧
    (type = IDBKeyStringTypeByte → ¬ Overlong p ∧ LengthInSpace limit p) ∧
    (type = IDBKeyDateTypeByte ∨ type = IDBKeyNumberTypeByte → ¬ Wraps limit p 8)

/-- Every field that a walk over so many keys comes to. -/
def KeysInSpace (limit keys : Nat) (p : List UInt8) : Prop :=
  ∀ n q, Relation.ReflTransGen (fun s t => walkStep s = some t) (keys, p) (n + 1, q) →
    FieldInSpace limit q

section

variable {limit : Nat} {p q : List UInt8}

theorem keysInSpace_zero : KeysInSpace limit 0 p := by
  intro n q walk
  rcases walk.cases_head with same | ⟨s, step, -⟩
  · simp at same
  · simp [walkStep] at step

theorem keysInSpace_succ {keys : Nat} :
    KeysInSpace limit (keys + 1) p ↔ FieldInSpace limit p ∧
      ∀ n q, walkStep (keys + 1, p) = some (n, q) → KeysInSpace limit n q := by
  constructor
  · intro inside
    exact ⟨inside keys p .refl, fun n q step m r walk => inside m r (.head step walk)⟩
  · rintro ⟨field, next⟩ m r walk
    rcases walk.cases_head with same | ⟨⟨n, q⟩, step, rest⟩
    · simp only [Prod.mk.injEq, Nat.add_right_cancel_iff] at same
      exact same.2 ▸ field
    · exact next n q step m r rest

/-- What the outcome of a walk over so many keys says of their fields. -/
def Tells (limit : Nat) (outcome : Decoded (List UInt8)) (keys : Nat) (p : List UInt8) : Prop :=
  match outcome with
  | .ok q => q <:+ p ∧ q.length + keys ≤ p.length ∧
      ∀ n, KeysInSpace limit (n + keys) p ↔ KeysInSpace limit n q
  | .error .notOk => ∀ n, KeysInSpace limit (n + keys) p
  | .error .undefined => ∀ n, ¬ KeysInSpace limit (n + keys) p

theorem Tells.of_iff {outcome : Decoded (List UInt8)} {keys more : Nat}
    (told : Tells limit outcome more q) (suffix : q <:+ p)
    (shorter : ∀ rest, rest + more ≤ q.length → rest + keys ≤ p.length)
    (same : ∀ n, KeysInSpace limit (n + keys) p ↔ KeysInSpace limit (n + more) q) :
    Tells limit outcome keys p := by
  unfold Tells at told ⊢
  split at told
  · exact ⟨told.1.trans suffix, shorter _ told.2.1, fun n => (same n).trans (told.2.2 n)⟩
  · exact fun n => (same n).mpr (told n)
  · exact fun n => mt (same n).mp (told n)

/-- The walk goes on behind a key with a sound field. -/
theorem keysInSpace_of_step {keys n : Nat} (field : FieldInSpace limit p)
    (step : walkStep (keys + 1, p) = some (n, q)) :
    KeysInSpace limit (keys + 1) p ↔ KeysInSpace limit n q := by
  rw [keysInSpace_succ, and_iff_right field, step]
  refine ⟨fun next => next n q rfl, fun inside m r same => ?_⟩
  obtain ⟨rfl, rfl⟩ : n = m ∧ q = r := by simpa using same
  exact inside

theorem keysInSpace_of_stop {keys : Nat} (field : FieldInSpace limit p)
    (stop : walkStep (keys + 1, p) = none) : KeysInSpace limit (keys + 1) p := by
  rw [keysInSpace_succ, stop]
  exact ⟨field, by simp⟩

theorem double_tells {type : UInt8} {fuel : Nat}
    (double : type = IDBKeyDateTypeByte ∨ type = IDBKeyNumberTypeByte) (placed : Placed limit p) :
    Tells limit (extractCursor limit (fuel + 1) (type :: p)) 1 (type :: p) := by
  have known : ¬ (type = IDBKeyNullTypeByte ∨ type = IDBKeyMinKeyTypeByte) ∧
      type ≠ IDBKeyArrayTypeByte ∧ type ≠ IDBKeyStringTypeByte := by
    rcases double with rfl | rfl <;> decide
  have step (keys : Nat) : walkStep (keys + 1, type :: p) =
      if 8 ≤ p.length then some (keys, p.drop 8) else none := by
    rw [walkStep, if_neg known.2.1, if_neg known.2.2, if_pos double]
  have field : FieldInSpace limit (type :: p) ↔ ¬ Wraps limit p 8 := by
    simp [FieldInSpace, known, double]
  rw [extractCursor, if_neg known.1, if_neg known.2.1, if_neg known.2.2, if_pos double]
  rcases beyond_cases placed (show (0 : Int) ≤ 8 by decide) (by decide) with
    ⟨far, short, inside⟩ | ⟨near, fits, inside⟩ | ⟨near, exceeds, wraps⟩
  · rw [if_pos far]
    exact fun n => keysInSpace_of_stop (field.mpr inside) ((step n).trans (if_neg (by omega)))
  · have read : readBytes p 8 = .ok (p.take 8, p.drop 8) := readBytes_of_fits fits
    rw [if_neg near, read]
    refine ⟨(List.drop_suffix 8 p).trans (List.suffix_cons type p), by simp, fun n => ?_⟩
    exact keysInSpace_of_step (field.mpr inside) ((step n).trans (if_pos (by omega)))
  · have read : readBytes p 8 = .error .undefined := readBytes_of_exceeds exceeds
    rw [if_neg near, read]
    exact fun n inside => field.mp (keysInSpace_succ.mp inside).1 wraps

theorem string_tells {fuel : Nat} (placed : Placed limit p) :
    Tells limit (extractCursor limit (fuel + 1) (IDBKeyStringTypeByte :: p)) 1
      (IDBKeyStringTypeByte :: p) := by
  have field : FieldInSpace limit (IDBKeyStringTypeByte :: p) ↔
      ¬ Overlong p ∧ LengthInSpace limit p := by
    simp [FieldInSpace, IDBKeyArrayTypeByte, IDBKeyStringTypeByte, IDBKeyDateTypeByte,
      IDBKeyNumberTypeByte]
  rw [extractCursor, if_neg (by decide), if_neg (by decide), if_pos rfl]
  by_cases overlong : Overlong p
  · rw [decodeVarInt_undefined_iff.mpr overlong]
    exact fun n inside => (field.mp (keysInSpace_succ.mp inside).1).1 overlong
  rw [and_iff_right overlong] at field
  cases written : writtenInt p with
  | none =>
    rw [decodeVarInt_eq, if_neg overlong, written]
    intro n
    refine keysInSpace_of_stop (field.mpr (by simp [LengthInSpace, written])) ?_
    rw [walkStep, if_neg (by decide), if_pos rfl, written]
  | some found =>
    obtain ⟨m, q⟩ := found
    obtain ⟨suffix, shorter⟩ := writtenInt_suffix written
    have placed' : Placed limit q := ⟨by have := placed.fits; omega, placed.small⟩
    have small := int64_lt m
    obtain ⟨len, decoded, value⟩ := decodeVarInt_of_written overlong written
    have step (keys : Nat) : walkStep (keys + 1, IDBKeyStringTypeByte :: p) =
        if 0 ≤ len ∧ len * 2 ≤ q.length then some (keys, q.drop (len * 2).toNat) else none := by
      rw [walkStep, if_neg (by decide), if_pos rfl, written, ← value]
    rw [lengthInSpace_iff written value] at field
    rw [value] at small
    rw [decoded]
    simp only [bind, Except.bind]
    by_cases negative : len < 0
    · rw [if_pos (.inl negative)]
      exact fun n => keysInSpace_of_stop (field.mpr (by omega)) ((step n).trans (if_neg (by omega)))
    rw [imp_iff_right (by omega)] at field
    rcases beyond_cases placed' (show 0 ≤ len * 2 by omega) (by omega) with
      ⟨far, short, inside⟩ | ⟨near, fits, inside⟩ | ⟨near, exceeds, wraps⟩
    · rw [if_pos (.inr far)]
      exact fun n => keysInSpace_of_stop (field.mpr inside) ((step n).trans (if_neg (by omega)))
    · rw [if_neg (not_or.mpr ⟨negative, near⟩), readBytes_of_fits fits]
      refine ⟨(List.drop_suffix _ q).trans (suffix.trans (List.suffix_cons _ p)), ?_, fun n => ?_⟩
      · simp only [List.length_drop, List.length_cons]
        omega
      · exact keysInSpace_of_step (field.mpr inside) ((step n).trans (if_pos ⟨by omega, fits⟩))
    · rw [if_neg (not_or.mpr ⟨negative, near⟩), readBytes_of_exceeds exceeds]
      exact fun n inside => field.mp (keysInSpace_succ.mp inside).1 wraps

/-- An array's elements are walked over as so many keys more. -/
theorem array_tells {fuel : Nat} (placed : Placed limit p)
    (elements : ∀ keys q, q.length < p.length → Placed limit q →
      Tells limit (extractElements limit fuel keys q) keys q) :
    Tells limit (extractCursor limit (fuel + 1) (IDBKeyArrayTypeByte :: p)) 1
      (IDBKeyArrayTypeByte :: p) := by
  have field : FieldInSpace limit (IDBKeyArrayTypeByte :: p) ↔ ¬ Overlong p := by
    simp [FieldInSpace, IDBKeyArrayTypeByte, IDBKeyStringTypeByte, IDBKeyDateTypeByte,
      IDBKeyNumberTypeByte]
  rw [extractCursor, if_neg (by decide), if_pos rfl]
  by_cases overlong : Overlong p
  · rw [decodeVarInt_undefined_iff.mpr overlong]
    exact fun n inside => field.mp (keysInSpace_succ.mp inside).1 overlong
  have inside := field.mpr overlong
  cases written : writtenInt p with
  | none =>
    rw [decodeVarInt_eq, if_neg overlong, written]
    exact fun n => keysInSpace_of_stop inside (by rw [walkStep, if_pos rfl, written])
  | some found =>
    obtain ⟨m, q⟩ := found
    obtain ⟨suffix, shorter⟩ := writtenInt_suffix written
    have placed' : Placed limit q := ⟨by have := placed.fits; omega, placed.small⟩
    obtain ⟨len, decoded, value⟩ := decodeVarInt_of_written overlong written
    have step (keys : Nat) : walkStep (keys + 1, IDBKeyArrayTypeByte :: p) =
        if len < 0 then none else some (keys + len.toNat, q) := by
      rw [walkStep, if_pos rfl, written, ← value]
    rw [decoded]
    simp only [bind, Except.bind]
    split_ifs with negative
    · exact fun n => keysInSpace_of_stop inside ((step n).trans (if_pos negative))
    · refine (elements len.toNat q shorter placed').of_iff (suffix.trans (List.suffix_cons _ p))
        (fun rest few => ?_) fun n => ?_
      · simp only [List.length_cons]
        omega
      · exact keysInSpace_of_step inside ((step n).trans (if_neg negative))

/-- Keys without a field, and type bytes that stand for no key. -/
theorem plain_tells {type : UInt8} {fuel : Nat} (array : type ≠ IDBKeyArrayTypeByte)
    (string : type ≠ IDBKeyStringTypeByte)
    (double : ¬ (type = IDBKeyDateTypeByte ∨ type = IDBKeyNumberTypeByte)) :
    Tells limit (extractCursor limit (fuel + 1) (type :: p)) 1 (type :: p) := by
  have outcome : extractCursor limit (fuel + 1) (type :: p) = .ok p := by
    rw [extractCursor, if_neg array, if_neg string, if_neg double]
    split_ifs <;> rfl
  rw [outcome]
  refine ⟨List.suffix_cons type p, le_rfl, fun n => keysInSpace_of_step ?_ ?_⟩
  · exact ⟨fun same => absurd same array, fun same => absurd same string,
      fun same => absurd same double⟩
  · rw [walkStep, if_neg array, if_neg string, if_neg double]

theorem nil_tells {fuel : Nat} : Tells limit (extractCursor limit fuel []) 1 [] := by
  rw [extractCursor]
  exact fun n => keysInSpace_of_stop trivial rfl

theorem walk_tells (fuel : Nat) :
    (∀ p, p.length ≤ fuel → Placed limit p → Tells limit (extractCursor limit fuel p) 1 p) ∧
      ∀ keys p, p.length < fuel → Placed limit p →
        Tells limit (extractElements limit fuel keys p) keys p := by
  induction fuel with
  | zero =>
    refine ⟨fun p few placed => ?_, fun keys p few placed => absurd few (by omega)⟩
    rw [List.eq_nil_of_length_eq_zero (Nat.le_zero.mp few)]
    exact nil_tells
  | succ fuel ih =>
    constructor
    · intro p few placed
      cases p with
      | nil => exact nil_tells
      | cons type p =>
        simp only [List.length_cons] at few
        by_cases array : type = IDBKeyArrayTypeByte
        · rw [array]
          exact array_tells placed.tail fun keys q shorter => ih.2 keys q (by omega)
        by_cases string : type = IDBKeyStringTypeByte
        · rw [string]
          exact string_tells placed.tail
        by_cases double : type = IDBKeyDateTypeByte ∨ type = IDBKeyNumberTypeByte
        · exact double_tells double placed.tail
        · exact plain_tells array string double
    · intro keys p few placed
      cases keys with
      | zero => exact ⟨List.suffix_rfl, by omega, fun n => Iff.rfl⟩
      | succ keys =>
        have first := ih.1 p (by omega) placed
        rw [extractElements]
        cases outcome : extractCursor limit fuel p with
        | error fault =>
          rw [outcome] at first
          cases fault with
          | notOk => exact fun n => first (n + keys)
          | undefined => exact fun n => first (n + keys)
        | ok q =>
          rw [outcome] at first
          obtain ⟨suffix, shorter, same⟩ := first
          have placed' : Placed limit q := ⟨by have := placed.fits; omega, placed.small⟩
          exact (ih.2 keys q (by omega) placed').of_iff suffix (fun rest few => by omega)
            fun n => same (n + keys)

theorem extractEncodedIDBKey_confined_iff (placed : Placed limit p) :
    Confined p (extractEncodedIDBKey limit p) ↔ KeysInSpace limit 1 p := by
  have told := (@walk_tells limit (p.length + 1)).1 p (by omega) placed
  rw [extractEncodedIDBKey]
  cases outcome : extractCursor limit (p.length + 1) p with
  | error fault =>
    rw [outcome] at told
    cases fault with
    | notOk => exact iff_of_true ⟨by simp [bind, Except.bind], by simp [bind, Except.bind]⟩ (told 0)
    | undefined => exact iff_of_false (fun confined => confined.1 rfl) (told 0)
  | ok q =>
    rw [outcome] at told
    refine iff_of_true ⟨by simp [bind, Except.bind], ?_⟩ ((told.2.2 0).mpr keysInSpace_zero)
    simpa [bind, Except.bind] using told.1

end

/-! ## All decoders -/

/-- **When the decoders stay in the buffer**: the integers they read have ten bytes at most, and
no sum of a cursor and the size that is read there passes the end of the address space. -/
theorem decoders_confined_iff {limit limitQ : Nat} {p q : List UInt8} (placed : Placed limit p)
    (placedQ : Placed limitQ q) :
    (Confined p (decodeVarInt p) ↔ ¬ Overlong p) ∧
    (Confined p (decodeStringWithLength limit p) ↔ ¬ Overlong p ∧ LengthInSpace limit p) ∧
    (Confined p (extractEncodedIDBKey limit p) ↔ KeysInSpace limit 1 p) ∧
    (BothConfined p q (compareEncodedStringsWithLength limit limitQ p q) ↔
      ¬ Overlong p ∧ ¬ Overlong q ∧ LengthsInSpace limit limitQ p q) :=
  ⟨decodeVarInt_confined_iff, decodeStringWithLength_confined_iff placed,
    extractEncodedIDBKey_confined_iff placed, compareEncodedStrings_confined_iff placed placedQ⟩

/-- The length 2^63 - 1, with nothing behind it. -/
def hugeLength : List UInt8 := List.replicate 8 0xFF ++ [0x7F]

theorem decoders_confined_iff_hugeLength :
    (Confined hugeLength (decodeStringWithLength 4096 hugeLength) ↔
      ¬ Overlong hugeLength ∧ LengthInSpace 4096 hugeLength) ∧
    (BothConfined hugeLength hugeLength
        (compareEncodedStringsWithLength 4096 8192 hugeLength hugeLength) ↔
      ¬ Overlong hugeLength ∧ ¬ Overlong hugeLength ∧
        LengthsInSpace 4096 8192 hugeLength hugeLength) := by
  have exact := @decoders_confined_iff 4096 8192 hugeLength hugeLength ⟨by decide, by decide⟩ ⟨by decide, by decide⟩
  exact ⟨exact.2.1, exact.2.2.2⟩

/-- Ten bytes that go on shift the eleventh by 70. Twice `hugeLength` leads back to two bytes in
front of the cursor, and is accepted with no byte left. -/
theorem decoders_leave_buffer :
    decodeVarInt (List.replicate 10 0x80 ++ [0]) = .error .undefined ∧
    (decodeVarInt hugeLength = .ok (2 ^ 63 - 1, []) ∧ Placed 4096 hugeLength ∧
      ¬ ((2 ^ 63 - 1 : Int) < 0 ∨ beyond 4096 [] ((2 ^ 63 - 1) * 2))) ∧
    decodeStringWithLength 4096 hugeLength = .error .undefined ∧
    extractEncodedIDBKey 4096 (IDBKeyStringTypeByte :: hugeLength) = .error .undefined ∧
    compareEncodedStringsWithLength 4096 8192 hugeLength hugeLength = .error .undefined := by
  refine ⟨rfl, ⟨by decide +kernel, ⟨by decide, by decide⟩, by decide⟩, ?_, ?_, ?_⟩
  · decide
  · decide
  · decide

end NetRider.Idb
