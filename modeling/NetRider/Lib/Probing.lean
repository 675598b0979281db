import Mathlib.Data.ZMod.Basic
import Mathlib.Data.List.Perm.Basic

/-!
# Probing

A sequence of slots is probed until one is vacant. What matters of a stored value is that its
probes lead to it over slots that are taken, and that no vacant slot comes up again on the way.
-/

namespace NetRider.Lib.Probing

/-! ## Odd steps -/

/-- Odd steps modulo a power of two come to every place. -/
theorem odd_step_covers {p i c : Nat} (a : Nat) (odd : c % 2 = 1) (below : i < 2 ^ p) :
    ∃ n < 2 ^ p, (a + n * c) % 2 ^ p = i := by
  have : NeZero (2 ^ p) := ⟨Nat.two_pow_pos p |>.ne'⟩
  have coprime : Nat.Coprime c (2 ^ p) :=
    Nat.Coprime.pow_right p (Nat.coprime_two_right.mpr (Nat.odd_iff.mpr odd))
  have unit : (c : ZMod (2 ^ p)) * (c : ZMod (2 ^ p))⁻¹ = 1 := ZMod.coe_mul_inv_eq_one c coprime
  refine ⟨(((i : ZMod (2 ^ p)) - a) * (c : ZMod (2 ^ p))⁻¹).val, ZMod.val_lt _, ?_⟩
  have lands : ((a + (((i : ZMod (2 ^ p)) - a) * (c : ZMod (2 ^ p))⁻¹).val * c : Nat) :
      ZMod (2 ^ p)) = (i : Nat) := by
    rw [Nat.cast_add, Nat.cast_mul, ZMod.natCast_val, ZMod.cast_id', id, mul_assoc,
      mul_comm (c : ZMod (2 ^ p))⁻¹, unit, mul_one, add_sub_cancel]
  rw [(ZMod.natCast_eq_natCast_iff' _ _ _).mp lands, Nat.mod_eq_of_lt below]

/-! ## Paths -/

variable {V : Type} {vacant : V → Prop} {position : Nat → Nat} {slots : List V} {i n q : Nat}
  {v w : V}

/-- The first `n` probes find slots that are taken. -/
def Taken (vacant : V → Prop) (position : Nat → Nat) (slots : List V) (n : Nat) : Prop :=
  ∀ m < n, ∀ b, slots[position m]? = some b → ¬ vacant b

/-- The probes lead to slot `i`. -/
def Leads (vacant : V → Prop) (position : Nat → Nat) (slots : List V) (i : Nat) : Prop :=
  ∃ n, position n = i ∧ Taken vacant position slots n

theorem Taken.of_le {m : Nat} (taken : Taken vacant position slots n) (less : m ≤ n) :
    Taken vacant position slots m :=
  fun k below => taken k (by omega)

/-- Nothing becomes vacant. -/
theorem Taken.set (taken : Taken vacant position slots n) (full : ¬ vacant v) :
    Taken vacant position (slots.set q v) n := by
  intro m below b stored
  by_cases same : q = position m
  · subst same
    rw [List.getElem?_set_self' ] at stored
    obtain ⟨_, -, rfl⟩ := Option.map_eq_some_iff.mp stored
    exact full
  · rw [List.getElem?_set_ne same] at stored
    exact taken m below b stored

theorem Leads.set (leads : Leads vacant position slots i) (full : ¬ vacant v) :
    Leads vacant position (slots.set q v) i := by
  obtain ⟨n, here, taken⟩ := leads
  exact ⟨n, here, taken.set full⟩

/-- Probes that find slot `i` do so before they find a vacant one. -/
theorem Leads.before {m : Nat} (leads : Leads vacant position slots i)
    (stored : slots[position m]? = some v) (free : vacant v) :
    ∃ n ≤ m, position n = i := by
  obtain ⟨n, here, taken⟩ := leads
  refine ⟨n, ?_, here⟩
  by_contra later
  exact taken m (by omega) v stored free

/-- A search ends at the first slot that is vacant or what it looks for. -/
theorem exists_first {stops : V → Prop} (covers : ∃ n, ∃ b, slots[position n]? = some b ∧ stops b) :
    ∃ n b, slots[position n]? = some b ∧ stops b ∧ Taken stops position slots n ∧
      ∀ m b', slots[position m]? = some b' → stops b' → n ≤ m := by
  classical
  obtain ⟨b, stored, stop⟩ := Nat.find_spec covers
  refine ⟨Nat.find covers, b, stored, stop, fun m below b' stored' stop' => ?_,
    fun m b' stored' stop' => Nat.find_min' covers ⟨b', stored', stop'⟩⟩
  exact Nat.find_min covers below ⟨b', stored', stop'⟩

/-! ## Exchanges -/

/-- A slot gets a new value, and the old one is gone. -/
theorem perm_set (stored : slots[i]? = some w) : (w :: slots.set i v).Perm (v :: slots) := by
  induction slots generalizing i with
  | nil => cases stored
  | cons b rest ih =>
    rcases i with _ | i
    · obtain rfl := Option.some.inj stored
      exact List.Perm.swap ..
    · exact (List.Perm.swap ..).trans (((ih stored).cons b).trans (List.Perm.swap ..))

end NetRider.Lib.Probing
