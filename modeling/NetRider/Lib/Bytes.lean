import Mathlib.Data.List.Basic
import Mathlib.Data.Nat.Basic
import Mathlib.Tactic.Ring

/-!
# Bytes in memory

Fixed-width little-endian words, and blocks of memory of a fixed size.
-/

namespace NetRider.Lib

/-- The low `n` bytes of `v`, least significant first. -/
def toLe : Nat → Nat → List UInt8
  | 0, _ => []
  | n + 1, v => UInt8.ofNat v :: toLe n (v / 256)

def ofLe : List UInt8 → Nat
  | [] => 0
  | b :: bs => b.toNat + 256 * ofLe bs

@[simp] theorem toLe_length (n v : Nat) : (toLe n v).length = n := by
  induction n generalizing v with
  | zero => rfl
  | succ n ih => simp [toLe, ih]

theorem ofLe_toLe (n v : Nat) : ofLe (toLe n v) = v % 256 ^ n := by
  induction n generalizing v with
  | zero => simp [toLe, ofLe, Nat.mod_one]
  | succ n ih =>
    simp only [toLe, ofLe, ih, UInt8.toNat_ofNat']
    rw [pow_succ' 256 n, Nat.mod_mul]

theorem ofLe_toLe_of_lt {n v : Nat} (fits : v < 256 ^ n) : ofLe (toLe n v) = v := by
  rw [ofLe_toLe, Nat.mod_eq_of_lt fits]

/-- `n` bytes of memory. -/
def Block (n : Nat) : Type := { bytes : List UInt8 // bytes.length = n }

namespace Block

variable {n : Nat}

/-- `memmove` of `size` bytes from offset `source` to the front; `none` outside the block. -/
def moveToFront (b : Block n) (source size : Nat) : Option (Block n) :=
  if within : source + size ≤ n then
    some ⟨(b.1.drop source).take size ++ b.1.drop size, by
      have := b.2
      simp
      omega⟩
  else none

/-- Writes `bytes` at an offset; `none` outside the block. -/
def write (b : Block n) (offset : Nat) (bytes : List UInt8) : Option (Block n) :=
  if within : offset + bytes.length ≤ n then
    some ⟨b.1.take offset ++ bytes ++ b.1.drop (offset + bytes.length), by
      have := b.2
      simp
      omega⟩
  else none

/-- What was behind the front part of a block is at its front after the move. -/
theorem moveToFront_spec {b : Block n} {front back : List UInt8} {rest : List UInt8}
    (holds : b.1 = front ++ back ++ rest) :
    ∃ b', b.moveToFront front.length back.length = some b' ∧ ∃ rest', b'.1 = back ++ rest' := by
  have size := b.2
  have within : front.length + back.length ≤ n := by
    rw [holds] at size
    simp at size
    omega
  refine ⟨_, dif_pos within, b.1.drop back.length, ?_⟩
  simp [holds]

theorem write_front {b : Block n} {bytes : List UInt8} (fits : bytes.length ≤ n) :
    ∃ b', b.write 0 bytes = some b' ∧ ∃ rest, b'.1 = bytes ++ rest := by
  have within : 0 + bytes.length ≤ n := by omega
  exact ⟨_, dif_pos within, b.1.drop (0 + bytes.length), by simp⟩

end Block

/-- What holds of every number with two hexadecimal digits holds of all below 256. -/
theorem forall_digits {P : Nat → Prop} (all : ∀ high low : Fin 16, P (16 * high + low)) :
    ∀ n < 256, P n := by
  intro n small
  have here := all ⟨n / 16, by omega⟩ ⟨n % 16, Nat.mod_lt _ (by decide)⟩
  simp only [Nat.div_add_mod] at here
  exact here

/-- What holds of the bytes of any two hexadecimal digits holds of all bytes. -/
theorem forall_byte {P : UInt8 → Prop}
    (all : ∀ high low : Fin 16, P (UInt8.ofNat (16 * high + low))) (b : UInt8) : P b := by
  have here := forall_digits (P := fun n => P (UInt8.ofNat n)) all b.toNat b.toNat_lt
  simp only [UInt8.ofNat_toNat] at here
  exact here

end NetRider.Lib
