import Mathlib.Data.List.Basic
import Mathlib.Data.List.Count

/-!
# BloomFilter

A counting filter with two slots for each hash and counters of 8 bits. A counter that has reached
its maximum stays there.
-/

namespace NetRider.Css

structure BloomFilter (keyBits : Nat) where
  m_table : BitVec keyBits → UInt8

namespace BloomFilter

variable {keyBits : Nat}

def maximumCount : UInt8 := 255

/-- The state behind `clear`. -/
def new : BloomFilter keyBits := ⟨fun _ => 0⟩

def firstSlot (keyBits : Nat) (hash : BitVec 32) : BitVec keyBits := hash.setWidth keyBits

def secondSlot (keyBits : Nat) (hash : BitVec 32) : BitVec keyBits :=
  (hash >>> 16).setWidth keyBits

variable (f : BloomFilter keyBits)

def set (slot : BitVec keyBits) (count : UInt8) : BloomFilter keyBits :=
  ⟨fun s => if s = slot then count else f.m_table s⟩

def increment (slot : BitVec keyBits) : BloomFilter keyBits :=
  if f.m_table slot < maximumCount then f.set slot (f.m_table slot + 1) else f

def decrement (slot : BitVec keyBits) : BloomFilter keyBits :=
  if f.m_table slot < maximumCount then f.set slot (f.m_table slot - 1) else f

def add (hash : BitVec 32) : BloomFilter keyBits :=
  (f.increment (firstSlot keyBits hash)).increment (secondSlot keyBits hash)

def remove (hash : BitVec 32) : BloomFilter keyBits :=
  (f.decrement (firstSlot keyBits hash)).decrement (secondSlot keyBits hash)

def mayContain (hash : BitVec 32) : Bool :=
  f.m_table (firstSlot keyBits hash) != 0 && f.m_table (secondSlot keyBits hash) != 0

/-! ## Counts -/

/-- The slots of the hashes. -/
def slots (keyBits : Nat) : List (BitVec 32) → List (BitVec keyBits)
  | [] => []
  | hash :: rest => firstSlot keyBits hash :: secondSlot keyBits hash :: slots keyBits rest

/-- Every counter is at its maximum or counts its slot. -/
def Counts (f : BloomFilter keyBits) (used : List (BitVec keyBits)) : Prop :=
  ∀ slot, f.m_table slot = maximumCount ∨ (f.m_table slot).toNat = used.count slot

variable {f} {used : List (BitVec keyBits)} {slot : BitVec keyBits}

theorem counts_new : Counts (new : BloomFilter keyBits) [] := fun _ => .inr rfl

theorem lt_maximumCount {count : UInt8} : count < maximumCount ↔ count.toNat < 255 := Iff.rfl

theorem eq_maximumCount {count : UInt8} : count = maximumCount ↔ count.toNat = 255 := by
  rw [← UInt8.toNat_inj]
  rfl

theorem Counts.increment (counts : Counts f used) (slot : BitVec keyBits) :
    Counts (f.increment slot) (slot :: used) := by
  intro s
  have before := counts s
  rw [BloomFilter.increment]
  by_cases less : f.m_table slot < maximumCount
  · rw [if_pos less, set]
    by_cases same : s = slot
    · subst same
      rw [lt_maximumCount] at less
      rw [eq_maximumCount] at before
      have sum : (f.m_table s + 1).toNat = (f.m_table s).toNat + 1 := by
        rw [UInt8.toNat_add, show UInt8.toNat 1 = 1 from rfl]
        exact Nat.mod_eq_of_lt (by omega)
      rw [List.count_cons_self]
      simp only [if_true]
      right
      omega
    · simp only [if_neg same]
      rw [List.count_cons_of_ne fun other => same other.symm]
      exact before
  · rw [if_neg less]
    by_cases same : s = slot
    · subst same
      left
      rw [lt_maximumCount] at less
      rw [eq_maximumCount]
      have bound := (f.m_table s).toNat_lt
      omega
    · rw [List.count_cons_of_ne fun other => same other.symm]
      exact before

theorem Counts.decrement (counts : Counts f (slot :: used)) : Counts (f.decrement slot) used := by
  intro s
  have before := counts s
  rw [BloomFilter.decrement]
  by_cases less : f.m_table slot < maximumCount
  · rw [if_pos less, set]
    by_cases same : s = slot
    · subst same
      rw [lt_maximumCount] at less
      rw [eq_maximumCount, List.count_cons_self] at before
      have difference : (f.m_table s - 1).toNat = (f.m_table s).toNat - 1 := by
        rw [UInt8.toNat_sub_of_le]
        · rfl
        · rw [UInt8.le_iff_toNat_le]
          change 1 ≤ _
          omega
      simp only [if_true]
      right
      omega
    · simp only [if_neg same]
      rwa [List.count_cons_of_ne fun other => same other.symm] at before
  · rw [if_neg less]
    by_cases same : s = slot
    · subst same
      left
      rw [lt_maximumCount] at less
      rw [eq_maximumCount]
      have bound := (f.m_table s).toNat_lt
      omega
    · rwa [List.count_cons_of_ne fun other => same other.symm] at before

theorem Counts.perm {used' : List (BitVec keyBits)} (counts : Counts f used)
    (same : used.Perm used') : Counts f used' := by
  intro s
  rw [← same.count_eq]
  exact counts s

theorem Counts.add (counts : Counts f used) (hash : BitVec 32) :
    Counts (f.add hash) (firstSlot keyBits hash :: secondSlot keyBits hash :: used) :=
  ((counts.increment _).increment _).perm (List.Perm.swap ..)

theorem Counts.remove {hash : BitVec 32}
    (counts : Counts f (firstSlot keyBits hash :: secondSlot keyBits hash :: used)) :
    Counts (f.remove hash) used :=
  counts.decrement.decrement

theorem Counts.addAll (counts : Counts f used) (hashes : List (BitVec 32)) :
    Counts (hashes.foldl BloomFilter.add f) (slots keyBits hashes ++ used) := by
  induction hashes generalizing f used with
  | nil => exact counts
  | cons hash rest ih =>
    rw [List.foldl_cons, slots]
    refine (ih (counts.add hash)).perm ?_
    exact (List.perm_middle.trans (List.perm_middle.cons _))

theorem Counts.removeAll {hashes : List (BitVec 32)}
    (counts : Counts f (slots keyBits hashes ++ used)) :
    Counts (hashes.foldl BloomFilter.remove f) used := by
  induction hashes generalizing f with
  | nil => exact counts
  | cons hash rest ih =>
    rw [List.foldl_cons]
    exact ih counts.remove

theorem mem_slots {hashes : List (BitVec 32)} {hash : BitVec 32} (among : hash ∈ hashes) :
    firstSlot keyBits hash ∈ slots keyBits hashes ∧
      secondSlot keyBits hash ∈ slots keyBits hashes := by
  induction hashes with
  | nil => exact absurd among List.not_mem_nil
  | cons other rest ih =>
    rw [slots]
    rcases List.mem_cons.mp among with rfl | later
    · exact ⟨List.mem_cons_self, List.mem_cons_of_mem _ List.mem_cons_self⟩
    · obtain ⟨first, second⟩ := ih later
      exact ⟨List.mem_cons_of_mem _ (List.mem_cons_of_mem _ first),
        List.mem_cons_of_mem _ (List.mem_cons_of_mem _ second)⟩

theorem Counts.ne_zero (counts : Counts f used) (among : slot ∈ used) :
    (f.m_table slot != 0) = true := by
  rw [bne_iff_ne]
  intro zero
  have count := List.count_pos_iff.mpr among
  rcases counts slot with most | counted
  · rw [zero] at most
    exact absurd most (by decide)
  · rw [zero] at counted
    change 0 = _ at counted
    omega

/-- **No false negatives.** -/
theorem Counts.mayContain {hashes : List (BitVec 32)} {hash : BitVec 32}
    (counts : Counts f (slots keyBits hashes)) (among : hash ∈ hashes) :
    f.mayContain hash = true := by
  obtain ⟨first, second⟩ := @mem_slots keyBits _ _ among
  rw [BloomFilter.mayContain, counts.ne_zero first, counts.ne_zero second]
  rfl

theorem slots_append (hashes hashes' : List (BitVec 32)) :
    slots keyBits (hashes ++ hashes') = slots keyBits hashes ++ slots keyBits hashes' := by
  induction hashes with
  | nil => rfl
  | cons hash rest ih => rw [List.cons_append, slots, slots, ih, List.cons_append, List.cons_append]

end BloomFilter

end NetRider.Css
