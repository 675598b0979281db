import Mathlib

/-!
# Hashes of strings

Characters are hashed two at a time; an odd one waits for the next. However they are handed to the
hasher, the hash is that of the string.
-/

namespace NetRider.Wtf

def stringHashingStartValue : UInt32 := 0x9E3779B9

structure StringHasher where
  hash : UInt32
  pendingCharacter : Option UInt16
  deriving DecidableEq

namespace StringHasher

def initial : StringHasher := ⟨stringHashingStartValue, none⟩

/-- `addCharactersAssumingAligned(a, b)`. -/
def addPair (hash : UInt32) (a b : UInt16) : UInt32 :=
  let hash := hash + a.toUInt32
  let hash := (hash <<< 16) ^^^ ((b.toUInt32 <<< 11) ^^^ hash)
  hash + (hash >>> 11)

def addCharacter (hasher : StringHasher) (character : UInt16) : StringHasher :=
  match hasher.pendingCharacter with
  | some pending => ⟨addPair hasher.hash pending character, none⟩
  | none => { hasher with pendingCharacter := some character }

/-- `addCharacters(a, b)`. -/
def addCharacters (hasher : StringHasher) (a b : UInt16) : StringHasher :=
  match hasher.pendingCharacter with
  | some pending => ⟨addPair hasher.hash pending a, some b⟩
  | none => { hasher with hash := addPair hasher.hash a b }

/-- `addCharactersAssumingAligned(data, length)`. -/
def addCharactersAssumingAligned (hasher : StringHasher) : List UInt16 → StringHasher
  | a :: b :: data =>
    { hasher with hash := addPair hasher.hash a b }.addCharactersAssumingAligned data
  | [a] => hasher.addCharacter a
  | [] => hasher

def avalancheBits (hasher : StringHasher) : UInt32 :=
  let result : UInt32 :=
    match hasher.pendingCharacter with
    | some pending =>
      let result := hasher.hash + pending.toUInt32
      let result := result ^^^ (result <<< 11)
      result + (result >>> 17)
    | none => hasher.hash
  let result := result ^^^ (result <<< 3)
  let result := result + (result >>> 5)
  let result := result ^^^ (result <<< 2)
  let result := result + (result >>> 15)
  result ^^^ (result <<< 10)

def hashWithTop8BitsMasked (hasher : StringHasher) : UInt32 :=
  let result := hasher.avalancheBits &&& 0xFFFFFF
  if result = 0 then (0x80000000 : UInt32) >>> 8 else result

def computeHashAndMaskTop8Bits (data : List UInt16) : UInt32 :=
  (initial.addCharactersAssumingAligned data).hashWithTop8BitsMasked

variable {hasher : StringHasher}

theorem addCharacters_eq (hasher : StringHasher) (a b : UInt16) :
    hasher.addCharacters a b = (hasher.addCharacter a).addCharacter b := by
  cases hasher with
  | mk hash pending => cases pending <;> rfl

/-- All at once is one after the other. -/
theorem addCharactersAssumingAligned_eq (aligned : hasher.pendingCharacter = none)
    (data : List UInt16) :
    hasher.addCharactersAssumingAligned data = data.foldl addCharacter hasher := by
  fun_induction addCharactersAssumingAligned hasher data with
  | case1 hasher a b data ih =>
    have pair : (hasher.addCharacter a).addCharacter b =
        { hasher with hash := addPair hasher.hash a b } := by
      rw [← addCharacters_eq, addCharacters, aligned]
    rw [List.foldl_cons, List.foldl_cons, pair]
    exact ih aligned
  | case2 hasher a => rfl
  | case3 hasher => rfl

theorem computeHash_eq (data : List UInt16) :
    computeHashAndMaskTop8Bits data = (data.foldl addCharacter initial).hashWithTop8BitsMasked := by
  rw [computeHashAndMaskTop8Bits, addCharactersAssumingAligned_eq rfl]

/-- Zero is left for what has no hash. -/
theorem hashWithTop8BitsMasked_ne_zero (hasher : StringHasher) :
    hasher.hashWithTop8BitsMasked ≠ 0 := by
  unfold hashWithTop8BitsMasked
  dsimp only
  split_ifs with zero
  · decide
  · exact zero

end StringHasher

end NetRider.Wtf
