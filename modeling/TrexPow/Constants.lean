import Mathlib.Data.BitVec

/-!
# Constants of the chain

The constants that the consensus engine, the key chain and the difficulty pallet
share. Integers of a fixed width are bit vectors, as everywhere in the model.
-/

namespace TrexPow

/-- An 8-bit unsigned integer. -/
abbrev U8 := BitVec 8

/-- A 32-bit unsigned integer. -/
abbrev U32 := BitVec 32

/-- A 128-bit unsigned integer. -/
abbrev U128 := BitVec 128

/-- A 256-bit unsigned integer. -/
abbrev U256 := BitVec 256

/-- The mining difficulty, which is the bit length of the modulus being attacked. -/
abbrev Difficulty := U128

/-- Block interval in seconds. -/
def blockTimeSec : ℕ := 60

/-- Nominal number of blocks in an hour. -/
def hourHeight : ℕ := 3600 / blockTimeSec

/-- Number of blocks used to calculate difficulty adjustments. -/
def difficultyAdjustWindow : ℕ := hourHeight

/-- Largest change of the difficulty in one adjustment. -/
def clampFactor : Difficulty := 1

/-- Minimum difficulty, enforced at every adjustment. -/
def minDifficulty : Difficulty := 48

/-- Initial mining difficulty. -/
def initDifficulty : Difficulty := 56

/-- Maximum difficulty, enforced at every adjustment. -/
def maxDifficulty : Difficulty := 224

/-- Number of keys in a key chain, one for each difficulty from the minimum on. -/
def keychainLen : ℕ := (maxDifficulty - minDifficulty).toNat

theorem difficultyAdjustWindow_eq : difficultyAdjustWindow = 60 := rfl

theorem keychainLen_eq : keychainLen = 176 := rfl

@[simp] theorem clampFactor_toNat : clampFactor.toNat = 1 := rfl

@[simp] theorem minDifficulty_toNat : minDifficulty.toNat = 48 := rfl

@[simp] theorem maxDifficulty_toNat : maxDifficulty.toNat = 224 := rfl

end TrexPow
