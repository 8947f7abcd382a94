import TrexPow.Parallel
import TrexPow.Seal

/-!
# The key chain and mining on a parent seal

A parent seal determines one key for each difficulty and, through these keys, the
seeds of its children. Mining picks the key of the current difficulty and solves
it with one of the solvers.
-/

namespace TrexPow

variable [Deps]

/-- One key for each difficulty. -/
abbrev Keychain := List.Vector PublicKey keychainLen

/-- Yield a list of new public keys from seeds generated from public keys in previous block. -/
def yieldPubKeys (seeds : RawKeySeeds) : Keychain :=
  .ofFn fun index =>
    let seed := (seeds.get index).toBigint
    let bitLength := BitVec.ofNat 32 (index + minDifficulty.toNat)
    Deps.generatePubKey bitLength seed

/-- The seed that a key leaves for the next block, in the width of its index. -/
def newSeed (idx : ℕ) (key : PublicKey) : Rust RawKeySeedsData :=
  if idx < wideSeedIndex then
    return .u128 (bigintU128 (Deps.yieldSeed key))
  else
    return .u256 (← bigintU256 (Deps.yieldSeed key))

/-- The key that is mined at a difficulty. -/
def Keychain.at (keychain : Keychain) (difficulty : Difficulty) : Rust PublicKey := do
  let offset ← checkedSub difficulty.toNat minDifficulty.toNat
  -- the conversion to `usize` keeps the low 64 bits
  match keychain.toList[offset % 2 ^ 64]? with
  | some key => return key
  | none => .error .indexOutOfBounds

/-- What a mining attempt meets on its way: the values of the flag loads, the
initial flag, and the order in which threads take their steps. -/
structure MiningRun where
  flag : ℕ → Bool
  found : Bool
  schedule : (cpus : ℕ) → List (Move cpus)

/-- A run in which nobody cancels the attempt and no thread takes a step. -/
def quietRun : MiningRun := ⟨fun _ => false, false, fun _ => []⟩

/-- The grain size of all mining attempts. -/
def grainSize : ℕ := 10000

variable {C : Type} [Hash C] [OnCompute C]

/-- The search of a mining attempt: parallel for more than one CPU. -/
def search (puzzle : PublicKey) (compute : C) (seed : ℤ) (run : MiningRun) (cpus : Option U8) :
    Rust (Option (Solutions ℤ) × C) :=
  let dist : Rust (Option (Solutions ℤ) × C) := do
    let result ← solveDist puzzle compute seed grainSize run.flag
    return (result.solutions, result.compute)
  match cpus with
  | some value =>
    if 1 < value then
      solveParallel puzzle compute seed grainSize run.found value.toNat (run.schedule value.toNat)
    else dist
  | none => dist

/-- Try to mine a child of this seal. The result is the child's seal, if any, and
the header computer as the attempt leaves it. -/
def Seal.tryCpuMining (parent : Seal) (compute : C) (miningSeed : U256) (run : MiningRun)
    (cpus : Option U8) : Rust (Option Seal × C) := do
  let difficulty := OnCompute.getDifficulty compute
  let keychain := yieldPubKeys parent.seeds
  let newPubkey ← Keychain.at keychain difficulty
  let newSeeds ← List.Vector.mOfFn fun idx => newSeed idx (keychain.get idx)
  let seed := u256Bigint miningSeed
  let (found, compute) ← search newPubkey compute seed run cpus
  match found with
  | some solutions =>
    let mined : Seal :=
      { difficulty := difficulty
        pubkey := Deps.toRaw newPubkey
        seeds := newSeeds
        solutions := (← solutions.1.toU256, ← solutions.2.toU256)
        nonce := Hash.getNonce compute }
    return (some mined, compute)
  | none => return (none, compute)

end TrexPow
