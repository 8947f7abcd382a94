import TrexPow.Digest
import TrexPow.Lib.Transition
import TrexPow.Mining

/-!
# The mining thread and the block import of a node

The mining thread reads the metadata of the worker, then the seal of the best
block, and attempts to mine a child unless it has already tried at this height.
Imports announce themselves by raising the cancel flag before they change the best
block. A move of the model is one step of the mining thread or of its search, a step
of an import, or a change of the worker's metadata; moves interleave in any order.
-/

namespace TrexPow

/-- A block as the backend knows it: its hash, its number and its header's digest. A
header that is missing reads like a digest without a seal. -/
structure Block where
  hash : H256
  number : U32
  digest : List DigestItem
  deriving DecidableEq

/-- What the mining worker has prepared for the next block. -/
structure MiningMetadata where
  bestHash : H256
  preHash : H256
  difficulty : Difficulty
  deriving DecidableEq

/-- The seal of the best block, and its number. The genesis block has an artificial
seal; otherwise the last seal item of the digest is decoded. -/
def findSeal (best : Block) : Rust (Option Seal × U32) :=
  if best.number = 0 then return (some (genesisSeal initDifficulty), best.number)
  else
    match best.digest.reverse.findSome? DigestItem.asSeal with
    | some rawSeal => do return (some (← unwrap (Seal.decode rawSeal)), best.number)
    | none => return (none, best.number)

/-- The header computer of an attempt. -/
def MiningMetadata.compute (metadata : MiningMetadata) : Compute :=
  ⟨metadata.difficulty, metadata.preHash, 1⟩

/-- The seed of the attempt after one that found nothing. -/
def nextMiningSeed (miningSeed : U256) : U256 :=
  let incremented := if miningSeed = BitVec.allOnes 256 then miningSeed else miningSeed + 1
  if incremented = BitVec.allOnes 256 then 0 else incremented

/-- Where the mining thread stands. The block whose seal was read is recorded with
the seal; only its number is used. -/
inductive MinerPhase
  /-- At the head of the loop. -/
  | idle
  /-- It has read the metadata. -/
  | gotMetadata (metadata : Option MiningMetadata)
  /-- It has read the seal of the best block. -/
  | gotSeal (metadata : Option MiningMetadata) (found : Option Seal) (read : Block)
  /-- It has recorded the height and is about to clear the flag. -/
  | starting (metadata : MiningMetadata) (parent : Seal) (read : Block)
  /-- It is between clearing the flag and the end of the attempt. -/
  | mining (metadata : MiningMetadata) (parent : Seal) (read : Block)
  /-- It submits the seal it has found. -/
  | submitting (child : Seal)
  /-- A panic has ended the thread. -/
  | stopped
  deriving DecidableEq

/-- The last attempt: the block it was made on, and whether it returned without a
seal. No step reads this history. -/
structure Attempt where
  block : Block
  failed : Bool
  deriving DecidableEq

/-- The state of a node. -/
structure Node where
  best : Block
  metadata : Option MiningMetadata
  found : Bool
  /-- The imports that have raised the flag and not yet ended. An entry records, as
  history, whether the mining thread has cleared the flag since. -/
  imports : List Bool
  miningNumber : U32
  miningSeed : U256
  phase : MinerPhase
  lastAttempt : Option Attempt
  deriving DecidableEq

/-- The moves of the parties. -/
inductive NodeMove
  /-- The next step of the mining thread; an attempt that ends meets what the run says. -/
  | miner (run : MiningRun)
  /-- The search of a running attempt raises the flag for its other threads. -/
  | raise
  /-- The worker prepares another block, or drops the one it has prepared. -/
  | refresh (metadata : Option MiningMetadata)
  /-- An import raises the flag. -/
  | beginImport
  /-- An import ends, which leaves the given block as the best one. -/
  | endImport (cleared : Bool) (best : Block)

/-- The flag raised by the search, which runs during an attempt only. -/
def Node.raise (s : Node) : Node :=
  match s.phase with
  | .mining _ _ _ => { s with found := true }
  | _ => s

section Steps

variable [Deps]

/-- The end of an attempt. -/
def Node.endAttempt (s : Node) (cpus : Option U8) (metadata : MiningMetadata) (parent : Seal)
    (read : Block) (run : MiningRun) : Node :=
  match parent.tryCpuMining metadata.compute s.miningSeed run cpus with
  | .ok (some child, _) => { s with found := true, miningSeed := 1, phase := .submitting child }
  | .ok (none, _) =>
    { s with
      miningSeed := nextMiningSeed s.miningSeed
      phase := .idle
      lastAttempt := some ⟨read, true⟩ }
  | .error _ => { s with phase := .stopped }

/-- One step of the mining thread. -/
def Node.mine (s : Node) (cpus : Option U8) (run : MiningRun) : Node :=
  match s.phase with
  | .idle => { s with phase := .gotMetadata s.metadata }
  | .gotMetadata metadata =>
    match findSeal s.best with
    | .ok (found, _) => { s with phase := .gotSeal metadata found s.best }
    | .error _ => { s with phase := .stopped }
  | .gotSeal (some metadata) (some parent) read =>
    if s.miningNumber ≠ 0 ∧ s.miningNumber = read.number then
      -- it has already tried at this height, so it sleeps
      { s with phase := .idle }
    else
      { s with miningNumber := read.number, phase := .starting metadata parent read }
  | .gotSeal _ _ _ => { s with phase := .idle }
  | .starting metadata parent read =>
    { s with
      found := false
      imports := s.imports.map fun _ => true
      phase := .mining metadata parent read
      lastAttempt := some ⟨read, false⟩ }
  | .mining metadata parent read => s.endAttempt cpus metadata parent read run
  | .submitting _ => { s with phase := .idle }
  | .stopped => s

/-- One move of a node. -/
def Node.next (cpus : Option U8) (s : Node) : NodeMove → Node
  | .miner run => s.mine cpus run
  | .raise => s.raise
  | .refresh metadata => { s with metadata := metadata }
  | .beginImport => { s with found := true, imports := false :: s.imports }
  | .endImport cleared best =>
    if cleared ∈ s.imports then { s with best := best, imports := s.imports.erase cleared } else s

/-- The node as a transition system. When the mining thread starts, imports may be
in flight already. -/
def Node.system (cpus : Option U8) : TransitionSystem Node NodeMove where
  init s := s.phase = .idle ∧ s.miningNumber = 0 ∧ s.lastAttempt = none ∧ true ∉ s.imports
  next := Node.next cpus

end Steps

end TrexPow
