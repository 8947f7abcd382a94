import TrexPow.KeyChain
import TrexPow.MiningRuns

/-!
# What a mining attempt reads

The mining thread reads the metadata first and the seal of the best block afterwards.
The metadata names the block it was prepared for, but the thread never compares it with
the block whose seal it has read. Both belong to one block as long as the second read
meets the block for which the metadata of the first was prepared.
-/

namespace TrexPow

/-- The metadata was prepared for the block, and the seal is the one of the block. -/
structure MiningMetadata.Matches (metadata : MiningMetadata) (parent : Seal) (read : Block) :
    Prop where
  bestHash_eq : metadata.bestHash = read.hash
  seal_eq : findSeal read = .ok (some parent, read.number)

/-- The number that is read with a seal is the one of the block. -/
theorem findSeal_number {best : Block} {found : Option Seal} {number : U32}
    (h : findSeal best = .ok (found, number)) : number = best.number := by
  unfold findSeal at h
  split_ifs at h with hzero
  · cases h
    rfl
  · split at h
    · simp only [Rust.bind_eq_ok, Rust.pure_eq_ok] at h
      obtain ⟨_, -, h⟩ := h
      cases h
      rfl
    · cases h
      rfl

section Reads

variable {s : Node}

/-- The thread will start an attempt at this height. -/
def Node.WillStart (s : Node) (number : U32) : Prop :=
  ¬(s.miningNumber ≠ 0 ∧ s.miningNumber = number)

/-- The moves that keep metadata and seal together. When the thread reads the seal of the
best block and will start an attempt on it, the metadata it has read was prepared for
that block. -/
def Node.KeepsSnapshot (s : Node) : NodeMove → Prop
  | .miner _ => ∀ metadata parent number, s.phase = .gotMetadata (some metadata) →
    findSeal s.best = .ok (some parent, number) → s.WillStart number →
    metadata.bestHash = s.best.hash
  | _ => True

/-- The invariant of a run whose moves keep the snapshot: what the thread has read for an
attempt belongs to one block. -/
structure Node.ReadsTogether (s : Node) : Prop where
  gotSeal : ∀ metadata parent read, s.phase = .gotSeal (some metadata) (some parent) read →
    s.WillStart read.number → metadata.Matches parent read
  starting : ∀ metadata parent read, s.phase = .starting metadata parent read →
    metadata.Matches parent read
  mining : ∀ metadata parent read, s.phase = .mining metadata parent read →
    metadata.Matches parent read

/-- Before the second read and between attempts there is no obligation. -/
theorem Node.ReadsTogether.of_no_attempt
    (hseal : ∀ metadata parent read, s.phase ≠ .gotSeal (some metadata) (some parent) read)
    (hstarting : ∀ metadata parent read, s.phase ≠ .starting metadata parent read)
    (hmining : ∀ metadata parent read, s.phase ≠ .mining metadata parent read) :
    s.ReadsTogether where
  gotSeal _ _ _ hphase := absurd hphase (hseal _ _ _)
  starting _ _ _ hphase := absurd hphase (hstarting _ _ _)
  mining _ _ _ hphase := absurd hphase (hmining _ _ _)

/-- The invariant depends on the mining thread alone. -/
theorem Node.ReadsTogether.of_frame {s' : Node} (hs : s.ReadsTogether) (h : s.Frame s') :
    s'.ReadsTogether := by
  obtain ⟨hphase, hnumber, -⟩ := h
  constructor
  · intro metadata parent read h hstart
    rw [Node.WillStart, hnumber] at hstart
    exact hs.gotSeal metadata parent read (hphase ▸ h) hstart
  · rw [hphase]
    exact hs.starting
  · rw [hphase]
    exact hs.mining

/-- The second read finds the block of the first. -/
theorem Node.KeepsSnapshot.readsTogether {metadata : Option MiningMetadata} {run : MiningRun}
    (hkeep : s.KeepsSnapshot (.miner run)) (hphase : s.phase = .gotMetadata metadata)
    {found : Option Seal} {number : U32} (hfound : findSeal s.best = .ok (found, number)) :
    ({ s with phase := .gotSeal metadata found s.best } : Node).ReadsTogether := by
  have hnumber := findSeal_number hfound
  constructor
  · intro metadata' parent read h hstart
    cases h
    rw [← hnumber] at hstart
    exact ⟨hkeep metadata' parent number hphase hfound hstart, hnumber ▸ hfound⟩
  · exact nofun
  · exact nofun

end Reads

section Runs

variable [Deps] {cpus : Option U8} {s : Node}

/-- A step of the mining thread keeps the invariant if its second read finds the block of
the first. -/
theorem Node.mine_readsTogether (hs : s.ReadsTogether) {run : MiningRun}
    (hkeep : s.KeepsSnapshot (.miner run)) : (s.mine cpus run).ReadsTogether := by
  unfold Node.mine
  split
  next => exact .of_no_attempt nofun nofun nofun
  next metadata hphase =>
    split
    next found number hfound => exact hkeep.readsTogether hphase hfound
    next => exact .of_no_attempt nofun nofun nofun
  next metadata parent read hphase =>
    split_ifs with hsame
    · exact .of_no_attempt nofun nofun nofun
    · constructor
      · exact nofun
      · intro _ _ _ h
        cases h
        exact hs.gotSeal metadata parent read hphase hsame
      · exact nofun
  next => exact .of_no_attempt nofun nofun nofun
  next metadata parent read hphase =>
    constructor
    · exact nofun
    · exact nofun
    · intro _ _ _ h
      cases h
      exact hs.starting metadata parent read hphase
  next =>
    unfold Node.endAttempt
    split <;> exact .of_no_attempt nofun nofun nofun
  next => exact .of_no_attempt nofun nofun nofun
  next => exact hs

/-- Every move that keeps the snapshot keeps the invariant. -/
theorem Node.next_readsTogether (hs : s.ReadsTogether) {move : NodeMove}
    (hkeep : s.KeepsSnapshot move) : (s.next cpus move).ReadsTogether := by
  rcases s.next_cases cpus move with ⟨run, rfl⟩ | hframe
  · exact Node.mine_readsTogether hs hkeep
  · exact hs.of_frame hframe

/-- The child was mined for the metadata on the seal of the block for which the metadata
was prepared, so its key and its seeds derive from that seal. -/
def Seal.MinedFor (child : Seal) (metadata : MiningMetadata) : Prop :=
  ∃ block parent key solutions after, metadata.Matches parent block ∧
    parent.Written metadata.compute after key solutions child

/-- Attempts read one block, and a seal that an attempt submits continues that block. -/
structure Node.ConsistentSnapshot (cpus : Option U8) (s : Node) : Prop where
  starting : ∀ metadata parent read, s.phase = .starting metadata parent read →
    metadata.Matches parent read
  mining : ∀ metadata parent read, s.phase = .mining metadata parent read →
    metadata.Matches parent read
  submitted : ∀ metadata parent read run child, s.phase = .mining metadata parent read →
    (s.next cpus (.miner run)).phase = .submitting child → child.MinedFor metadata

/-- A submitted child was written from the parent seal of its attempt. -/
theorem Node.endAttempt_submits {metadata : MiningMetadata} {parent : Seal} {read : Block}
    {run : MiningRun} {child : Seal} (hphase : s.phase = .mining metadata parent read)
    (h : (s.next cpus (.miner run)).phase = .submitting child) :
    ∃ key solutions after, parent.Written metadata.compute after key solutions child := by
  simp only [Node.next, Node.mine, hphase, Node.endAttempt] at h
  split at h
  next mined after hmined =>
    cases h
    obtain ⟨key, solutions, hwritten, -⟩ := Seal.tryCpuMining_some hmined
    exact ⟨key, solutions, after, hwritten⟩
  next => cases h
  next => cases h

theorem Node.ReadsTogether.consistentSnapshot (hs : s.ReadsTogether) :
    s.ConsistentSnapshot cpus where
  starting := hs.starting
  mining := hs.mining
  submitted metadata parent read _ child hphase hsubmit := by
    obtain ⟨key, solutions, after, hwritten⟩ := Node.endAttempt_submits hphase hsubmit
    exact ⟨read, parent, key, solutions, after, hs.mining _ _ _ hphase, hwritten⟩

/-- A second read that finds another block leads to an attempt on two blocks. -/
theorem Node.torn_of_not_keepsSnapshot {run run' : MiningRun}
    (h : ¬s.KeepsSnapshot (.miner run)) :
    ¬((s.next cpus (.miner run)).next cpus (.miner run')).ConsistentSnapshot cpus := by
  intro hconsistent
  simp only [Node.KeepsSnapshot, not_forall] at h
  obtain ⟨metadata, parent, number, hphase, hfound, hstart, hne⟩ := h
  rw [findSeal_number hfound] at hstart
  have hread : s.mine cpus run =
      { s with phase := .gotSeal (some metadata) (some parent) s.best } := by
    simp only [Node.mine, hphase, hfound]
  have hstarts : (s.mine cpus run).mine cpus run' = { s with
      miningNumber := s.best.number
      phase := .starting metadata parent s.best } := by
    rw [hread, Node.mine_gotSeal rfl, if_neg hstart]
  rw [Node.next, Node.next, hstarts] at hconsistent
  exact hne (hconsistent.starting metadata parent s.best rfl).bestHash_eq

/-- **Consistent snapshots.** As long as all moves keep the snapshot, every attempt reads
one block and every submitted seal continues that block. The first read that does not
keep it leads to an attempt on two blocks. -/
theorem attempts_read_one_block (h : (Node.system cpus).ReachableVia Node.KeepsSnapshot s) :
    s.ConsistentSnapshot cpus ∧ ∀ run run', ¬s.KeepsSnapshot (.miner run) →
      ¬((s.next cpus (.miner run)).next cpus (.miner run')).ConsistentSnapshot cpus := by
  have hs : s.ReadsTogether := by
    refine h.invariant ?_ fun _ _ hs hkeep => Node.next_readsTogether hs hkeep
    rintro s ⟨hphase, -⟩
    apply Node.ReadsTogether.of_no_attempt <;> rw [hphase] <;> exact nofun
  exact ⟨hs.consistentSnapshot, fun _ _ hnot => Node.torn_of_not_keepsSnapshot hnot⟩

end Runs

section Sample

attribute [local instance] Deps.sample

/-- Metadata for mining on the genesis block. -/
def genesisMetadata : MiningMetadata := ⟨genesisBlock.hash, .replicate 32 0, 48⟩

/-- The best block changes after the mining thread has read the metadata. -/
def headChange : List NodeMove :=
  [.refresh (some genesisMetadata), .miner quietRun, .beginImport, .endImport false sealedBlock]

/-- Some run mines on the seal of a block with the metadata of its parent. -/
theorem snapshot_torn :
    ¬∀ s : Node, (Node.system none).Reachable s → s.ConsistentSnapshot none := by
  intro h
  obtain ⟨s, hreachable, hphase, hbest, hnumber⟩ : ∃ s : Node, (Node.system none).Reachable s ∧
      s.phase = .gotMetadata (some genesisMetadata) ∧ s.best = sealedBlock ∧ s.miningNumber = 0 :=
    ⟨_, (freshNode_reachable genesisBlock).run headChange, rfl, rfl, rfl⟩
  have hstarting := (hreachable.move (.miner quietRun) trivial).move (.miner quietRun) trivial
  refine Node.torn_of_not_keepsSnapshot ?_ (h _ hstarting)
  intro hkeep
  have hfound : findSeal s.best = .ok (some weakSeal, 1) := hbest ▸ findSeal_sealedBlock
  have hsame := hkeep genesisMetadata weakSeal 1 hphase hfound fun hrest => hrest.1 hnumber
  rw [hbest] at hsame
  exact absurd hsame (by decide)

/-- On the sample, the attempt on the sealed block reads one block. -/
theorem readingNode_consistent :
    (readingNode.mine none quietRun).ConsistentSnapshot none := by
  have hstart : (Node.system none).ReachableVia Node.KeepsSnapshot (freshNode sealedBlock) :=
    .start ⟨rfl, rfl, rfl, List.not_mem_nil⟩
  let s : Node := { freshNode sealedBlock with phase := .gotMetadata (some plainMetadata) }
  have hidle : (freshNode sealedBlock).KeepsSnapshot (.miner quietRun) := by
    intro metadata parent number hphase
    cases hphase
  have hs : (Node.system none).ReachableVia Node.KeepsSnapshot s :=
    hstart.move (.miner quietRun) hidle
  have hkeep : s.KeepsSnapshot (.miner quietRun) := by
    intro metadata parent number hphase _ _
    obtain rfl : plainMetadata = metadata := Option.some.inj (MinerPhase.gotMetadata.inj hphase)
    have hsame : plainMetadata.bestHash = sealedBlock.hash := by decide
    exact hsame
  have hread : s.mine none quietRun = readingNode := by
    simp only [Node.mine, s, freshNode, findSeal_sealedBlock]
    rfl
  have hreading := Node.reachableVia_mine hs quietRun hkeep
  rw [hread] at hreading
  have hfound : readingNode.KeepsSnapshot (.miner quietRun) := by
    intro metadata parent number hphase
    cases hphase
  exact (attempts_read_one_block (Node.reachableVia_mine hreading quietRun hfound)).1

end Sample

end TrexPow
