import TrexPow.MiningLoop
import TrexPow.SealVerification

/-!
# Runs of the mining loop

Two questions about the mining thread: at which heights it attempts to mine, and
when an attempt on a block that is no longer the best one is cancelled. The
remembered height decides the first. For the second, the flag must not be cleared
between the announcement of an import and its effect on the best block.
-/

namespace TrexPow

section Memory

variable {s : Node}

/-- The height of the last attempt, or zero. -/
def Node.lastHeight (s : Node) : U32 := s.lastAttempt.elim 0 fun last => last.block.number

/-- The search raises the flag and changes nothing else. -/
theorem Node.raise_cases (s : Node) : s.raise = { s with found := true } ∨ s.raise = s := by
  unfold Node.raise
  split
  · exact Or.inl rfl
  · exact Or.inr rfl

/-- The remembered height is the one of the last attempt, or of the attempt about to start. -/
structure Node.Remembers (s : Node) : Prop where
  starting : ∀ metadata parent read, s.phase = .starting metadata parent read →
    s.miningNumber = read.number
  otherwise : (∀ metadata parent read, s.phase ≠ .starting metadata parent read) →
    s.miningNumber = s.lastHeight
  mining : ∀ metadata parent read, s.phase = .mining metadata parent read →
    s.lastHeight = read.number

/-- A state with another phase, but not about to start or in an attempt, remembers the same. -/
theorem Node.Remembers.of_eq {s' : Node} (hs : s.Remembers) {phase : MinerPhase}
    (hphase : s.phase = phase)
    (hnot : ∀ metadata parent read, phase ≠ .starting metadata parent read)
    (hnumber : s'.miningNumber = s.miningNumber) (hlast : s'.lastHeight = s.lastHeight)
    (hstart : ∀ metadata parent read, s'.phase ≠ .starting metadata parent read)
    (hmining : ∀ metadata parent read, s'.phase ≠ .mining metadata parent read) :
    s'.Remembers where
  starting _ _ _ h := absurd h (hstart _ _ _)
  otherwise _ := by rw [hnumber, hlast, hs.otherwise (hphase ▸ hnot)]
  mining _ _ _ h := absurd h (hmining _ _ _)

/-- What only the mining thread changes is as before. -/
structure Node.Frame (s s' : Node) : Prop where
  phase_eq : s'.phase = s.phase
  miningNumber_eq : s'.miningNumber = s.miningNumber
  lastAttempt_eq : s'.lastAttempt = s.lastAttempt

theorem Node.Remembers.of_frame {s' : Node} (hs : s.Remembers) (h : s.Frame s') : s'.Remembers := by
  obtain ⟨hphase, hnumber, hlast⟩ := h
  constructor
  · rw [hphase, hnumber]
    exact hs.starting
  · rw [hphase, hnumber, Node.lastHeight, hlast]
    exact hs.otherwise
  · rw [hphase, Node.lastHeight, hlast]
    exact hs.mining

end Memory

section Runs

variable [Deps] {cpus : Option U8} {s : Node}

/-- A move is a step of the mining thread, or leaves the mining thread as it is. -/
theorem Node.next_cases (cpus : Option U8) (s : Node) (move : NodeMove) :
    (∃ run, move = .miner run) ∨ s.Frame (s.next cpus move) := by
  cases move with
  | miner run => exact Or.inl ⟨run, rfl⟩
  | raise =>
    right
    change s.Frame s.raise
    rcases s.raise_cases with h | h <;> rw [h] <;> exact ⟨rfl, rfl, rfl⟩
  | refresh metadata => exact Or.inr ⟨rfl, rfl, rfl⟩
  | beginImport => exact Or.inr ⟨rfl, rfl, rfl⟩
  | endImport cleared best =>
    right
    change s.Frame (if cleared ∈ s.imports then _ else s)
    split_ifs <;> exact ⟨rfl, rfl, rfl⟩

/-- An iteration that has metadata and a seal compares the heights. -/
theorem Node.mine_gotSeal {metadata : MiningMetadata} {parent : Seal} {read : Block}
    (hphase : s.phase = .gotSeal (some metadata) (some parent) read) (run : MiningRun) :
    s.mine cpus run =
      if s.miningNumber ≠ 0 ∧ s.miningNumber = read.number then { s with phase := .idle }
      else { s with miningNumber := read.number, phase := .starting metadata parent read } := by
  simp only [Node.mine, hphase]

/-- An attempt starts by clearing the flag. -/
theorem Node.mine_starting {metadata : MiningMetadata} {parent : Seal} {read : Block}
    (hphase : s.phase = .starting metadata parent read) (run : MiningRun) :
    s.mine cpus run = { s with
      found := false
      imports := s.imports.map fun _ => true
      phase := .mining metadata parent read
      lastAttempt := some ⟨read, false⟩ } := by
  simp only [Node.mine, hphase]

/-- The end of an attempt remembers its height. -/
theorem Node.endAttempt_remembers {metadata : MiningMetadata} {parent : Seal} {read : Block}
    (hs : s.Remembers) (hphase : s.phase = .mining metadata parent read) (run : MiningRun) :
    (s.endAttempt cpus metadata parent read run).Remembers := by
  have hheight := hs.mining _ _ _ hphase
  unfold Node.endAttempt
  split
  · exact hs.of_eq hphase nofun rfl rfl nofun nofun
  · exact hs.of_eq hphase nofun rfl hheight.symm nofun nofun
  · exact hs.of_eq hphase nofun rfl rfl nofun nofun

/-- A step of the mining thread keeps the remembered height right. -/
theorem Node.mine_remembers (hs : s.Remembers) (run : MiningRun) :
    (s.mine cpus run).Remembers := by
  unfold Node.mine
  split
  next hphase => exact hs.of_eq hphase nofun rfl rfl nofun nofun
  next metadata hphase =>
    split
    · exact hs.of_eq hphase nofun rfl rfl nofun nofun
    · exact hs.of_eq hphase nofun rfl rfl nofun nofun
  next metadata parent read hphase =>
    split_ifs
    · exact hs.of_eq hphase nofun rfl rfl nofun nofun
    · constructor
      · intro _ _ _ h
        cases h
        rfl
      · intro h
        exact absurd rfl (h metadata parent read)
      · exact nofun
  next hphase => exact hs.of_eq hphase nofun rfl rfl nofun nofun
  next metadata parent read hphase =>
    constructor
    · exact nofun
    · intro _
      exact hs.starting _ _ _ hphase
    · intro _ _ _ h
      cases h
      rfl
  next metadata parent read hphase => exact Node.endAttempt_remembers hs hphase run
  next hphase => exact hs.of_eq hphase nofun rfl rfl nofun nofun
  next => exact hs

/-- A step of the mining thread is a move. -/
theorem Node.reachableVia_mine {guard : Node → NodeMove → Prop}
    (h : (Node.system cpus).ReachableVia guard s) (run : MiningRun)
    (hguard : guard s (.miner run)) : (Node.system cpus).ReachableVia guard (s.mine cpus run) :=
  h.move (.miner run) hguard

theorem Node.reachable_mine (h : (Node.system cpus).Reachable s) (run : MiningRun) :
    (Node.system cpus).Reachable (s.mine cpus run) :=
  Node.reachableVia_mine h run trivial

/-- In every reachable state the remembered height is right. -/
theorem Node.remembers_of_reachable (h : (Node.system cpus).Reachable s) : s.Remembers := by
  refine h.invariant ?_ ?_
  · rintro s ⟨hphase, hnumber, hlast, -⟩
    refine ⟨by rw [hphase]; exact nofun, fun _ => ?_, by rw [hphase]; exact nofun⟩
    rw [hnumber, Node.lastHeight, hlast]
    rfl
  · intro s move hs
    rcases s.next_cases cpus move with ⟨run, rfl⟩ | hframe
    · exact Node.mine_remembers hs run
    · exact hs.of_frame hframe

/-- **When an attempt starts.** In every reachable state an iteration that has
metadata and a seal starts an attempt exactly when the best block is at height zero
or at another height than the last attempt. Otherwise it sleeps. -/
theorem attempt_starts_iff (h : (Node.system cpus).Reachable s) {metadata : MiningMetadata}
    {parent : Seal} {read : Block}
    (hphase : s.phase = .gotSeal (some metadata) (some parent) read) (run : MiningRun) :
    ((s.next cpus (.miner run)).phase = .starting metadata parent read ↔
      read.number = 0 ∨ ∀ last, s.lastAttempt = some last → last.block.number ≠ read.number) ∧
    ((s.next cpus (.miner run)).phase ≠ .starting metadata parent read →
      s.next cpus (.miner run) = { s with phase := .idle }) ∧
    (∀ last, s.lastAttempt = some last → last.block.number = read.number →
      ((s.next cpus (.miner run)).phase = .starting metadata parent read ↔ read.number = 0)) := by
  have hnumber := (Node.remembers_of_reachable h).otherwise (by rw [hphase]; exact nofun)
  have hmine : s.mine cpus run = _ := Node.mine_gotSeal hphase run
  have hstarts : (s.next cpus (.miner run)).phase = .starting metadata parent read ↔
      ¬(s.miningNumber ≠ 0 ∧ s.miningNumber = read.number) := by
    rw [Node.next, hmine]
    split_ifs with hsame
    · exact iff_of_false nofun fun hnot => hnot hsame
    · exact iff_of_true rfl hsame
  refine ⟨hstarts.trans ?_, fun hidle => ?_, fun last hlast hsame => hstarts.trans ?_⟩
  · rw [hnumber, Node.lastHeight]
    cases s.lastAttempt with
    | none => simp
    | some last =>
      simp only [Option.elim_some, Option.some.injEq, forall_eq']
      constructor
      · intro hnot
        by_contra hneither
        rw [not_or, not_not] at hneither
        exact hnot ⟨hneither.2 ▸ hneither.1, hneither.2⟩
      · rintro (hzero | hne) ⟨hpos, hsame⟩
        · exact hpos (hsame.trans hzero)
        · exact hne hsame
  · rw [Node.next, hmine, if_pos (not_not.mp fun hnot => hidle (hstarts.mpr hnot))]
  · rw [hnumber, Node.lastHeight, hlast, Option.elim_some, hsame]
    simp

end Runs

section Signals

variable {s : Node}

/-- During an attempt, the flag is raised as soon as the best block is not the block
whose seal is mined. -/
def Node.NoLostCancellation (s : Node) : Prop :=
  ∀ metadata parent read, s.phase = .mining metadata parent read → s.best ≠ read → s.found = true

/-- The moves that keep a cancellation from being lost. When the flag is cleared, the
best block is still the one that was read. When an import ends whose signal has been
cleared and changes the best block during an attempt, the flag has been raised again. -/
def Node.KeepsSignal (s : Node) : NodeMove → Prop
  | .miner _ => ∀ metadata parent read, s.phase = .starting metadata parent read → s.best = read
  | .endImport true best => ∀ metadata parent read, s.phase = .mining metadata parent read →
    true ∈ s.imports → best = read ∨ s.found = true
  | _ => True

/-- The invariant of a run whose moves keep the signal: during an attempt a new best
block, or an import announced during the attempt, comes with a raised flag. -/
structure Node.Signalled (s : Node) : Prop where
  noLost : s.NoLostCancellation
  announced : ∀ metadata parent read, s.phase = .mining metadata parent read →
    false ∈ s.imports → s.found = true

/-- No attempt, no obligation. -/
theorem Node.Signalled.of_not_mining
    (h : ∀ metadata parent read, s.phase ≠ .mining metadata parent read) : s.Signalled where
  noLost _ _ _ hphase := absurd hphase (h _ _ _)
  announced _ _ _ hphase := absurd hphase (h _ _ _)

/-- A raised flag meets every obligation. -/
theorem Node.Signalled.of_found (h : s.found = true) : s.Signalled where
  noLost _ _ _ _ _ := h
  announced _ _ _ _ _ := h

end Signals

section SignalRuns

variable [Deps] {cpus : Option U8} {s : Node}

/-- A step of the mining thread keeps the invariant if the flag is cleared in time. -/
theorem Node.mine_signalled {run : MiningRun} (hkeep : s.KeepsSignal (.miner run)) :
    (s.mine cpus run).Signalled := by
  unfold Node.mine
  split
  next => exact .of_not_mining nofun
  next => split <;> exact .of_not_mining nofun
  next => split_ifs <;> exact .of_not_mining nofun
  next => exact .of_not_mining nofun
  next metadata parent read hphase =>
    -- all imports in flight have just lost their signal
    constructor
    · intro _ _ _ h hne
      cases h
      exact absurd (hkeep _ _ _ hphase) hne
    · intro _ _ _ _ hmem
      simp at hmem
  next =>
    unfold Node.endAttempt
    split <;> exact .of_not_mining nofun
  next => exact .of_not_mining nofun
  next hphase => exact .of_not_mining (by rw [hphase]; exact nofun)

/-- Every move that keeps the signal keeps the invariant. -/
theorem Node.next_signalled (hs : s.Signalled) {move : NodeMove} (hkeep : s.KeepsSignal move) :
    (s.next cpus move).Signalled := by
  cases move with
  | miner run => exact Node.mine_signalled hkeep
  | raise =>
    change Node.Signalled s.raise
    rcases s.raise_cases with h | h <;> rw [h]
    · exact .of_found rfl
    · exact hs
  | refresh metadata => exact ⟨hs.noLost, hs.announced⟩
  | beginImport => exact .of_found rfl
  | endImport cleared best =>
    change Node.Signalled (if cleared ∈ s.imports then _ else s)
    split_ifs with hmem
    · constructor
      · intro metadata parent read hphase hne
        cases cleared with
        | false => exact hs.announced metadata parent read hphase hmem
        | true => exact (hkeep metadata parent read hphase hmem).resolve_left hne
      · intro metadata parent read hphase hfalse
        exact hs.announced metadata parent read hphase (List.mem_of_mem_erase hfalse)
    · exact hs

/-- A move that does not keep the signal loses a cancellation at once. -/
theorem Node.lost_of_not_keepsSignal {move : NodeMove} (h : ¬s.KeepsSignal move) :
    ¬(s.next cpus move).NoLostCancellation := by
  intro hsafe
  cases move with
  | miner run =>
    simp only [Node.KeepsSignal, not_forall] at h
    obtain ⟨metadata, parent, read, hphase, hne⟩ := h
    simp only [Node.next, Node.mine_starting hphase] at hsafe
    exact absurd (hsafe metadata parent read rfl hne) nofun
  | raise => exact h trivial
  | refresh metadata => exact h trivial
  | beginImport => exact h trivial
  | endImport cleared best =>
    cases cleared with
    | false => exact h trivial
    | true =>
      simp only [Node.KeepsSignal, not_forall, not_or] at h
      obtain ⟨metadata, parent, read, hphase, hmem, hne, hfound⟩ := h
      simp only [Node.next, if_pos hmem] at hsafe
      exact hfound (hsafe metadata parent read hphase hne)

/-- **No lost cancellation.** As long as all moves keep the signal, no cancellation
is lost, and the first move that does not keep it loses one. -/
theorem noLostCancellation_iff (h : (Node.system cpus).ReachableVia Node.KeepsSignal s) :
    s.NoLostCancellation ∧
      ∀ move, (s.next cpus move).NoLostCancellation ↔ s.KeepsSignal move := by
  have hs : s.Signalled := by
    refine h.invariant ?_ fun _ _ hs hkeep => Node.next_signalled hs hkeep
    rintro s ⟨hphase, -⟩
    exact .of_not_mining (by rw [hphase]; exact nofun)
  refine ⟨hs.noLost, ?_⟩
  intro move
  constructor
  · intro hsafe
    by_contra hkeep
    exact Node.lost_of_not_keepsSignal hkeep hsafe
  · intro hkeep
    exact (Node.next_signalled hs hkeep).noLost

end SignalRuns

section Sample

attribute [local instance] Deps.sample

/-- A block at height one that carries the weak seal. -/
def sealedBlock : Block := ⟨.replicate 32 1, 1, [.sealItem (.replicate 4 0) weakSeal.encode]⟩

/-- Metadata for mining at difficulty 48. -/
def plainMetadata : MiningMetadata := ⟨.replicate 32 1, .replicate 32 0, 48⟩

/-- A node whose mining thread starts on a best block. -/
def freshNode (best : Block) : Node := ⟨best, some plainMetadata, false, [], 0, 1, .idle, none⟩

theorem freshNode_reachable (best : Block) : (Node.system none).Reachable (freshNode best) :=
  .start ⟨rfl, rfl, rfl, List.not_mem_nil⟩

theorem findSeal_sealedBlock : findSeal sealedBlock = .ok (some weakSeal, 1) := by
  have hnumber : sealedBlock.number ≠ 0 := by decide
  have hraw : sealedBlock.digest.reverse.findSome? DigestItem.asSeal = some weakSeal.encode := rfl
  simp only [findSeal, if_neg hnumber, hraw, Seal.decode_encode]
  rfl

/-- On the sample, the first attempt on the sealed block finds nothing. -/
theorem weakSeal_attempt_fails : ∃ after,
    weakSeal.tryCpuMining plainMetadata.compute 1 quietRun none = .ok (none, after) := by
  have hany : (weakSeal.tryCpuMining plainMetadata.compute 1 quietRun none).toOption.any
      (fun result => result.1.isNone) = true := by decide +kernel
  obtain ⟨⟨found, after⟩, hmined, hnone⟩ := Rust.exists_ok_of_any hany
  obtain rfl := Option.isNone_iff_eq_none.mp hnone
  exact ⟨after, hmined⟩

/-- The node when it has read the sealed block and its seal. -/
def readingNode : Node :=
  { freshNode sealedBlock with
    phase := .gotSeal (some plainMetadata) (some weakSeal) sealedBlock }

/-- The node during its attempt on the sealed block. -/
def attemptingNode : Node :=
  { freshNode sealedBlock with
    miningNumber := 1
    phase := .mining plainMetadata weakSeal sealedBlock
    lastAttempt := some ⟨sealedBlock, false⟩ }

/-- The node after a failed attempt on the sealed block, when it has read the seal again. -/
def retryingNode : Node :=
  { freshNode sealedBlock with
    miningNumber := 1
    miningSeed := 2
    phase := .gotSeal (some plainMetadata) (some weakSeal) sealedBlock
    lastAttempt := some ⟨sealedBlock, true⟩ }

/-- Two steps of the mining thread read the sealed block and its seal. -/
theorem read_sealedBlock {s : Node} (hbest : s.best = sealedBlock) (hphase : s.phase = .idle) :
    (s.mine none quietRun).mine none quietRun =
      { s with phase := .gotSeal s.metadata (some weakSeal) sealedBlock } := by
  simp only [Node.mine, hphase, hbest, findSeal_sealedBlock]

theorem retryingNode_reachable : (Node.system none).Reachable retryingNode := by
  obtain ⟨after, hattempt⟩ := weakSeal_attempt_fails
  have hread : ((freshNode sealedBlock).mine none quietRun).mine none quietRun = readingNode := by
    rw [read_sealedBlock rfl rfl]
    rfl
  have hstart : readingNode.mine none quietRun = { readingNode with
      miningNumber := 1
      phase := .starting plainMetadata weakSeal sealedBlock } := by
    rw [Node.mine_gotSeal rfl, if_neg (by decide)]
    rfl
  have hattempting : (readingNode.mine none quietRun).mine none quietRun = attemptingNode := by
    rw [hstart, Node.mine_starting rfl]
    rfl
  have hfailed : attemptingNode.mine none quietRun = { retryingNode with phase := .idle } := by
    have hseed : attemptingNode.miningSeed = 1 := rfl
    have hphase : attemptingNode.phase = .mining plainMetadata weakSeal sealedBlock := rfl
    simp only [Node.mine, hphase]
    unfold Node.endAttempt
    rw [hseed, hattempt]
    rfl
  have hagain : (({ retryingNode with phase := .idle } : Node).mine none quietRun).mine none
      quietRun = retryingNode := by
    rw [read_sealedBlock rfl rfl]
    rfl
  have hreading := Node.reachable_mine (Node.reachable_mine (freshNode_reachable sealedBlock)
    quietRun) quietRun
  rw [hread] at hreading
  have hended := Node.reachable_mine (Node.reachable_mine (Node.reachable_mine hreading quietRun)
    quietRun) quietRun
  rw [hattempting, hfailed] at hended
  have hretrying := Node.reachable_mine (Node.reachable_mine hended quietRun) quietRun
  rwa [hagain] at hretrying

/-- The mining thread goes idle on a head at height one that it has failed to mine on. -/
theorem miner_idles_on_unsolved_head :
    ¬∀ (s : Node), (Node.system none).Reachable s →
      ∀ (metadata : MiningMetadata) (parent : Seal) (read : Block) (run : MiningRun),
      s.phase = .gotSeal (some metadata) (some parent) read →
      (∃ last, s.lastAttempt = some last ∧ ((last.block = read ∧ last.failed = true) ∨
        (last.block ≠ read ∧ last.block.number = read.number))) →
      (s.next none (.miner run)).phase = .starting metadata parent read := by
  intro h
  have hstarts := h retryingNode retryingNode_reachable _ _ _ quietRun rfl
    ⟨_, rfl, Or.inl ⟨rfl, rfl⟩⟩
  exact absurd hstarts nofun

/-- The characterisation on the sample, for the node that has failed at height one. -/
theorem retryingNode_sleeps :
    retryingNode.next none (.miner quietRun) = { retryingNode with phase := .idle } := by
  obtain ⟨-, hsleeps, hsame⟩ := attempt_starts_iff retryingNode_reachable rfl quietRun
  exact hsleeps fun hstarts => absurd ((hsame _ rfl rfl).mp hstarts) (by decide)

/-- The genesis block. -/
def genesisBlock : Block := ⟨.replicate 32 0, 0, []⟩

/-- The importer raises the flag and changes the best block after the mining thread
has read the genesis seal and before it clears the flag. -/
def lateReset : List NodeMove :=
  [.miner quietRun, .miner quietRun, .beginImport, .endImport false sealedBlock, .miner quietRun,
    .miner quietRun]

/-- Some run mines on the genesis block after another block has become the best one,
with the flag cleared. -/
theorem cancellation_lost :
    ¬∀ s : Node, (Node.system none).Reachable s → s.NoLostCancellation := by
  intro h
  have hreachable := (freshNode_reachable genesisBlock).run lateReset
  have hlost := h _ hreachable plainMetadata (genesisSeal initDifficulty) genesisBlock rfl
  exact absurd (hlost (by decide)) nofun

/-- On the sample, clearing the flag while the genesis block is still the best one
loses no cancellation. -/
theorem timely_reset_keeps_signal :
    let s : Node := { freshNode genesisBlock with
      miningNumber := 0
      phase := .starting plainMetadata (genesisSeal initDifficulty) genesisBlock }
    (s.next none (.miner quietRun)).NoLostCancellation := by
  intro s
  have hs : (Node.system none).ReachableVia Node.KeepsSignal s := by
    have hstart : (Node.system none).ReachableVia Node.KeepsSignal (freshNode genesisBlock) :=
      .start ⟨rfl, rfl, rfl, List.not_mem_nil⟩
    exact ((hstart.move (.miner quietRun) nofun).move (.miner quietRun) nofun).move
      (.miner quietRun) nofun
  refine ((noLostCancellation_iff hs).2 (.miner quietRun)).mpr ?_
  intro metadata parent read hphase
  cases hphase
  rfl

end Sample

end TrexPow
