import TrexPow.DifficultyRuns
import TrexPow.MinerSafety

/-!
# Chains of accepted blocks

The difficulty of a block is decided by the pallet's state after its parent, and the seal of
the block must declare it. Executing the block then reports its timestamp to the pallet. So
the difficulties that the seals of a chain declare are a function of its timestamps.
-/

namespace TrexPow

/-- What a node verifies and executes of a block: the seal with the header it belongs to, and
the timestamp in milliseconds. -/
structure ImportedBlock where
  parent : BlockId
  preHash : H256
  preDigest : Option (List UInt8)
  rawSeal : List UInt8
  moment : BitVec 64

/-- `difficulty` of the runtime's API, which `TREXAlgo::difficulty` asks at the parent. -/
def DifficultyStorage.runtimeDifficulty (s : DifficultyStorage) : Rust Difficulty :=
  unwrap s.currentDifficulty

/-- The moments that a chain reports to the pallet. -/
def moments (blocks : List ImportedBlock) : List ℕ := blocks.map fun block => block.moment.toNat

/-- The chains on genesis whose blocks are all accepted at the difficulty that the runtime
reports after their parents, with the pallet's state after the last block. -/
inductive AcceptedChain [Deps] (cfg : DifficultyConfig) (initial : Difficulty) :
    List ImportedBlock → DifficultyStorage → Prop
  | genesis : AcceptedChain cfg initial [] (.genesis initial)
  | block {blocks : List ImportedBlock} {before after : DifficultyStorage} {block : ImportedBlock}
      {difficulty : Difficulty} (hparent : AcceptedChain cfg initial blocks before)
      (hdifficulty : before.runtimeDifficulty = .ok difficulty)
      (haccepted : TREXAlgo.verify block.parent block.preHash block.preDigest block.rawSeal
        difficulty = .ok true)
      (hexecuted : onTimestampSet cfg before block.moment.toNat = .ok after) :
      AcceptedChain cfg initial (blocks ++ [block]) after

/-- The seal of a block declares a difficulty, and its key has that many bits. -/
def ImportedBlock.Declares (block : ImportedBlock) (difficulty : ℤ) : Prop :=
  ∃ s, Seal.decode block.rawSeal = some s ∧ (s.difficulty.toNat : ℤ) = difficulty ∧
    (s.pubkey.bitLength.toNat : ℤ) = difficulty

theorem moments_bounded (blocks : List ImportedBlock) :
    ∀ moment ∈ moments blocks, moment ≤ u128Max := by
  intro moment hmoment
  obtain ⟨block, -, rfl⟩ := List.mem_map.mp hmoment
  have hlt := block.moment.isLt
  rw [u128Max]
  omega

/-- The ancestors of a later block report what those of an earlier block do, and more. -/
theorem moments_take {blocks : List ImportedBlock} {first last : ℕ} (hle : first ≤ last)
    (hlast : last ≤ blocks.length) :
    ∃ later, moments (blocks.take last) = moments (blocks.take first) ++ later ∧
      (moments (blocks.take first)).length = first ∧ first + later.length = last := by
  refine ⟨moments ((blocks.take last).drop first), ?_, ?_, ?_⟩
  · have hsplit := List.take_append_drop first (blocks.take last)
    rw [List.take_take, Nat.min_eq_left hle] at hsplit
    rw [moments, moments, moments, ← List.map_append, hsplit]
  · rw [moments, List.length_map, List.length_take]
    omega
  · rw [moments, List.length_map, List.length_drop, List.length_take]
    omega

/-- A chain of fast windows leads to the maximum as soon as it is long enough. -/
theorem fast_walk_eq_max_iff {cfg : DifficultyConfig} {initial : Difficulty}
    {blocks : List ImportedBlock} (hinitial : (initial.toNat : ℤ) ∈ Set.Icc (48 : ℤ) 224)
    (hfast : ∀ window ∈ fullWindows (moments blocks), windowMove cfg window = 1) :
    difficultyWalk cfg initial.toNat (moments blocks) = 224 ↔
      difficultyAdjustWindow * (224 - initial.toNat) ≤ blocks.length := by
  have hup : ∀ move ∈ (fullWindows (moments blocks)).map (windowMove cfg), move = 1 := by
    intro move hmove
    obtain ⟨window, hwindow, rfl⟩ := List.mem_map.mp hmove
    exact hfast window hwindow
  have hlength : (moments blocks).length = blocks.length := List.length_map _
  rw [difficultyWalk, BoundedWalk.walk_eq_min hinitial zero_le_one hup, List.length_map,
    length_fullWindows, hlength, nsmul_one, min_eq_left_iff, difficultyAdjustWindow_eq]
  omega

theorem DifficultyStorage.runtimeDifficulty_eq_ok {s : DifficultyStorage}
    {difficulty : Difficulty} :
    s.runtimeDifficulty = .ok difficulty ↔ s.currentDifficulty = some difficulty := by
  unfold DifficultyStorage.runtimeDifficulty
  cases s.currentDifficulty with
  | none => simp
  | some stored => simp

section Chains

variable [Deps] {cfg : DifficultyConfig} {initial : Difficulty} {blocks : List ImportedBlock}
  {s : DifficultyStorage}

/-- An accepted seal declares the difficulty that was asked for. -/
theorem ImportedBlock.declares_of_accepted {block : ImportedBlock} {difficulty : Difficulty}
    (h : TREXAlgo.verify block.parent block.preHash block.preDigest block.rawSeal difficulty =
      .ok true) : block.Declares difficulty.toNat := by
  cases hdecode : Seal.decode block.rawSeal with
  | none =>
    rw [TREXAlgo.verify, hdecode] at h
    cases h
  | some found =>
    rw [TREXAlgo.verify_of_decode _ _ _ hdecode] at h
    split_ifs at h with hdeclared
    · obtain ⟨rfl, hbits⟩ := hdeclared
      exact ⟨found, hdecode, rfl, by rw [hbits]⟩
    · cases h

namespace AcceptedChain

/-- The blocks of a chain are a run of the pallet. -/
theorem run (h : AcceptedChain cfg initial blocks s) :
    (moments blocks).foldlM (onTimestampSet cfg) (.genesis initial) = .ok s := by
  induction h with
  | genesis => rfl
  | block _ _ _ hexecuted ih =>
    rw [moments, List.map_append, List.map_singleton]
    exact Loop.foldlM_concat_eq_ok.mpr ⟨_, ih, hexecuted⟩

/-- Every block of a chain has been accepted after the chain of its ancestors. -/
theorem accepted_at (h : AcceptedChain cfg initial blocks s) {height : ℕ}
    (hheight : height < blocks.length) :
    ∃ before difficulty, AcceptedChain cfg initial (blocks.take height) before ∧
      before.runtimeDifficulty = .ok difficulty ∧
      TREXAlgo.verify blocks[height].parent blocks[height].preHash blocks[height].preDigest
        blocks[height].rawSeal difficulty = .ok true := by
  induction h with
  | genesis => exact absurd hheight (Nat.not_lt_zero _)
  | @block blocks before after block difficulty hparent hdifficulty haccepted _ ih =>
    rw [List.length_append, List.length_singleton] at hheight
    rcases Nat.lt_succ_iff_lt_or_eq.mp hheight with hearlier | rfl
    · rw [List.take_append_of_le_length hearlier.le]
      simp only [List.getElem_append_left hearlier]
      exact ih hearlier
    · rw [List.take_left]
      simp only [List.getElem_concat_length]
      exact ⟨before, difficulty, hparent, hdifficulty, haccepted⟩

/-- After every chain the runtime reports the difficulty of the walk, which is in range. -/
theorem difficulty_eq (htarget : cfg.targetBlockTime < 2 ^ 64) (hmin : 48 ≤ initial.toNat)
    (hmax : initial.toNat ≤ 224) (h : AcceptedChain cfg initial blocks s) :
    ∃ difficulty, s.runtimeDifficulty = .ok difficulty ∧
      (difficulty.toNat : ℤ) = difficultyWalk cfg initial.toNat (moments blocks) := by
  obtain ⟨s', difficulty, hrun, hstored, hwalk⟩ :=
    difficulty_of_run htarget hmin hmax (moments_bounded blocks)
  obtain rfl := Except.ok.inj (h.run.symm.trans hrun)
  exact ⟨difficulty, DifficultyStorage.runtimeDifficulty_eq_ok.mpr hstored, hwalk⟩

/-- What the runtime reports after a chain is the difficulty of the walk. -/
theorem walk_of_reported (htarget : cfg.targetBlockTime < 2 ^ 64) (hmin : 48 ≤ initial.toNat)
    (hmax : initial.toNat ≤ 224) (h : AcceptedChain cfg initial blocks s) {difficulty : Difficulty}
    (hreported : s.runtimeDifficulty = .ok difficulty) :
    (difficulty.toNat : ℤ) = difficultyWalk cfg initial.toNat (moments blocks) := by
  obtain ⟨reported, hdifficulty, hwalk⟩ := h.difficulty_eq htarget hmin hmax
  obtain rfl := Except.ok.inj (hreported.symm.trans hdifficulty)
  exact hwalk

/-- Every block of a chain declares the difficulty of the walk of its ancestors. -/
theorem declares_at (htarget : cfg.targetBlockTime < 2 ^ 64) (hmin : 48 ≤ initial.toNat)
    (hmax : initial.toNat ≤ 224) (h : AcceptedChain cfg initial blocks s) {height : ℕ}
    (hheight : height < blocks.length) : blocks[height].Declares
      (difficultyWalk cfg initial.toNat (moments (blocks.take height))) := by
  obtain ⟨before, difficulty, hbefore, hdifficulty, haccepted⟩ := h.accepted_at hheight
  rw [← hbefore.walk_of_reported htarget hmin hmax hdifficulty]
  exact ImportedBlock.declares_of_accepted haccepted

end AcceptedChain

/-- **The timestamps decide the difficulties.** On every accepted chain, the seal of a block
declares the difficulty that the walk of its ancestors' timestamps leads to, and its key has
that many bits, between 48 and 224. So two chains with the same timestamps demand the same keys,
whatever their seals are. Two blocks declare difficulties that differ by at most one for each
window that is completed between them. And the runtime has a difficulty in range for the
next block. -/
theorem accepted_chain_difficulties (htarget : cfg.targetBlockTime < 2 ^ 64)
    (hmin : 48 ≤ initial.toNat) (hmax : initial.toNat ≤ 224)
    (h : AcceptedChain cfg initial blocks s) :
    (∀ height (hheight : height < blocks.length), ∃ difficulty : ℤ,
      48 ≤ difficulty ∧ difficulty ≤ 224 ∧
      difficulty = difficultyWalk cfg initial.toNat (moments (blocks.take height)) ∧
      blocks[height].Declares difficulty) ∧
    (∀ first last (hle : first ≤ last) (hlast : last < blocks.length), ∃ d d' : ℤ,
      blocks[first].Declares d ∧ blocks[last].Declares d' ∧
      |d' - d| ≤ (last / difficultyAdjustWindow - first / difficultyAdjustWindow : ℕ)) ∧
    ∃ difficulty, s.runtimeDifficulty = .ok difficulty ∧ 48 ≤ difficulty.toNat ∧
      difficulty.toNat ≤ 224 ∧
      (difficulty.toNat : ℤ) = difficultyWalk cfg initial.toNat (moments blocks) := by
  have hinitial : (initial.toNat : ℤ) ∈ Set.Icc (48 : ℤ) 224 := ⟨by omega, by omega⟩
  refine ⟨?_, ?_, ?_⟩
  · intro height hheight
    obtain ⟨hlow, hhigh⟩ := difficultyWalk_mem cfg hmin hmax (moments (blocks.take height))
    exact ⟨_, hlow, hhigh, rfl, h.declares_at htarget hmin hmax hheight⟩
  · intro first last hle hlast
    have hfirst : first < blocks.length := by omega
    refine ⟨_, _, h.declares_at htarget hmin hmax hfirst, h.declares_at htarget hmin hmax hlast, ?_⟩
    obtain ⟨later, hmoments, hcount, hsum⟩ := moments_take hle hlast.le
    have hnear := difficultyWalk_near cfg hinitial (moments (blocks.take first)) later
    rwa [← hmoments, hcount, hsum] at hnear
  · obtain ⟨difficulty, hdifficulty, hwalk⟩ := h.difficulty_eq htarget hmin hmax
    obtain ⟨hlow, hhigh⟩ := difficultyWalk_mem cfg hmin hmax (moments blocks)
    exact ⟨difficulty, hdifficulty, by omega, by omega, hwalk⟩

/-- **Fast chains stop their miners.** On an accepted chain, the attempt that a mining thread
makes at the difficulty of the next block ends the thread exactly when that is the maximum, and
then for good. A chain whose windows were all too fast is there as soon as it has as many
windows as its genesis difficulty is below the maximum. -/
theorem fast_chain_stops_miners (hrand : RandomInRange) (hbitLength : KeysHaveBitLength)
    (hprime : KeysHavePrimeModulus) (hseeds : SeedsInRange) (htarget : cfg.targetBlockTime < 2 ^ 64)
    (hmin : 48 ≤ initial.toNat) (hmax : initial.toNat ≤ 224)
    (h : AcceptedChain cfg initial blocks s) :
    ∃ difficulty, s.runtimeDifficulty = .ok difficulty ∧
      (∀ (cpus : Option U8) (node : Node) metadata parent read run,
        node.phase = .mining metadata parent read → metadata.difficulty = difficulty →
        (∀ key, Keychain.at (yieldPubKeys parent.seeds) difficulty = .ok key →
          run.Joins cpus key metadata.compute node.miningSeed) →
        ((node.next cpus (.miner run)).phase = .stopped ↔ difficulty = maxDifficulty) ∧
        (difficulty = maxDifficulty → ∀ moves : List NodeMove,
          (moves.foldl (Node.next cpus) (node.next cpus (.miner run))).phase = .stopped)) ∧
      ((∀ window ∈ fullWindows (moments blocks), windowMove cfg window = 1) →
        (difficulty = maxDifficulty ↔
          difficultyAdjustWindow * (224 - initial.toNat) ≤ blocks.length)) := by
  have hinitial : (initial.toNat : ℤ) ∈ Set.Icc (48 : ℤ) 224 := ⟨by omega, by omega⟩
  obtain ⟨difficulty, hdifficulty, hwalk⟩ := h.difficulty_eq htarget hmin hmax
  obtain ⟨hlow, hhigh⟩ := difficultyWalk_mem cfg hmin hmax (moments blocks)
  have hlast : difficulty = maxDifficulty ↔ difficulty.toNat = 224 := by
    rw [← BitVec.toNat_inj, maxDifficulty_toNat]
  refine ⟨difficulty, hdifficulty, ?_, ?_⟩
  · rintro cpus node metadata parent read run hphase rfl hjoins
    have hstops : metadata.difficulty = maxDifficulty →
        (node.next cpus (.miner run)).phase = .stopped := by
      intro hreached
      have hdeclared : metadata.compute.difficulty = maxDifficulty := hreached
      have hpanic := parent.tryCpuMining_maxDifficulty hdeclared node.miningSeed run cpus
      simp only [Node.next, Node.mine, hphase, Node.endAttempt, hpanic]
    refine ⟨⟨?_, hstops⟩, fun hreached moves => Node.stopped_for_good moves (hstops hreached)⟩
    intro hstopped
    by_contra hbelow
    rw [hlast] at hbelow
    have hlow' : 48 ≤ metadata.compute.difficulty.toNat := by
      change 48 ≤ metadata.difficulty.toNat
      omega
    have hhigh' : metadata.compute.difficulty.toNat ≤ 223 := by
      change metadata.difficulty.toNat ≤ 223
      omega
    have halive : (node.endAttempt cpus metadata parent read run).Alive := Node.endAttempt_alive
      (Seal.tryCpuMining_returns hrand hbitLength hprime hseeds parent hlow' hhigh' hjoins)
    refine halive.running ?_
    simpa only [Node.next, Node.mine, hphase] using hstopped
  · intro hfast
    rw [hlast, ← fast_walk_eq_max_iff hinitial hfast]
    omega

end Chains

section Sample

attribute [local instance] Deps.sample

/-- The weak seal with another difficulty. -/
def weakSealAt (bits : ℕ) : Seal :=
  { weakSeal with
    difficulty := .ofNat 128 bits
    pubkey := ⟨7, 1, 1, .ofNat 32 bits⟩ }

/-- A block with such a seal. -/
def weakBlock (bits : ℕ) : ImportedBlock :=
  ⟨.number 0, .replicate 32 0, none, (weakSealAt bits).encode, 0⟩

/-- Such a seal is accepted at its difficulty. -/
theorem weakBlock_accepted {bits : ℕ} (hbits : bits = 48 ∨ bits = 49 ∨ bits = 223) :
    TREXAlgo.verify (weakBlock bits).parent (weakBlock bits).preHash (weakBlock bits).preDigest
      (weakBlock bits).rawSeal (.ofNat 128 bits) = .ok true := by
  rw [weakBlock, TREXAlgo.verify_of_decode _ _ _ (Seal.decode_encode _)]
  rcases hbits with rfl | rfl | rfl
  · decide +kernel
  · decide +kernel
  · decide +kernel

/-- A weak block extends every chain whose walk leads to its difficulty. -/
theorem AcceptedChain.weakBlock_next {initial : Difficulty} {blocks : List ImportedBlock}
    {before : DifficultyStorage} (h : AcceptedChain fastBlocks initial blocks before)
    (hmin : 48 ≤ initial.toNat) (hmax : initial.toNat ≤ 224) {bits : ℕ}
    (hbits : bits = 48 ∨ bits = 49 ∨ bits = 223)
    (hwalk : difficultyWalk fastBlocks initial.toNat (moments blocks) = bits) :
    ∃ after, AcceptedChain fastBlocks initial (blocks ++ [weakBlock bits]) after := by
  have htarget : fastBlocks.targetBlockTime < 2 ^ 64 := by decide
  obtain ⟨difficulty, hreported, hdifficulty⟩ := h.difficulty_eq htarget hmin hmax
  obtain rfl : difficulty = .ofNat 128 bits := by
    apply BitVec.eq_of_toNat_eq
    rw [BitVec.toNat_ofNat]
    omega
  have hrange : (DifficultyStorage.genesis initial).InRange := ⟨initial, rfl, hmin, hmax⟩
  obtain ⟨after, hrun⟩ := run_returns htarget hrange (Nat.zero_lt_succ 59)
    (moments (blocks ++ [weakBlock bits]))
  rw [moments, List.map_append, List.map_singleton] at hrun
  obtain ⟨found, hfound, hexecuted⟩ := Loop.foldlM_concat_eq_ok.mp hrun
  obtain rfl := Except.ok.inj (h.run.symm.trans hfound)
  exact ⟨after, .block h hreported (weakBlock_accepted hbits) hexecuted⟩

theorem moments_weakBlocks (n bits : ℕ) :
    moments (List.replicate n (weakBlock bits)) = List.replicate n 0 := by
  rw [moments, List.map_replicate]
  rfl

/-- One window of weak blocks is an accepted chain on a genesis of their difficulty. -/
theorem weakBlocks_chain {bits : ℕ} (hbits : bits = 48 ∨ bits = 49 ∨ bits = 223) {n : ℕ}
    (hn : n ≤ difficultyAdjustWindow) :
    ∃ s, AcceptedChain fastBlocks (.ofNat 128 bits) (List.replicate n (weakBlock bits)) s := by
  have htoNat : (BitVec.ofNat 128 bits).toNat = bits := by
    rw [BitVec.toNat_ofNat]
    omega
  induction n with
  | zero => exact ⟨_, .genesis⟩
  | succ n ih =>
    obtain ⟨s, hchain⟩ := ih (by omega)
    rw [List.replicate_succ']
    refine hchain.weakBlock_next (by omega) (by omega) hbits ?_
    rw [difficultyWalk_of_short, htoNat]
    rw [moments_weakBlocks, List.length_replicate]
    exact hn

/-- After a window of weak blocks of 48 bits the chain goes on with one of 49 bits, and the
blocks declare these difficulties. -/
theorem weakBlocks_declare : ∃ s,
    AcceptedChain fastBlocks 48 (List.replicate 60 (weakBlock 48) ++ [weakBlock 49]) s ∧
      s.runtimeDifficulty = .ok 49 ∧ (weakBlock 48).Declares 48 ∧ (weakBlock 49).Declares 49 ∧
      ∃ d d' : ℤ, (weakBlock 48).Declares d ∧ (weakBlock 49).Declares d' ∧ |d' - d| ≤ 1 := by
  obtain ⟨before, hbefore⟩ : ∃ before,
      AcceptedChain fastBlocks 48 (List.replicate 60 (weakBlock 48)) before :=
    weakBlocks_chain (.inl rfl) le_rfl
  have hwalk : difficultyWalk fastBlocks ((48 : Difficulty).toNat)
      (moments (List.replicate 60 (weakBlock 48))) = 49 := by
    rw [moments_weakBlocks]
    decide +kernel
  obtain ⟨s, hchain⟩ := hbefore.weakBlock_next (by decide) (by decide) (.inr (.inl rfl)) hwalk
  obtain ⟨hdeclares, hnear, difficulty, hreported, -, -, hlast⟩ :=
    accepted_chain_difficulties (by decide) (by decide) (by decide) hchain
  have hnext : difficultyWalk fastBlocks ((48 : Difficulty).toNat)
      (moments (List.replicate 60 (weakBlock 48) ++ [weakBlock 49])) = 49 := by
    rw [moments, List.map_append, ← moments, moments_weakBlocks]
    decide +kernel
  obtain rfl : difficulty = 49 := by
    apply BitVec.eq_of_toNat_eq
    have hnat : (difficulty.toNat : ℤ) = 49 := hlast.trans hnext
    exact_mod_cast hnat
  obtain ⟨first, -, -, hfirst, hdeclared⟩ := hdeclares 0 (by decide)
  obtain ⟨second, -, -, hsecond, hdeclared'⟩ := hdeclares 60 (by decide)
  obtain ⟨d, d', hd, hd', hle⟩ := hnear 0 60 (by decide) (by decide)
  obtain rfl : first = 48 := hfirst
  obtain rfl : second = 49 := by
    rw [hsecond, List.take_left' (by rfl), hwalk]
  exact ⟨s, hchain, hreported, hdeclared, hdeclared', d, d', hd, hd', hle⟩

/-- A node during an attempt at the maximum difficulty. -/
def lastAttemptNode : Node :=
  { attemptingNode with
    phase := .mining ⟨.replicate 32 1, .replicate 32 0, 224⟩ weakSeal sealedBlock }

/-- After one window of fast blocks on a genesis of difficulty 223 an attempt stops the thread,
for good. -/
theorem lastAttempt_stops : ∃ s,
    AcceptedChain fastBlocks 223 (List.replicate 60 (weakBlock 223)) s ∧
      s.runtimeDifficulty = .ok maxDifficulty ∧
      ∀ moves : List NodeMove, (moves.foldl (Node.next none)
        (lastAttemptNode.next none (.miner quietRun))).phase = .stopped := by
  obtain ⟨s, hchain⟩ := weakBlocks_chain (.inr (.inr rfl)) le_rfl
  obtain ⟨difficulty, hreported, hstops, hfast⟩ := fast_chain_stops_miners Deps.sample.randomInRange
    Deps.sample.keysHaveBitLength Deps.sample.keysHavePrimeModulus Deps.sample.seedsInRange
    (by decide) (by decide) (by decide) hchain
  obtain rfl : difficulty = maxDifficulty := (hfast fun _ _ => rfl).mpr (by decide)
  refine ⟨s, hchain, hreported, (hstops none lastAttemptNode _ _ _ quietRun rfl rfl ?_).2 rfl⟩
  intro _ _ value hvalue
  cases hvalue

end Sample

end TrexPow
