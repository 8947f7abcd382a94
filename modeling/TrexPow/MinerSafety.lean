import TrexPow.MiningSnapshot
import TrexPow.ParallelSafety
import TrexPow.Termination

/-!
# What keeps the mining thread alive

A panic in an attempt or in the read of a seal ends the mining thread for good. As long as
the worker asks for difficulties of the key chain and the best block carries a seal that
was accepted, neither happens, and the verifier decides about every submitted child.
-/

namespace TrexPow

/-- One CPU at most, or a number of CPUs above one. -/
theorem cpus_cases (cpus : Option U8) :
    (∀ value, cpus = some value → value ≤ 1) ∨ ∃ value, cpus = some value ∧ 1 < value := by
  cases cpus with
  | none =>
    left
    intro value h
    cases h
  | some value =>
    by_cases hvalue : 1 < value
    · exact Or.inr ⟨value, rfl, hvalue⟩
    · left
      intro other h
      obtain rfl := Option.some.inj h
      exact BitVec.not_lt.mp hvalue

section Attempts

variable [Deps] {key : PublicKey} {before : Compute} {miningSeed : U256} {run : MiningRun}
  {cpus : Option U8}

/-- At the end of the schedule all threads of a parallel search have returned, so that they
can be joined. -/
def MiningRun.Joins (run : MiningRun) (cpus : Option U8) (key : PublicKey) (compute : Compute)
    (miningSeed : U256) : Prop :=
  ∀ value, cpus = some value → 1 < value → ∀ s, parallelRun key compute (u256Bigint miningSeed)
    grainSize run.found value.toNat (run.schedule value.toNat) = .ok s → s.Joined

/-- With more than one CPU the search is the parallel one. -/
theorem search_of_one_lt {value : U8} (hvalue : 1 < value) (seed : ℤ) :
    search key before seed run (some value) = solveParallel key before seed grainSize run.found
      value.toNat (run.schedule value.toNat) :=
  if_pos hvalue

/-- What a search of either kind returns is a match, and with one CPU at most it belongs to
the header computer that the search leaves behind. -/
theorem search_matched (hrand : RandomInRange) (hkey : key.Sound) (hbits : 18 ≤ key.bitLength.toNat)
    {seed : ℤ} {solutions : Option (Solutions ℤ)} {after : Compute}
    (h : search key before seed run cpus = .ok (solutions, after)) :
    Matched key before solutions ∧
      ((∀ value, cpus = some value → value ≤ 1) → Reports key before solutions after) := by
  rcases cpus_cases cpus with hcpus | ⟨value, rfl, hvalue⟩
  · obtain ⟨result, hresult, hreports⟩ :=
      solveDist_spec hrand hkey hbits before seed grainSize run.flag
    have hsearch := search_of_le_one hcpus hresult
    obtain ⟨rfl, rfl⟩ := Prod.mk.inj (Except.ok.inj (hsearch.symm.trans h))
    exact ⟨⟨_, hreports⟩, fun _ => hreports⟩
  · rw [search_of_one_lt hvalue] at h
    obtain ⟨hashDiff, -, hmatched⟩ := solveParallel_matched hrand hkey h
    refine ⟨hmatched, ?_⟩
    intro hone
    exact absurd (hone value rfl) (BitVec.not_le.mpr hvalue)

/-- A search whose threads can be joined returns. -/
theorem search_returns (hrand : RandomInRange) (hkey : key.Sound) (hbits : 18 ≤ key.bitLength.toNat)
    (hjoins : run.Joins cpus key before miningSeed) :
    ∃ result, search key before (u256Bigint miningSeed) run cpus = .ok result := by
  rcases cpus_cases cpus with hcpus | ⟨value, rfl, hvalue⟩
  · obtain ⟨result, hresult, -⟩ :=
      solveDist_spec hrand hkey hbits before (u256Bigint miningSeed) grainSize run.flag
    exact ⟨_, search_of_le_one hcpus hresult⟩
  · obtain ⟨s, hrun, hreduced, -⟩ := parallelRun_ends hrand hkey.three_le hkey.lt hbits rfl before
      (u256Bigint miningSeed) grainSize run.found value.toNat (run.schedule value.toNat)
    obtain ⟨result, hresult⟩ :=
      hreduced.finish_ok before (hjoins value rfl hvalue s hrun)
    refine ⟨result, ?_⟩
    rw [search_of_one_lt hvalue, solveParallel, hrun, Rust.ok_bind, hresult]

/-- Every key of the chain leaves a seed that can be stored. -/
theorem newSeeds_ok (hseeds : SeedsInRange) (seeds : RawKeySeeds) :
    ∃ newSeeds : RawKeySeeds,
      (List.Vector.mOfFn fun idx : Fin keychainLen => newSeed idx ((yieldPubKeys seeds).get idx)) =
        .ok newSeeds := by
  have hseed (idx : Fin keychainLen) :
      ∃ stored, newSeed idx ((yieldPubKeys seeds).get idx) = .ok stored := by
    have hchain := bitLengthAt_chainBits idx.isLt
    obtain ⟨h0, hlt⟩ := hseeds (bitLengthAt idx) (seeds.get idx).toBigint hchain
    rw [bitLengthAt_toNat idx.isLt] at hlt
    rw [yieldPubKeys_get]
    exact ⟨_, newSeed_eq idx.isLt h0 hlt⟩
  choose stored hstored using hseed
  refine ⟨.ofFn stored, Loop.mOfFn_eq_ok.mpr fun idx => ?_⟩
  rw [hstored, List.Vector.get_ofFn]

/-- The key that is mined at a difficulty of the chain. -/
theorem chainKey_spec (hbitLength : KeysHaveBitLength) (hprime : KeysHavePrimeModulus)
    (seeds : RawKeySeeds) {difficulty : Difficulty} (hmin : 48 ≤ difficulty.toNat)
    (hmax : difficulty.toNat ≤ 223) :
    ∃ key, Keychain.at (yieldPubKeys seeds) difficulty = .ok key ∧ key.Sound ∧
      key.bitLength.toNat = difficulty.toNat := by
  obtain ⟨idx, hidx, hat⟩ := Keychain.at_of_lt (yieldPubKeys seeds) hmin (by omega)
  have hchain := bitLengthAt_chainBits idx.isLt
  refine ⟨_, hat, ?_, ?_⟩
  · rw [yieldPubKeys_get]
    exact generatedKey_sound hprime hchain _
  · rw [yieldPubKeys_get, hbitLength _ _ hchain, bitLengthAt_toNat idx.isLt, hidx]

/-- At a difficulty of the chain an attempt on any parent returns. -/
theorem Seal.tryCpuMining_returns (hrand : RandomInRange) (hbitLength : KeysHaveBitLength)
    (hprime : KeysHavePrimeModulus) (hseeds : SeedsInRange) (parent : Seal)
    (hmin : 48 ≤ before.difficulty.toNat) (hmax : before.difficulty.toNat ≤ 223)
    (hjoins : ∀ key, Keychain.at (yieldPubKeys parent.seeds) before.difficulty = .ok key →
      run.Joins cpus key before miningSeed) :
    ∃ result, parent.tryCpuMining before miningSeed run cpus = .ok result := by
  obtain ⟨key, hat, hsound, hbits⟩ := chainKey_spec hbitLength hprime parent.seeds hmin hmax
  obtain ⟨newSeeds, hnewSeeds⟩ := newSeeds_ok hseeds parent.seeds
  have hlong : 18 ≤ key.bitLength.toNat := by omega
  obtain ⟨⟨found, after⟩, hsearch⟩ := search_returns hrand hsound hlong (hjoins key hat)
  have hdifficulty : OnCompute.getDifficulty before = before.difficulty := rfl
  simp only [Seal.tryCpuMining, hdifficulty, hat, hnewSeeds, hsearch, Rust.ok_bind]
  cases found with
  | none => exact ⟨_, rfl⟩
  | some solutions =>
    obtain ⟨hfirst, hsecond⟩ := (search_matched hrand hsound hlong hsearch).1.inRange hsound
    obtain ⟨stored1, hstored1, -⟩ := Solution.fromU256_toU256 hfirst
    obtain ⟨stored2, hstored2, -⟩ := Solution.fromU256_toU256 hsecond
    simp only [hstored1, hstored2, Rust.ok_bind]
    exact ⟨_, rfl⟩

/-- The verifier decides about every mined child, and it accepts those of one CPU. -/
theorem Seal.tryCpuMining_decided (hrand : RandomInRange) (hbitLength : KeysHaveBitLength)
    (hprime : KeysHavePrimeModulus) (hraw : KeysRoundTrip) {parent child : Seal} {after : Compute}
    (hmin : 48 ≤ before.difficulty.toNat) (hmax : before.difficulty.toNat ≤ 223)
    (h : parent.tryCpuMining before miningSeed run cpus = .ok (some child, after)) (id : BlockId)
    (preDigest : Option (List UInt8)) :
    ∃ accepted, TREXAlgo.verify id before.preHash preDigest child.encode before.difficulty =
        .ok accepted ∧ ((∀ value, cpus = some value → value ≤ 1) → accepted = true) := by
  obtain ⟨key, solutions, hwritten, hsearch⟩ := Seal.tryCpuMining_some h
  obtain ⟨hsound, hbits, hrawBits, hread⟩ := hwritten.key_facts hbitLength hprime hraw hmin hmax
  obtain ⟨hmatched, hreports⟩ := search_matched hrand hsound (by omega) hsearch
  have hdeclared : child.difficulty = before.difficulty ∧
      child.pubkey.bitLength.toNat = before.difficulty.toNat := by
    rw [hwritten.pubkey_eq, hrawBits]
    exact ⟨hwritten.difficulty_eq, hbits⟩
  rw [TREXAlgo.verify_of_decode _ _ _ child.decode_encode, if_pos hdeclared]
  rcases cpus_cases cpus with hcpus | ⟨value, rfl, hvalue⟩
  · obtain ⟨hheader, state1, state2, hmatch, rfl⟩ := hreports hcpus solutions rfl
    exact ⟨true, hmatch.verifyWork hrand hsound hheader hread hwritten, fun _ => rfl⟩
  · -- the solutions are read back as they were found, and the verifier decides about any nonce
    obtain ⟨hfirst, hsecond⟩ := hmatched.inRange hsound
    obtain ⟨stored1, hstored1, hread1⟩ := Solution.fromU256_toU256 hfirst
    obtain ⟨stored2, hstored2, hread2⟩ := Solution.fromU256_toU256 hsecond
    obtain rfl := Except.ok.inj (hstored1.symm.trans hwritten.solution1_eq)
    obtain rfl := Except.ok.inj (hstored2.symm.trans hwritten.solution2_eq)
    obtain ⟨hashDiff, htester⟩ :=
      PublicKey.hashDiff_ok (by omega : 18 ≤ key.bitLength.toNat)
    obtain ⟨accepted, hverify⟩ := hmatched.verify_returns hrand hsound htester
      ⟨before.difficulty, before.preHash, child.nonce⟩
    refine ⟨accepted, ?_, ?_⟩
    · simp only [verifyWork]
      rw [hwritten.pubkey_eq, hread, hread1, hread2]
      exact hverify
    · intro hone
      exact absurd (hone value rfl) (BitVec.not_le.mpr hvalue)

end Attempts

/-- The worker asks for a difficulty of the key chain. -/
def MiningMetadata.InChain (metadata : MiningMetadata) : Prop :=
  48 ≤ metadata.difficulty.toNat ∧ metadata.difficulty.toNat ≤ 223

/-- The metadata that the mining thread holds. -/
def MinerPhase.metadata : MinerPhase → Option MiningMetadata
  | .gotMetadata metadata | .gotSeal metadata _ _ => metadata
  | .starting metadata _ _ | .mining metadata _ _ => some metadata
  | .idle | .submitting _ | .stopped => none

/-- The mining thread runs, with metadata of the key chain. -/
structure Node.Alive (s : Node) : Prop where
  running : s.phase ≠ .stopped
  inChain : ∀ metadata, s.phase.metadata = some metadata → metadata.InChain

/-- Between attempts the thread holds nothing. -/
theorem Node.Alive.of_none {s : Node} (hrunning : s.phase ≠ .stopped)
    (hnone : s.phase.metadata = none) : s.Alive where
  running := hrunning
  inChain metadata h := by
    rw [hnone] at h
    cases h

section Threads

variable [Deps] {cpus : Option U8} {s : Node}

/-- The block is the genesis block, or its digest ends with a seal that was accepted. -/
def Block.Imported (block : Block) : Prop :=
  block.number = 0 ∨ ∃ earlier engine raw id preHash preDigest difficulty,
    block.digest = earlier ++ [.sealItem engine raw] ∧
    TREXAlgo.verify id preHash preDigest raw difficulty = .ok true

/-- An accepted seal can be read. -/
theorem decode_of_verify {id : BlockId} {preHash : H256} {preDigest : Option (List UInt8)}
    {raw : List UInt8} {difficulty : Difficulty}
    (h : TREXAlgo.verify id preHash preDigest raw difficulty = .ok true) :
    ∃ child, Seal.decode raw = some child := by
  cases hdecode : Seal.decode raw with
  | none =>
    rw [TREXAlgo.verify, hdecode] at h
    cases h
  | some child => exact ⟨child, rfl⟩

/-- The seal of an imported block is found. -/
theorem Block.Imported.findSeal_ok {block : Block} (h : block.Imported) :
    ∃ parent, findSeal block = .ok (some parent, block.number) := by
  by_cases hzero : block.number = 0
  · exact ⟨genesisSeal initDifficulty, if_pos hzero⟩
  · obtain ⟨earlier, engine, raw, id, preHash, preDigest, difficulty, hdigest, haccepted⟩ :=
      h.resolve_left hzero
    obtain ⟨parent, hparent⟩ := decode_of_verify haccepted
    have hlast : block.digest.reverse.findSome? DigestItem.asSeal = some raw := by
      rw [hdigest, List.reverse_append]
      rfl
    refine ⟨parent, ?_⟩
    simp only [findSeal, if_neg hzero, hlast, hparent, unwrap_some, Rust.ok_bind]
    rfl

/-- A step of the mining thread finds an imported block and metadata of the key chain, and
the search of an attempt that ends can be joined. -/
def Node.Healthy (cpus : Option U8) (s : Node) : NodeMove → Prop
  | .miner run => s.best.Imported ∧ (∀ metadata, s.metadata = some metadata → metadata.InChain) ∧
    ∀ metadata parent read key, s.phase = .mining metadata parent read →
      Keychain.at (yieldPubKeys parent.seeds) metadata.difficulty = .ok key →
      run.Joins cpus key metadata.compute s.miningSeed
  | _ => True

/-- The end of an attempt that returns leaves the thread alive. -/
theorem Node.endAttempt_alive {metadata : MiningMetadata} {parent : Seal} {read : Block}
    {run : MiningRun} (h : ∃ result, parent.tryCpuMining metadata.compute s.miningSeed run cpus =
      .ok result) : (s.endAttempt cpus metadata parent read run).Alive := by
  obtain ⟨⟨found, after⟩, hresult⟩ := h
  rw [Node.endAttempt, hresult]
  cases found with
  | none => exact .of_none (by simp) rfl
  | some child => exact .of_none (by simp) rfl

/-- A healthy step leaves the thread alive. -/
theorem Node.mine_alive (hrand : RandomInRange) (hbitLength : KeysHaveBitLength)
    (hprime : KeysHavePrimeModulus) (hseeds : SeedsInRange) (hs : s.Alive) {run : MiningRun}
    (hhealthy : s.Healthy cpus (.miner run)) : (s.mine cpus run).Alive := by
  obtain ⟨hbest, hmetadata, hjoins⟩ := hhealthy
  have hinChain := hs.inChain
  unfold Node.mine
  split
  next => exact ⟨nofun, hmetadata⟩
  next metadata hphase =>
    obtain ⟨parent, hfound⟩ := hbest.findSeal_ok
    rw [hphase] at hinChain
    rw [hfound]
    exact ⟨nofun, hinChain⟩
  next metadata parent read hphase =>
    rw [hphase] at hinChain
    split_ifs
    · exact .of_none nofun rfl
    · exact ⟨nofun, hinChain⟩
  next => exact .of_none nofun rfl
  next metadata parent read hphase =>
    rw [hphase] at hinChain
    exact ⟨nofun, hinChain⟩
  next metadata parent read hphase =>
    rw [hphase] at hinChain
    obtain ⟨hmin, hmax⟩ := hinChain metadata rfl
    exact Node.endAttempt_alive (Seal.tryCpuMining_returns hrand hbitLength hprime hseeds parent
      hmin hmax fun key hkey => hjoins metadata parent read key hphase hkey)
  next => exact .of_none nofun rfl
  next hphase => exact absurd hphase hs.running

/-- A run of healthy moves leaves the thread alive. -/
theorem Node.alive_of_reachable (hrand : RandomInRange) (hbitLength : KeysHaveBitLength)
    (hprime : KeysHavePrimeModulus) (hseeds : SeedsInRange)
    (h : (Node.system cpus).ReachableVia (Node.Healthy cpus) s) : s.Alive := by
  refine h.invariant ?_ ?_
  · rintro s ⟨hphase, -⟩
    apply Node.Alive.of_none
    · rw [hphase]
      exact nofun
    · rw [hphase]
      rfl
  · intro s move hs hhealthy
    rcases s.next_cases cpus move with ⟨run, rfl⟩ | ⟨hphase, -, -⟩
    · exact Node.mine_alive hrand hbitLength hprime hseeds hs hhealthy
    · change (s.next cpus move).Alive
      refine ⟨?_, ?_⟩
      · rw [hphase]
        exact hs.running
      · rw [hphase]
        exact hs.inChain

/-- A thread that has stopped stays so. -/
theorem Node.stopped_for_good (moves : List NodeMove) (h : s.phase = .stopped) :
    (moves.foldl (Node.next cpus) s).phase = .stopped := by
  induction moves generalizing s with
  | nil => exact h
  | cons move moves ih =>
    apply ih
    rcases s.next_cases cpus move with ⟨run, rfl⟩ | ⟨hphase, -, -⟩
    · simp only [Node.next, Node.mine, h]
    · rwa [hphase]

/-- **The mining thread survives.** In every run whose moves are healthy the mining thread
never stops, and the verifier decides about every seal that it submits, for the header it
was mined on; with one CPU at most it accepts them all. A thread that reads a best block
whose last seal cannot be decoded is stopped for good. -/
theorem mining_thread_survives (hrand : RandomInRange) (hbitLength : KeysHaveBitLength)
    (hprime : KeysHavePrimeModulus) (hraw : KeysRoundTrip) (hseeds : SeedsInRange)
    (h : (Node.system cpus).ReachableVia (Node.Healthy cpus) s) :
    s.phase ≠ .stopped ∧
    (∀ metadata parent read run child, s.phase = .mining metadata parent read →
      (s.next cpus (.miner run)).phase = .submitting child → ∀ id preDigest, ∃ accepted,
        TREXAlgo.verify id metadata.preHash preDigest child.encode metadata.difficulty =
          .ok accepted ∧ ((∀ value, cpus = some value → value ≤ 1) → accepted = true)) ∧
    ∀ metadata run (moves : List NodeMove), s.phase = .gotMetadata metadata →
      (∀ found, findSeal s.best ≠ .ok found) →
      (moves.foldl (Node.next cpus) (s.next cpus (.miner run))).phase = .stopped := by
  have halive := Node.alive_of_reachable hrand hbitLength hprime hseeds h
  refine ⟨halive.running, ?_, ?_⟩
  · intro metadata parent read run child hphase hsubmit id preDigest
    obtain ⟨hmin, hmax⟩ := halive.inChain metadata (by rw [hphase]; rfl)
    simp only [Node.next, Node.mine, hphase, Node.endAttempt] at hsubmit
    split at hsubmit
    next mined after hmined =>
      cases hsubmit
      exact Seal.tryCpuMining_decided hrand hbitLength hprime hraw hmin hmax hmined id preDigest
    next => cases hsubmit
    next => cases hsubmit
  · intro metadata run moves hphase hunread
    apply Node.stopped_for_good
    simp only [Node.next, Node.mine, hphase]
    cases hfound : findSeal s.best with
    | error fault => rfl
    | ok found => exact absurd hfound (hunread found)

end Threads

section Sample

attribute [local instance] Deps.sample

/-- A node whose mining thread starts on the genesis block with seed 2. -/
def luckyNode : Node := { freshNode genesisBlock with miningSeed := 2 }

/-- The node during its attempt. -/
def luckyAttempt : Node :=
  { luckyNode with
    phase := .mining plainMetadata (genesisSeal initDifficulty) genesisBlock
    lastAttempt := some ⟨genesisBlock, false⟩ }

/-- A step of the mining thread on the genesis block is healthy. -/
theorem healthy_on_genesis {s : Node} (hbest : s.best = genesisBlock)
    (hmetadata : s.metadata = some plainMetadata) : s.Healthy none (.miner quietRun) := by
  refine ⟨Or.inl (by rw [hbest]; rfl), ?_, ?_⟩
  · intro metadata h
    obtain rfl := Option.some.inj (hmetadata.symm.trans h)
    exact ⟨by decide, by decide⟩
  · intro _ _ _ _ _ _ value hvalue
    cases hvalue

theorem luckyAttempt_reachable :
    (Node.system none).ReachableVia (Node.Healthy none) luckyAttempt := by
  have hstart : (Node.system none).ReachableVia (Node.Healthy none) luckyNode :=
    .start ⟨rfl, rfl, rfl, List.not_mem_nil⟩
  have hfour := Node.reachableVia_mine (Node.reachableVia_mine (Node.reachableVia_mine
    (Node.reachableVia_mine hstart quietRun (healthy_on_genesis rfl rfl)) quietRun
    (healthy_on_genesis rfl rfl)) quietRun (healthy_on_genesis rfl rfl)) quietRun
    (healthy_on_genesis rfl rfl)
  exact hfour

/-- The attempt submits a seal, and the verifier accepts it. -/
theorem luckyAttempt_submits : ∃ child,
    (luckyAttempt.next none (.miner quietRun)).phase = .submitting child ∧
      TREXAlgo.verify (.number 0) plainMetadata.preHash none child.encode
        plainMetadata.difficulty = .ok true := by
  have hany : ((genesisSeal initDifficulty).tryCpuMining plainMetadata.compute 2 quietRun
      none).toOption.any (fun result => result.1.isSome) = true := by decide +kernel
  obtain ⟨⟨found, after⟩, hmined, hfound⟩ := Rust.exists_ok_of_any hany
  obtain ⟨child, rfl⟩ := Option.isSome_iff_exists.mp hfound
  have hsubmit : (luckyAttempt.next none (.miner quietRun)).phase = .submitting child := by
    have hphase : luckyAttempt.phase =
        .mining plainMetadata (genesisSeal initDifficulty) genesisBlock := rfl
    have hseed : luckyAttempt.miningSeed = 2 := rfl
    simp only [Node.next, Node.mine, hphase, Node.endAttempt, hseed, hmined]
  obtain ⟨-, hdecided, -⟩ := mining_thread_survives Deps.sample.randomInRange
    Deps.sample.keysHaveBitLength Deps.sample.keysHavePrimeModulus Deps.sample.keysRoundTrip
    Deps.sample.seedsInRange luckyAttempt_reachable
  obtain ⟨accepted, hverify, haccepted⟩ :=
    hdecided plainMetadata _ _ quietRun child rfl hsubmit (.number 0) none
  have hone : ∀ value : U8, (none : Option U8) = some value → value ≤ 1 := by
    intro value h
    cases h
  rw [haccepted hone] at hverify
  exact ⟨child, hsubmit, hverify⟩

end Sample

end TrexPow
