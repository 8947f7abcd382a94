import TrexPow.AcceptedChain
import TrexPow.TimeRelease

/-!
# Chains of honest miners

Miners that follow the code, each with one CPU at most, build chains that every node accepts.
The key of a block on such a chain is the release key of its height at the difficulty that
the timestamps of its ancestors decide.
-/

namespace TrexPow

section Chains

variable [Deps]

/-- The chains on genesis whose blocks are mined on the seals of their parents, at the
difficulty that the runtime reports there, with the pallet's state and the seal of the last
block. -/
inductive HonestChain (cfg : DifficultyConfig) (initial : Difficulty) :
    List ImportedBlock → DifficultyStorage → Seal → Prop
  | genesis : HonestChain cfg initial [] (.genesis initial) (genesisSeal initDifficulty)
  | block {blocks : List ImportedBlock} {before after : DifficultyStorage} {parent child : Seal}
      {compute compute' : Compute} {miningSeed : U256} {run : MiningRun} {cpus : Option U8}
      {block : ImportedBlock} (hparent : HonestChain cfg initial blocks before parent)
      (hdifficulty : before.runtimeDifficulty = .ok compute.difficulty)
      (hcpus : ∀ value, cpus = some value → value ≤ 1)
      (hmined : parent.tryCpuMining compute miningSeed run cpus = .ok (some child, compute'))
      (hpreHash : block.preHash = compute.preHash) (hrawSeal : block.rawSeal = child.encode)
      (hexecuted : onTimestampSet cfg before block.moment.toNat = .ok after) :
      HonestChain cfg initial (blocks ++ [block]) after child

/-- The seal of a block carries the release key of its height at some difficulty. -/
def ImportedBlock.CarriesReleaseKey (block : ImportedBlock) (height : ℕ) (difficulty : ℤ) : Prop :=
  ∃ s, Seal.decode block.rawSeal = some s ∧
    Deps.fromRaw s.pubkey = releaseKey (difficulty - 48).toNat height

variable {cfg : DifficultyConfig} {initial : Difficulty} {blocks : List ImportedBlock}
  {s : DifficultyStorage} {last : Seal}

/-- An attempt that finds a child is not made at the maximum difficulty. -/
theorem Seal.ne_maxDifficulty_of_mined {parent child : Seal} {before after : Compute}
    {miningSeed : U256} {run : MiningRun} {cpus : Option U8}
    (h : parent.tryCpuMining before miningSeed run cpus = .ok (some child, after)) :
    before.difficulty ≠ maxDifficulty := by
  intro hmax
  rw [parent.tryCpuMining_maxDifficulty hmax] at h
  cases h

/-- What holds at the end of an honest chain: it is accepted, its last seal is mined at its
height, and all its blocks carry release keys. -/
structure HonestEnd (cfg : DifficultyConfig) (initial : Difficulty) (blocks : List ImportedBlock)
    (s : DifficultyStorage) (last : Seal) : Prop where
  accepted : AcceptedChain cfg initial blocks s
  mined : Seal.MinedAt blocks.length last
  keys : ∀ height (hheight : height < blocks.length), blocks[height].CarriesReleaseKey height
    (difficultyWalk cfg initial.toNat (moments (blocks.take height)))

/-- One more honest block keeps this. -/
theorem HonestEnd.block (hrand : RandomInRange) (hbitLength : KeysHaveBitLength)
    (hprime : KeysHavePrimeModulus) (hraw : KeysRoundTrip) (hseeds : SeedsInRange)
    (htarget : cfg.targetBlockTime < 2 ^ 64) (hmin : 48 ≤ initial.toNat)
    (hmax : initial.toNat ≤ 224) {before after : DifficultyStorage} {parent child : Seal}
    {compute compute' : Compute} {miningSeed : U256} {run : MiningRun} {cpus : Option U8}
    {block : ImportedBlock} (h : HonestEnd cfg initial blocks before parent)
    (hdifficulty : before.runtimeDifficulty = .ok compute.difficulty)
    (hcpus : ∀ value, cpus = some value → value ≤ 1)
    (hmined : parent.tryCpuMining compute miningSeed run cpus = .ok (some child, compute'))
    (hpreHash : block.preHash = compute.preHash) (hrawSeal : block.rawSeal = child.encode)
    (hexecuted : onTimestampSet cfg before block.moment.toNat = .ok after) :
    HonestEnd cfg initial (blocks ++ [block]) after child := by
  have hwalk := h.accepted.walk_of_reported htarget hmin hmax hdifficulty
  obtain ⟨hlow, hhigh⟩ := difficultyWalk_mem cfg hmin hmax (moments blocks)
  have hne : compute.difficulty.toNat ≠ 224 := by
    intro heq
    refine Seal.ne_maxDifficulty_of_mined hmined (BitVec.eq_of_toNat_eq ?_)
    rw [heq, maxDifficulty_toNat]
  have hlow' : 48 ≤ compute.difficulty.toNat := by omega
  have hhigh' : compute.difficulty.toNat ≤ 223 := by omega
  refine ⟨?_, ?_, ?_⟩
  · refine .block h.accepted hdifficulty ?_ hexecuted
    obtain ⟨accepted, hverify, htrue⟩ := Seal.tryCpuMining_decided hrand hbitLength hprime hraw
      hlow' hhigh' hmined block.parent block.preDigest
    rw [htrue hcpus] at hverify
    rw [hpreHash, hrawSeal]
    exact hverify
  · rw [List.length_append]
    exact .child h.mined hlow' hhigh' hmined
  · intro height hheight
    rw [List.length_append, List.length_singleton] at hheight
    rcases Nat.lt_succ_iff_lt_or_eq.mp hheight with hearlier | rfl
    · rw [List.take_append_of_le_length hearlier.le]
      simp only [List.getElem_append_left hearlier]
      exact h.keys height hearlier
    · obtain ⟨key, solutions, hwritten, -⟩ := Seal.tryCpuMining_some hmined
      obtain ⟨-, -, -, hread⟩ := hwritten.key_facts hbitLength hprime hraw hlow' hhigh'
      obtain ⟨idx, hidx, rfl⟩ := hwritten.key_eq_releaseKey hseeds h.mined hlow' hhigh'
      have hindex : (difficultyWalk cfg initial.toNat (moments blocks) - 48).toNat = idx := by
        omega
      rw [List.take_left]
      simp only [List.getElem_concat_length]
      refine ⟨child, ?_, ?_⟩
      · rw [hrawSeal, Seal.decode_encode]
      · rw [hwritten.pubkey_eq, hread, hindex]

/-- **Honest chains are accepted, and their keys are known in advance.** Every chain of honest
miners is accepted by every node. The block at each height carries the release key of this
height at the difficulty that the timestamps of its ancestors decide, and no chain of honest
miners with the same timestamps carries other keys. -/
theorem honest_chain_accepted (hrand : RandomInRange) (hbitLength : KeysHaveBitLength)
    (hprime : KeysHavePrimeModulus) (hraw : KeysRoundTrip) (hseeds : SeedsInRange)
    (htarget : cfg.targetBlockTime < 2 ^ 64) (hmin : 48 ≤ initial.toNat)
    (hmax : initial.toNat ≤ 224) (h : HonestChain cfg initial blocks s last) :
    AcceptedChain cfg initial blocks s ∧
    ∀ height (hheight : height < blocks.length), blocks[height].CarriesReleaseKey height
      (difficultyWalk cfg initial.toNat (moments (blocks.take height))) := by
  have hend : HonestEnd cfg initial blocks s last := by
    induction h with
    | genesis => exact ⟨.genesis, .genesis initDifficulty, fun height hheight => by cases hheight⟩
    | block _ hdifficulty hcpus hmined hpreHash hrawSeal hexecuted ih =>
      exact ih.block hrand hbitLength hprime hraw hseeds htarget hmin hmax hdifficulty hcpus hmined
        hpreHash hrawSeal hexecuted
  exact ⟨hend.accepted, hend.keys⟩

end Chains

section Sample

attribute [local instance] Deps.sample

/-- The first child of the genesis seal and its own first child are an honest chain that is
accepted, with the release keys of two heights. -/
theorem genesisGrandchild_accepted : ∃ block block' s,
    AcceptedChain fastBlocks 48 [block, block'] s ∧ block.CarriesReleaseKey 0 48 ∧
      block'.CarriesReleaseKey 1 48 := by
  have hany : ((genesisSeal initDifficulty).tryCpuMining plainHeader 0 quietRun none >>=
      fun first => unwrap first.1 >>=
        fun child => child.tryCpuMining plainHeader 0 quietRun none).toOption.any
      (fun second => second.1.isSome) = true := by decide +kernel
  obtain ⟨⟨found, after⟩, hboth, hfound⟩ := Rust.exists_ok_of_any hany
  obtain ⟨grandchild, rfl⟩ := Option.isSome_iff_exists.mp hfound
  obtain ⟨⟨first, between⟩, hmined, hrest⟩ := Rust.bind_eq_ok.mp hboth
  obtain ⟨child, hchild, hmined'⟩ := Rust.bind_eq_ok.mp hrest
  obtain rfl : first = some child := by
    cases first with
    | none => cases hchild
    | some first => rw [Except.ok.inj hchild]
  have hone : ∀ value : U8, (none : Option U8) = some value → value ≤ 1 := by
    intro value hvalue
    cases hvalue
  have hfirst : HonestChain fastBlocks 48
      ([] ++ [⟨.number 0, plainHeader.preHash, none, child.encode, 0⟩]) _ child :=
    .block .genesis rfl hone hmined rfl rfl rfl
  have hsecond : HonestChain fastBlocks 48
      ([⟨.number 0, plainHeader.preHash, none, child.encode, 0⟩] ++
        [⟨.number 1, plainHeader.preHash, none, grandchild.encode, 60000⟩]) _ grandchild :=
    .block hfirst rfl hone hmined' rfl rfl rfl
  obtain ⟨haccepted, hkeys⟩ := honest_chain_accepted Deps.sample.randomInRange
    Deps.sample.keysHaveBitLength Deps.sample.keysHavePrimeModulus Deps.sample.keysRoundTrip
    Deps.sample.seedsInRange (by decide) (by decide) (by decide) hsecond
  have hkey := hkeys 0 (Nat.zero_lt_succ 1)
  have hkey' := hkeys 1 (Nat.lt_succ_self 1)
  rw [difficultyWalk_of_short] at hkey hkey'
  · exact ⟨_, _, _, haccepted, hkey, hkey'⟩
  · exact (by decide : 1 < difficultyAdjustWindow)
  · exact (by decide : 0 < difficultyAdjustWindow)

end Sample

end TrexPow
