import TrexPow.DifficultyPallet
import TrexPow.KeyChain

/-!
# The difficulty pallet and the key chain

The pallet keeps the difficulty within closed bounds, while the key chain has one
key for each difficulty below the upper bound. The two agree everywhere but at the
maximum.
-/

namespace TrexPow

/-- Every run from a genesis difficulty within the bounds stays within the bounds. -/
theorem run_inRange {cfg : DifficultyConfig} {initial : Difficulty} (hmin : 48 ≤ initial.toNat)
    (hmax : initial.toNat ≤ 224) {moments : List ℕ} {s : DifficultyStorage}
    (hrun : moments.foldlM (onTimestampSet cfg) (.genesis initial) = .ok s) : s.InRange :=
  Loop.foldlM_invariant (fun _ _ _ => onTimestampSet_inRange) ⟨initial, rfl, hmin, hmax⟩ hrun

section Range

variable [Deps]

/-- Mining at the difficulty finds a key of that length in the key chain. -/
def Seal.HasKeyAt (parent : Seal) (difficulty : Difficulty) : Prop :=
  ∃ key, Keychain.at (yieldPubKeys parent.seeds) difficulty = .ok key ∧
    key.bitLength.toNat = difficulty.toNat

/-- Within the bounds, the key exists exactly below the maximum. -/
theorem hasKeyAt_iff (hbits : KeysHaveBitLength) (parent : Seal) {difficulty : Difficulty}
    (hmin : 48 ≤ difficulty.toNat) (hmax : difficulty.toNat ≤ 224) :
    parent.HasKeyAt difficulty ↔ difficulty ≠ maxDifficulty := by
  rw [ne_eq, ← BitVec.toNat_inj, maxDifficulty_toNat]
  constructor
  · rintro ⟨key, hkey, -⟩ hlast
    rw [Keychain.at_eq _ hmin hmax, dif_neg (by rw [keychainLen_eq]; omega)] at hkey
    cases hkey
  · intro hne
    obtain ⟨idx, hidx, hat⟩ := Keychain.at_of_lt (yieldPubKeys parent.seeds) hmin (by omega)
    refine ⟨_, hat, ?_⟩
    rw [yieldPubKeys_get, hbits _ _ (bitLengthAt_chainBits idx.isLt), bitLengthAt_toNat idx.isLt,
      hidx]

/-- An attempt at the maximum difficulty indexes past the end of the key chain. -/
theorem Seal.tryCpuMining_maxDifficulty (parent : Seal) {compute : Compute}
    (hmax : compute.difficulty = maxDifficulty) (miningSeed : U256) (run : MiningRun)
    (cpus : Option U8) :
    parent.tryCpuMining compute miningSeed run cpus = .error .indexOutOfBounds := by
  have hlast : Keychain.at (yieldPubKeys parent.seeds) (OnCompute.getDifficulty compute) =
      .error .indexOutOfBounds := by
    change Keychain.at _ compute.difficulty = _
    rw [hmax, Keychain.at_eq _ (by decide) (by decide), dif_neg (by decide)]
  simp only [Seal.tryCpuMining, hlast, Rust.error_bind]

/-- **The range of difficulties.** After every run of the pallet, the current
difficulty has a key of its length in every seal's key chain exactly when it is
not the maximum. At the maximum every mining attempt panics. -/
theorem run_hasKeyAt_iff (hbits : KeysHaveBitLength) {cfg : DifficultyConfig}
    {initial : Difficulty} (hmin : 48 ≤ initial.toNat) (hmax : initial.toNat ≤ 224)
    {moments : List ℕ} {s : DifficultyStorage}
    (hrun : moments.foldlM (onTimestampSet cfg) (.genesis initial) = .ok s) :
    ∃ difficulty, s.currentDifficulty = some difficulty ∧ ∀ parent : Seal,
      (parent.HasKeyAt difficulty ↔ difficulty ≠ maxDifficulty) ∧
      (difficulty = maxDifficulty → ∀ (compute : Compute) miningSeed run cpus,
        compute.difficulty = difficulty →
        parent.tryCpuMining compute miningSeed run cpus = .error .indexOutOfBounds) := by
  obtain ⟨difficulty, hstored, hlow, hhigh⟩ := run_inRange hmin hmax hrun
  refine ⟨difficulty, hstored, fun parent => ⟨hasKeyAt_iff hbits parent hlow hhigh, ?_⟩⟩
  intro hlast compute miningSeed run cpus hcompute
  exact parent.tryCpuMining_maxDifficulty (hcompute.trans hlast) miningSeed run cpus

end Range

section Sample

attribute [local instance] Deps.sample

/-- A pallet whose blocks are always faster than the target. -/
def fastBlocks : DifficultyConfig := ⟨60, fun _ _ => 1⟩

/-- One window of fast blocks raises the difficulty from 223 to the maximum. -/
theorem fastBlocks_reach_max : ∃ s,
    (List.replicate 60 0).foldlM (onTimestampSet fastBlocks) (.genesis 223) = .ok s ∧
      s.currentDifficulty = some maxDifficulty := by
  have hany : ((List.replicate 60 0).foldlM (onTimestampSet fastBlocks)
      (.genesis 223)).toOption.any (fun s => s.currentDifficulty = some maxDifficulty) = true := by
    decide +kernel
  obtain ⟨s, hrun, hlast⟩ := Rust.exists_ok_of_any hany
  exact ⟨s, hrun, of_decide_eq_true hlast⟩

/-- Some run leads to a difficulty for which no seal has a key. -/
theorem run_without_key :
    ¬∀ (cfg : DifficultyConfig) (initial : Difficulty) (moments : List ℕ) (s : DifficultyStorage),
      48 ≤ initial.toNat → initial.toNat ≤ 224 →
      moments.foldlM (onTimestampSet cfg) (.genesis initial) = .ok s →
      ∃ difficulty, s.currentDifficulty = some difficulty ∧
        ∀ parent : Seal, parent.HasKeyAt difficulty := by
  intro h
  obtain ⟨s, hrun, hlast⟩ := fastBlocks_reach_max
  obtain ⟨difficulty, hstored, hkeys⟩ := h fastBlocks 223 _ s (by decide) (by decide) hrun
  obtain rfl := Option.some.inj (hstored.symm.trans hlast)
  exact (hasKeyAt_iff Deps.sample.keysHaveBitLength (genesisSeal 48) (by decide)
    (by decide)).mp (hkeys _) rfl

/-- After one window of fast blocks from the initial difficulty every seal has a key. One window
of them from the last difficulty with a key stops all mining attempts. -/
theorem fastBlocks_hasKey :
    (∃ s, (List.replicate 60 0).foldlM (onTimestampSet fastBlocks) (.genesis initDifficulty) =
        .ok s ∧
      s.currentDifficulty = some 57 ∧ (genesisSeal 56).HasKeyAt 57) ∧
    ∃ s, (List.replicate 60 0).foldlM (onTimestampSet fastBlocks) (.genesis 223) = .ok s ∧
      (genesisSeal 56).tryCpuMining (⟨224, .replicate 32 0, 0⟩ : Compute) 0 quietRun none =
        .error .indexOutOfBounds := by
  constructor
  · have hany : ((List.replicate 60 0).foldlM (onTimestampSet fastBlocks)
        (.genesis initDifficulty)).toOption.any (fun s => s.currentDifficulty = some 57) =
        true := by decide +kernel
    obtain ⟨s, hrun, hraised⟩ := Rust.exists_ok_of_any hany
    obtain ⟨difficulty, hstored, hkeys⟩ :=
      run_hasKeyAt_iff Deps.sample.keysHaveBitLength (by decide) (by decide) hrun
    obtain rfl := Option.some.inj (hstored.symm.trans (of_decide_eq_true hraised))
    exact ⟨s, hrun, hstored, (hkeys (genesisSeal 56)).1.mpr (by decide)⟩
  · obtain ⟨s, hrun, hlast⟩ := fastBlocks_reach_max
    obtain ⟨difficulty, hstored, hkeys⟩ :=
      run_hasKeyAt_iff Deps.sample.keysHaveBitLength (by decide) (by decide) hrun
    obtain rfl := Option.some.inj (hstored.symm.trans hlast)
    exact ⟨s, hrun, (hkeys (genesisSeal 56)).2 rfl _ 0 quietRun none rfl⟩

end Sample

end TrexPow
