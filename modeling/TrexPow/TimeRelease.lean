import TrexPow.KeyChain
import TrexPow.MinerSafety

/-!
# Time release

The keys of all heights are determined from the start, so a message can be encrypted for a
block that does not exist yet. Whoever mines that block, on whatever chain and with however
many threads, leaves a seal that opens the key, unless the search found a trivial collision.
-/

namespace TrexPow

section Logarithm

variable {key : PublicKey} {q x : ℕ}

/-- An exponent that opens a safe key is its logarithm modulo `q`. -/
theorem PublicKey.SafeKey.modEq_of_opens (hkey : key.SafeKey q x) {k : ℤ} (hk : 0 ≤ k)
    (hopen : key.Opens k) : k ≡ x [ZMOD q] := by
  obtain ⟨g, hg, horder⟩ := hkey.exists_unit
  have hfield : (key.g : ZMod (2 * q + 1)) ^ k.toNat = (key.g : ZMod (2 * q + 1)) ^ x := by
    have hcast := hkey.modEq_iff.mp hopen
    rwa [Int.cast_pow, hkey.h_cast] at hcast
  have hunits : g ^ k.toNat = g ^ x := by
    rw [← hg] at hfield
    exact_mod_cast hfield
  have hdvd : q ∣ orderOf g := by
    rcases horder with h | h
    · rw [h]
    · rw [h]
      exact dvd_mul_left q 2
  have hmod := (pow_eq_pow_iff_modEq.mp hunits).of_dvd hdvd
  rw [← Int.natCast_modEq_iff, Int.toNat_of_nonneg hk] at hmod
  exact hmod

/-- The extraction returns an exponent that opens the key and is its logarithm modulo `q`. -/
def SolutionVerifier.Releases (v : SolutionVerifier) (solutions : Solutions ℤ) (q x : ℕ) : Prop :=
  ∃ privkey, v.keyGen solutions = .ok (some privkey) ∧ 0 ≤ privkey.x ∧
    v.pubkey.Opens privkey.x ∧ privkey.x ≡ x [ZMOD q]

/-- For a safe key, all that is revealed is the logarithm. -/
theorem releases_iff_reveals (hkey : key.SafeKey q x) (solutions : Solutions ℤ) :
    SolutionVerifier.Releases ⟨key⟩ solutions q x ↔ SolutionVerifier.Reveals ⟨key⟩ solutions := by
  constructor
  · rintro ⟨privkey, hextracted, hnonneg, hopen, -⟩
    exact ⟨privkey, hextracted, hnonneg, hopen⟩
  · rintro ⟨privkey, hextracted, hnonneg, hopen⟩
    exact ⟨privkey, hextracted, hnonneg, hopen, hkey.modEq_of_opens hnonneg hopen⟩

end Logarithm

section Release

variable [Deps]

/-- The key of an index that is mined after a number of blocks. -/
def releaseKey (idx height : ℕ) : PublicKey :=
  Deps.generatePubKey (bitLengthAt idx) (seedAt idx height)

/-- A child written on a chain carries the release key of its height and difficulty. -/
theorem Seal.Written.key_eq_releaseKey (hseeds : SeedsInRange) {height : ℕ} {parent child : Seal}
    {before after : Compute} {key : PublicKey} {solutions : Solutions ℤ}
    (hparent : Seal.MinedAt height parent) (hmin : 48 ≤ before.difficulty.toNat)
    (hmax : before.difficulty.toNat ≤ 223)
    (h : parent.Written before after key solutions child) :
    ∃ idx : Fin keychainLen, idx.val + 48 = before.difficulty.toNat ∧
      key = releaseKey idx height := by
  obtain ⟨idx, hidx, hkey, -⟩ := h.pubkey_at hmin hmax
  rw [yieldPubKeys_get, hparent.seeds_eq hseeds, chainSeeds_toBigint hseeds] at hkey
  exact ⟨idx, hidx, hkey⟩

/-- The solutions of a written child are read back as they were found. -/
theorem Seal.Written.readSolutions_eq {parent child : Seal} {before after : Compute}
    {key : PublicKey} {solutions : Solutions ℤ}
    (h : parent.Written before after key solutions child) (hfirst : solutions.1.InRange)
    (hsecond : solutions.2.InRange) : child.readSolutions = solutions := by
  obtain ⟨stored1, hstored1, hread1⟩ := Solution.fromU256_toU256 hfirst
  obtain ⟨stored2, hstored2, hread2⟩ := Solution.fromU256_toU256 hsecond
  obtain rfl := Except.ok.inj (hstored1.symm.trans h.solution1_eq)
  obtain rfl := Except.ok.inj (hstored2.symm.trans h.solution2_eq)
  rw [Seal.readSolutions, hread1, hread2]

/-- **Time release.** The key of a block that is mined at some height depends on the height and
the difficulty alone. Whatever chain the block is on and however it is mined, its seal carries
a pair that is accepted for some nonce. If the key is a puzzle, the extraction opens it with
this pair exactly when the second exponents differ modulo `q`, and then it always obtains the
same logarithm modulo `q`. -/
theorem mined_block_releases_key (hrand : RandomInRange) (hbitLength : KeysHaveBitLength)
    (hprime : KeysHavePrimeModulus) (hraw : KeysRoundTrip) (hseeds : SeedsInRange) {height : ℕ}
    {parent child : Seal} {before after : Compute} {miningSeed : U256} {run : MiningRun}
    {cpus : Option U8} (hparent : Seal.MinedAt height parent)
    (hmin : 48 ≤ before.difficulty.toNat) (hmax : before.difficulty.toNat ≤ 223)
    (h : parent.tryCpuMining before miningSeed run cpus = .ok (some child, after)) :
    let key := releaseKey (before.difficulty.toNat - 48) height
    Deps.fromRaw child.pubkey = key ∧
    (∃ nonce, SolutionVerifier.verify ⟨key⟩ child.readSolutions (before.at nonce) = .ok true) ∧
    ∀ q x, key.Puzzle q x → (SolutionVerifier.Releases ⟨key⟩ child.readSolutions q x ↔
      ¬(q : ℤ) ∣ child.readSolutions.1.b - child.readSolutions.2.b) := by
  intro key
  obtain ⟨found, solutions, hwritten, hsearch⟩ := Seal.tryCpuMining_some h
  obtain ⟨hsound, hbits, -, hread⟩ := hwritten.key_facts hbitLength hprime hraw hmin hmax
  obtain ⟨idx, hidx, rfl⟩ := hwritten.key_eq_releaseKey hseeds hparent hmin hmax
  have hkey : key = releaseKey idx height := by
    rw [← Nat.sub_eq_of_eq_add hidx.symm]
  obtain ⟨hmatched, -⟩ := search_matched hrand hsound (by omega) hsearch
  obtain ⟨hfirst, hsecond⟩ := hmatched.inRange hsound
  rw [hwritten.readSolutions_eq hfirst hsecond, hwritten.pubkey_eq, hread, hkey]
  obtain ⟨nonce, -, -, haccepted⟩ := hmatched.accepted hrand hsound
  refine ⟨rfl, ⟨nonce, haccepted⟩, ?_⟩
  intro q x hpuzzle
  rw [releases_iff_reveals hpuzzle.safe]
  exact (hmatched.reveals_iff hpuzzle).2

end Release

section Sample

attribute [local instance] Deps.sample

/-- The first child of the genesis seal opens the small key. -/
theorem genesisChild_releases_key : ∃ child : Seal, ∃ privkey,
    SolutionVerifier.keyGen ⟨smallKey⟩ child.readSolutions = .ok (some privkey) ∧
      privkey.x ≡ 4 [ZMOD 3] := by
  have hany : ((genesisSeal 48).tryCpuMining plainHeader 0 quietRun none).toOption.any
      (fun result => result.1.any fun child =>
        decide (¬(3 : ℤ) ∣ child.readSolutions.1.b - child.readSolutions.2.b)) = true := by
    decide +kernel
  obtain ⟨⟨found, after⟩, hmined, hfound⟩ := Rust.exists_ok_of_any hany
  cases found with
  | none => cases hfound
  | some child =>
    obtain ⟨-, -, hreleases⟩ := mined_block_releases_key Deps.sample.randomInRange
      Deps.sample.keysHaveBitLength Deps.sample.keysHavePrimeModulus Deps.sample.keysRoundTrip
      Deps.sample.seedsInRange (.genesis 48) (by decide) (by decide) hmined
    obtain ⟨privkey, hextracted, -, -, hlogarithm⟩ :=
      (hreleases 3 4 smallKey_puzzle).mpr (of_decide_eq_true hfound)
    exact ⟨child, privkey, hextracted, hlogarithm⟩

end Sample

end TrexPow
