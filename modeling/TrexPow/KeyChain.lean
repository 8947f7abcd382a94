import TrexPow.Mining
import TrexPow.SealVerification

/-!
# The chain of keys

Every mined seal takes its key and its seeds from the parent seal alone, so all
chains of the same length agree on their keys. Verification does not check this:
its verdict depends neither on the parent nor on the seeds.
-/

namespace TrexPow

/-- The bit length of the key with a given index. -/
def bitLengthAt (idx : ℕ) : U32 := BitVec.ofNat 32 (idx + minDifficulty.toNat)

theorem bitLengthAt_toNat {idx : ℕ} (h : idx < keychainLen) :
    (bitLengthAt idx).toNat = idx + 48 := by
  rw [keychainLen_eq] at h
  rw [bitLengthAt, minDifficulty_toNat, BitVec.toNat_ofNat, Nat.mod_eq_of_lt (by omega)]

/-- The chain generates keys for every index. -/
theorem bitLengthAt_chainBits {idx : ℕ} (h : idx < keychainLen) : ChainBits (bitLengthAt idx) := by
  rw [ChainBits, bitLengthAt_toNat h]
  rw [keychainLen_eq] at h
  omega

/-- From the minimum to the maximum difficulty the offset is an index, except
that the maximum points one past the last key. -/
theorem Keychain.at_eq (keychain : Keychain) {difficulty : Difficulty}
    (hmin : 48 ≤ difficulty.toNat) (hmax : difficulty.toNat ≤ 224) :
    Keychain.at keychain difficulty =
      if h : difficulty.toNat - 48 < keychainLen then .ok (keychain.get ⟨difficulty.toNat - 48, h⟩)
      else .error .indexOutOfBounds := by
  have hoffset : checkedSub difficulty.toNat minDifficulty.toNat = .ok (difficulty.toNat - 48) := by
    rw [checkedSub, minDifficulty_toNat, if_neg (by omega)]
  have hmod : (difficulty.toNat - 48) % 2 ^ 64 = difficulty.toNat - 48 :=
    Nat.mod_eq_of_lt (by omega)
  simp only [Keychain.at, hoffset, Rust.ok_bind, hmod]
  split_ifs with h
  · rw [List.getElem?_eq_getElem (by rwa [keychain.toList_length])]
    simp [List.Vector.get_eq_get_toList]
  · rw [List.getElem?_eq_none (by rw [keychain.toList_length]; omega)]

/-- Below the maximum difficulty the chain has a key. -/
theorem Keychain.at_of_lt (keychain : Keychain) {difficulty : Difficulty}
    (hmin : 48 ≤ difficulty.toNat) (hmax : difficulty.toNat < 224) :
    ∃ idx : Fin keychainLen, idx.val + 48 = difficulty.toNat ∧
      Keychain.at keychain difficulty = .ok (keychain.get idx) := by
  have hidx : difficulty.toNat - 48 < keychainLen := by
    rw [keychainLen_eq]
    omega
  refine ⟨⟨difficulty.toNat - 48, hidx⟩, by simp only; omega, ?_⟩
  rw [Keychain.at_eq keychain hmin hmax.le, dif_pos hidx]

/-- Each key of the chain is generated from the seed at its index. -/
theorem yieldPubKeys_get [Deps] (seeds : RawKeySeeds) (idx : Fin keychainLen) :
    (yieldPubKeys seeds).get idx =
      Deps.generatePubKey (bitLengthAt idx) (seeds.get idx).toBigint := by
  simp only [yieldPubKeys, List.Vector.get_ofFn]
  rfl

section Mined

variable [Deps] {C : Type} [Hash C] [OnCompute C]

/-- What a successful attempt writes into the child's seal, when it found
`solutions` for `key` and left the header computer as `after`. -/
structure Seal.Written (parent : Seal) (before after : C) (key : PublicKey)
    (solutions : Solutions ℤ) (child : Seal) : Prop where
  key_eq : Keychain.at (yieldPubKeys parent.seeds) (OnCompute.getDifficulty before) = .ok key
  difficulty_eq : child.difficulty = OnCompute.getDifficulty before
  pubkey_eq : child.pubkey = Deps.toRaw key
  seeds_eq : ∀ idx : Fin keychainLen,
    newSeed idx ((yieldPubKeys parent.seeds).get idx) = .ok (child.seeds.get idx)
  solution1_eq : solutions.1.toU256 = .ok child.solutions.1
  solution2_eq : solutions.2.toU256 = .ok child.solutions.2
  nonce_eq : child.nonce = Hash.getNonce after

/-- A mined child is written from the key of its difficulty and what the search found. -/
theorem Seal.tryCpuMining_some {parent child : Seal} {before after : C} {miningSeed : U256}
    {run : MiningRun} {cpus : Option U8}
    (h : parent.tryCpuMining before miningSeed run cpus = .ok (some child, after)) :
    ∃ key solutions, parent.Written before after key solutions child ∧
      search key before (u256Bigint miningSeed) run cpus = .ok (some solutions, after) := by
  unfold Seal.tryCpuMining at h
  simp only [Rust.bind_eq_ok] at h
  obtain ⟨key, hkey, newSeeds, hseeds, ⟨found, compute⟩, hsearch, hwrite⟩ := h
  cases found with
  | none => simp at hwrite
  | some solutions =>
    simp only [Rust.bind_eq_ok, Rust.pure_eq_ok, Except.ok.injEq, Prod.mk.injEq,
      Option.some.injEq] at hwrite
    obtain ⟨first, hfirst, second, hsecond, hchild, rfl⟩ := hwrite
    subst hchild
    exact ⟨key, solutions, ⟨hkey, rfl, rfl, Loop.mOfFn_eq_ok.mp hseeds, hfirst, hsecond, rfl⟩,
      hsearch⟩

/-- The seeds of a mined child depend on its parent alone. -/
theorem Seal.Written.seeds_unique {parent child child' : Seal} {before after before' after' : C}
    {key key' : PublicKey} {solutions solutions' : Solutions ℤ}
    (h : parent.Written before after key solutions child)
    (h' : parent.Written before' after' key' solutions' child') : child.seeds = child'.seeds := by
  refine List.Vector.ext fun idx => ?_
  have heq := (h.seeds_eq idx).symm.trans (h'.seeds_eq idx)
  exact Except.ok.inj heq

end Mined

/-- A seed in the width of its index. -/
def storedSeed (idx : ℕ) (seed : ℤ) : RawKeySeedsData :=
  if idx < wideSeedIndex then .u128 (BitVec.ofNat 128 seed.toNat)
  else .u256 (BitVec.ofNat 256 seed.toNat)

/-- The width of an index holds every seed below its power of two. -/
theorem storedSeed_toBigint {idx : ℕ} (hidx : idx < keychainLen) {seed : ℤ} (h0 : 0 ≤ seed)
    (hseed : seed < 2 ^ (idx + 48)) : (storedSeed idx seed).toBigint = seed := by
  rw [keychainLen_eq] at hidx
  unfold storedSeed wideSeedIndex
  split_ifs with hnarrow
  · have hlt : seed < 2 ^ 128 :=
      hseed.trans_le (pow_le_pow_right₀ (by norm_num) (by simp at hnarrow; omega))
    rw [RawKeySeedsData.toBigint, u128Bigint, BitVec.toNat_ofNat, Nat.mod_eq_of_lt (by omega)]
    omega
  · have hlt : seed < 2 ^ 256 := hseed.trans_le (pow_le_pow_right₀ (by norm_num) (by omega))
    exact u256Bigint_ofNat h0 hlt

section Future

variable [Deps]

/-- The seed with a given index after a number of blocks, as an unbounded integer. -/
def seedAt (idx : ℕ) : ℕ → ℤ
  | 0 => 1
  | height + 1 => Deps.yieldSeed (Deps.generatePubKey (bitLengthAt idx) (seedAt idx height))

/-- The seed a key leaves is stored without the fallback for values out of range. -/
theorem newSeed_eq {idx : ℕ} (hidx : idx < keychainLen) {key : PublicKey}
    (h0 : 0 ≤ Deps.yieldSeed key) (hseed : Deps.yieldSeed key < 2 ^ (idx + 48)) :
    newSeed idx key = .ok (storedSeed idx (Deps.yieldSeed key)) := by
  rw [keychainLen_eq] at hidx
  unfold newSeed storedSeed
  split_ifs with hnarrow
  · rw [wideSeedIndex, minDifficulty_toNat] at hnarrow
    have hlt : Deps.yieldSeed key < 2 ^ 128 :=
      hseed.trans_le (pow_le_pow_right₀ (by norm_num) (by omega))
    rw [bigintU128, if_pos ⟨h0, hlt⟩]
    rfl
  · have hlt : Deps.yieldSeed key < 2 ^ 256 :=
      hseed.trans_le (pow_le_pow_right₀ (by norm_num) (by omega))
    rw [bigintU256_of_lt h0 hlt]
    rfl

/-- The seeds after a number of blocks. -/
def chainSeeds (height : ℕ) : RawKeySeeds := .ofFn fun idx => storedSeed idx (seedAt idx height)

/-- Every seed of the chain is in the range of its index. -/
theorem seedAt_bounds (hseeds : SeedsInRange) {idx : ℕ} (hidx : idx < keychainLen) (height : ℕ) :
    0 ≤ seedAt idx height ∧ seedAt idx height < 2 ^ (idx + 48) := by
  cases height with
  | zero => exact ⟨by simp [seedAt], one_lt_pow₀ (by norm_num) (by omega)⟩
  | succ height =>
    have h := hseeds (bitLengthAt idx) (seedAt idx height) (bitLengthAt_chainBits hidx)
    rwa [bitLengthAt_toNat hidx] at h

theorem chainSeeds_toBigint (hseeds : SeedsInRange) (height : ℕ) (idx : Fin keychainLen) :
    ((chainSeeds height).get idx).toBigint = seedAt idx height := by
  obtain ⟨h0, hlt⟩ := seedAt_bounds hseeds idx.isLt height
  rw [chainSeeds, List.Vector.get_ofFn, storedSeed_toBigint idx.isLt h0 hlt]

/-- The genesis seal, whatever its difficulty, holds the first seeds. -/
theorem genesisSeal_seeds (difficulty : Difficulty) :
    (genesisSeal difficulty).seeds = chainSeeds 0 := by
  refine List.Vector.ext fun idx => ?_
  simp only [genesisSeal, chainSeeds, List.Vector.get_ofFn, storedSeed, seedAt]
  split_ifs with hwide hnarrow hnarrow
  · omega
  · rfl
  · rfl
  · omega

/-- The seals that some chain of mining attempts leads to from a genesis seal, with
their heights. Each attempt has a difficulty of the chain, and its header, seed,
number of CPUs and schedule are arbitrary. -/
inductive Seal.MinedAt : ℕ → Seal → Prop
  | genesis (difficulty : Difficulty) : MinedAt 0 (genesisSeal difficulty)
  | child {height : ℕ} {parent mined : Seal} {before after : Compute} {miningSeed : U256}
      {run : MiningRun} {cpus : Option U8} (hparent : MinedAt height parent)
      (hmin : 48 ≤ before.difficulty.toNat) (hmax : before.difficulty.toNat ≤ 223)
      (hmined : parent.tryCpuMining before miningSeed run cpus = .ok (some mined, after)) :
      MinedAt (height + 1) mined

/-- One block: a child written from the seeds of the chain holds the next seeds. -/
theorem Seal.Written.seeds_step (hseeds : SeedsInRange) {height : ℕ} {parent child : Seal}
    {before after : Compute} {key : PublicKey} {solutions : Solutions ℤ}
    (hparent : parent.seeds = chainSeeds height)
    (h : parent.Written before after key solutions child) :
    child.seeds = chainSeeds (height + 1) := by
  refine List.Vector.ext fun idx => ?_
  have hwritten := h.seeds_eq idx
  rw [yieldPubKeys_get, hparent, chainSeeds_toBigint hseeds] at hwritten
  obtain ⟨h0, hlt⟩ := seedAt_bounds hseeds idx.isLt (height + 1)
  rw [newSeed_eq idx.isLt h0 hlt] at hwritten
  rw [← Except.ok.inj hwritten, chainSeeds, List.Vector.get_ofFn]
  rfl

/-- The whole chain: seals at one height hold the seeds of that height. -/
theorem Seal.MinedAt.seeds_eq (hseeds : SeedsInRange) {height : ℕ} {s : Seal}
    (h : MinedAt height s) : s.seeds = chainSeeds height := by
  induction h with
  | genesis difficulty => exact genesisSeal_seeds difficulty
  | child _ _ _ hmined ih =>
    obtain ⟨key, solutions, hwritten, -⟩ := Seal.tryCpuMining_some hmined
    exact hwritten.seeds_step hseeds ih

/-- A mined child carries the key of its difficulty. -/
theorem Seal.Written.pubkey_at {parent child : Seal} {before after : Compute} {key : PublicKey}
    {solutions : Solutions ℤ} (hmin : 48 ≤ before.difficulty.toNat)
    (hmax : before.difficulty.toNat ≤ 223)
    (h : parent.Written before after key solutions child) :
    ∃ idx : Fin keychainLen, idx.val + 48 = before.difficulty.toNat ∧
      key = (yieldPubKeys parent.seeds).get idx ∧ child.pubkey = Deps.toRaw key := by
  obtain ⟨idx, hidx, hat⟩ := Keychain.at_of_lt (yieldPubKeys parent.seeds) hmin (by omega)
  exact ⟨idx, hidx, Except.ok.inj (h.key_eq.symm.trans hat), h.pubkey_eq⟩

/-- **Future keys do not depend on how blocks are mined.** The seals at a height
agree on all seeds. These are the values of an unbounded recurrence, and they
determine the keys of the next height, one of which a mined child carries. -/
theorem future_keys_independent (hseeds : SeedsInRange) (height : ℕ) :
    (∀ s t, Seal.MinedAt height s → Seal.MinedAt height t → s.seeds = t.seeds) ∧
    (∀ s, Seal.MinedAt height s → ∀ idx : Fin keychainLen,
      (s.seeds.get idx).toBigint = seedAt idx height ∧
        (yieldPubKeys s.seeds).get idx =
          Deps.generatePubKey (BitVec.ofNat 32 (48 + idx)) (seedAt idx height)) ∧
    (∀ parent child (before after : Compute) miningSeed run cpus, Seal.MinedAt height parent →
      48 ≤ before.difficulty.toNat → before.difficulty.toNat ≤ 223 →
      parent.tryCpuMining before miningSeed run cpus = .ok (some child, after) →
      child.pubkey = Deps.toRaw (Deps.generatePubKey (BitVec.ofNat 32 before.difficulty.toNat)
        (seedAt (before.difficulty.toNat - 48) height))) := by
  have hkeys : ∀ s, Seal.MinedAt height s → ∀ idx : Fin keychainLen,
      (s.seeds.get idx).toBigint = seedAt idx height ∧ (yieldPubKeys s.seeds).get idx =
        Deps.generatePubKey (BitVec.ofNat 32 (48 + idx)) (seedAt idx height) := by
    intro s hs idx
    rw [yieldPubKeys_get, hs.seeds_eq hseeds, chainSeeds_toBigint hseeds, bitLengthAt,
      minDifficulty_toNat, Nat.add_comm]
    exact ⟨rfl, rfl⟩
  refine ⟨?_, hkeys, ?_⟩
  · intro s t hs ht
    exact (hs.seeds_eq hseeds).trans (ht.seeds_eq hseeds).symm
  · intro parent child before after miningSeed run cpus hparent hmin hmax hmined
    obtain ⟨key, solutions, hwritten, -⟩ := Seal.tryCpuMining_some hmined
    obtain ⟨idx, hidx, hkey, hpubkey⟩ := hwritten.pubkey_at hmin hmax
    have hoffset : before.difficulty.toNat - 48 = idx := by omega
    rw [hpubkey, hkey, (hkeys parent hparent idx).2, hoffset, ← hidx, Nat.add_comm]

/-- **The key chain is a rule of mining.** Two children mined from one parent at one
difficulty carry the key and the seeds that the parent determines. Verification
gives the same verdict for every parent and for every array of seeds. -/
theorem mined_children_follow_chain {parent child child' : Seal} {before before' : Compute}
    {after after' : Compute} {miningSeed miningSeed' : U256} {run run' : MiningRun}
    {cpus cpus' : Option U8} (hmin : 48 ≤ before.difficulty.toNat)
    (hmax : before.difficulty.toNat ≤ 223) (hsame : before'.difficulty = before.difficulty)
    (h : parent.tryCpuMining before miningSeed run cpus = .ok (some child, after))
    (h' : parent.tryCpuMining before' miningSeed' run' cpus' = .ok (some child', after')) :
    (∃ idx : Fin keychainLen, idx.val + 48 = before.difficulty.toNat ∧
      child.pubkey = Deps.toRaw ((yieldPubKeys parent.seeds).get idx)) ∧
    (∀ idx : Fin keychainLen,
      newSeed idx ((yieldPubKeys parent.seeds).get idx) = .ok (child.seeds.get idx)) ∧
    child'.pubkey = child.pubkey ∧ child'.seeds = child.seeds ∧
    ∀ raw s seeds id id' preHash preDigest difficulty, Seal.decode raw = some s →
      TREXAlgo.verify id preHash preDigest raw difficulty =
        TREXAlgo.verify id' preHash preDigest { s with seeds := seeds }.encode difficulty := by
  obtain ⟨key, solutions, hwritten, -⟩ := Seal.tryCpuMining_some h
  obtain ⟨key', solutions', hwritten', -⟩ := Seal.tryCpuMining_some h'
  obtain ⟨idx, hidx, hkey, hpubkey⟩ := hwritten.pubkey_at hmin hmax
  have hkeys : key' = key := by
    have hat := hwritten'.key_eq
    have hdifficulty : OnCompute.getDifficulty before' = OnCompute.getDifficulty before := hsame
    rw [hdifficulty, hwritten.key_eq] at hat
    exact (Except.ok.inj hat).symm
  refine ⟨⟨idx, hidx, hkey ▸ hpubkey⟩, hwritten.seeds_eq, ?_, hwritten'.seeds_unique hwritten, ?_⟩
  · rw [hwritten.pubkey_eq, hwritten'.pubkey_eq, hkeys]
  · intro raw s seeds id id' preHash preDigest difficulty hs
    rw [TREXAlgo.verify_of_decode id preHash preDigest hs,
      TREXAlgo.verify_of_decode id' preHash preDigest (Seal.decode_encode _)]
    rfl

end Future

section Sample

attribute [local instance] Deps.sample

/-- A header at the minimum difficulty. -/
def plainHeader : Compute := ⟨48, .replicate 32 0, 0⟩

/-- On the sample, mining on the genesis seal succeeds. -/
theorem genesisSeal_mined : ∃ child after,
    (genesisSeal 48).tryCpuMining plainHeader 0 quietRun none = .ok (some child, after) := by
  have hany : ((genesisSeal 48).tryCpuMining plainHeader 0 quietRun none).toOption.any
      (fun result => result.1.isSome) = true := by decide +kernel
  obtain ⟨⟨found, after⟩, hmined, hfound⟩ := Rust.exists_ok_of_any hany
  obtain ⟨child, rfl⟩ := Option.isSome_iff_exists.mp hfound
  exact ⟨child, after, hmined⟩

/-- The keys of the second block on the sample. -/
theorem future_keys_second_block : ∃ s, Seal.MinedAt 1 s ∧ ∀ t, Seal.MinedAt 1 t →
    s.seeds = t.seeds ∧ (t.seeds.get ⟨8, by decide⟩).toBigint = 56 := by
  obtain ⟨child, after, hmined⟩ := genesisSeal_mined
  have hchild : Seal.MinedAt 1 child := .child (.genesis 48) (by decide) (by decide) hmined
  obtain ⟨hseeds, hkeys, -⟩ := future_keys_independent Deps.sample.seedsInRange 1
  refine ⟨child, hchild, fun t ht => ⟨hseeds child t hchild ht, ?_⟩⟩
  rw [(hkeys t ht _).1]
  decide +kernel

/-- A child of the genesis seal carries the key of difficulty 48 and the seeds of its parent. -/
theorem genesis_children_follow_chain : ∃ child : Seal,
    (∃ idx : Fin keychainLen, idx.val + 48 = 48 ∧
      child.pubkey = Deps.toRaw ((yieldPubKeys (genesisSeal 48).seeds).get idx)) ∧
    ∀ idx : Fin keychainLen,
      newSeed idx ((yieldPubKeys (genesisSeal 48).seeds).get idx) = .ok (child.seeds.get idx) := by
  obtain ⟨child, after, hmined⟩ := genesisSeal_mined
  obtain ⟨hkey, hseeds, -⟩ :=
    mined_children_follow_chain (by decide) (by decide) rfl hmined hmined
  exact ⟨child, hkey, hseeds⟩

/-- An accepted child need not carry the key or the seeds of its parent. -/
theorem accepted_child_off_chain :
    ¬∀ (parent : Seal) (id : BlockId) (preHash : H256) (preDigest : Option (List UInt8))
      (raw : List UInt8) (difficulty : Difficulty),
      48 ≤ difficulty.toNat → difficulty.toNat ≤ 223 →
      TREXAlgo.verify id preHash preDigest raw difficulty = .ok true →
      ∃ child, Seal.decode raw = some child ∧
        (∃ key, Keychain.at (yieldPubKeys parent.seeds) difficulty = .ok key ∧
          child.pubkey = Deps.toRaw key) ∧
        ∀ idx : Fin keychainLen,
          newSeed idx ((yieldPubKeys parent.seeds).get idx) = .ok (child.seeds.get idx) := by
  intro h
  obtain ⟨child, hchild, ⟨key, hkey, hpubkey⟩, -⟩ := h (genesisSeal 56) (.number 0)
    (.replicate 32 0) none weakSeal.encode 48 (by decide) (by decide)
    (weakSeal_accepted .checked).1
  rw [Seal.decode_encode, Option.some.injEq] at hchild
  have hmin : 48 ≤ (48 : Difficulty).toNat := by decide
  obtain ⟨idx, -, hat⟩ := Keychain.at_of_lt (yieldPubKeys (genesisSeal 56).seeds) hmin (by decide)
  rw [hat, yieldPubKeys_get] at hkey
  rw [← Except.ok.inj hkey, ← hchild] at hpubkey
  have hg : weakSeal.pubkey.g = BitVec.ofInt 256 3 := congrArg RawPublicKey.g hpubkey
  exact absurd hg (by decide)

end Sample

end TrexPow
