import TrexPow.KeyChain
import TrexPow.Meeting

/-!
# Honest miners produce valid blocks

Both sequential solvers keep their two states on the walk of the key, and the
header computer belongs to the last step of the first state. A pair of solutions
they return therefore passes every check of the verifier, also after its way
through a stored seal.
-/

namespace TrexPow

section Honest

variable [Deps]

/-- Two states of the walk of a key meet at a distinguished point with different
solutions, and the header computer belongs to the first of them. -/
structure Match (key : PublicKey) (compute : Compute) (state1 state2 : State ℤ) : Prop where
  onWalk1 : state1.OnWalk key
  onWalk2 : state2.OnWalk key
  linked : state1.Linked key compute
  work_eq : state1.work = state2.work
  differ : state1.solution ≠ state2.solution
  distinguished : ∃ hashDiff, key.hashDiff = .ok hashDiff ∧ state1.overflowed hashDiff = false

/-- **A match is accepted.** -/
theorem Match.verify (hrand : RandomInRange) {key : PublicKey} (hkey : key.Sound)
    {compute : Compute} {state1 state2 : State ℤ} (h : Match key compute state1 state2) :
    SolutionVerifier.verify ⟨key⟩ (state1.solution, state2.solution) compute = .ok true := by
  have hnonneg : Nonneg (state1.solution, state2.solution) :=
    ⟨⟨h.onWalk1.a_bounds.1, h.onWalk1.b_bounds.1⟩, h.onWalk2.a_bounds.1, h.onWalk2.b_bounds.1⟩
  have hnonce : u256Bigint compute.nonce = state1.nonce := by
    have hlt := hkey.lt
    obtain ⟨hnonce0, hnoncep⟩ := h.linked.nonce_bounds
    rw [h.linked.nonce_eq, u256Bigint_ofNat hnonce0 (by omega)]
  have hheader : key.headerWork compute = state1.work := by
    rw [PublicKey.headerWork, hnonce, h.linked.work_eq]
  have hstate : key.headerState state1.solution compute = state1 := by
    rw [PublicKey.headerState, hnonce, hheader, ← h.onWalk1.pubkey_eq]
  obtain ⟨hashDiff, htester, hpoint⟩ := h.distinguished
  refine (SolutionVerifier.verify_eq_true_iff hrand hnonneg).mpr
    ⟨hkey.three_le, h.differ, ?_, ?_, hashDiff, htester, ?_⟩
  · exact h.onWalk1.work_eq.symm.trans (h.work_eq.trans h.onWalk2.work_eq)
  · exact h.onWalk1.work_eq.symm.trans hheader.symm
  · rwa [hstate]

/-- What a solver reports for a key: solutions come from a match whose header
computer is the one the solver leaves behind. -/
def Reports (key : PublicKey) (before : Compute) (solutions : Option (Solutions ℤ))
    (after : Compute) : Prop :=
  ∀ found, solutions = some found → SameHeader before after ∧
    ∃ state1 state2, Match key after state1 state2 ∧ found = (state1.solution, state2.solution)

section Solvers

variable {key : PublicKey}

/-- A meeting is a match, with the header computer that holds the nonce. -/
theorem Meeting.isMatch (hkey : key.Sound) {header : Compute} {start : State ℤ}
    (hstart : start.OnWalk key) {n : ℕ} {hashDiff : U256} (htester : key.hashDiff = .ok hashDiff)
    {i j : ℕ} (h : Meeting header start n hashDiff i j) :
    Match key (header.at (start.walkAt header (i + j)).nonce) (start.walkAt header (i + j))
      (start.walkAt header (2 * i + j)) := by
  refine ⟨hstart.walkAt hkey header _, hstart.walkAt hkey header _, ?_, h.work_eq, h.differ,
    hashDiff, htester, h.point⟩
  have hlast : i + j = i + (j - 1) + 1 := by
    have hpos := h.second_pos
    omega
  rw [hlast]
  exact hstart.walkAt_linked hkey header _

theorem ReportsMeeting.reports (hkey : key.Sound) {header after : Compute} {start : State ℤ}
    (hstart : start.OnWalk key) {n : ℕ} {hashDiff : U256} (htester : key.hashDiff = .ok hashDiff)
    {solutions : Option (Solutions ℤ)}
    (h : ReportsMeeting header start n hashDiff solutions after) :
    Reports key header solutions after := by
  intro found hfound
  obtain ⟨i, j, hmeeting, hsolutions, rfl⟩ := h found hfound
  exact ⟨sameHeader_at .., _, _, hmeeting.isMatch hkey hstart htester, hsolutions⟩

/-- The single-threaded solver terminates without a panic, and what it reports is a match. -/
theorem solve_spec (hrand : RandomInRange) (hkey : key.Sound) (hbits : 18 ≤ key.bitLength.toNat)
    (before : Compute) (seed : ℤ) :
    ∃ result, solve key before seed = .ok result ∧ Reports key before result.1 result.2 := by
  obtain ⟨start, hashDiff, result, -, hstart, htester, hresult, hreports⟩ :=
    solve_meets hrand hkey hbits before seed
  exact ⟨result, hresult, hreports.reports hkey hstart htester⟩

/-- The cancellable solver terminates without a panic whatever the flag shows, and
what it reports is a match. -/
theorem solveDist_spec (hrand : RandomInRange) (hkey : key.Sound)
    (hbits : 18 ≤ key.bitLength.toNat) (before : Compute) (seed : ℤ) (grainSize : ℕ)
    (flag : ℕ → Bool) :
    ∃ result, solveDist key before seed grainSize flag = .ok result ∧
      Reports key before result.solutions result.compute := by
  obtain ⟨start, hashDiff, result, -, hstart, htester, hresult, hreports⟩ :=
    solveDist_meets hrand hkey hbits before seed grainSize flag
  exact ⟨result, hresult, hreports.reports hkey hstart htester⟩

/-- A generated key is sound. -/
theorem generatedKey_sound (hprime : KeysHavePrimeModulus) {bits : U32} (hbits : ChainBits bits)
    (seed : ℤ) : (Deps.generatePubKey bits seed).Sound := by
  obtain ⟨hp, hthree, hlt, hg, hh⟩ := hprime bits seed hbits
  have hpow : (2 : ℤ) ^ bits.toNat ≤ 2 ^ 256 :=
    pow_le_pow_right₀ (by norm_num) (by have := hbits.2; omega)
  exact ⟨hp, hthree, hlt.trans_le hpow, hg, hh⟩

/-- The key a child is written from is sound, has the length of the difficulty, and
is read back from its raw form. -/
theorem Seal.Written.key_facts (hbitLength : KeysHaveBitLength) (hprime : KeysHavePrimeModulus)
    (hraw : KeysRoundTrip) {parent child : Seal} {before after : Compute}
    {solutions : Solutions ℤ} (hmin : 48 ≤ before.difficulty.toNat)
    (hmax : before.difficulty.toNat ≤ 223)
    (h : parent.Written before after key solutions child) :
    key.Sound ∧ key.bitLength.toNat = before.difficulty.toNat ∧
      (Deps.toRaw key).bitLength = key.bitLength ∧ Deps.fromRaw (Deps.toRaw key) = key := by
  obtain ⟨idx, hidx, hkey, -⟩ := h.pubkey_at hmin hmax
  have hchain := bitLengthAt_chainBits idx.isLt
  rw [yieldPubKeys_get] at hkey
  subst hkey
  refine ⟨generatedKey_sound hprime hchain _, ?_, hraw _ _ hchain⟩
  rw [hbitLength _ _ hchain, bitLengthAt_toNat idx.isLt, hidx]

/-- With at most one CPU the search is the cancellable solver. -/
theorem search_of_le_one {cpus : Option U8} (hcpus : ∀ value, cpus = some value → value ≤ 1)
    {before : Compute} {seed : ℤ} {run : MiningRun} {result : DistResult Compute}
    (hresult : solveDist key before seed grainSize run.flag = .ok result) :
    search key before seed run cpus = .ok (result.solutions, result.compute) := by
  cases cpus with
  | none => simp only [search, hresult, Rust.ok_bind, Rust.pure_eq_ok]
  | some value =>
    have hle := hcpus value rfl
    simp only [search, hresult, Rust.ok_bind, Rust.pure_eq_ok, if_neg (BitVec.not_lt.mpr hle)]

end Solvers

/-- A seal that stores a match of a generated key is accepted at its difficulty. -/
theorem Match.verifyWork (hrand : RandomInRange) {key : PublicKey} (hkey : key.Sound)
    {before after : Compute} {state1 state2 : State ℤ} (h : Match key after state1 state2)
    (hheader : SameHeader before after) {parent child : Seal}
    (hraw : Deps.fromRaw (Deps.toRaw key) = key)
    (hwritten : parent.Written before after key (state1.solution, state2.solution) child) :
    verifyWork child before.preHash before.difficulty = .ok true := by
  obtain ⟨stored1, hstored1, hread1⟩ := Solution.fromU256_toU256 (h.onWalk1.inRange hkey)
  obtain ⟨stored2, hstored2, hread2⟩ := Solution.fromU256_toU256 (h.onWalk2.inRange hkey)
  have hfirst := Except.ok.inj (hstored1.symm.trans hwritten.solution1_eq)
  have hsecond := Except.ok.inj (hstored2.symm.trans hwritten.solution2_eq)
  have hafter : (⟨before.difficulty, before.preHash, child.nonce⟩ : Compute) = after := by
    rw [hwritten.nonce_eq, ← hheader.1, ← hheader.2]
    rfl
  simp only [TrexPow.verifyWork]
  rw [hafter, hwritten.pubkey_eq, hraw, ← hfirst, ← hsecond, hread1, hread2]
  exact h.verify hrand hkey

/-- **Completeness of mining.** A child that the sequential path mines is accepted
by the complete algorithm for the header it was mined on, whatever the cancel flag
shows. Solutions of the single-threaded solver are accepted with the header
computer it leaves behind. -/
theorem mining_complete (hrand : RandomInRange) (hbitLength : KeysHaveBitLength)
    (hprime : KeysHavePrimeModulus) (hraw : KeysRoundTrip) :
    (∀ (parent child : Seal) (before after : Compute) (miningSeed : U256) (run : MiningRun)
      (cpus : Option U8), 48 ≤ before.difficulty.toNat → before.difficulty.toNat ≤ 223 →
      (∀ value, cpus = some value → value ≤ 1) →
      parent.tryCpuMining before miningSeed run cpus = .ok (some child, after) →
      ∀ id preDigest,
        TREXAlgo.verify id before.preHash preDigest child.encode before.difficulty = .ok true) ∧
    (∀ (bits : U32) (keySeed : ℤ) (before after : Compute) (seed : ℤ) (solutions : Solutions ℤ),
      ChainBits bits →
      solve (Deps.generatePubKey bits keySeed) before seed = .ok (some solutions, after) →
      SolutionVerifier.verify ⟨Deps.generatePubKey bits keySeed⟩ solutions after = .ok true) := by
  constructor
  · intro parent child before after miningSeed run cpus hmin hmax hcpus hmined id preDigest
    obtain ⟨key, solutions, hwritten, hsearch⟩ := Seal.tryCpuMining_some hmined
    obtain ⟨hsound, hbits, hrawBits, hread⟩ :=
      hwritten.key_facts hbitLength hprime hraw hmin hmax
    obtain ⟨result, hresult, hreports⟩ := solveDist_spec hrand hsound (by omega) before
      (u256Bigint miningSeed) grainSize run.flag
    have hdist := search_of_le_one hcpus hresult
    obtain ⟨hfound, rfl⟩ := Prod.mk.inj (Except.ok.inj (hdist.symm.trans hsearch))
    obtain ⟨hheader, state1, state2, hmatch, rfl⟩ := hreports solutions hfound
    have hdeclared : child.difficulty = before.difficulty ∧
        child.pubkey.bitLength.toNat = before.difficulty.toNat := by
      rw [hwritten.pubkey_eq, hrawBits]
      exact ⟨hwritten.difficulty_eq, hbits⟩
    rw [TREXAlgo.verify_of_decode _ _ _ child.decode_encode, if_pos hdeclared]
    exact hmatch.verifyWork hrand hsound hheader hread hwritten
  · intro bits keySeed before after seed solutions hchain hsolve
    have hsound := generatedKey_sound hprime hchain keySeed
    have hbits : 18 ≤ (Deps.generatePubKey bits keySeed).bitLength.toNat := by
      rw [hbitLength bits keySeed hchain]
      have := hchain.1
      omega
    obtain ⟨result, hresult, hreports⟩ := solve_spec hrand hsound hbits before seed
    obtain rfl := Except.ok.inj (hresult.symm.trans hsolve)
    obtain ⟨-, state1, state2, hmatch, rfl⟩ := hreports solutions rfl
    exact hmatch.verify hrand hsound

end Honest

section Sample

attribute [local instance] Deps.sample

/-- On the sample, the child of the genesis seal is accepted. -/
theorem genesis_child_verifies : ∃ child after,
    (genesisSeal 48).tryCpuMining plainHeader 0 quietRun none = .ok (some child, after) ∧
      TREXAlgo.verify (.number 0) plainHeader.preHash none child.encode plainHeader.difficulty =
        .ok true := by
  obtain ⟨child, after, hmined⟩ := genesisSeal_mined
  have hcomplete := (mining_complete Deps.sample.randomInRange Deps.sample.keysHaveBitLength
    Deps.sample.keysHavePrimeModulus Deps.sample.keysRoundTrip).1
  exact ⟨child, after, hmined, hcomplete (genesisSeal 48) child plainHeader after 0 quietRun none
    (by decide) (by decide) (fun _ h => nomatch h) hmined (.number 0) none⟩

end Sample

end TrexPow
