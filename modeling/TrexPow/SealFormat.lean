import TrexPow.Conversions
import TrexPow.KeyChain
import TrexPow.KeyExtraction

/-!
# The size of a seal, and seals with the same work

A mined seal has a fixed size, and no shorter part of it is accepted. But a seal is not
determined by its work: the verifier treats both solutions alike and compares their numbers
`n` only to tell them apart, so everybody can turn an accepted seal into another one.
-/

namespace TrexPow

/-! ### Size -/

/-- The bytes of a stored seed, with the byte for its width. -/
def RawKeySeedsData.size : RawKeySeedsData → ℕ
  | .u128 _ => 17
  | .u256 _ => 33

theorem RawKeySeedsData.length_encode (data : RawKeySeedsData) :
    (RawKeySeedsData.codec.encode data).length = data.size := by
  cases data with
  | u128 value =>
    change ((0 : UInt8) :: (Codec.word 16).encode value).length = 17
    rw [List.length_cons, Codec.length_encode_word]
  | u256 value =>
    change ((1 : UInt8) :: (Codec.word 32).encode value).length = 33
    rw [List.length_cons, Codec.length_encode_word]

theorem RawPublicKey.length_encode (key : RawPublicKey) :
    (RawPublicKey.codec.encode key).length = 100 := by
  simp [RawPublicKey.codec, Codec.equiv, Codec.pair]

theorem Solution.length_encode (solution : Solution U256) :
    (Solution.codec.encode solution).length = 96 := by
  simp [Solution.codec, Codec.equiv, Codec.pair]

/-- Only the seeds of a seal vary in size. -/
theorem Seal.length_encode (s : Seal) : s.encode.length = 340 + ∑ idx, (s.seeds.get idx).size := by
  have hseeds : (Codec.encodeVector RawKeySeedsData.codec s.seeds).length =
      ∑ idx, (s.seeds.get idx).size := by
    simp only [Codec.length_encodeVector, RawKeySeedsData.length_encode]
  have hencode : s.encode = (Codec.word 16).encode s.difficulty ++
      (RawPublicKey.codec.encode s.pubkey ++
        (Codec.encodeVector RawKeySeedsData.codec s.seeds ++
          ((Solution.codec.encode s.solutions.1 ++ Solution.codec.encode s.solutions.2) ++
            (Codec.word 32).encode s.nonce))) := rfl
  rw [hencode]
  simp only [List.length_append, Codec.length_encode_word, RawPublicKey.length_encode,
    Solution.length_encode, hseeds]
  omega

/-- The width of a new seed depends on its index alone. -/
theorem size_of_newSeed [Deps] {idx : ℕ} {key : PublicKey} {data : RawKeySeedsData}
    (h : newSeed idx key = .ok data) : data.size = if idx < wideSeedIndex then 17 else 33 := by
  unfold newSeed at h
  split_ifs at h ⊢
  · obtain rfl := Except.ok.inj h
    rfl
  · obtain ⟨value, -, h⟩ := Rust.bind_eq_ok.mp h
    obtain rfl := Except.ok.inj h
    rfl

/-- A part of the bytes of a seal is no seal. -/
theorem Seal.decode_truncated {s : Seal} {raw rest : List UInt8} (hrest : rest ≠ [])
    (h : raw ++ rest = s.encode) : Seal.decode raw = none := by
  rw [Seal.decode, Seal.codec.decode_truncated hrest h, Option.map_none]

/-- **Mined seals have one size.** Every child that mining writes takes 4868 bytes, and both
algorithms reject, without a panic, all raw seals that are a proper prefix of these. -/
theorem mined_seal_size [Deps] {C : Type} [Hash C] [OnCompute C] {parent child : Seal}
    {before after : C} {miningSeed : U256} {run : MiningRun} {cpus : Option U8}
    (h : parent.tryCpuMining before miningSeed run cpus = .ok (some child, after)) :
    child.encode.length = 4868 ∧
    ∀ raw rest, raw ++ rest = child.encode → rest ≠ [] → ∀ id preHash preDigest difficulty,
      TREXAlgo.verify id preHash preDigest raw difficulty = .ok false ∧
      MinTREXAlgo.verify id preHash preDigest raw difficulty = .ok false := by
  obtain ⟨key, solutions, hwritten, -⟩ := Seal.tryCpuMining_some h
  constructor
  · have hsize (idx : Fin keychainLen) : (child.seeds.get idx).size =
        if idx.val < wideSeedIndex then 17 else 33 := size_of_newSeed (hwritten.seeds_eq idx)
    have htotal : (∑ idx : Fin keychainLen, if idx.val < wideSeedIndex then 17 else 33) = 4528 := by
      decide +kernel
    simp only [Seal.length_encode, hsize, htotal]
  · intro raw rest hraw hrest id preHash preDigest difficulty
    have hdecode := Seal.decode_truncated hrest hraw
    constructor
    · simp only [TREXAlgo.verify, hdecode]
      rfl
    · simp only [MinTREXAlgo.verify, hdecode]
      rfl

section Sample

attribute [local instance] Deps.sample

/-- The first child of the genesis seal has that size. -/
theorem genesisChild_size : ∃ child after,
    (genesisSeal 48).tryCpuMining plainHeader 0 quietRun none = .ok (some child, after) ∧
      child.encode.length = 4868 := by
  obtain ⟨child, after, hmined⟩ := genesisSeal_mined
  exact ⟨child, after, hmined, (mined_seal_size hmined).1⟩

end Sample

/-! ### The same work -/

/-- The second seal has the key, the nonce and the declared difficulty of the first, the same
two pairs of exponents in either order, and the same second number `n`. Its solutions differ
if those of the first do. -/
structure Seal.SameWork (s t : Seal) : Prop where
  difficulty_eq : t.difficulty = s.difficulty
  pubkey_eq : t.pubkey = s.pubkey
  nonce_eq : t.nonce = s.nonce
  exponents :
    ((t.solutions.1.a, t.solutions.1.b) = (s.solutions.1.a, s.solutions.1.b) ∧
      (t.solutions.2.a, t.solutions.2.b) = (s.solutions.2.a, s.solutions.2.b)) ∨
    ((t.solutions.1.a, t.solutions.1.b) = (s.solutions.2.a, s.solutions.2.b) ∧
      (t.solutions.2.a, t.solutions.2.b) = (s.solutions.1.a, s.solutions.1.b))
  n_eq : t.solutions.2.n = s.solutions.2.n
  differ : t.solutions.1 ≠ t.solutions.2 ↔ s.solutions.1 ≠ s.solutions.2

section Verdict

variable {key : PublicKey} {build : Build}

/-- The product of a solution does not depend on its number `n`. -/
theorem PublicKey.product_congr (key : PublicKey) {s t : Solution ℤ} (ha : t.a = s.a)
    (hb : t.b = s.b) : key.product t = key.product s := by
  rw [PublicKey.product, PublicKey.product, ha, hb]

/-- The verdict depends on the two products and on whether the solutions differ. -/
theorem verify_congr [Deps] (hrand : RandomInRange) {solutions solutions' : Solutions ℤ}
    (hnonneg : Nonneg solutions) (hnonneg' : Nonneg solutions')
    (hdiffer : solutions'.1 = solutions'.2 ↔ solutions.1 = solutions.2)
    (hproducts : (key.product solutions'.1 = key.product solutions.1 ∧
        key.product solutions'.2 = key.product solutions.2) ∨
      (key.product solutions'.1 = key.product solutions.2 ∧
        key.product solutions'.2 = key.product solutions.1)) (header : Compute) :
    SolutionVerifier.verify ⟨key⟩ solutions' header build =
      SolutionVerifier.verify ⟨key⟩ solutions header build := by
  have hcollides : key.Collides solutions' ↔ key.Collides solutions := by
    unfold PublicKey.Collides
    rcases hproducts with ⟨hfirst, hsecond⟩ | ⟨hfirst, hsecond⟩
    · rw [hfirst, hsecond]
    · rw [hfirst, hsecond]
      exact eq_comm
  have hmeets : key.Collides solutions →
      (key.MeetsHeader solutions' header ↔ key.MeetsHeader solutions header) := by
    intro hcol
    unfold PublicKey.MeetsHeader
    rcases hproducts with ⟨hfirst, -⟩ | ⟨hfirst, -⟩
    · rw [hfirst]
    · rw [hfirst, ← hcol]
  have hpoint : ∀ hashDiff, (key.headerState solutions'.1 header).overflowed hashDiff =
      (key.headerState solutions.1 header).overflowed hashDiff :=
    fun hashDiff => State.overflowed_solution ..
  rw [SolutionVerifier.verify_eq hrand hnonneg', SolutionVerifier.verify_eq hrand hnonneg]
  simp only [hdiffer, hcollides, hpoint]
  by_cases hcol : key.Collides solutions
  · simp only [hmeets hcol]
  · simp only [hcol, not_false_eq_true, if_true]

/-- The congruence solver treats both solutions alike. -/
theorem eqsSolvers_comm (a1 b1 a2 b2 : ℤ) {n : ℤ} (hn : 0 ≤ n) :
    eqsSolvers a2 b2 a1 b1 n = eqsSolvers a1 b1 a2 b2 n := by
  rcases hn.eq_or_lt with rfl | hpos
  · rw [eqsSolvers_zero, eqsSolvers_zero]
  by_cases hdvd : n ∣ b1 - b2
  · rw [eqsSolvers_of_dvd hpos.ne' hdvd, eqsSolvers_of_dvd hpos.ne' (dvd_sub_comm.mp hdvd)]
  have hdvd' : ¬n ∣ b2 - b1 := fun h => hdvd (dvd_sub_comm.mp h)
  have hgcd' : Int.gcd (b2 - b1) n = Int.gcd (b1 - b2) n := by
    rw [← neg_sub, Int.neg_gcd]
  by_cases hgcd : Int.gcd (b1 - b2) n = 1
  · -- both solve the congruence, and a reduced solution is unique
    obtain ⟨k, hk, ⟨hk0, hkn⟩, hcongr⟩ := eqsSolvers_of_coprime a1 a2 hpos hdvd hgcd
    obtain ⟨l, hl, ⟨hl0, hln⟩, hcongr'⟩ :=
      eqsSolvers_of_coprime a2 a1 hpos hdvd' (hgcd'.trans hgcd)
    have hneg : (b1 - b2) * l ≡ a2 - a1 [ZMOD n] := by
      have h := hcongr'.neg
      rwa [← neg_mul, neg_sub, neg_sub] at h
    have hsame : k ≡ l [ZMOD n] := by
      have hcancel := hcongr.trans hneg.symm
      have hone : Int.gcd n (b1 - b2) = 1 := by rwa [Int.gcd_comm]
      have h := Int.ModEq.cancel_left_div_gcd hpos hcancel
      rwa [hone, Nat.cast_one, Int.ediv_one] at h
    have heq : k = l := by
      rw [Int.ModEq, Int.emod_eq_of_lt hk0 hkn, Int.emod_eq_of_lt hl0 hln] at hsame
      exact hsame
    rw [hk, hl, heq]
  · rw [eqsSolvers_of_not_coprime hpos hdvd hgcd,
      eqsSolvers_of_not_coprime hpos hdvd' (hgcd'.symm ▸ hgcd)]

/-- The extracted key depends on the exponents and on the second number `n` alone. -/
theorem keyGen_congr {solutions solutions' : Solutions ℤ} (hn0 : 0 ≤ solutions.2.n)
    (hn : solutions'.2.n = solutions.2.n)
    (hexponents :
      ((solutions'.1.a, solutions'.1.b) = (solutions.1.a, solutions.1.b) ∧
        (solutions'.2.a, solutions'.2.b) = (solutions.2.a, solutions.2.b)) ∨
      ((solutions'.1.a, solutions'.1.b) = (solutions.2.a, solutions.2.b) ∧
        (solutions'.2.a, solutions'.2.b) = (solutions.1.a, solutions.1.b))) :
    SolutionVerifier.keyGen ⟨key⟩ solutions' = SolutionVerifier.keyGen ⟨key⟩ solutions := by
  have hsolved : eqsSolvers solutions'.1.a solutions'.1.b solutions'.2.a solutions'.2.b
      solutions'.2.n =
      eqsSolvers solutions.1.a solutions.1.b solutions.2.a solutions.2.b solutions.2.n := by
    rcases hexponents with ⟨hfirst, hsecond⟩ | ⟨hfirst, hsecond⟩
    · obtain ⟨ha1, hb1⟩ := Prod.mk.inj hfirst
      obtain ⟨ha2, hb2⟩ := Prod.mk.inj hsecond
      rw [hn, ha1, hb1, ha2, hb2]
    · obtain ⟨ha1, hb1⟩ := Prod.mk.inj hfirst
      obtain ⟨ha2, hb2⟩ := Prod.mk.inj hsecond
      rw [hn, ha1, hb1, ha2, hb2, eqsSolvers_comm _ _ _ _ hn0]
  unfold SolutionVerifier.keyGen
  rw [hsolved, hn]

end Verdict

/-- A stored number is determined by the integer it is read as. -/
theorem u256Bigint_injective : Function.Injective u256Bigint := by
  intro x y h
  have hx := bigintU256_u256Bigint x
  rw [h, bigintU256_u256Bigint y] at hx
  exact (Except.ok.inj hx).symm

theorem Solution.fromU256_injective : Function.Injective (Solution.fromU256) := by
  intro s t h
  cases s
  cases t
  simp only [Solution.fromU256, Solution.mk.injEq, u256Bigint_injective.eq_iff] at h
  rw [h.1, h.2.1, h.2.2]

namespace Seal.SameWork

variable {s t : Seal} (h : s.SameWork t)

include h

/-- The exponents agree after reading, too. -/
theorem readExponents :
    ((t.readSolutions.1.a, t.readSolutions.1.b) = (s.readSolutions.1.a, s.readSolutions.1.b) ∧
      (t.readSolutions.2.a, t.readSolutions.2.b) = (s.readSolutions.2.a, s.readSolutions.2.b)) ∨
    ((t.readSolutions.1.a, t.readSolutions.1.b) = (s.readSolutions.2.a, s.readSolutions.2.b) ∧
      (t.readSolutions.2.a, t.readSolutions.2.b) =
        (s.readSolutions.1.a, s.readSolutions.1.b)) := by
  have hread {x y : Solution U256} (hpair : (x.a, x.b) = (y.a, y.b)) :
      (x.fromU256.a, x.fromU256.b) = (y.fromU256.a, y.fromU256.b) := by
    obtain ⟨ha, hb⟩ := Prod.mk.inj hpair
    simp only [Solution.fromU256, ha, hb]
  exact h.exponents.imp (And.imp hread hread) (And.imp hread hread)

theorem readDiffer : t.readSolutions.1 = t.readSolutions.2 ↔
    s.readSolutions.1 = s.readSolutions.2 := by
  simp only [Seal.readSolutions, Solution.fromU256_injective.eq_iff]
  exact not_iff_not.mp h.differ

/-- The work of both seals gets one verdict. -/
theorem verifyWork_eq [Deps] (hrand : RandomInRange) (hread : FromRawReads) (preHash : H256)
    (difficulty : Difficulty) (build : Build) :
    verifyWork t preHash difficulty build = verifyWork s preHash difficulty build := by
  unfold verifyWork
  rw [hread, hread, h.pubkey_eq, h.nonce_eq]
  refine verify_congr hrand s.readSolutions_nonneg t.readSolutions_nonneg h.readDiffer ?_ _
  refine h.readExponents.imp ?_ ?_
  all_goals
    rintro ⟨hfirst, hsecond⟩
    obtain ⟨ha1, hb1⟩ := Prod.mk.inj hfirst
    obtain ⟨ha2, hb2⟩ := Prod.mk.inj hsecond
    exact ⟨PublicKey.product_congr _ ha1 hb1, PublicKey.product_congr _ ha2 hb2⟩

/-- Both seals reveal the same private key. -/
theorem keyGen_eq : SolutionVerifier.keyGen ⟨t.pubkey.read⟩ t.readSolutions =
    SolutionVerifier.keyGen ⟨s.pubkey.read⟩ s.readSolutions := by
  have hn : t.readSolutions.2.n = s.readSolutions.2.n := by
    simp only [Seal.readSolutions, Solution.fromU256, h.n_eq]
  rw [h.pubkey_eq]
  exact keyGen_congr (u256Bigint_bounds _).1 hn h.readExponents

end Seal.SameWork

/-- Some number differs from two given ones. -/
theorem exists_fresh (x y : U256) : ∃ n : U256, n ≠ x ∧ n ≠ y := by
  by_cases h : x + 1 = y
  · refine ⟨x + 2, ?_, ?_⟩
    · bv_omega
    · bv_omega
  · exact ⟨x + 1, by bv_omega, h⟩

/-- A seal with different solutions is one of several with the same work and the same seeds. -/
theorem Seal.exists_sameWork {s : Seal} (hdiffer : s.solutions.1 ≠ s.solutions.2) :
    ∃ t, t ≠ s ∧ t.seeds = s.seeds ∧ s.SameWork t := by
  obtain ⟨n, hfirst, hsecond⟩ := exists_fresh s.solutions.1.n s.solutions.2.n
  have hchanged : ({ s.solutions.1 with n := n } : Solution U256) ≠ s.solutions.1 :=
    fun h => hfirst (congrArg Solution.n h)
  have hapart : ({ s.solutions.1 with n := n } : Solution U256) ≠ s.solutions.2 :=
    fun h => hsecond (congrArg Solution.n h)
  refine ⟨{ s with solutions := ({ s.solutions.1 with n := n }, s.solutions.2) }, ?_, rfl, ?_⟩
  · intro h
    exact hchanged (congrArg (fun u => u.solutions.1) h)
  · exact ⟨rfl, rfl, rfl, .inl ⟨rfl, rfl⟩, rfl, iff_of_true hapart hdiffer⟩

/-- An accepted seal carries two different solutions. -/
theorem differ_of_verifyWork [Deps] {s : Seal} {preHash : H256} {difficulty : Difficulty}
    {build : Build} (h : verifyWork s preHash difficulty build = .ok true) :
    s.solutions.1 ≠ s.solutions.2 := by
  intro hsame
  rw [verifyWork, hsame, SolutionVerifier.verify, if_pos rfl] at h
  cases h

/-- **Seals are malleable.** In either build the verdicts of both algorithms and the private key
that a seal reveals depend on its work alone, so neither on the seeds for the next keys nor on
the order of the solutions. The first number `n` matters only in so far as the two solutions
must stay different, or stay equal, with another one. Hence an accepted seal is never the only
one: another seal with the same seeds and the same work has other bytes and is accepted, too. -/
theorem accepted_seals_malleable [Deps] (hrand : RandomInRange) (hread : FromRawReads)
    (build : Build) (id : BlockId) (preHash : H256) (preDigest : Option (List UInt8))
    (difficulty : Difficulty) :
    (∀ s t : Seal, s.SameWork t →
      TREXAlgo.verify id preHash preDigest t.encode difficulty build =
        TREXAlgo.verify id preHash preDigest s.encode difficulty build ∧
      MinTREXAlgo.verify id preHash preDigest t.encode difficulty build =
        MinTREXAlgo.verify id preHash preDigest s.encode difficulty build ∧
      SolutionVerifier.keyGen ⟨t.pubkey.read⟩ t.readSolutions =
        SolutionVerifier.keyGen ⟨s.pubkey.read⟩ s.readSolutions) ∧
    ∀ s : Seal, MinTREXAlgo.verify id preHash preDigest s.encode difficulty build = .ok true →
      ∃ t : Seal, t.encode ≠ s.encode ∧ t.seeds = s.seeds ∧ s.SameWork t := by
  constructor
  · intro s t h
    have hwork := h.verifyWork_eq hrand hread preHash difficulty build
    rw [TREXAlgo.verify_of_decode id preHash preDigest t.decode_encode,
      TREXAlgo.verify_of_decode id preHash preDigest s.decode_encode,
      MinTREXAlgo.verify_of_decode id preHash preDigest t.decode_encode,
      MinTREXAlgo.verify_of_decode id preHash preDigest s.decode_encode, hwork, h.difficulty_eq,
      h.pubkey_eq]
    refine ⟨rfl, rfl, ?_⟩
    rw [← h.keyGen_eq, h.pubkey_eq]
  · intro s haccepted
    rw [MinTREXAlgo.verify_of_decode id preHash preDigest s.decode_encode] at haccepted
    obtain ⟨t, hne, hseeds, hsame⟩ := Seal.exists_sameWork (differ_of_verifyWork haccepted)
    refine ⟨t, fun h => hne ?_, hseeds, hsame⟩
    have hdecode := congrArg Seal.decode h
    rw [t.decode_encode, s.decode_encode] at hdecode
    exact Option.some.inj hdecode

/-- Another seal than the weak one is accepted for the same work. -/
theorem weakSeal_malleable : ∃ t : Seal, t.encode ≠ weakSeal.encode ∧
    @TREXAlgo.verify Deps.sample (.number 0) (.replicate 32 0) none t.encode 48 .checked =
      .ok true := by
  obtain ⟨hverdicts, hother⟩ := @accepted_seals_malleable Deps.sample Deps.sample.randomInRange
    Deps.sample.fromRawReads .checked (.number 0) (.replicate 32 0) none 48
  have hminimal : @MinTREXAlgo.verify Deps.sample (.number 0) (.replicate 32 0) none
      weakSeal.encode 48 .checked = .ok true := by
    let _ := Deps.sample
    rw [MinTREXAlgo.verify_of_decode _ _ _ weakSeal.decode_encode]
    decide +kernel
  obtain ⟨t, hne, -, hsame⟩ := hother weakSeal hminimal
  exact ⟨t, hne, (hverdicts weakSeal t hsame).1.trans (weakSeal_accepted .checked).1⟩

end TrexPow
