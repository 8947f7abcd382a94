import TrexPow.Acceptance

/-!
# What an accepted seal promises, and which seals stop a node

A raw seal is chosen by whoever made the block. This file follows it through
both algorithms: what acceptance says about the size of its key, and which seals
make verification panic instead of rejecting them. The subtractions of the hash tester
are the only step of verification that depends on the build.
-/

namespace TrexPow

/-- The solutions of a seal as the verifier reads them. -/
def Seal.readSolutions (s : Seal) : Solutions ℤ := (s.solutions.1.fromU256, s.solutions.2.fromU256)

/-- The header computer against which a seal is checked. -/
def Seal.header (s : Seal) (preHash : H256) (difficulty : Difficulty) : Compute :=
  ⟨difficulty, preHash, s.nonce⟩

theorem Seal.readSolutions_nonneg (s : Seal) : Nonneg s.readSolutions :=
  ⟨⟨(u256Bigint_bounds _).1, (u256Bigint_bounds _).1⟩, (u256Bigint_bounds _).1,
    (u256Bigint_bounds _).1⟩

/-- The widened bit length of a key equals a difficulty when their values do. -/
theorem bitLength_eq_iff {bitLength : U32} {difficulty : Difficulty} :
    difficulty = bitLength.setWidth 128 ↔ bitLength.toNat = difficulty.toNat := by
  have hmod : bitLength.toNat % 2 ^ 128 = bitLength.toNat :=
    Nat.mod_eq_of_lt (bitLength.isLt.trans (by norm_num))
  rw [← BitVec.toNat_inj, BitVec.toNat_setWidth, hmod, eq_comm]

section Decoded

variable [Deps] (parent : BlockId) (preHash : H256) (preDigest : Option (List UInt8))
  {raw : List UInt8} {s : Seal} {difficulty : Difficulty} {build : Build}

/-- The minimal algorithm checks nothing but the work. -/
theorem MinTREXAlgo.verify_of_decode (hs : Seal.decode raw = some s) :
    MinTREXAlgo.verify parent preHash preDigest raw difficulty build =
      verifyWork s preHash difficulty build := by
  simp only [MinTREXAlgo.verify, hs]

/-- The complete algorithm compares both declared difficulties before the work. -/
theorem TREXAlgo.verify_of_decode (hs : Seal.decode raw = some s) :
    TREXAlgo.verify parent preHash preDigest raw difficulty build =
      if s.difficulty = difficulty ∧ s.pubkey.bitLength.toNat = difficulty.toNat then
        verifyWork s preHash difficulty build
      else .ok false := by
  simp only [TREXAlgo.verify, hs, hashMeetsDifficulty]
  by_cases hd : s.difficulty = difficulty
  · subst hd
    simp only [decide_true, Bool.not_true, Bool.false_eq_true, if_false, bitLength_eq_iff, true_and,
      Bool.not_eq_true', decide_eq_false_iff_not, ite_not]
    rfl
  · simp only [hd, decide_false, Bool.not_false, if_true, false_and, if_false]
    rfl

/-- Verification of the work of a seal panics exactly on the crashing inputs. -/
theorem verifyWork_returns_iff (hrand : RandomInRange) (hread : FromRawReads) (s : Seal) :
    (∃ b, verifyWork s preHash difficulty = .ok b) ↔
      ¬Crashes s.pubkey.read s.readSolutions (s.header preHash difficulty) := by
  rw [← SolutionVerifier.verify_returns_iff hrand s.readSolutions_nonneg, verifyWork, hread]
  rfl

/-- Two different solutions that collide and meet the header, whatever the hash tester. -/
def Seal.Meets (s : Seal) (preHash : H256) (difficulty : Difficulty) : Prop :=
  3 ≤ s.pubkey.p.toNat ∧ s.readSolutions.1 ≠ s.readSolutions.2 ∧
    s.pubkey.read.Collides s.readSolutions ∧
    s.pubkey.read.MeetsHeader s.readSolutions (s.header preHash difficulty)

/-- The work of a seal: two different solutions that collide, meet the header and
stand at a distinguished point. -/
def Seal.Works (s : Seal) (preHash : H256) (difficulty : Difficulty)
    (build : Build := .checked) : Prop :=
  s.Meets preHash difficulty ∧
    ∃ hashDiff, s.pubkey.read.hashDiff build = .ok hashDiff ∧
      (s.pubkey.read.headerState s.readSolutions.1 (s.header preHash difficulty)).overflowed
        hashDiff = false

/-- Verification of the work of a seal accepts exactly the seals that do the work. -/
theorem verifyWork_true_iff (hrand : RandomInRange) (hread : FromRawReads) (s : Seal) :
    verifyWork s preHash difficulty build = .ok true ↔ s.Works preHash difficulty build := by
  have hthree : 3 ≤ s.pubkey.read.p ↔ 3 ≤ s.pubkey.p.toNat := by
    simp only [RawPublicKey.read]
    omega
  rw [Seal.Works, Seal.Meets, ← hthree, and_assoc, and_assoc, and_assoc,
    ← SolutionVerifier.verify_eq_true_iff hrand s.readSolutions_nonneg, verifyWork, hread]
  rfl

/-- For the bit lengths that are too short for the hash tester, the work is never done with
overflow checks. Without them every point counts as distinguished. -/
theorem Seal.works_of_short
    (hshort : s.pubkey.bitLength.toNat < 16 ∨ s.pubkey.bitLength.toNat = 17) :
    s.Works preHash difficulty build ↔ build = .release ∧ s.Meets preHash difficulty := by
  cases build with
  | checked =>
    have hnone : ¬∃ hashDiff, s.pubkey.read.hashDiff = .ok hashDiff :=
      fun h => PublicKey.hashDiff_ok_iff.mp h hshort
    constructor
    · rintro ⟨-, hashDiff, htester, -⟩
      exact absurd ⟨hashDiff, htester⟩ hnone
    · rintro ⟨hbuild, -⟩
      cases hbuild
  | release =>
    have hread : s.pubkey.read.bitLength.toNat < 16 ∨ s.pubkey.read.bitLength.toNat = 17 := hshort
    obtain ⟨hashDiff, htester, hle⟩ := PublicKey.hashDiff_release_short hread
    constructor
    · rintro ⟨hmeets, -⟩
      exact ⟨rfl, hmeets⟩
    · rintro ⟨-, hmeets⟩
      exact ⟨hmeets, hashDiff, htester, State.overflowed_of_le_one _ hle⟩

/-- For all other bit lengths the two builds agree. -/
theorem verifyWork_release (hread : FromRawReads)
    (hlong : ¬(s.pubkey.bitLength.toNat < 16 ∨ s.pubkey.bitLength.toNat = 17)) :
    verifyWork s preHash difficulty .release = verifyWork s preHash difficulty := by
  rw [verifyWork, verifyWork, hread]
  exact SolutionVerifier.verify_release hlong

end Decoded

/-- A key that is a genuine puzzle of `bits` bits. -/
def RawPublicKey.Genuine (key : RawPublicKey) (bits : ℕ) : Prop :=
  key.bitLength.toNat = bits ∧ (2 ^ (bits - 1) ≤ key.p.toNat ∧ key.p.toNat < 2 ^ bits) ∧
    (1 < key.g.toNat ∧ key.g.toNat < key.p.toNat) ∧ 1 < key.h.toNat ∧ key.h.toNat < key.p.toNat

/-- A key whose modulus has the length the key itself declares, and whose group
elements are neither trivial nor unreduced. -/
def RawPublicKey.Consistent (key : RawPublicKey) : Prop :=
  (2 ^ (key.bitLength.toNat - 1) ≤ key.p.toNat ∧ key.p.toNat < 2 ^ key.bitLength.toNat) ∧
    (1 < key.g.toNat ∧ key.g.toNat < key.p.toNat) ∧ 1 < key.h.toNat ∧ key.h.toNat < key.p.toNat

instance (key : RawPublicKey) (bits : ℕ) : Decidable (key.Genuine bits) :=
  inferInstanceAs (Decidable (_ ∧ _))

instance (key : RawPublicKey) : Decidable key.Consistent :=
  inferInstanceAs (Decidable (_ ∧ _))

/-- A genuine puzzle is a consistent key of the right length. -/
theorem RawPublicKey.genuine_iff {key : RawPublicKey} {bits : ℕ} :
    key.Genuine bits ↔ key.bitLength.toNat = bits ∧ key.Consistent := by
  unfold Genuine Consistent
  constructor
  · rintro ⟨rfl, hrest⟩
    exact ⟨rfl, hrest⟩
  · rintro ⟨rfl, hrest⟩
    exact ⟨rfl, hrest⟩

/-- **What acceptance says about the key.** In either build an accepted seal carries a genuine
puzzle of the required difficulty exactly when its key is consistent with the bit
length it declares, which neither algorithm checks. The minimal algorithm does not
even compare the declared length with its difficulty. The lengths too short for the hash
tester never pass it with overflow checks, and always without them. -/
theorem accepted_key_genuine_iff [Deps] (hrand : RandomInRange) (hread : FromRawReads)
    (build : Build) (parent : BlockId) (preHash : H256) (preDigest : Option (List UInt8))
    (raw : List UInt8) :
    (∀ difficulty : Difficulty,
      (TREXAlgo.verify parent preHash preDigest raw difficulty build = .ok true →
        ∃ s, Seal.decode raw = some s ∧ s.pubkey.Genuine difficulty.toNat) ↔
      ¬∃ s, Seal.decode raw = some s ∧ s.difficulty = difficulty ∧
        s.pubkey.bitLength.toNat = difficulty.toNat ∧ s.Works preHash difficulty build ∧
        ¬s.pubkey.Consistent) ∧
    ((MinTREXAlgo.verify parent preHash preDigest raw MinTREXAlgo.difficulty build = .ok true →
        ∃ s, Seal.decode raw = some s ∧ s.pubkey.Genuine MinTREXAlgo.difficulty.toNat) ↔
      ¬∃ s, Seal.decode raw = some s ∧ s.Works preHash MinTREXAlgo.difficulty build ∧
        ¬(s.pubkey.bitLength.toNat = MinTREXAlgo.difficulty.toNat ∧ s.pubkey.Consistent)) ∧
    ∀ (s : Seal) (difficulty : Difficulty),
      s.pubkey.bitLength.toNat < 16 ∨ s.pubkey.bitLength.toNat = 17 →
      (s.Works preHash difficulty build ↔ build = .release ∧ s.Meets preHash difficulty) := by
  cases hs : Seal.decode raw with
  | none =>
    refine ⟨?_, ?_, fun s difficulty => Seal.works_of_short preHash⟩
    · simp [TREXAlgo.verify, hs]
    · simp [MinTREXAlgo.verify, hs]
  | some s =>
    refine ⟨?_, ?_, fun s difficulty => Seal.works_of_short preHash⟩
    · intro difficulty
      rw [TREXAlgo.verify_of_decode parent preHash preDigest hs]
      by_cases hdeclared :
          s.difficulty = difficulty ∧ s.pubkey.bitLength.toNat = difficulty.toNat
      · rw [if_pos hdeclared, verifyWork_true_iff preHash hrand hread]
        simp [RawPublicKey.genuine_iff, hdeclared.1, hdeclared.2]
      · rw [if_neg hdeclared]
        simp only [Option.some.injEq, Except.ok.injEq, Bool.false_eq_true, false_imp_iff, true_iff]
        rintro ⟨t, rfl, hd, hb, -⟩
        exact hdeclared ⟨hd, hb⟩
    · rw [MinTREXAlgo.verify_of_decode parent preHash preDigest hs,
        verifyWork_true_iff preHash hrand hread]
      simp [RawPublicKey.genuine_iff]

/-- The two builds give the same verdicts on the difficulties of the chain. -/
theorem TREXAlgo.verify_release [Deps] (hread : FromRawReads)
    (parent : BlockId) (preHash : H256) (preDigest : Option (List UInt8)) (raw : List UInt8)
    (difficulty : Difficulty) (hmin : 48 ≤ difficulty.toNat) :
    TREXAlgo.verify parent preHash preDigest raw difficulty .release =
      TREXAlgo.verify parent preHash preDigest raw difficulty := by
  cases hs : Seal.decode raw with
  | none => simp only [TREXAlgo.verify, hs]
  | some s =>
    rw [TREXAlgo.verify_of_decode parent preHash preDigest hs,
      TREXAlgo.verify_of_decode parent preHash preDigest hs]
    by_cases hdeclared : s.difficulty = difficulty ∧ s.pubkey.bitLength.toNat = difficulty.toNat
    · have hlong : ¬(s.pubkey.bitLength.toNat < 16 ∨ s.pubkey.bitLength.toNat = 17) := by omega
      rw [if_pos hdeclared, if_pos hdeclared, verifyWork_release preHash hread hlong]
    · rw [if_neg hdeclared, if_neg hdeclared]

/-- A seal for difficulty 48 with a three-bit modulus and trivial group elements. -/
def weakSeal : Seal where
  difficulty := 48
  pubkey := ⟨7, 1, 1, 48⟩
  seeds := .replicate keychainLen (.u128 1)
  solutions := (⟨0, 0, 0⟩, ⟨1, 0, 0⟩)
  nonce := 0

/-- Both algorithms accept the weak seal, the minimal one at its own difficulty. -/
theorem weakSeal_accepted (build : Build) :
    @TREXAlgo.verify Deps.sample (.number 0) (.replicate 32 0) none weakSeal.encode 48 build =
        .ok true ∧
      @MinTREXAlgo.verify Deps.sample (.number 0) (.replicate 32 0) none weakSeal.encode
        MinTREXAlgo.difficulty build = .ok true := by
  let _ := Deps.sample
  rw [TREXAlgo.verify_of_decode _ _ _ weakSeal.decode_encode,
    MinTREXAlgo.verify_of_decode _ _ _ weakSeal.decode_encode]
  cases build with
  | checked => decide +kernel
  | release => decide +kernel

/-- An accepted seal need not carry a puzzle of the required difficulty, in any build. -/
theorem accepted_key_not_genuine :
    ¬∃ build, (∀ raw : List UInt8,
        @TREXAlgo.verify Deps.sample (.number 0) (.replicate 32 0) none raw 48 build = .ok true →
          ∃ s, Seal.decode raw = some s ∧ s.pubkey.Genuine 48) ∨
      (∀ raw : List UInt8,
        @MinTREXAlgo.verify Deps.sample (.number 0) (.replicate 32 0) none raw
          MinTREXAlgo.difficulty build = .ok true →
          ∃ s, Seal.decode raw = some s ∧ s.pubkey.Genuine MinTREXAlgo.difficulty.toNat) := by
  rintro ⟨build, h⟩
  obtain ⟨htrex, hmin⟩ := weakSeal_accepted build
  rcases h with h | h
  · obtain ⟨s, hs, hgenuine⟩ := h _ htrex
    rw [Seal.decode_encode, Option.some.injEq] at hs
    subst hs
    exact absurd hgenuine (by decide)
  · obtain ⟨s, hs, hgenuine⟩ := h _ hmin
    rw [Seal.decode_encode, Option.some.injEq] at hs
    subst hs
    exact absurd hgenuine (by decide)

/-- A seal with a key of the difficulty it declares: `g` and `h` have order two. -/
def genuineSeal (bits : ℕ) : Seal :=
  { weakSeal with
    difficulty := .ofNat 128 bits
    pubkey := ⟨.ofNat 256 (2 ^ (bits - 1) + 1), .ofNat 256 (2 ^ (bits - 1)),
      .ofNat 256 (2 ^ (bits - 1)), .ofNat 32 bits⟩
    solutions := (⟨0, 0, 0⟩, ⟨2, 0, 0⟩) }

/-- The weak seal with a bit length below 16. -/
def shortSeal : Seal :=
  { weakSeal with pubkey := ⟨7, 1, 1, 8⟩ }

/-- The genuine seals are accepted and their keys are puzzles. The minimal algorithm accepts the
short seal as well, but only without overflow checks. -/
theorem genuineSeal_genuine :
    (@TREXAlgo.verify Deps.sample (.number 0) (.replicate 32 0) none (genuineSeal 48).encode 48
        .checked = .ok true ∧
      ∃ s, Seal.decode (genuineSeal 48).encode = some s ∧
        s.pubkey.Genuine (48 : Difficulty).toNat) ∧
    (@MinTREXAlgo.verify Deps.sample (.number 0) (.replicate 32 0) none (genuineSeal 56).encode
        MinTREXAlgo.difficulty .checked = .ok true ∧
      ∃ s, Seal.decode (genuineSeal 56).encode = some s ∧
        s.pubkey.Genuine MinTREXAlgo.difficulty.toNat) ∧
    ∀ build, ¬(@MinTREXAlgo.verify Deps.sample (.number 0) (.replicate 32 0) none shortSeal.encode
        MinTREXAlgo.difficulty build = .ok true →
      ∃ s, Seal.decode shortSeal.encode = some s ∧
        s.pubkey.Genuine MinTREXAlgo.difficulty.toNat) ↔ build = .release := by
  let _ := Deps.sample
  have hiff (build : Build) (raw : List UInt8) := accepted_key_genuine_iff
    Deps.sample.randomInRange Deps.sample.fromRawReads build (.number 0) (.replicate 32 0) none raw
  refine ⟨?_, ?_, fun build => ?_⟩
  · have haccepted : TREXAlgo.verify (.number 0) (.replicate 32 0) none (genuineSeal 48).encode
        48 = .ok true := by
      rw [TREXAlgo.verify_of_decode _ _ _ (genuineSeal 48).decode_encode]
      decide +kernel
    refine ⟨haccepted, ((hiff _ _).1 48).mpr ?_ haccepted⟩
    rintro ⟨s, hs, -, -, -, hkey⟩
    rw [Seal.decode_encode, Option.some.injEq] at hs
    subst hs
    exact hkey (by decide)
  · have haccepted : MinTREXAlgo.verify (.number 0) (.replicate 32 0) none
        (genuineSeal 56).encode MinTREXAlgo.difficulty = .ok true := by
      rw [MinTREXAlgo.verify_of_decode _ _ _ (genuineSeal 56).decode_encode]
      decide +kernel
    refine ⟨haccepted, (hiff _ _).2.1.mpr ?_ haccepted⟩
    rintro ⟨s, hs, -, hkey⟩
    rw [Seal.decode_encode, Option.some.injEq] at hs
    subst hs
    exact hkey (by decide)
  · rw [(hiff build _).2.1, not_not, Seal.decode_encode]
    have hmeets : shortSeal.Meets (.replicate 32 0) MinTREXAlgo.difficulty := by
      unfold Seal.Meets
      decide +kernel
    have hkey : ¬(shortSeal.pubkey.bitLength.toNat = MinTREXAlgo.difficulty.toNat ∧
        shortSeal.pubkey.Consistent) := by decide
    have hworks := (hiff build shortSeal.encode).2.2 shortSeal MinTREXAlgo.difficulty
      (by decide)
    constructor
    · rintro ⟨s, hs, hwork, -⟩
      rw [Option.some.injEq] at hs
      subst hs
      exact (hworks.mp hwork).1
    · intro hbuild
      exact ⟨shortSeal, rfl, hworks.mpr ⟨hbuild, hmeets⟩, hkey⟩

/-- **When verification returns.** The complete algorithm panics exactly on the
seals that declare the required difficulty, carry two different solutions, and
have modulus zero or a collision modulo one or two. The minimal algorithm panics
on these and on collisions for which the hash tester is missing. -/
theorem sealVerification_returns_iff [Deps] (hrand : RandomInRange) (hread : FromRawReads)
    (parent : BlockId) (preHash : H256) (preDigest : Option (List UInt8)) (raw : List UInt8)
    (difficulty : Difficulty) (hmin : 48 ≤ difficulty.toNat) :
    ((∃ b, TREXAlgo.verify parent preHash preDigest raw difficulty = .ok b) ↔
      ¬∃ s, Seal.decode raw = some s ∧ s.difficulty = difficulty ∧
        s.pubkey.bitLength.toNat = difficulty.toNat ∧
        s.readSolutions.1 ≠ s.readSolutions.2 ∧
        (s.pubkey.p.toNat = 0 ∨
          s.pubkey.p.toNat ≤ 2 ∧ s.pubkey.read.Collides s.readSolutions)) ∧
    ((∃ b, MinTREXAlgo.verify parent preHash preDigest raw difficulty = .ok b) ↔
      ¬∃ s, Seal.decode raw = some s ∧ s.readSolutions.1 ≠ s.readSolutions.2 ∧
        (s.pubkey.p.toNat = 0 ∨
          (s.pubkey.p.toNat ≤ 2 ∧ s.pubkey.read.Collides s.readSolutions) ∨
          (s.pubkey.read.Collides s.readSolutions ∧
            s.pubkey.read.MeetsHeader s.readSolutions (s.header preHash difficulty) ∧
            (s.pubkey.bitLength.toNat < 16 ∨ s.pubkey.bitLength.toNat = 17)))) := by
  cases hs : Seal.decode raw with
  | none => simp [TREXAlgo.verify, MinTREXAlgo.verify, hs]
  | some s =>
    have hzero : s.pubkey.read.p = 0 ↔ s.pubkey.p.toNat = 0 := by
      simp [RawPublicKey.read]
    have htwo : s.pubkey.read.p ≤ 2 ↔ s.pubkey.p.toNat ≤ 2 := by
      simp only [RawPublicKey.read]
      omega
    have hbits : s.pubkey.read.bitLength = s.pubkey.bitLength := rfl
    constructor
    · rw [TREXAlgo.verify_of_decode parent preHash preDigest hs]
      by_cases hdeclared :
          s.difficulty = difficulty ∧ s.pubkey.bitLength.toNat = difficulty.toNat
      · -- the declared length equals the difficulty, so the hash tester exists
        have hlong : ¬(s.pubkey.bitLength.toNat < 16 ∨ s.pubkey.bitLength.toNat = 17) := by omega
        rw [if_pos hdeclared, verifyWork_returns_iff preHash hrand hread]
        simp only [Crashes, hzero, htwo, hbits, hlong, and_false, or_false]
        simp [hdeclared.1, hdeclared.2]
      · rw [if_neg hdeclared]
        simp only [Except.ok.injEq, exists_eq', true_iff]
        rintro ⟨t, ht, hd, hb, -⟩
        obtain rfl := Option.some.inj ht
        exact hdeclared ⟨hd, hb⟩
    · rw [MinTREXAlgo.verify_of_decode parent preHash preDigest hs,
        verifyWork_returns_iff preHash hrand hread]
      simp [Crashes, hzero, htwo, hbits]

/-- A seal with modulus zero and two different solutions. -/
def zeroModulusSeal : Seal :=
  { weakSeal with pubkey := ⟨0, 0, 0, 48⟩ }

/-- Both algorithms panic on the seal with modulus zero. -/
theorem verify_panics :
    ¬((∃ b, @TREXAlgo.verify Deps.sample (.number 0) (.replicate 32 0) none zeroModulusSeal.encode
        48 .checked = .ok b) ∨
      ∃ b, @MinTREXAlgo.verify Deps.sample (.number 0) (.replicate 32 0) none
        zeroModulusSeal.encode 48 .checked = .ok b) := by
  let _ := Deps.sample
  rw [TREXAlgo.verify_of_decode _ _ _ zeroModulusSeal.decode_encode,
    MinTREXAlgo.verify_of_decode _ _ _ zeroModulusSeal.decode_encode]
  have hpanic : verifyWork zeroModulusSeal (.replicate 32 0) 48 = .error .unwrapNone := by
    decide +kernel
  have hdeclared : zeroModulusSeal.difficulty = 48 ∧
      zeroModulusSeal.pubkey.bitLength.toNat = (48 : Difficulty).toNat := by decide
  rw [if_pos hdeclared, hpanic]
  rintro (⟨b, hb⟩ | ⟨b, hb⟩) <;> cases hb

/-- The characterisation on the sample, for the weak seal, whose modulus is large enough. -/
theorem weakSeal_returns :
    ∃ b, @TREXAlgo.verify Deps.sample (.number 0) (.replicate 32 0) none weakSeal.encode 48
      .checked = .ok b := by
  refine ((@sealVerification_returns_iff Deps.sample Deps.sample.randomInRange
    Deps.sample.fromRawReads (.number 0) (.replicate 32 0) none weakSeal.encode 48
    (by decide)).1).mpr ?_
  rintro ⟨s, hs, -, -, -, hp⟩
  rw [Seal.decode_encode, Option.some.injEq] at hs
  subst hs
  have hmodulus : weakSeal.pubkey.p.toNat = 7 := by decide
  omega

/-- **Canonical seals.** The bytes of an accepted seal are its encoding exactly when
decoding leaves none of them unread. Every raw seal that decodes to the same seal is
accepted as well, and it has the same bytes exactly when it has the same unread ones. -/
theorem accepted_canonical_iff [Deps] {parent : BlockId} {preHash : H256}
    {preDigest : Option (List UInt8)} {raw : List UInt8} {difficulty : Difficulty}
    (haccepted : TREXAlgo.verify parent preHash preDigest raw difficulty = .ok true) :
    ∃ s, Seal.decode raw = some s ∧ (raw = s.encode ↔ Seal.unread raw = some []) ∧
      ∀ raw', Seal.decode raw' = some s →
        TREXAlgo.verify parent preHash preDigest raw' difficulty = .ok true ∧
          (raw' = raw ↔ Seal.unread raw' = Seal.unread raw) := by
  cases hs : Seal.decode raw with
  | none => simp [TREXAlgo.verify, hs] at haccepted
  | some s =>
    obtain ⟨rest, hread, hunread⟩ := Seal.exists_rest hs
    refine ⟨s, rfl, ?_, ?_⟩
    · rw [hunread, Option.some.injEq]
      exact Seal.codec.eq_encode_iff hread
    · intro raw' hs'
      obtain ⟨rest', hread', hunread'⟩ := Seal.exists_rest hs'
      constructor
      · rw [TREXAlgo.verify_of_decode parent preHash preDigest hs']
        rwa [TREXAlgo.verify_of_decode parent preHash preDigest hs] at haccepted
      · rw [hunread, hunread', Option.some.injEq, Seal.codec.decode_eq_some_iff.mp hread,
          Seal.codec.decode_eq_some_iff.mp hread', List.append_cancel_left_eq]

/-- Nothing of the encoded weak seal is left unread. -/
theorem weakSeal_canonical : Seal.unread weakSeal.encode = some [] := by
  obtain ⟨s, hs, hcanonical, -⟩ := @accepted_canonical_iff Deps.sample _ _ _ _ _
    (weakSeal_accepted .checked).1
  obtain rfl : weakSeal = s := by
    rw [Seal.decode_encode] at hs
    exact Option.some.inj hs
  exact hcanonical.mp rfl

/-- One more byte behind the weak seal does not matter to the verifier. -/
theorem accepted_not_canonical :
    ¬∀ (parent : BlockId) (preHash : H256) (preDigest : Option (List UInt8)) (raw : List UInt8)
        (difficulty : Difficulty) (s : Seal),
      @TREXAlgo.verify Deps.sample parent preHash preDigest raw difficulty .checked = .ok true →
        Seal.decode raw = some s → raw = s.encode := by
  intro h
  let _ := Deps.sample
  have hdecode : Seal.decode (weakSeal.encode ++ [0]) = some weakSeal := by
    rw [Seal.decode, Seal.encode, Seal.codec.decode_encode, Option.map_some]
  have haccepted := (weakSeal_accepted .checked).1
  rw [TREXAlgo.verify_of_decode _ _ _ weakSeal.decode_encode,
    ← TREXAlgo.verify_of_decode (.number 0) _ none hdecode] at haccepted
  have hencode := h _ _ _ _ _ _ haccepted hdecode
  exact absurd hencode (by simp)

end TrexPow
