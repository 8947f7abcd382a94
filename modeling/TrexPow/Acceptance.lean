import TrexPow.Verifier
import TrexPow.Walk

/-!
# When the verifier accepts, rejects or panics

The verifier's chain of checks in terms of the public key's arithmetic. For a
modulus of at least three the outcome is decided by the collision of the two
products, by the header's hash and by the distinguished point. Smaller moduli
make the verifier panic once the earlier checks pass.
-/

namespace TrexPow

/-- The two solutions describe the same group element. -/
def PublicKey.Collides (key : PublicKey) (solutions : Solutions ℤ) : Prop :=
  key.product solutions.1 % key.p = key.product solutions.2 % key.p

/-- The work that the header's hash makes of the header's nonce. -/
def PublicKey.headerWork [Deps] (key : PublicKey) (header : Compute) : ℤ :=
  key.nextWork (Hash.hashInteger header % key.p) (u256Bigint header.nonce)

/-- The first solution describes the work of the header. -/
def PublicKey.MeetsHeader [Deps] (key : PublicKey) (solutions : Solutions ℤ)
    (header : Compute) : Prop :=
  key.product solutions.1 % key.p = key.headerWork header

/-- The state whose hash decides whether the header is at a distinguished point. -/
def PublicKey.headerState [Deps] (key : PublicKey) (solution : Solution ℤ) (header : Compute) :
    State ℤ :=
  ⟨solution, u256Bigint header.nonce, key.headerWork header, key⟩

/-- The exponents of both solutions are nonnegative, as all exponents read from a seal are. -/
def Nonneg (solutions : Solutions ℤ) : Prop :=
  (0 ≤ solutions.1.a ∧ 0 ≤ solutions.1.b) ∧ 0 ≤ solutions.2.a ∧ 0 ≤ solutions.2.b

instance (key : PublicKey) (solutions : Solutions ℤ) : Decidable (key.Collides solutions) :=
  inferInstanceAs (Decidable (_ = _))

instance [Deps] (key : PublicKey) (solutions : Solutions ℤ) (header : Compute) :
    Decidable (key.MeetsHeader solutions header) :=
  inferInstanceAs (Decidable (_ = _))

/-- The hash of a state does not depend on its solution. -/
theorem State.overflowed_solution [Deps] (key : PublicKey) (s t : Solution ℤ) (nonce work : ℤ)
    (hashDiff : U256) : State.overflowed ⟨s, nonce, work, key⟩ hashDiff =
      State.overflowed ⟨t, nonce, work, key⟩ hashDiff := rfl

/-- With overflow checks the hash tester is missing exactly for the bit lengths below 16
and for 17. -/
theorem PublicKey.hashDiff_ok_iff {key : PublicKey} :
    (∃ hashDiff, key.hashDiff = .ok hashDiff) ↔
      ¬(key.bitLength.toNat < 16 ∨ key.bitLength.toNat = 17) := by
  simp only [hashDiff, Build.checked_sub, checkedSub, pointDstFactor]
  by_cases hsmall : key.bitLength.toNat / 2 < 8
  · simp only [if_pos hsmall, Rust.error_bind, reduceCtorEq, exists_false, false_iff, not_not]
    omega
  · rw [if_neg hsmall]
    simp only [Rust.ok_bind]
    split_ifs with hodd hshift
    · simp only [Rust.error_bind, reduceCtorEq, exists_false, false_iff, not_not]
      omega
    · simp only [Rust.ok_bind, Rust.pure_eq_ok, Except.ok.injEq, exists_eq', true_iff]
      omega
    · simp only [Rust.pure_eq_ok, Except.ok.injEq, exists_eq', true_iff]
      omega

/-- Without overflow checks the hash tester is the same wherever the checks find nothing. -/
theorem PublicKey.hashDiff_release_of_ok {key : PublicKey} {hashDiff : U256}
    (h : key.hashDiff = .ok hashDiff) : key.hashDiff .release = .ok hashDiff := by
  have hlt : key.bitLength.toNat < 2 ^ 32 := key.bitLength.isLt
  have hlong := PublicKey.hashDiff_ok_iff.mp ⟨hashDiff, h⟩
  have hshift : (key.bitLength.toNat / 2 + (2 ^ 32 - 8)) % 2 ^ 32 =
      key.bitLength.toNat / 2 - 8 := by omega
  simp only [PublicKey.hashDiff, Build.checked_sub, Build.release_sub, checkedSub, pointDstFactor,
    Rust.ok_bind, hshift, if_neg (show ¬key.bitLength.toNat / 2 < 8 by omega)] at h ⊢
  by_cases hodd : key.bitLength.toNat % 2 ≠ 0
  · have hhalf : (key.bitLength.toNat / 2 - 8 + (2 ^ 32 - 1)) % 2 ^ 32 =
        key.bitLength.toNat / 2 - 8 - 1 := by omega
    rw [if_pos hodd] at h ⊢
    rw [if_neg (show ¬key.bitLength.toNat / 2 - 8 < 1 by omega)] at h
    rw [hhalf]
    exact h
  · rw [if_neg hodd] at h ⊢
    exact h

/-- Where they find a subtraction below zero, the shift wraps to one that leaves nothing of
the word, and the tester is zero, or one for 17 bits. -/
theorem PublicKey.hashDiff_release_short {key : PublicKey}
    (hshort : key.bitLength.toNat < 16 ∨ key.bitLength.toNat = 17) :
    ∃ hashDiff, key.hashDiff .release = .ok hashDiff ∧ hashDiff.toNat ≤ 1 := by
  have hgone (n : ℕ) (hn : 256 ≤ n) : 1#256 <<< n = 0#256 := BitVec.shiftLeft_eq_zero hn
  simp only [PublicKey.hashDiff, Build.release_sub, pointDstFactor, Rust.ok_bind]
  rcases hshort with hsmall | hseventeen
  · have hshift : 256 ≤ (key.bitLength.toNat / 2 + (2 ^ 32 - 8)) % 2 ^ 32 := by omega
    have hhalf : 256 ≤ ((key.bitLength.toNat / 2 + (2 ^ 32 - 8)) % 2 ^ 32 + (2 ^ 32 - 1)) %
        2 ^ 32 := by omega
    rw [hgone _ hshift, hgone _ hhalf]
    split_ifs with hodd
    · exact ⟨_, rfl, by decide⟩
    · exact ⟨_, rfl, by decide⟩
  · have hhalf : 256 ≤ ((17 / 2 + (2 ^ 32 - 8)) % 2 ^ 32 + (2 ^ 32 - 1)) % 2 ^ 32 := by norm_num
    rw [hseventeen, hgone _ hhalf, if_pos (by decide)]
    exact ⟨_, rfl, by decide⟩

/-- No hash fails a tester of at most one. -/
theorem State.overflowed_of_le_one [Deps] (state : State ℤ) {hashDiff : U256}
    (h : hashDiff.toNat ≤ 1) : state.overflowed hashDiff = false := by
  have hlt : state.hashEncode.toNat < 2 ^ 256 := state.hashEncode.isLt
  have hmul := Nat.mul_le_mul_left state.hashEncode.toNat h
  simp only [State.overflowed, overflowingMul, decide_eq_false_iff_not, not_le]
  omega

/-- The inputs on which the verifier panics. -/
def Crashes [Deps] (key : PublicKey) (solutions : Solutions ℤ) (header : Compute) : Prop :=
  solutions.1 ≠ solutions.2 ∧
    (key.p = 0 ∨ (key.p ≤ 2 ∧ key.Collides solutions) ∨
      (key.Collides solutions ∧ key.MeetsHeader solutions header ∧
        (key.bitLength.toNat < 16 ∨ key.bitLength.toNat = 17)))

namespace SolutionVerifier

variable {key : PublicKey} {solutions : Solutions ℤ}

/-- One side of the equation is the product its solution describes. -/
theorem derive_ok {solution : Solution ℤ} (hp : key.p ≠ 0) (ha : 0 ≤ solution.a)
    (hb : 0 ≤ solution.b) :
    derive ⟨key⟩ solution = .ok (key.product solution % key.p) := by
  simp only [derive, Rug.powModRef_of_nonneg hp ha, Rug.powModRef_of_nonneg hp hb, unwrap_some,
    Rust.ok_bind, Rug.divRemEuc_of_ne_zero hp]
  rw [PublicKey.product, ← Int.mul_emod]

variable [Deps] {header : Compute} {build : Build}

/-- Equal solutions are rejected, whatever the key. -/
theorem verify_of_eq (heq : solutions.1 = solutions.2) :
    verify ⟨key⟩ solutions header build = .ok false := by
  rw [verify, if_pos heq]
  rfl

/-- Different solutions make the verifier panic on modulus zero. -/
theorem verify_of_zero (hp : key.p = 0) (hne : solutions.1 ≠ solutions.2) :
    verify ⟨key⟩ solutions header build = .error .unwrapNone := by
  simp only [verify, if_neg hne, derive, hp, Rug.powModRef_zero_modulus, unwrap_none,
    Rust.error_bind]

/-- Solutions that do not collide are rejected. -/
theorem verify_of_not_collides (hp : key.p ≠ 0) (hnonneg : Nonneg solutions)
    (hne : solutions.1 ≠ solutions.2) (hcol : ¬key.Collides solutions) :
    verify ⟨key⟩ solutions header build = .ok false := by
  obtain ⟨⟨ha1, hb1⟩, ha2, hb2⟩ := hnonneg
  simp only [verify, if_neg hne, derive_ok hp ha1 hb1, derive_ok hp ha2 hb2, Rust.ok_bind]
  exact if_pos hcol

/-- A collision makes the verifier panic on every modulus below three. -/
theorem verify_of_le_two (hp : key.p ≠ 0) (hle : key.p ≤ 2) (hnonneg : Nonneg solutions)
    (hne : solutions.1 ≠ solutions.2) (hcol : key.Collides solutions) :
    verify ⟨key⟩ solutions header build = .error .emptyRange := by
  obtain ⟨⟨ha1, hb1⟩, ha2, hb2⟩ := hnonneg
  have hsame : ¬key.product solutions.1 % key.p ≠ key.product solutions.2 % key.p :=
    not_not.mpr hcol
  simp only [verify, if_neg hne, derive_ok hp ha1 hb1, derive_ok hp ha2 hb2, Rust.ok_bind,
    if_neg hsame, Rug.divRemEuc_of_ne_zero hp, State.fromPubKey_error hle, Rust.error_bind]

/-- From modulus three on, a collision is accepted when it meets the header at a
distinguished point. -/
theorem verify_of_collides (hrand : RandomInRange) (hp : 3 ≤ key.p) (hnonneg : Nonneg solutions)
    (hne : solutions.1 ≠ solutions.2) (hcol : key.Collides solutions) :
    verify ⟨key⟩ solutions header build =
      if key.MeetsHeader solutions header then do
        let hashDiff ← key.hashDiff build
        return !(key.headerState solutions.1 header).overflowed hashDiff
      else .ok false := by
  obtain ⟨⟨ha1, hb1⟩, ha2, hb2⟩ := hnonneg
  have hp0 : key.p ≠ 0 := by omega
  obtain ⟨state, hstate, hpub, -⟩ := State.fromPubKey_ok hrand hp 1
  have hfuncF : state.funcF (Hash.hashInteger header % key.p) (u256Bigint header.nonce) =
      .ok (key.headerWork header) := by
    rw [State.funcF_ok state _ (by rwa [hpub]) (Int.emod_nonneg _ hp0), hpub]
    rfl
  have hsame : ¬key.product solutions.1 % key.p ≠ key.product solutions.2 % key.p :=
    not_not.mpr hcol
  simp only [verify, if_neg hne, derive_ok hp0 ha1 hb1, derive_ok hp0 ha2 hb2, Rust.ok_bind,
    if_neg hsame, Rug.divRemEuc_of_ne_zero hp0, hstate, hfuncF]
  by_cases hmeets : key.MeetsHeader solutions header
  · have hheader : ¬key.product solutions.1 % key.p ≠ key.headerWork header := not_not.mpr hmeets
    rw [if_neg hheader, if_pos hmeets]
    simp only [PublicKey.headerState, State.overflowed_solution key solutions.2 solutions.1,
      Bool.and_self]
  · have hheader : key.product solutions.1 % key.p ≠ key.headerWork header := hmeets
    rw [if_pos hheader, if_neg hmeets]
    rfl

/-- The chain of checks: the first one that applies decides the outcome. -/
theorem verify_eq (hrand : RandomInRange) (hnonneg : Nonneg solutions) :
    verify ⟨key⟩ solutions header build =
      if solutions.1 = solutions.2 then .ok false
      else if key.p = 0 then .error .unwrapNone
      else if ¬key.Collides solutions then .ok false
      else if key.p ≤ 2 then .error .emptyRange
      else if key.MeetsHeader solutions header then do
        let hashDiff ← key.hashDiff build
        return !(key.headerState solutions.1 header).overflowed hashDiff
      else .ok false := by
  by_cases hne : solutions.1 = solutions.2
  · rw [verify_of_eq hne, if_pos hne]
  by_cases hp : key.p = 0
  · rw [verify_of_zero hp hne, if_neg hne, if_pos hp]
  by_cases hcol : key.Collides solutions
  swap
  · rw [verify_of_not_collides hp hnonneg hne hcol, if_neg hne, if_neg hp, if_pos hcol]
  rw [if_neg hne, if_neg hp, if_neg (not_not.mpr hcol)]
  by_cases hle : key.p ≤ 2
  · rw [verify_of_le_two hp hle hnonneg hne hcol, if_pos hle]
  · rw [verify_of_collides hrand (by omega) hnonneg hne hcol, if_neg hle]

/-- **Acceptance.** The verifier accepts exactly the pairs of different solutions
that collide, meet the header, and stand at a distinguished point, for a modulus
of at least three. -/
theorem verify_eq_true_iff (hrand : RandomInRange) (hnonneg : Nonneg solutions) :
    verify ⟨key⟩ solutions header build = .ok true ↔
      3 ≤ key.p ∧ solutions.1 ≠ solutions.2 ∧ key.Collides solutions ∧
        key.MeetsHeader solutions header ∧
        ∃ hashDiff, key.hashDiff build = .ok hashDiff ∧
          (key.headerState solutions.1 header).overflowed hashDiff = false := by
  rw [verify_eq hrand hnonneg]
  split_ifs with hne hp hcol hle hmeets
  · simp [hne]
  · simp [hp]
  · have hsmall : ¬3 ≤ key.p := by omega
    simp [hsmall]
  · have hthree : 3 ≤ key.p := by omega
    rw [Rust.bind_eq_ok]
    simp [hthree, hne, hcol, hmeets]
  · simp [hmeets]
  · simp [hcol]

/-- Without overflow checks the verifier does the same for every key that has a hash tester
with them. -/
theorem verify_release (hlong : ¬(key.bitLength.toNat < 16 ∨ key.bitLength.toNat = 17)) :
    verify ⟨key⟩ solutions header .release = verify ⟨key⟩ solutions header := by
  obtain ⟨hashDiff, htester⟩ := PublicKey.hashDiff_ok_iff.mpr hlong
  simp only [verify, htester, PublicKey.hashDiff_release_of_ok htester]

/-- **Panics.** The verifier returns on every other input. -/
theorem verify_returns_iff (hrand : RandomInRange) (hnonneg : Nonneg solutions) :
    (∃ b, verify ⟨key⟩ solutions header = .ok b) ↔ ¬Crashes key solutions header := by
  rw [verify_eq hrand hnonneg, Crashes]
  split_ifs with hne hp hcol hle hmeets
  · simp [hne]
  · simp [hp, hne]
  · simp [hcol, hle, hne]
  · simp only [hne, hp, hle, hcol, hmeets, true_and, false_and, false_or, ne_eq, not_false_eq_true,
      ← PublicKey.hashDiff_ok_iff, Rust.bind_eq_ok, Rust.pure_eq_ok, Except.ok.injEq]
    constructor
    · rintro ⟨_, hashDiff, h, _⟩
      exact ⟨hashDiff, h⟩
    · rintro ⟨hashDiff, h⟩
      exact ⟨_, hashDiff, h, rfl⟩
  · simp [hmeets, hp, hle]
  · simp [hcol, hp]

end SolutionVerifier

end TrexPow
