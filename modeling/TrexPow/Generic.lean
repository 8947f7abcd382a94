import Mathlib.Data.Nat.Prime.Basic
import Mathlib.Tactic.NormNum.Prime
import TrexPow.Lib.Codec
import TrexPow.Rug

/-!
# Keys, solutions, node states and the code outside the repository

The data that the miner and the verifier exchange. What the repository only calls
is a parameter, collected in `Deps`: the hash function, the random generator of
the big-integer library, and the ElGamal package that derives the public keys.
-/

namespace TrexPow

/-- A 32-byte digest. -/
abbrev H256 := List.Vector UInt8 32

/-- An ElGamal public key over big integers. -/
structure PublicKey where
  p : ℤ
  g : ℤ
  h : ℤ
  bitLength : U32
  deriving DecidableEq

/-- A public key as a seal stores it. -/
structure RawPublicKey where
  p : U256
  g : U256
  h : U256
  bitLength : U32
  deriving DecidableEq

/-- An ElGamal private key. -/
structure PrivateKey where
  p : ℤ
  g : ℤ
  x : ℤ
  bitLength : U32
  deriving DecidableEq

/-- Solution within pollard rho method. -/
structure Solution (I : Type) where
  a : I
  b : I
  n : I
  deriving DecidableEq

/-- A pair of solutions, which a match of two states produces. -/
abbrev Solutions (I : Type) := Solution I × Solution I

/-- Node state in the cycle finding algorithm. -/
structure State (I : Type) where
  solution : Solution I
  /-- The work of the previous step. -/
  nonce : I
  /-- The current work. -/
  work : I
  pubkey : PublicKey
  deriving DecidableEq

/-- Code that the repository calls and does not contain. -/
class Deps where
  /-- The hash function `blake3::hash`. -/
  blake3 : List UInt8 → H256
  /-- The state of a random generator. -/
  RandState : Type
  /-- A Mersenne twister seeded with an integer. -/
  seeded : ℤ → RandState
  /-- `random_below` within its domain, with the generator's next state. -/
  randomBelow : RandState → ℤ → ℤ × RandState
  /-- `generate_pub_key`, a function of the bit length and the seed. -/
  generatePubKey : U32 → ℤ → PublicKey
  /-- `yield_seed` of a public key. -/
  yieldSeed : PublicKey → ℤ
  /-- `to_raw` of a public key. -/
  toRaw : PublicKey → RawPublicKey
  /-- `PublicKey::from_raw`. -/
  fromRaw : RawPublicKey → PublicKey

/-- `random_below`, which panics unless the bound is positive. -/
def randomBelow [Deps] (rand : Deps.RandState) (bound : ℤ) : Rust (ℤ × Deps.RandState) :=
  if bound ≤ 0 then .error .emptyRange else .ok (Deps.randomBelow rand bound)

/-- The documented range of `random_below`. -/
def RandomInRange [Deps] : Prop :=
  ∀ (rand : Deps.RandState) (bound : ℤ), 0 < bound →
    0 ≤ (Deps.randomBelow rand bound).1 ∧ (Deps.randomBelow rand bound).1 < bound

/-- A raw key read field by field as integers. -/
def RawPublicKey.read (raw : RawPublicKey) : PublicKey :=
  ⟨raw.p.toNat, raw.g.toNat, raw.h.toNat, raw.bitLength⟩

/-- The documented behaviour of `from_raw`: it reads the fields as integers. -/
def FromRawReads [Deps] : Prop := ∀ raw : RawPublicKey, Deps.fromRaw raw = raw.read

/-- The bit lengths for which the chain generates keys. -/
def ChainBits (bits : U32) : Prop := 48 ≤ bits.toNat ∧ bits.toNat ≤ 223

/-- The documented bit length of a generated key. -/
def KeysHaveBitLength [Deps] : Prop :=
  ∀ (bits : U32) (seed : ℤ), ChainBits bits → (Deps.generatePubKey bits seed).bitLength = bits

/-- The documented group of a generated key: its modulus is an odd prime of at most
the requested length, which divides neither group element. -/
def KeysHavePrimeModulus [Deps] : Prop :=
  ∀ (bits : U32) (seed : ℤ), ChainBits bits →
    let key := Deps.generatePubKey bits seed
    key.p.toNat.Prime ∧ 3 ≤ key.p ∧ key.p < 2 ^ bits.toNat ∧ ¬key.p ∣ key.g ∧ ¬key.p ∣ key.h

/-- Raw keys keep the bit length, and generated keys are read back unchanged. -/
def KeysRoundTrip [Deps] : Prop :=
  ∀ (bits : U32) (seed : ℤ), ChainBits bits →
    let key := Deps.generatePubKey bits seed
    (Deps.toRaw key).bitLength = key.bitLength ∧ Deps.fromRaw (Deps.toRaw key) = key

/-- The documented range of `yield_seed` for a generated key. -/
def SeedsInRange [Deps] : Prop :=
  ∀ (bits : U32) (seed : ℤ), ChainBits bits →
    let key := Deps.generatePubKey bits seed
    0 ≤ Deps.yieldSeed key ∧ Deps.yieldSeed key < 2 ^ bits.toNat

/-- A small instance on which the model can be evaluated: the hash is one byte of
its input, which is the low byte of the nonce for a header and zero for a state,
and every generated key has modulus seven. -/
@[reducible] def Deps.sample : Deps where
  blake3 input := (input[48]?.getD 0) ::ᵥ .replicate 31 0
  RandState := ℤ
  seeded seed := seed
  randomBelow rand bound := (rand % bound, rand + 1)
  generatePubKey bitLength _ := ⟨7, 3, 4, bitLength⟩
  yieldSeed key := key.bitLength.toNat
  toRaw key := ⟨.ofInt 256 key.p, .ofInt 256 key.g, .ofInt 256 key.h, key.bitLength⟩
  fromRaw := RawPublicKey.read

/-- A key with modulus seven, as the sample generates it at difficulty 48. -/
def smallKey : PublicKey := ⟨7, 3, 4, 48⟩

namespace Deps.sample

theorem randomInRange : @RandomInRange sample :=
  fun _ _ hbound => ⟨Int.emod_nonneg _ hbound.ne', Int.emod_lt_of_pos _ hbound⟩

theorem fromRawReads : @FromRawReads sample := fun _ => rfl

theorem keysHaveBitLength : @KeysHaveBitLength sample := fun _ _ _ => rfl

theorem keysHavePrimeModulus : @KeysHavePrimeModulus sample := by
  intro bits _ hbits
  have hpow : (2 : ℤ) ^ 48 ≤ 2 ^ bits.toNat := pow_le_pow_right₀ (by norm_num) hbits.1
  have hprime : Nat.Prime 7 := by norm_num
  have hlt : (7 : ℤ) < 2 ^ 48 := by decide
  have hg : ¬(7 : ℤ) ∣ 3 := by decide
  have hh : ¬(7 : ℤ) ∣ 4 := by decide
  exact ⟨hprime, (by decide : (3 : ℤ) ≤ 7), hlt.trans_le hpow, hg, hh⟩

theorem keysRoundTrip : @KeysRoundTrip sample := fun _ _ _ => ⟨rfl, rfl⟩

theorem seedsInRange : @SeedsInRange sample := by
  intro bits _ _
  have hlt : (bits.toNat : ℤ) < 2 ^ bits.toNat := by exact_mod_cast Nat.lt_two_pow_self
  exact ⟨Int.natCast_nonneg _, hlt⟩

end Deps.sample

/-- Convert a stored solution to big integers. -/
def Solution.fromU256 (solution : Solution U256) : Solution ℤ :=
  ⟨u256Bigint solution.a, u256Bigint solution.b, u256Bigint solution.n⟩

/-- Convert a solution for storage in a seal. -/
def Solution.toU256 (solution : Solution ℤ) : Rust (Solution U256) := do
  return ⟨← bigintU256 solution.a, ← bigintU256 solution.b, ← bigintU256 solution.n⟩

/-- The fields of a solution fit a 256-bit word. -/
def Solution.InRange (solution : Solution ℤ) : Prop :=
  (0 ≤ solution.a ∧ solution.a < 2 ^ 256) ∧ (0 ≤ solution.b ∧ solution.b < 2 ^ 256) ∧
    (0 ≤ solution.n ∧ solution.n < 2 ^ 256)

/-- A solution in range is stored and read back unchanged. -/
theorem Solution.fromU256_toU256 {solution : Solution ℤ} (h : solution.InRange) :
    ∃ stored, solution.toU256 = .ok stored ∧ stored.fromU256 = solution := by
  obtain ⟨⟨ha0, ha⟩, ⟨hb0, hb⟩, hn0, hn⟩ := h
  let stored : Solution U256 :=
    ⟨.ofNat 256 solution.a.toNat, .ofNat 256 solution.b.toNat, .ofNat 256 solution.n.toNat⟩
  refine ⟨stored, ?_, ?_⟩
  · simp only [Solution.toU256, bigintU256_of_lt ha0 ha, bigintU256_of_lt hb0 hb,
      bigintU256_of_lt hn0 hn]
    rfl
  · simp only [stored, Solution.fromU256, u256Bigint_ofNat ha0 ha, u256Bigint_ofNat hb0 hb,
      u256Bigint_ofNat hn0 hn]

end TrexPow
