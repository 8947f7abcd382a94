import TrexPow.Generic

/-!
# Seals and the chain of key seeds

A seal carries the key that was mined, the seeds of the keys to be mined next,
and the solutions. Its bytes are a fixed format; reading takes a prefix of the
input and leaves what follows unread.
-/

namespace TrexPow

/-- A seed in the narrowest of two widths. -/
inductive RawKeySeedsData
  | u128 (value : U128)
  | u256 (value : U256)
  deriving DecidableEq

/-- The raw form of integer as seeds to derive a chain of public keys. -/
abbrev RawKeySeeds := List.Vector RawKeySeedsData keychainLen

/-- The seeds below this index are stored in 128 bits. -/
def wideSeedIndex : ℕ := 128 - minDifficulty.toNat

/-- The content of a block seal. -/
structure Seal where
  /-- Mining difficulty of current block sealed by this seal. -/
  difficulty : Difficulty
  /-- The public key being mined in current block. -/
  pubkey : RawPublicKey
  /-- A list of seeds to derive the public keys for next blocks. -/
  seeds : RawKeySeeds
  /-- A pair of solution for current time-lock puzzle found by mining current block. -/
  solutions : Solutions U256
  /-- A nonce value to seal and verify current mining works. -/
  nonce : U256
  deriving DecidableEq

/-- The seal from which the first mined block takes its key seeds. -/
def genesisSeal (difficulty : Difficulty) : Seal where
  difficulty := difficulty
  pubkey := ⟨1, 1, 1, difficulty.setWidth 32⟩
  seeds := .ofFn fun idx => if wideSeedIndex ≤ idx then .u256 1 else .u128 1
  solutions := (⟨1, 1, 1⟩, ⟨1, 1, 1⟩)
  nonce := 1

/-- The integer that a stored seed stands for. -/
def RawKeySeedsData.toBigint : RawKeySeedsData → ℤ
  | .u128 value => u128Bigint value
  | .u256 value => u256Bigint value

/-- A raw key is encoded field by field. -/
def RawPublicKey.codec : Codec RawPublicKey :=
  .equiv ⟨fun x => ⟨x.1, x.2.1, x.2.2.1, x.2.2.2⟩, fun k => (k.p, k.g, k.h, k.bitLength),
      fun _ => rfl, fun _ => rfl⟩
    (.pair (.word 32) (.pair (.word 32) (.pair (.word 32) (.word 4))))

/-- A seed is encoded behind a tag byte for its width. -/
def RawKeySeedsData.codec : Codec RawKeySeedsData :=
  .equiv ⟨fun | .inl v => .u128 v | .inr v => .u256 v, fun | .u128 v => .inl v | .u256 v => .inr v,
      fun x => by cases x <;> rfl, fun x => by cases x <;> rfl⟩
    (.alternative (.word 16) (.word 32))

/-- A solution is encoded field by field. -/
def Solution.codec : Codec (Solution U256) :=
  .equiv ⟨fun x => ⟨x.1, x.2.1, x.2.2⟩, fun s => (s.a, s.b, s.n), fun _ => rfl, fun _ => rfl⟩
    (.pair (.word 32) (.pair (.word 32) (.word 32)))

/-- A seal is encoded field by field. -/
def Seal.codec : Codec Seal :=
  .equiv ⟨fun x => ⟨x.1, x.2.1, x.2.2.1, x.2.2.2.1, x.2.2.2.2⟩,
      fun s => (s.difficulty, s.pubkey, s.seeds, s.solutions, s.nonce), fun _ => rfl, fun _ => rfl⟩
    (.pair (.word 16) (.pair RawPublicKey.codec (.pair (.vector RawKeySeedsData.codec keychainLen)
      (.pair (.pair Solution.codec Solution.codec) (.word 32)))))

/-- `Seal::encode`. -/
def Seal.encode (s : Seal) : List UInt8 := Seal.codec.encode s

/-- `Seal::decode`, which reads a prefix of its input. -/
def Seal.decode (raw : List UInt8) : Option Seal := (Seal.codec.decode raw).map Prod.fst

/-- The bytes behind the seal that is read from a raw seal. -/
def Seal.unread (raw : List UInt8) : Option (List UInt8) := (Seal.codec.decode raw).map Prod.snd

theorem Seal.exists_rest {raw : List UInt8} {s : Seal} (h : Seal.decode raw = some s) :
    ∃ rest, Seal.codec.decode raw = some (s, rest) ∧ Seal.unread raw = some rest := by
  obtain ⟨⟨t, rest⟩, hread, rfl⟩ := Option.map_eq_some_iff.mp h
  exact ⟨rest, hread, by rw [Seal.unread, hread, Option.map_some]⟩

/-- An encoded seal is read back. -/
@[simp] theorem Seal.decode_encode (s : Seal) : Seal.decode s.encode = some s := by
  simp [Seal.decode, Seal.encode]

end TrexPow
