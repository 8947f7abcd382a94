import TrexPow.Generic

/-!
# Hashing headers and node states

The header computer carries the data that a block seal signs: the difficulty, the
pre-hash and the nonce. Its hash drives the random walk, and the hash of a node
state decides which states are distinguished points.
-/

namespace TrexPow

/-- Methods related to hashing and nonce updating in block headers. -/
class Hash (C : Type) where
  setNonce : C → ℤ → Rust C
  getNonce : C → U256
  hashInteger : C → ℤ

/-- The difficulty that a header computer was made for. -/
class OnCompute (C : Type) where
  getDifficulty : C → Difficulty

/-- A not-yet-computed attempt to solve the proof of work. -/
structure Blake3Compute where
  difficulty : Difficulty
  preHash : H256
  nonce : U256
  deriving DecidableEq

/-- The header computer of the engine. -/
abbrev Compute := Blake3Compute

/-- The fields of a header computer in the order in which they are encoded. -/
def Blake3Compute.fields : U128 × H256 × U256 ≃ Blake3Compute where
  toFun x := ⟨x.1, x.2.1, x.2.2⟩
  invFun c := (c.difficulty, c.preHash, c.nonce)
  left_inv _ := rfl
  right_inv _ := rfl

/-- The encoding of a header computer, which is what gets hashed. -/
def Blake3Compute.codec : Codec Blake3Compute :=
  .equiv fields (.pair (.word 16) (.pair (.bytes 32) (.word 32)))

instance [Deps] : Hash Blake3Compute where
  setNonce compute int := do return { compute with nonce := ← bigintU256 int }
  getNonce compute := compute.nonce
  hashInteger compute :=
    let hash := Deps.blake3 (Blake3Compute.codec.encode compute)
    Rug.fromDigits hash.toList

instance : OnCompute Blake3Compute where
  getDifficulty compute := compute.difficulty

/-- A special hash from the work, the nonce and the key, for distinguished points. -/
def State.hashEncode [Deps] (state : State ℤ) : U256 :=
  let total := state.nonce.tdiv 5 + state.work.tdiv 5 + state.pubkey.p.tdiv 5 +
    state.pubkey.g.tdiv 5 + state.pubkey.h.tdiv 5
  let newHash := Deps.blake3 (Rug.toDigits total)
  BitVec.ofNat 256 (LittleEndian.toNat newHash.toList)

/-- Setting a nonce in range only replaces the nonce. -/
theorem setNonce_of_lt [Deps] (compute : Compute) {x : ℤ} (h0 : 0 ≤ x) (hx : x < 2 ^ 256) :
    Hash.setNonce compute x = .ok { compute with nonce := BitVec.ofNat 256 x.toNat } := by
  simp only [Hash.setNonce, bigintU256_of_lt h0 hx]
  rfl

end TrexPow
