import TrexPow.Algorithm
import TrexPow.Seal

/-!
# Verification of seals and extraction of private keys

A seal is accepted when its two solutions collide in a group element that the
header's hash leads to. From such a pair the private key of the seal's public key
is extracted by a linear congruence.
-/

namespace TrexPow

/-- Derive private key from a pair of collided solutions. -/
def eqsSolvers (a1 b1 a2 b2 n : ℤ) : Rust (Option ℤ) := do
  let r ← Rug.divRemEuc (b1 - b2) n
  if r = 0 then
    return none
  else
    match Rug.invertRef r n with
    | some resInv =>
      let dif := a2 - a1
      return some (← Rug.divRemEuc (resInv * dif) n)
    | none =>
      let div : ℤ := Int.gcd r n
      let resL ← Rug.divTrunc (b1 - b2) div
      -- the source subtracts `a2` from itself here
      let resR ← Rug.divTrunc (a2 - a2) div
      let p1 ← Rug.divTrunc n div
      match Rug.invertRef resL p1 with
      | some resInv => return some (← Rug.divRemEuc (resInv * resR) p1)
      | none => return none

/-- A verifier contains methods to validate mining results. -/
structure SolutionVerifier where
  pubkey : PublicKey

namespace SolutionVerifier

/-- Derive one side of the value for the equation in the pollard rho method. -/
def derive (v : SolutionVerifier) (solution : Solution ℤ) : Rust ℤ := do
  let gAP ← unwrap (Rug.powModRef v.pubkey.g solution.a v.pubkey.p)
  let hBP ← unwrap (Rug.powModRef v.pubkey.h solution.b v.pubkey.p)
  Rug.divRemEuc (gAP * hBP) v.pubkey.p

/-- Verify the validation of solutions. -/
def verify [Deps] (v : SolutionVerifier) (solutions : Solutions ℤ) (header : Compute)
    (build : Build := .checked) : Rust Bool := do
  if solutions.1 = solutions.2 then
    return false
  else
    let y1 ← v.derive solutions.1
    let y2 ← v.derive solutions.2
    if y1 ≠ y2 then
      return false
    else
      -- if solutions are valid, verify the hash of nonce
      let hashI ← Rug.divRemEuc (Hash.hashInteger header) v.pubkey.p
      let nonce := u256Bigint header.nonce
      let state ← State.fromPubKey v.pubkey 1
      let work ← state.funcF hashI nonce
      if y1 ≠ work then
        return false
      else
        -- test the distinguished points
        let state1 : State ℤ := ⟨solutions.1, nonce, work, v.pubkey⟩
        let state2 : State ℤ := ⟨solutions.2, nonce, work, v.pubkey⟩
        let hashDiff ← v.pubkey.hashDiff build
        return !(state1.overflowed hashDiff && state2.overflowed hashDiff)

/-- Extract the private key that a pair of solutions reveals. -/
def keyGen (v : SolutionVerifier) (solutions : Solutions ℤ) : Rust (Option PrivateKey) := do
  match ← eqsSolvers solutions.1.a solutions.1.b solutions.2.a solutions.2.b solutions.2.n with
  | some key =>
    let validate ← unwrap (Rug.powModRef v.pubkey.g key v.pubkey.p)
    let newKey := if validate ≠ v.pubkey.h then key + solutions.2.n else key
    return some ⟨v.pubkey.p, v.pubkey.g, newKey, v.pubkey.bitLength⟩
  | none => return none

end SolutionVerifier

/-- A block, named by its hash or by its number. -/
inductive BlockId
  | hash (h : H256)
  | number (n : U32)

/-- Determine whether the given hash satisfies the given difficulty. -/
def hashMeetsDifficulty (sealDifficulty difficulty : Difficulty) : Bool :=
  sealDifficulty = difficulty

/-- Make sure the provided work actually comes from the correct pre-hash. Both
algorithms end with this check. -/
def verifyWork [Deps] (s : Seal) (preHash : H256) (difficulty : Difficulty)
    (build : Build := .checked) : Rust Bool := do
  let header : Compute := ⟨difficulty, preHash, s.nonce⟩
  let pubkey := Deps.fromRaw s.pubkey
  let solutions := (s.solutions.1.fromU256, s.solutions.2.fromU256)
  SolutionVerifier.verify ⟨pubkey⟩ solutions header build

/-- Verification by the minimal algorithm, whose difficulty is not adjusted. -/
def MinTREXAlgo.verify [Deps] (_parent : BlockId) (preHash : H256)
    (_preDigest : Option (List UInt8)) (raw : List UInt8) (difficulty : Difficulty)
    (build : Build := .checked) : Rust Bool :=
  match Seal.decode raw with
  | none => return false
  | some s => verifyWork s preHash difficulty build

/-- The fixed difficulty of the minimal algorithm. -/
def MinTREXAlgo.difficulty : Difficulty := initDifficulty

/-- Verification by the complete algorithm. -/
def TREXAlgo.verify [Deps] (_parent : BlockId) (preHash : H256)
    (_preDigest : Option (List UInt8)) (raw : List UInt8) (difficulty : Difficulty)
    (build : Build := .checked) : Rust Bool :=
  match Seal.decode raw with
  | none => return false
  | some s =>
    if !hashMeetsDifficulty s.difficulty difficulty then
      return false
    else
      let pubkeyDiff : Difficulty := s.pubkey.bitLength.setWidth 128
      if !hashMeetsDifficulty s.difficulty pubkeyDiff then
        return false
      else
        verifyWork s preHash difficulty build

end TrexPow
