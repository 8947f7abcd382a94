import TrexPow.Hash
import TrexPow.Lib.Loop

/-!
# The pollard rho search

One step of the random walk maps the work through the hash of the header whose
nonce is the previous work. A solver walks at two speeds until the works match,
and then on until the work is a distinguished point. `solveDist` is the solver
that a flag can cancel.
-/

namespace TrexPow

/-- Shortens the trails between distinguished points. -/
def pointDstFactor : ℕ := 8

/-- The search length in units of the square root of the modulus. -/
def searchLenFactor : ℕ := 8

/-- Subtraction of machine words, which must not go below zero. -/
def checkedSub (x y : ℕ) : Rust ℕ := if x < y then .error .overflow else .ok (x - y)

/-- How the code was built. With overflow checks, arithmetic out of range panics. The release
build has none, and it wraps. Where no build is named, it is the one with the checks. -/
inductive Build
  | checked
  | release
  deriving DecidableEq, Repr

/-- Subtraction of 32-bit words, as the build does it. -/
def Build.sub : Build → ℕ → ℕ → Rust ℕ
  | .checked, x, y => checkedSub x y
  | .release, x, y => .ok ((x + (2 ^ 32 - y)) % 2 ^ 32)

@[simp] theorem Build.checked_sub (x y : ℕ) : Build.checked.sub x y = checkedSub x y := rfl

@[simp] theorem Build.release_sub (x y : ℕ) :
    Build.release.sub x y = .ok ((x + (2 ^ 32 - y)) % 2 ^ 32) := rfl

/-- A random number from `start` up to, but not including, `stop`. -/
def genBigintRange [Deps] (rand : Deps.RandState) (start stop : ℤ) :
    Rust (ℤ × Deps.RandState) := do
  let range := stop - start
  let (below, rand) ← randomBelow rand range
  return (start + below, rand)

/-- Random exponents below `n`, drawn from a generator with the given seed. -/
def Solution.newRandom [Deps] (n seed : ℤ) : Rust (Solution ℤ) := do
  let rand := Deps.seeded seed
  let (a, rand) ← genBigintRange rand 0 n
  let (b, _) ← genBigintRange rand 0 n
  return ⟨a, b, n⟩

/-- Derive a new node state from a public key. -/
def State.fromPubKey [Deps] (key : PublicKey) (seed : ℤ) : Rust (State ℤ) := do
  let p1 := key.p - 1
  let n := p1.tdiv 2
  let solution ← Solution.newRandom n seed
  let gAP ← unwrap (Rug.powModRef key.g solution.a key.p)
  let hBP ← unwrap (Rug.powModRef key.h solution.b key.p)
  let y ← Rug.divRemEuc (gAP * hBP) key.p
  return ⟨solution, 1, y, key⟩

namespace State

/-- The next work: `x` is the reduced hash, `y` the current work. -/
def funcF (state : State ℤ) (x y : ℤ) : Rust ℤ :=
  let base := state.pubkey.g
  let h := state.pubkey.h
  let p := state.pubkey.p
  match Rug.modU x 3 with
  | 0 => unwrap (Rug.powModRef y x p)
  | 1 => do
    let baseHashP ← unwrap (Rug.powModRef base x p)
    Rug.divRemEuc (baseHashP * y) p
  | 2 => do
    let hHashP ← unwrap (Rug.powModRef h x p)
    Rug.divRemEuc (hHashP * y) p
  | _ => .error .mappingError

/-- The next exponent of the generator. -/
def funcG (state : State ℤ) (a x : ℤ) : Rust ℤ :=
  let p1 := state.pubkey.p - 1
  match Rug.modU x 3 with
  | 0 => Rug.divRemEuc (a * x) p1
  | 1 => Rug.divRemEuc (a + x) p1
  | 2 => .ok a
  | _ => .error .mappingError

/-- The next exponent of the key's group element. -/
def funcH (state : State ℤ) (b x : ℤ) : Rust ℤ :=
  let p1 := state.pubkey.p - 1
  match Rug.modU x 3 with
  | 0 => Rug.divRemEuc (b * x) p1
  | 1 => .ok b
  | 2 => Rug.divRemEuc (b + x) p1
  | _ => .error .mappingError

/-- Single step transition between states calculating with hashable data. -/
def transit {C : Type} [Hash C] (state : State ℤ) (hashable : C) : Rust (State ℤ × C) := do
  let hashable ← Hash.setNonce hashable state.work
  let hashI ← Rug.divRemEuc (Hash.hashInteger hashable) state.pubkey.p
  let work ← state.funcF hashI state.work
  let a ← state.funcG state.solution.a hashI
  let b ← state.funcH state.solution.b hashI
  return (⟨⟨a, b, state.solution.n⟩, state.work, work, state.pubkey⟩, hashable)

end State

/-- The hash tester of the current difficulty. -/
def PublicKey.hashDiff (key : PublicKey) (build : Build := .checked) : Rust U256 := do
  let shift ← build.sub (key.bitLength.toNat / 2) pointDstFactor
  if key.bitLength.toNat % 2 ≠ 0 then
    let half ← build.sub shift 1
    return (1#256 <<< shift) + (1#256 <<< half)
  else
    return 1#256 <<< shift

/-- The bound of both loops of a solver. -/
def PublicKey.searchLen (key : PublicKey) : Rust ℕ := do
  return (← Rug.sqrtRef key.p) * searchLenFactor

/-- A state whose hash times the tester overflows is no distinguished point. -/
def State.overflowed [Deps] (state : State ℤ) (hashDiff : U256) : Bool :=
  (overflowingMul state.hashEncode hashDiff).2

/-- The two states of a search and the header computers that drive them. -/
structure Race (C : Type) where
  state1 : State ℤ
  state2 : State ℤ
  compute : C
  compute2 : C

open Loop (Control bounded)

section Solve

variable {C : Type} [Deps] [Hash C]

/-- One pass of the first loop: the second state moves twice as fast. -/
def solvePass (r : Race C) : Rust (Control (Race C) (Option (Solutions ℤ) × C)) := do
  let (state1, compute) ← r.state1.transit r.compute
  let (state2, compute2) ← r.state2.transit r.compute2
  let (state2, compute2) ← state2.transit compute2
  if state1.work = state2.work then
    if state1.solution ≠ state2.solution then
      return .leave ⟨state1, state2, compute, compute2⟩
    else
      return .ret (none, compute)
  else
    return .next ⟨state1, state2, compute, compute2⟩

/-- One pass of the second loop: both states move until the nonce meets the condition. -/
def solveNoncePass (hashDiff : U256) (r : Race C) :
    Rust (Control (Race C) (Option (Solutions ℤ) × C)) := do
  let (state1, compute) ← r.state1.transit r.compute
  let (state2, compute2) ← r.state2.transit r.compute2
  if !state1.overflowed hashDiff then
    if state1.work = state2.work ∧ state1.solution ≠ state2.solution then
      return .ret (some (state1.solution, state2.solution), compute)
    else
      return .ret (none, compute)
  else
    return .next ⟨state1, state2, compute, compute2⟩

/-- This method solves the puzzle with pollard rho method in single thread. It
also returns the header computer as the search leaves it. -/
def solve (key : PublicKey) (compute : C) (seed : ℤ) : Rust (Option (Solutions ℤ) × C) := do
  let state1 ← State.fromPubKey key seed
  let n ← key.searchLen
  match ← bounded solvePass n ⟨state1, state1, compute, compute⟩ with
  | .inr result => return result
  | .inl r =>
    let hashDiff ← key.hashDiff
    match ← bounded (solveNoncePass hashDiff) n r with
    | .inr result => return result
    | .inl r => return (none, r.compute)

/-- A search with its polling counter and the number of flag loads made so far. -/
structure DistRace (C : Type) extends Race C where
  counter : ℕ
  loads : ℕ

/-- What a cancellable search returns: the solutions, the header computer as it
leaves it, and whether it stored `true` to the flag. -/
structure DistResult (C : Type) where
  solutions : Option (Solutions ℤ)
  compute : C
  stored : Bool

/-- Check the flag when the counter has reached the grain size. The result is the
new counter and number of loads, or nothing when the search is cancelled. -/
def pollFlag (flag : ℕ → Bool) (grainSize counter loads : ℕ) : Option (ℕ × ℕ) :=
  if grainSize ≤ counter then
    if flag loads then none else some (0, loads + 1)
  else some (counter, loads)

/-- One pass of the first loop of the cancellable search. -/
def solveDistPass (flag : ℕ → Bool) (grainSize : ℕ) (r : DistRace C) :
    Rust (Control (DistRace C) (DistResult C)) := do
  let (state1, compute) ← r.state1.transit r.compute
  let (state2, compute2) ← r.state2.transit r.compute2
  let (state2, compute2) ← state2.transit compute2
  match pollFlag flag grainSize r.counter r.loads with
  | none => return .ret ⟨none, compute, false⟩
  | some (counter, loads) =>
    if state1.work = state2.work then
      if state1.solution ≠ state2.solution then
        return .leave ⟨⟨state1, state2, compute, compute2⟩, counter, loads⟩
      else
        return .ret ⟨none, compute, false⟩
    else
      return .next ⟨⟨state1, state2, compute, compute2⟩, counter + 1, loads⟩

/-- One pass of the second loop of the cancellable search. At a distinguished
point the flag is loaded once more before the solutions are reported. -/
def solveDistNoncePass (flag : ℕ → Bool) (grainSize : ℕ) (hashDiff : U256) (r : DistRace C) :
    Rust (Control (DistRace C) (DistResult C)) := do
  let (state1, compute) ← r.state1.transit r.compute
  let (state2, compute2) ← r.state2.transit r.compute2
  match pollFlag flag grainSize r.counter r.loads with
  | none => return .ret ⟨none, compute, false⟩
  | some (counter, loads) =>
    if !state1.overflowed hashDiff then
      if flag loads then
        return .ret ⟨none, compute, false⟩
      else if state1.work = state2.work ∧ state1.solution ≠ state2.solution then
        return .ret ⟨some (state1.solution, state2.solution), compute, true⟩
      else
        return .ret ⟨none, compute, false⟩
    else
      return .next ⟨⟨state1, state2, compute, compute2⟩, counter + 1, loads⟩

/-- This method solves the puzzle with distributed computing. The values that
the successive loads of the shared flag return are an arbitrary sequence. -/
def solveDist (key : PublicKey) (compute : C) (seed : ℤ) (grainSize : ℕ) (flag : ℕ → Bool) :
    Rust (DistResult C) := do
  let state1 ← State.fromPubKey key seed
  let n ← key.searchLen
  match ← bounded (solveDistPass flag grainSize) n
      ⟨⟨state1, state1, compute, compute⟩, 0, 0⟩ with
  | .inr result => return result
  | .inl r =>
    let hashDiff ← key.hashDiff
    match ← bounded (solveDistNoncePass flag grainSize hashDiff) n { r with counter := 0 } with
    | .inr result => return result
    | .inl r => return ⟨none, r.compute, false⟩

end Solve

end TrexPow
