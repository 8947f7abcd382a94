import TrexPow.Algorithm
import TrexPow.Lib.Cost

/-!
# The solvers with their steps counted

The counted solvers make the calls of the solvers, in the same order, and count the steps
of the walk. Both loops run at most as often as the search is long, with three steps in a
pass of the first loop and two in a pass of the second.
-/

namespace TrexPow

open Loop (Control Counts bounded)

section Counted

variable {C : Type} [Hash C]

/-- A step of the walk that is counted. -/
def State.countedTransit (state : State ℤ) (hashable : C) (steps : ℕ) :
    Rust (State ℤ × C × ℕ) := do
  let (state, hashable) ← state.transit hashable
  return (state, hashable, steps + 1)

/-- A counted step is the step with one more counted. -/
theorem State.countedTransit_eq (state : State ℤ) (hashable : C) (steps : ℕ) :
    state.countedTransit hashable steps =
      (state.transit hashable).map fun x => (x.1, x.2, steps + 1) := by
  unfold countedTransit
  cases state.transit hashable with
  | error fault => rfl
  | ok x => rfl

/-- One pass of the first loop of `solve`, with its steps counted. -/
def countedSolvePass :
    Race C × ℕ → Rust (Control (Race C × ℕ) ((Option (Solutions ℤ) × C) × ℕ))
  | (r, steps) => do
    let (state1, compute, steps) ← r.state1.countedTransit r.compute steps
    let (state2, compute2, steps) ← r.state2.countedTransit r.compute2 steps
    let (state2, compute2, steps) ← state2.countedTransit compute2 steps
    if state1.work = state2.work then
      if state1.solution ≠ state2.solution then
        return .leave (⟨state1, state2, compute, compute2⟩, steps)
      else
        return .ret ((none, compute), steps)
    else
      return .next (⟨state1, state2, compute, compute2⟩, steps)

/-- One pass of the first loop of `solve_dist`, with its steps counted. -/
def countedSolveDistPass (flag : ℕ → Bool) (grainSize : ℕ) :
    DistRace C × ℕ → Rust (Control (DistRace C × ℕ) (DistResult C × ℕ))
  | (r, steps) => do
    let (state1, compute, steps) ← r.state1.countedTransit r.compute steps
    let (state2, compute2, steps) ← r.state2.countedTransit r.compute2 steps
    let (state2, compute2, steps) ← state2.countedTransit compute2 steps
    match pollFlag flag grainSize r.counter r.loads with
    | none => return .ret (⟨none, compute, false⟩, steps)
    | some (counter, loads) =>
      if state1.work = state2.work then
        if state1.solution ≠ state2.solution then
          return .leave (⟨⟨state1, state2, compute, compute2⟩, counter, loads⟩, steps)
        else
          return .ret (⟨none, compute, false⟩, steps)
      else
        return .next (⟨⟨state1, state2, compute, compute2⟩, counter + 1, loads⟩, steps)

/-- A pass of the first loop of `solve` makes at most three steps. -/
theorem countedSolvePass_counts : Counts (solvePass : Race C → _) countedSolvePass 3 := by
  intro r steps
  simp only [countedSolvePass, solvePass, State.countedTransit_eq]
  cases r.state1.transit r.compute with
  | error fault => exact ⟨0, by decide, rfl⟩
  | ok x =>
    cases r.state2.transit r.compute2 with
    | error fault => exact ⟨0, by decide, rfl⟩
    | ok y =>
      simp only [Except.map, Rust.ok_bind]
      cases y.1.transit y.2 with
      | error fault => exact ⟨0, by decide, rfl⟩
      | ok z =>
        refine ⟨3, le_refl 3, ?_⟩
        simp only [Rust.ok_bind]
        split_ifs
        · rfl
        · rfl
        · rfl

/-- A pass of the first loop of `solve_dist` makes at most three steps. -/
theorem countedSolveDistPass_counts (flag : ℕ → Bool) (grainSize : ℕ) :
    Counts (solveDistPass flag grainSize : DistRace C → _) (countedSolveDistPass flag grainSize)
      3 := by
  intro r steps
  simp only [countedSolveDistPass, solveDistPass, State.countedTransit_eq]
  cases r.state1.transit r.compute with
  | error fault => exact ⟨0, by decide, rfl⟩
  | ok x =>
    cases r.state2.transit r.compute2 with
    | error fault => exact ⟨0, by decide, rfl⟩
    | ok y =>
      simp only [Except.map, Rust.ok_bind]
      cases y.1.transit y.2 with
      | error fault => exact ⟨0, by decide, rfl⟩
      | ok z =>
        refine ⟨3, le_refl 3, ?_⟩
        simp only [Rust.ok_bind]
        cases pollFlag flag grainSize r.counter r.loads with
        | none => rfl
        | some polled =>
          dsimp only
          split_ifs
          · rfl
          · rfl
          · rfl

variable [Deps]

/-- One pass of the second loop of `solve`, with its steps counted. -/
def countedSolveNoncePass (hashDiff : U256) :
    Race C × ℕ → Rust (Control (Race C × ℕ) ((Option (Solutions ℤ) × C) × ℕ))
  | (r, steps) => do
    let (state1, compute, steps) ← r.state1.countedTransit r.compute steps
    let (state2, compute2, steps) ← r.state2.countedTransit r.compute2 steps
    if !state1.overflowed hashDiff then
      if state1.work = state2.work ∧ state1.solution ≠ state2.solution then
        return .ret ((some (state1.solution, state2.solution), compute), steps)
      else
        return .ret ((none, compute), steps)
    else
      return .next (⟨state1, state2, compute, compute2⟩, steps)

/-- The single-threaded solver, with its steps counted. -/
def countedSolve (key : PublicKey) (compute : C) (seed : ℤ) :
    Rust ((Option (Solutions ℤ) × C) × ℕ) := do
  let state1 ← State.fromPubKey key seed
  let n ← key.searchLen
  match ← bounded countedSolvePass n (⟨state1, state1, compute, compute⟩, 0) with
  | .inr result => return result
  | .inl (r, steps) =>
    let hashDiff ← key.hashDiff
    match ← bounded (countedSolveNoncePass hashDiff) n (r, steps) with
    | .inr result => return result
    | .inl (r, steps) => return ((none, r.compute), steps)

/-- One pass of the second loop of `solve_dist`, with its steps counted. -/
def countedSolveDistNoncePass (flag : ℕ → Bool) (grainSize : ℕ) (hashDiff : U256) :
    DistRace C × ℕ → Rust (Control (DistRace C × ℕ) (DistResult C × ℕ))
  | (r, steps) => do
    let (state1, compute, steps) ← r.state1.countedTransit r.compute steps
    let (state2, compute2, steps) ← r.state2.countedTransit r.compute2 steps
    match pollFlag flag grainSize r.counter r.loads with
    | none => return .ret (⟨none, compute, false⟩, steps)
    | some (counter, loads) =>
      if !state1.overflowed hashDiff then
        if flag loads then
          return .ret (⟨none, compute, false⟩, steps)
        else if state1.work = state2.work ∧ state1.solution ≠ state2.solution then
          return .ret (⟨some (state1.solution, state2.solution), compute, true⟩, steps)
        else
          return .ret (⟨none, compute, false⟩, steps)
      else
        return .next (⟨⟨state1, state2, compute, compute2⟩, counter + 1, loads⟩, steps)

/-- The cancellable solver, with its steps counted. -/
def countedSolveDist (key : PublicKey) (compute : C) (seed : ℤ) (grainSize : ℕ)
    (flag : ℕ → Bool) : Rust (DistResult C × ℕ) := do
  let state1 ← State.fromPubKey key seed
  let n ← key.searchLen
  match ← bounded (countedSolveDistPass flag grainSize) n
      (⟨⟨state1, state1, compute, compute⟩, 0, 0⟩, 0) with
  | .inr result => return result
  | .inl (r, steps) =>
    let hashDiff ← key.hashDiff
    match ← bounded (countedSolveDistNoncePass flag grainSize hashDiff) n
        ({ r with counter := 0 }, steps) with
    | .inr result => return result
    | .inl (r, steps) => return (⟨none, r.compute, false⟩, steps)

/-- A pass of the second loop of `solve` makes at most two steps. -/
theorem countedSolveNoncePass_counts (hashDiff : U256) :
    Counts (solveNoncePass hashDiff : Race C → _) (countedSolveNoncePass hashDiff) 2 := by
  intro r steps
  simp only [countedSolveNoncePass, solveNoncePass, State.countedTransit_eq]
  cases r.state1.transit r.compute with
  | error fault => exact ⟨0, by decide, rfl⟩
  | ok x =>
    cases r.state2.transit r.compute2 with
    | error fault => exact ⟨0, by decide, rfl⟩
    | ok y =>
      refine ⟨2, le_refl 2, ?_⟩
      simp only [Except.map, Rust.ok_bind]
      split_ifs
      · rfl
      · rfl
      · rfl

/-- A pass of the second loop of `solve_dist` makes at most two steps. -/
theorem countedSolveDistNoncePass_counts (flag : ℕ → Bool) (grainSize : ℕ) (hashDiff : U256) :
    Counts (solveDistNoncePass flag grainSize hashDiff : DistRace C → _)
      (countedSolveDistNoncePass flag grainSize hashDiff) 2 := by
  intro r steps
  simp only [countedSolveDistNoncePass, solveDistNoncePass, State.countedTransit_eq]
  cases r.state1.transit r.compute with
  | error fault => exact ⟨0, by decide, rfl⟩
  | ok x =>
    cases r.state2.transit r.compute2 with
    | error fault => exact ⟨0, by decide, rfl⟩
    | ok y =>
      refine ⟨2, le_refl 2, ?_⟩
      simp only [Except.map, Rust.ok_bind]
      cases pollFlag flag grainSize r.counter r.loads with
      | none => rfl
      | some polled =>
        dsimp only
        split_ifs
        · rfl
        · rfl
        · rfl
        · rfl

variable {key : PublicKey} {n : ℕ}

/-- The counted solver does what `solve` does, and it counts at most five steps for each
unit of the search length. -/
theorem countedSolve_eq (hlen : key.searchLen = .ok n) (compute : C) (seed : ℤ) :
    ∃ steps ≤ 5 * n,
      countedSolve key compute seed = (solve key compute seed).map (·, steps) := by
  simp only [countedSolve, solve, hlen]
  cases State.fromPubKey key seed with
  | error fault => exact ⟨0, Nat.zero_le _, rfl⟩
  | ok start =>
    obtain ⟨first, hfirst, heq⟩ :=
      countedSolvePass_counts.bounded n (⟨start, start, compute, compute⟩ : Race C) 0
    simp only [Rust.ok_bind, heq]
    cases bounded solvePass n (⟨start, start, compute, compute⟩ : Race C) with
    | error fault => exact ⟨0, Nat.zero_le _, rfl⟩
    | ok o =>
      cases o with
      | inr result => exact ⟨0 + first, by omega, rfl⟩
      | inl r =>
        cases hdiff : key.hashDiff with
        | error fault => exact ⟨0, Nat.zero_le _, rfl⟩
        | ok hashDiff =>
          obtain ⟨second, hsecond, heq'⟩ :=
            (countedSolveNoncePass_counts hashDiff).bounded n r (0 + first)
          refine ⟨0 + first + second, by omega, ?_⟩
          simp only [Except.map, Sum.map_inl, Rust.ok_bind, heq']
          cases bounded (solveNoncePass hashDiff) n r with
          | error fault => rfl
          | ok o' =>
            cases o' with
            | inl r' => rfl
            | inr result => rfl

/-- The same for the cancellable solver. -/
theorem countedSolveDist_eq (hlen : key.searchLen = .ok n) (compute : C) (seed : ℤ)
    (grainSize : ℕ) (flag : ℕ → Bool) :
    ∃ steps ≤ 5 * n, countedSolveDist key compute seed grainSize flag =
      (solveDist key compute seed grainSize flag).map (·, steps) := by
  simp only [countedSolveDist, solveDist, hlen]
  cases State.fromPubKey key seed with
  | error fault => exact ⟨0, Nat.zero_le _, rfl⟩
  | ok start =>
    obtain ⟨first, hfirst, heq⟩ := (countedSolveDistPass_counts flag grainSize).bounded n
      (⟨⟨start, start, compute, compute⟩, 0, 0⟩ : DistRace C) 0
    simp only [Rust.ok_bind, heq]
    cases bounded (solveDistPass flag grainSize) n
        (⟨⟨start, start, compute, compute⟩, 0, 0⟩ : DistRace C) with
    | error fault => exact ⟨0, Nat.zero_le _, rfl⟩
    | ok o =>
      cases o with
      | inr result => exact ⟨0 + first, by omega, rfl⟩
      | inl r =>
        cases hdiff : key.hashDiff with
        | error fault => exact ⟨0, Nat.zero_le _, rfl⟩
        | ok hashDiff =>
          obtain ⟨second, hsecond, heq'⟩ :=
            (countedSolveDistNoncePass_counts flag grainSize hashDiff).bounded n
              { r with counter := 0 } (0 + first)
          refine ⟨0 + first + second, by omega, ?_⟩
          simp only [Except.map, Sum.map_inl, Rust.ok_bind, heq']
          cases bounded (solveDistNoncePass flag grainSize hashDiff) n { r with counter := 0 } with
          | error fault => rfl
          | ok o' =>
            cases o' with
            | inl r' => rfl
            | inr result => rfl

end Counted

end TrexPow
