import TrexPow.KeyExtraction
import TrexPow.ParallelCoherence

/-!
# What every interleaving of the parallel search guarantees

Workers that publish at the same time may mix up the nonces, but never the solutions: each
published pair is a match of the worker that has published it. So whatever the schedule,
the returned pair is valid for some nonce, and it reveals the key like any other collision.
-/

namespace TrexPow

section Safety

variable [Deps] {cpus : ℕ} {key : PublicKey} {before : Compute} {hashDiff : U256} {n grainSize : ℕ}
  {s s' : ParState Compute cpus}

/-- The solutions are those of a match, for a header computer that belongs to the search. -/
def Matched (key : PublicKey) (before : Compute) (solutions : Option (Solutions ℤ)) : Prop :=
  ∃ compute, Reports key before solutions compute

/-- The exponents of a match are nonnegative. -/
theorem Match.nonneg {compute : Compute} {state1 state2 : State ℤ}
    (h : Match key compute state1 state2) : Nonneg (state1.solution, state2.solution) :=
  ⟨⟨h.onWalk1.a_bounds.1, h.onWalk1.b_bounds.1⟩, h.onWalk2.a_bounds.1, h.onWalk2.b_bounds.1⟩

/-- The two solutions of a match fit into a seal. -/
theorem Matched.inRange (hkey : key.Sound) {solutions : Solutions ℤ}
    (h : Matched key before (some solutions)) : solutions.1.InRange ∧ solutions.2.InRange := by
  obtain ⟨compute, hreports⟩ := h
  obtain ⟨-, state1, state2, hmatch, rfl⟩ := hreports solutions rfl
  exact ⟨hmatch.onWalk1.inRange hkey, hmatch.onWalk2.inRange hkey⟩

/-- Whatever the header, the verifier decides about the solutions of a match. -/
theorem Matched.verify_returns (hrand : RandomInRange) (hkey : key.Sound)
    (htester : key.hashDiff = .ok hashDiff) {solutions : Solutions ℤ}
    (h : Matched key before (some solutions)) (header : Compute) :
    ∃ accepted, SolutionVerifier.verify ⟨key⟩ solutions header = .ok accepted := by
  obtain ⟨compute, hreports⟩ := h
  obtain ⟨-, state1, state2, hmatch, rfl⟩ := hreports solutions rfl
  have hthree := hkey.three_le
  rw [SolutionVerifier.verify_returns_iff hrand hmatch.nonneg]
  rintro ⟨-, hzero | ⟨htwo, -⟩ | ⟨-, -, hbits⟩⟩
  · omega
  · omega
  · exact PublicKey.hashDiff_ok_iff.mp ⟨hashDiff, htester⟩ hbits

/-- A candidate of the search is a match. -/
theorem Worker.Candidate.matched {w : Worker Compute} {sol : Solution ℤ}
    (hw : w.Candidate key hashDiff sol) (htester : key.hashDiff = .ok hashDiff)
    (hwalk : w.state.OnWalk key) (hheader : SameHeader before w.compute) :
    Matched key before (some (w.state.solution, sol)) := by
  obtain ⟨state2, hwalk2, hwork2, rfl⟩ := hw.visited
  refine ⟨w.compute, ?_⟩
  intro found hfound
  obtain rfl := Option.some.inj hfound
  exact ⟨hheader, w.state, state2, ⟨hwalk, hwalk2, hw.linked, hwork2.symm, hw.differ,
    hashDiff, htester, hw.distinguished⟩, rfl⟩

/-- The invariant of every run: the workers and the map are on walks of the key, and what is
published is a match. -/
structure ParState.Safe (key : PublicKey) (before : Compute) (hashDiff : U256)
    (s : ParState Compute cpus) : Prop where
  workers : ∀ i, (s.workers i).Good key before hashDiff
  shared : s.shared.OnWalk key
  published : Matched key before s.shared.res

/-- Every move keeps the invariant. -/
theorem ParState.Safe.move (hrand : RandomInRange) (hkey : key.Sound)
    (htester : key.hashDiff = .ok hashDiff) (hs : s.Safe key before hashDiff) {move : Move cpus}
    (h : s.move key n grainSize hashDiff move = .ok s') : s'.Safe key before hashDiff := by
  cases move with
  | none =>
    obtain rfl := Except.ok.inj h
    exact ⟨hs.workers, hs.shared, hs.published⟩
  | some i =>
    obtain ⟨hstep, hother⟩ := ParState.stepTo_of_move h
    have hw := hs.workers i
    obtain ⟨hgood, hwalk⟩ := hstep.good hrand hkey hw hs.shared
    refine ⟨fun k => ?_, hwalk, ?_⟩
    · by_cases hki : k = i
      · subst hki
        exact hgood
      · rw [hother k hki]
        exact hs.workers k
    · rcases hstep.publication with ⟨sol, -, -, hsh⟩ | ⟨sol, hpc, -, hsh⟩ | ⟨-, -, -, hres, -⟩
      · rw [hsh]
        exact hs.published
      · rw [hsh]
        exact (hw.candidate (by rw [hpc]; rfl)).matched htester hw.onWalk hw.header
      · rw [hres]
        exact hs.published

/-- Every run ends in a state of the invariant. -/
theorem parallelRun_safe (hrand : RandomInRange) (hkey : key.Sound) {seed : ℤ} {flag : Bool}
    {schedule : List (Move cpus)}
    (h : parallelRun key before seed grainSize flag cpus schedule = .ok s) :
    ∃ hashDiff, key.hashDiff = .ok hashDiff ∧ s.Safe key before hashDiff := by
  obtain ⟨⟨hashDiff, n, start⟩, hsetup, hrun⟩ := Rust.bind_eq_ok.mp h
  obtain ⟨-, hshared, htester⟩ := ParState.setup_spec hsetup
  have hcoherent := ParState.setup_coherent hrand hkey hsetup
  have hstart : start.Safe key before hashDiff := by
    refine ⟨hcoherent.workers, hcoherent.shared, before, ?_⟩
    intro found hfound
    rw [hshared] at hfound
    cases hfound
  exact ⟨hashDiff, htester, Loop.foldlM_invariant
    (fun _ _ _ hs hmove => ParState.Safe.move hrand hkey htester hs hmove) hstart hrun⟩

/-- What a search returns is a match. -/
theorem solveParallel_matched (hrand : RandomInRange) (hkey : key.Sound) {seed : ℤ} {flag : Bool}
    {schedule : List (Move cpus)} {solutions : Option (Solutions ℤ)} {after : Compute}
    (h : solveParallel key before seed grainSize flag cpus schedule = .ok (solutions, after)) :
    ∃ hashDiff, key.hashDiff = .ok hashDiff ∧ Matched key before solutions := by
  obtain ⟨s, hrun, hfinish⟩ := Rust.bind_eq_ok.mp h
  obtain ⟨hashDiff, htester, hs⟩ := parallelRun_safe hrand hkey hrun
  unfold ParState.finish at hfinish
  split_ifs at hfinish with hjoined
  obtain ⟨compute, -, hfinish⟩ := Rust.bind_eq_ok.mp hfinish
  obtain ⟨rfl, -⟩ := Prod.mk.inj (Except.ok.inj hfinish)
  exact ⟨hashDiff, htester, hs.published⟩

/-- The solutions of a match are accepted for some nonce. -/
theorem Matched.accepted (hrand : RandomInRange) (hkey : key.Sound) {solutions : Solutions ℤ}
    (h : Matched key before (some solutions)) : ∃ nonce, 0 ≤ nonce ∧ nonce < key.p ∧
      SolutionVerifier.verify ⟨key⟩ solutions (before.at nonce) = .ok true := by
  obtain ⟨header, hreports⟩ := h
  obtain ⟨hheader, state1, state2, hmatch, rfl⟩ := hreports solutions rfl
  obtain ⟨hnonneg, hlt⟩ := hmatch.linked.nonce_bounds
  refine ⟨state1.nonce, hnonneg, hlt, ?_⟩
  have hat : before.at state1.nonce = header := by
    rw [← hheader.at_eq, Blake3Compute.at, ← hmatch.linked.nonce_eq]
  rw [hat]
  exact hmatch.verify hrand hkey

/-- The solutions of a match reveal a puzzle key exactly when the second exponents differ
modulo `n`, which is the prime of the puzzle. -/
theorem Matched.reveals_iff {q x : ℕ} (hpuzzle : key.Puzzle q x) {solutions : Solutions ℤ}
    (h : Matched key before (some solutions)) : solutions.2.n = q ∧
      (SolutionVerifier.Reveals ⟨key⟩ solutions ↔ ¬(q : ℤ) ∣ solutions.1.b - solutions.2.b) := by
  obtain ⟨header, hreports⟩ := h
  obtain ⟨-, state1, state2, hmatch, rfl⟩ := hreports solutions rfl
  have hcol : key.Collides (state1.solution, state2.solution) :=
    hmatch.onWalk1.work_eq.symm.trans (hmatch.work_eq.trans hmatch.onWalk2.work_eq)
  have hn : state2.solution.n = q := hmatch.onWalk2.n_eq.trans hpuzzle.safe.half_eq
  exact ⟨hn, hpuzzle.safe.reveals_iff hmatch.nonneg hcol hn⟩

/-- **Only the nonce can be wrong.** Under every interleaving, a pair that the parallel search
returns is accepted for some nonce below the modulus of the key. With the returned header
computer the verifier decides without a panic. For a puzzle key the pair reveals the
private key exactly when its second exponents differ modulo `n`. -/
theorem parallel_result_repairable (hrand : RandomInRange) (hkey : key.Sound) {seed : ℤ}
    {flag : Bool} {schedule : List (Move cpus)} {solutions : Solutions ℤ} {after : Compute}
    (h : solveParallel key before seed grainSize flag cpus schedule =
      .ok (some solutions, after)) :
    (∃ nonce, 0 ≤ nonce ∧ nonce < key.p ∧
      SolutionVerifier.verify ⟨key⟩ solutions (before.at nonce) = .ok true) ∧
    (∃ accepted, SolutionVerifier.verify ⟨key⟩ solutions after = .ok accepted) ∧
    ∀ q x, key.Puzzle q x → (SolutionVerifier.Reveals ⟨key⟩ solutions ↔
      ¬solutions.2.n ∣ solutions.1.b - solutions.2.b) := by
  obtain ⟨hashDiff, htester, hmatched⟩ := solveParallel_matched hrand hkey h
  refine ⟨hmatched.accepted hrand hkey, hmatched.verify_returns hrand hkey htester after, ?_⟩
  intro q x hpuzzle
  obtain ⟨hn, hreveals⟩ := hmatched.reveals_iff hpuzzle
  rw [hn]
  exact hreveals

end Safety

section Sample

attribute [local instance] Deps.sample

/-- The racing workers return a pair that some other nonce makes valid, and that reveals the
private key of the small key. -/
theorem racing_result_repairable : ∃ solutions after,
    solveParallel smallKey plainHeader 2 grainSize false 2 racingSchedule =
      .ok (some solutions, after) ∧
    (∃ nonce, SolutionVerifier.verify ⟨smallKey⟩ solutions (plainHeader.at nonce) = .ok true) ∧
    SolutionVerifier.Reveals ⟨smallKey⟩ solutions := by
  have hrun : solveParallel smallKey plainHeader 2 grainSize false 2 racingSchedule =
      .ok (some (⟨2, 2, 3⟩, ⟨4, 3, 3⟩), plainHeader.at 4) := by decide +kernel
  obtain ⟨⟨nonce, -, -, hvalid⟩, -, hreveals⟩ :=
    parallel_result_repairable Deps.sample.randomInRange smallKey_sound hrun
  exact ⟨_, _, hrun, ⟨nonce, hvalid⟩, (hreveals 3 4 smallKey_puzzle).mpr (by decide)⟩

end Sample

end TrexPow
