import TrexPow.Termination

/-!
# How soon a search is cancelled

A search is cancelled by a flag that it checks now and then. The checks are a fixed number
of passes apart, so the time from the flag to the return depends on the grain size, and
neither on the key nor on how long the search would still run.
-/

namespace TrexPow

open Loop (Control bounded)

section Potential

variable {C : Type}

/-- The most steps to the end of the pass, or to the return. -/
def WorkerPc.stepsInPass : WorkerPc → ℕ
  | .run => 4
  | .lookup | .store _ => 3
  | .insert | .writeNonce _ => 2
  | .poll | .load _ | .writeRes _ => 1
  | .returned => 0

/-- The most steps of a worker once the flag is up: four for each pass before the counter
has reached the grain size, one for each restart, and those of the present pass. -/
def Worker.stepsToStop (grainSize : ℕ) (w : Worker C) : ℕ :=
  match w.pc with
  | .returned => 0
  | pc => 4 * (grainSize - w.counter) + (maxTry.toNat - w.j.toNat) + pc.stepsInPass

theorem Worker.stepsToStop_of_ne (grainSize : ℕ) {w : Worker C} (hpc : w.pc ≠ .returned) :
    w.stepsToStop grainSize =
      4 * (grainSize - w.counter) + (maxTry.toNat - w.j.toNat) + w.pc.stepsInPass := by
  cases hat : w.pc with
  | returned => exact absurd hat hpc
  | _ => simp only [stepsToStop, hat]

theorem Worker.stepsToStop_le (grainSize : ℕ) (w : Worker C) :
    w.stepsToStop grainSize ≤
      4 * (grainSize - w.counter) + (maxTry.toNat - w.j.toNat) + w.pc.stepsInPass := by
  by_cases hpc : w.pc = .returned
  · simp only [stepsToStop, hpc]
    exact Nat.zero_le _
  · rw [stepsToStop_of_ne grainSize hpc]

/-- Whatever a worker is at, it stops within four steps for each unit of the grain size. -/
theorem Worker.stepsToStop_le_grain (grainSize : ℕ) (w : Worker C) :
    w.stepsToStop grainSize ≤ 4 * grainSize + 14 := by
  have hle := w.stepsToStop_le grainSize
  have htry := maxTry_toNat
  have hpass : w.pc.stepsInPass ≤ 4 := by
    cases w.pc <;> simp [WorkerPc.stepsInPass]
  omega

/-- Only a worker that has returned has no step left. -/
theorem Worker.returned_of_stepsToStop (grainSize : ℕ) {w : Worker C}
    (h : w.stepsToStop grainSize = 0) : w.pc = .returned := by
  by_contra hpc
  have hpass : 0 < w.pc.stepsInPass := by
    cases hat : w.pc with
    | returned => exact absurd hat hpc
    | _ => exact Nat.succ_pos _
  rw [stepsToStop_of_ne grainSize hpc] at h
  omega

variable [Deps] [Hash C] {key : PublicKey} {n grainSize : ℕ} {hashDiff : U256} {w w' : Worker C}
  {sh sh' : Shared}

/-- No step lowers the flag. -/
theorem Worker.StepTo.found_stays (h : w.StepTo key n grainSize hashDiff sh w' sh')
    (hfound : sh.found = true) : sh'.found = true := by
  cases h with
  | raise => rfl
  | _ => exact hfound

/-- At the end of a pass a worker sees the flag, or counts the pass. -/
theorem Worker.poll_of_found (hpc : w.pc = .poll) (hfound : sh.found = true)
    (h : w.step key n grainSize hashDiff sh = .ok (w', sh')) :
    w'.pc = .returned ∨ w.counter < grainSize ∧
      w' = { w with i := w.i + 1, counter := w.counter + 1, pc := .run } := by
  simp only [step, hpc, hfound, if_true] at h
  split_ifs at h with hgrain
  · obtain ⟨rfl, -⟩ := Prod.mk.inj (Except.ok.inj h)
    exact Or.inl rfl
  · obtain ⟨rfl, -⟩ := Prod.mk.inj (Except.ok.inj h)
    exact Or.inr ⟨not_le.mp hgrain, rfl⟩

/-- Once the flag is up, every step of a worker brings it closer to its return. -/
theorem Worker.stepsToStop_lt (hfound : sh.found = true)
    (h : w.step key n grainSize hashDiff sh = .ok (w', sh')) :
    w'.stepsToStop grainSize ≤ w.stepsToStop grainSize - 1 := by
  by_cases hreturned : w.pc = .returned
  · rw [(Worker.stepTo_of_step h).eq_of_returned hreturned]
    simp only [stepsToStop, hreturned, Nat.zero_sub, le_refl]
  have hbefore := stepsToStop_of_ne grainSize hreturned
  have hafter := w'.stepsToStop_le grainSize
  by_cases hpoll : w.pc = .poll
  · rcases poll_of_found hpoll hfound h with hstopped | ⟨hgrain, rfl⟩
    · simp only [stepsToStop, hstopped]
      exact Nat.zero_le _
    · simp only [hpoll, WorkerPc.stepsInPass] at hbefore hafter
      omega
  · cases Worker.stepTo_of_step h with
    | @walk state compute hpc =>
      have hpass : (if !state.overflowed hashDiff then WorkerPc.lookup
          else .poll).stepsInPass ≤ 3 := by
        cases state.overflowed hashDiff <;> decide
      simp only [hpc, WorkerPc.stepsInPass] at hbefore hafter hpass
      omega
    | restart hpc hi hj =>
      have hlt : w.j.toNat < maxTry.toNat := hj
      simp only [hpc, WorkerPc.stepsInPass, toNat_succ_of_lt_maxTry hj] at hbefore hafter
      omega
    | proceed hpc hflag => cases hfound.symm.trans hflag
    | stop hpc | resume hpc => exact absurd hpc hpoll
    | rest hpc => exact absurd hpc hreturned
    | giveUp hpc | findOwn hpc | findOther hpc | findNone hpc | cancel hpc | raise hpc
    | publishNonce hpc | publishRes hpc | insert hpc =>
      simp only [hpc, WorkerPc.stepsInPass] at hbefore hafter
      omega

end Potential

section Search

variable [Deps] {cpus : ℕ} {key : PublicKey} {n grainSize : ℕ} {hashDiff : U256}
  {s s' : ParState Compute cpus}

/-- Once the flag is up it stays up, and every move of a worker brings it closer to its return. -/
theorem ParState.move_stepsToStop (hfound : s.shared.found = true) {move : Move cpus}
    (h : s.move key n grainSize hashDiff move = .ok s') :
    s'.shared.found = true ∧ ∀ i, (s'.workers i).stepsToStop grainSize ≤
      (s.workers i).stepsToStop grainSize - if move == some i then 1 else 0 := by
  cases move with
  | none =>
    obtain rfl := Except.ok.inj h
    exact ⟨rfl, fun i => le_rfl⟩
  | some k =>
    obtain ⟨⟨w, sh⟩, hstep, hmoved⟩ := Rust.bind_eq_ok.mp h
    obtain rfl := Except.ok.inj hmoved
    refine ⟨(Worker.stepTo_of_step hstep).found_stays hfound, ?_⟩
    intro i
    by_cases hki : k = i
    · subst hki
      simp only [Function.update_self, BEq.rfl, if_true]
      exact Worker.stepsToStop_lt hfound hstep
    · have hne : (some k == some i) = false := by
        rw [Option.some_beq_some, beq_eq_false_iff_ne]
        exact hki
      simp [Function.update_of_ne (Ne.symm hki), hne]

/-- A parallel search whose flag is up goes on without a panic, and each worker that makes
enough steps from there on returns. -/
theorem parallelRun_returned (hrand : RandomInRange) (hthree : 3 ≤ key.p) (hlt : key.p < 2 ^ 256)
    (hbits : 18 ≤ key.bitLength.toNat) {header : Compute} {seed : ℤ} {flag : Bool}
    {schedule : List (Move cpus)}
    (hrun : parallelRun key header seed grainSize flag cpus schedule = .ok s)
    (hfound : s.shared.found = true) (rest : List (Move cpus)) :
    ∃ s', parallelRun key header seed grainSize flag cpus (schedule ++ rest) = .ok s' ∧
      s'.Reduced key ∧
      ∀ i, 4 * grainSize + 14 ≤ rest.count (some i) → (s'.workers i).pc = .returned := by
  obtain ⟨n, hn⟩ : ∃ n, n = 8 * key.p.toNat.sqrt := ⟨_, rfl⟩
  obtain ⟨hashDiff, start, hsetup, hstart, -⟩ :=
    ParState.setup_ok hrand hthree hbits hn header seed flag cpus
  simp only [parallelRun, hsetup, Rust.ok_bind] at hrun
  obtain ⟨reached, hreached, hreduced⟩ := Loop.foldlM_total
    (fun _ move hs => hs.move_ok hrand hthree hlt n grainSize hashDiff move) schedule hstart
  obtain rfl := Except.ok.inj (hrun.symm.trans hreached)
  -- from here on every move keeps the flag up and takes from what its worker has left
  have hmove (t : ParState Compute cpus) (move : Move cpus)
      (ht : t.Reduced key ∧ t.shared.found = true) :
      ∃ t', t.move key n grainSize hashDiff move = .ok t' ∧
        (t'.Reduced key ∧ t'.shared.found = true) ∧
        ∀ i, (t'.workers i).stepsToStop grainSize ≤
          (t.workers i).stepsToStop grainSize - if move == some i then 1 else 0 := by
    obtain ⟨t', hmove, ht'⟩ := ht.1.move_ok hrand hthree hlt n grainSize hashDiff move
    obtain ⟨hup, hpays⟩ := ParState.move_stepsToStop ht.2 hmove
    exact ⟨t', hmove, ⟨ht', hup⟩, hpays⟩
  obtain ⟨s', hrest, ⟨hreduced', -⟩, hleft⟩ := Loop.foldlM_drains hmove rest ⟨hreduced, hfound⟩
  refine ⟨s', ?_, hreduced', ?_⟩
  · simp only [parallelRun, hsetup, Rust.ok_bind, List.foldlM_append, hrun]
    exact hrest
  · intro i hmany
    have hdone : (s'.workers i).stepsToStop grainSize ≤
        (s.workers i).stepsToStop grainSize - rest.count (some i) := hleft i
    have hmost := (s.workers i).stepsToStop_le_grain grainSize
    apply Worker.returned_of_stepsToStop grainSize
    omega

/-- **Cancelling a parallel search.** From the moment the flag is up, whoever has raised it,
each worker returns within a number of its own steps that depends on the grain size alone,
under every interleaving. When all have made so many steps, the search returns. -/
theorem cancelled_workers_return (hrand : RandomInRange) (hp : 3 ≤ key.p ∧ key.p < 2 ^ 256)
    (hbits : 18 ≤ key.bitLength.toNat) {header : Compute} {seed : ℤ} {flag : Bool}
    {schedule : List (Move cpus)}
    (hrun : parallelRun key header seed grainSize flag cpus schedule = .ok s)
    (hfound : s.shared.found = true) (rest : List (Move cpus)) :
    ∃ s', parallelRun key header seed grainSize flag cpus (schedule ++ rest) = .ok s' ∧
      (∀ i, 4 * grainSize + 14 ≤ rest.count (some i) → (s'.workers i).pc = .returned) ∧
      ((∀ i : Fin cpus, 4 * grainSize + 14 ≤ rest.count (some i)) →
        ∃ result, solveParallel key header seed grainSize flag cpus (schedule ++ rest) =
          .ok result) := by
  obtain ⟨s', hwhole, hreduced, hreturns⟩ :=
    parallelRun_returned hrand hp.1 hp.2 hbits hrun hfound rest
  refine ⟨s', hwhole, hreturns, ?_⟩
  intro hmany
  obtain ⟨result, hresult⟩ := hreduced.finish_ok header fun i => hreturns i (hmany i)
  exact ⟨result, by rw [solveParallel, hwhole, Rust.ok_bind, hresult]⟩

end Search

section Solver

/-- The most further passes before load `k` of the flag, and one. -/
def passesToLoad (grainSize k counter loads : ℕ) : ℕ :=
  (k - loads) * (grainSize + 1) + (grainSize - counter) + 1

/-- The rest of the passes before load `k`, without those of the present round. -/
theorem passesToLoad_round (grainSize k counter loads : ℕ) :
    (k - loads) * (grainSize + 1) < passesToLoad grainSize k counter loads := by
  unfold passesToLoad
  omega

/-- A check that does not cancel is a pass closer to load `k`, which it does not skip. -/
theorem passesToLoad_pollFlag {flag : ℕ → Bool} {grainSize k counter loads counter' loads' : ℕ}
    (hflag : flag k = true) (hloads : loads ≤ k)
    (h : pollFlag flag grainSize counter loads = some (counter', loads')) :
    loads' ≤ k ∧
      passesToLoad grainSize k (counter' + 1) loads' < passesToLoad grainSize k counter loads ∧
      (k - loads') * (grainSize + 1) < passesToLoad grainSize k counter loads := by
  unfold pollFlag at h
  split_ifs at h with hgrain hload
  · obtain ⟨rfl, rfl⟩ := Prod.mk.inj (Option.some.inj h)
    -- load `k` cancels, so this was an earlier one
    have hearlier : loads ≠ k := by
      rintro rfl
      exact hload hflag
    have hround : (k - loads) * (grainSize + 1) =
        (k - (loads + 1)) * (grainSize + 1) + (grainSize + 1) := by
      rw [← Nat.succ_mul]
      congr 1
      omega
    unfold passesToLoad
    omega
  · obtain ⟨rfl, rfl⟩ := Prod.mk.inj (Option.some.inj h)
    have hround := passesToLoad_round grainSize k counter loads
    unfold passesToLoad at hround ⊢
    omega

variable {C : Type} {flag : ℕ → Bool} {grainSize : ℕ}

/-- What a pass that goes on leaves of the counter and the loads. -/
def DistRace.Polls (flag : ℕ → Bool) (grainSize : ℕ) (r : DistRace C) (passes : ℕ)
    (r' : DistRace C) : Prop :=
  ∃ counter, pollFlag flag grainSize r.counter r.loads = some (counter, r'.loads) ∧
    r'.counter = counter + passes

/-- The passes that a loop still makes fit into what is left of a budget of steps. -/
def WithinBudget (grainSize k cost budget : ℕ) (x : DistRace C × ℕ) : Prop :=
  x.1.loads ≤ k ∧ x.2 + cost * passesToLoad grainSize k x.1.counter x.1.loads ≤ budget

/-- A pass that makes at most its cost of steps fits into a budget that was made for it. -/
theorem add_cost_le {steps spent cost passes passes' budget : ℕ} (hspent : spent ≤ cost)
    (hpasses : passes' < passes) (hbudget : steps + cost * passes ≤ budget) :
    steps + spent + cost * passes' ≤ budget := by
  have hcost : cost * passes' + cost ≤ cost * passes := Nat.mul_le_mul_left cost hpasses
  omega

/-- A counted pass that polls the flag stays within the budget. -/
theorem withinBudget_of_counts {body : DistRace C → Rust (Control (DistRace C) (DistResult C))}
    {counted : DistRace C × ℕ → Rust (Control (DistRace C × ℕ) (DistResult C × ℕ))}
    {cost k budget : ℕ} (hcounts : Loop.Counts body counted cost)
    (hpolls : ∀ r c, body r = .ok c →
      c.Satisfies (DistRace.Polls flag grainSize r 1) (DistRace.Polls flag grainSize r 0)
        fun _ => True) (hflag : flag k = true)
    (x : DistRace C × ℕ) (c : Control (DistRace C × ℕ) (DistResult C × ℕ))
    (hx : WithinBudget grainSize k cost budget x) (h : counted x = .ok c) :
    c.Satisfies (WithinBudget grainSize k cost budget)
      (fun y => y.1.loads ≤ k ∧ y.2 + cost * ((k - y.1.loads) * (grainSize + 1)) ≤ budget)
      fun y => y.2 ≤ budget := by
  obtain ⟨r, steps⟩ := x
  obtain ⟨hloads, hbudget⟩ := hx
  obtain ⟨spent, hspent, hcounted⟩ := hcounts r steps
  rw [hcounted] at h
  cases hbody : body r with
  | error fault =>
    rw [hbody] at h
    cases h
  | ok d =>
    rw [hbody] at h
    obtain rfl := Except.ok.inj h
    have hpolled := hpolls r d hbody
    cases d with
    | next r' =>
      obtain ⟨counter, hpoll, hcounter⟩ := hpolled
      obtain ⟨hle, hpass, -⟩ := passesToLoad_pollFlag hflag hloads hpoll
      refine ⟨hle, ?_⟩
      dsimp only
      rw [hcounter]
      exact add_cost_le hspent hpass hbudget
    | leave r' =>
      obtain ⟨counter, hpoll, -⟩ := hpolled
      obtain ⟨hle, -, hround⟩ := passesToLoad_pollFlag hflag hloads hpoll
      exact ⟨hle, add_cost_le hspent hround hbudget⟩
    | ret result =>
      have hlast : 0 < passesToLoad grainSize k r.counter r.loads := Nat.succ_pos _
      exact add_cost_le hspent hlast hbudget

variable [Hash C]

/-- A pass of the first loop checks the flag. -/
theorem solveDistPass_polls (r : DistRace C) (c : Control (DistRace C) (DistResult C))
    (h : solveDistPass flag grainSize r = .ok c) :
    c.Satisfies (r.Polls flag grainSize 1) (r.Polls flag grainSize 0) fun _ => True := by
  simp only [solveDistPass, Rust.bind_eq_ok] at h
  obtain ⟨moved, -, middle, -, moved2, -, h⟩ := h
  cases hpoll : pollFlag flag grainSize r.counter r.loads with
  | none =>
    rw [hpoll] at h
    obtain rfl := Except.ok.inj h
    trivial
  | some polled =>
    obtain ⟨counter, loads⟩ := polled
    simp only [hpoll] at h
    split_ifs at h
    · obtain rfl := Except.ok.inj h
      exact ⟨counter, hpoll, rfl⟩
    · obtain rfl := Except.ok.inj h
      trivial
    · obtain rfl := Except.ok.inj h
      exact ⟨counter, hpoll, rfl⟩

/-- So does a pass of the second loop. -/
theorem solveDistNoncePass_polls [Deps] (hashDiff : U256) (r : DistRace C)
    (c : Control (DistRace C) (DistResult C))
    (h : solveDistNoncePass flag grainSize hashDiff r = .ok c) :
    c.Satisfies (r.Polls flag grainSize 1) (r.Polls flag grainSize 0) fun _ => True := by
  simp only [solveDistNoncePass, Rust.bind_eq_ok] at h
  obtain ⟨moved, -, moved2, -, h⟩ := h
  cases hpoll : pollFlag flag grainSize r.counter r.loads with
  | none =>
    rw [hpoll] at h
    obtain rfl := Except.ok.inj h
    trivial
  | some polled =>
    obtain ⟨counter, loads⟩ := polled
    simp only [hpoll] at h
    split_ifs at h
    · obtain rfl := Except.ok.inj h
      trivial
    · obtain rfl := Except.ok.inj h
      trivial
    · obtain rfl := Except.ok.inj h
      trivial
    · obtain rfl := Except.ok.inj h
      exact ⟨counter, hpoll, rfl⟩

/-- When load `k` of the flag returns `true`, the steps that the solver has counted at its end
are bounded in `k` and the grain size alone. -/
theorem countedSolveDist_steps_le [Deps] {key : PublicKey} {header : Compute}
    {seed : ℤ} {k : ℕ} (hflag : flag k = true) {result : DistResult Compute} {steps : ℕ}
    (h : countedSolveDist key header seed grainSize flag = .ok (result, steps)) :
    steps ≤ (3 * k + 5) * (grainSize + 1) := by
  have hfirstBudget : 3 * passesToLoad grainSize k 0 0 = (3 * k + 3) * (grainSize + 1) := by
    simp only [passesToLoad, Nat.sub_zero]
    ring
  have hwhole : (3 * k + 5) * (grainSize + 1) =
      (3 * k + 3) * (grainSize + 1) + 2 * (grainSize + 1) := by
    ring
  simp only [countedSolveDist, Rust.bind_eq_ok] at h
  obtain ⟨start, -, m, -, first, hfirst, hrest⟩ := h
  have hended := Loop.bounded_establishes
    (withinBudget_of_counts (countedSolveDistPass_counts flag grainSize) solveDistPass_polls hflag)
    ⟨Nat.zero_le k, (Nat.zero_add _).trans hfirstBudget |>.le⟩ hfirst
  cases first with
  | inr ended =>
    obtain rfl : ended = (result, steps) := Except.ok.inj hrest
    have hle : steps ≤ (3 * k + 3) * (grainSize + 1) := hended
    omega
  | inl reached =>
    obtain ⟨r, spent⟩ := reached
    -- after its first loop the solver has made the steps of the rounds it has finished
    have hrounds : r.loads ≤ k ∧ spent + 3 * ((k - r.loads) * (grainSize + 1)) ≤
        (3 * k + 3) * (grainSize + 1) := by
      rcases hended with ⟨hle, hbudget⟩ | hleft
      · have hround := passesToLoad_round grainSize k r.counter r.loads
        dsimp only at hle hbudget
        exact ⟨hle, by omega⟩
      · exact hleft
    obtain ⟨hle, hspent⟩ := hrounds
    simp only [Rust.bind_eq_ok] at hrest
    obtain ⟨hashDiff, -, second, hsecond, hlast⟩ := hrest
    have hbudget : spent + 2 * passesToLoad grainSize k 0 r.loads ≤
        (3 * k + 5) * (grainSize + 1) := by
      have hnew : passesToLoad grainSize k 0 r.loads =
          (k - r.loads) * (grainSize + 1) + (grainSize + 1) := rfl
      omega
    have hended' := Loop.bounded_establishes
      (withinBudget_of_counts (countedSolveDistNoncePass_counts flag grainSize hashDiff)
        (solveDistNoncePass_polls hashDiff) hflag) ⟨hle, hbudget⟩ hsecond
    cases second with
    | inr ended =>
      obtain rfl : ended = (result, steps) := Except.ok.inj hlast
      exact hended'
    | inl last =>
      obtain ⟨-, rfl⟩ := Prod.mk.inj (Except.ok.inj hlast)
      rcases hended' with ⟨-, hbudget'⟩ | ⟨-, hbudget'⟩
      · omega
      · omega

/-- The cancellable solver returns, and so does its copy that counts the steps. -/
theorem countedSolveDist_ok [Deps] (hrand : RandomInRange) {key : PublicKey} (hthree : 3 ≤ key.p)
    (hlt : key.p < 2 ^ 256) (hbits : 18 ≤ key.bitLength.toNat) (header : Compute) (seed : ℤ)
    (grainSize : ℕ) (flag : ℕ → Bool) :
    ∃ result steps, countedSolveDist key header seed grainSize flag = .ok (result, steps) ∧
      solveDist key header seed grainSize flag = .ok result := by
  obtain ⟨n, hn⟩ : ∃ n, n = 8 * key.p.toNat.sqrt := ⟨_, rfl⟩
  have hlen := PublicKey.searchLen_eq (by omega) hn
  obtain ⟨-, result, -, hresult, -⟩ :=
    solveDist_follows hrand hthree hlt hbits header seed grainSize flag
  obtain ⟨steps, -, hcounted⟩ := countedSolveDist_eq hlen header seed grainSize flag
  rw [hresult] at hcounted
  exact ⟨result, steps, hcounted, hresult⟩

/-- **Cancelling a solver.** When load `k` of the flag returns `true`, the cancellable solver
returns after a number of steps that depends on `k` and the grain size alone. -/
theorem cancelled_solveDist_returns [Deps] (hrand : RandomInRange) {key : PublicKey}
    (hp : 3 ≤ key.p ∧ key.p < 2 ^ 256) (hbits : 18 ≤ key.bitLength.toNat) (header : Compute)
    (seed : ℤ) {k : ℕ} (hflag : flag k = true) :
    ∃ result steps, countedSolveDist key header seed grainSize flag = .ok (result, steps) ∧
      solveDist key header seed grainSize flag = .ok result ∧
      steps ≤ (3 * k + 5) * (grainSize + 1) := by
  obtain ⟨result, steps, hcounted, hresult⟩ :=
    countedSolveDist_ok hrand hp.1 hp.2 hbits header seed grainSize flag
  exact ⟨result, steps, hcounted, hresult, countedSolveDist_steps_le hflag hcounted⟩

end Solver

section Sample

attribute [local instance] Deps.sample

/-- On the small key, when the flag goes up after a step of each of two workers, 26 further
steps of each worker are enough for the search to return. -/
theorem smallKey_workers_cancelled : ∃ result,
    solveParallel smallKey (⟨48, .replicate 32 0, 0⟩ : Compute) 0 3 false 2
      ([some 0, some 1, none] ++ (List.replicate 26 (some 0) ++ List.replicate 26 (some 1))) =
        .ok result := by
  have hany : (parallelRun smallKey (⟨48, .replicate 32 0, 0⟩ : Compute) 0 3 false 2
      [some 0, some 1, none]).toOption.any (fun s => s.shared.found) = true := by decide +kernel
  obtain ⟨s, hrun, hfound⟩ := Rust.exists_ok_of_any hany
  obtain ⟨-, -, -, hreturns⟩ := cancelled_workers_return Deps.sample.randomInRange
    (by decide : 3 ≤ smallKey.p ∧ smallKey.p < 2 ^ 256) (by decide) hrun hfound
    (List.replicate 26 (some 0) ++ List.replicate 26 (some 1))
  exact hreturns (by decide)

/-- On the small key a flag that is up at its second load ends the solver within 32 steps. -/
theorem smallKey_solver_cancelled : ∃ result steps,
    countedSolveDist smallKey (⟨48, .replicate 32 0, 0⟩ : Compute) 2 3 (fun k => k == 1) =
      .ok (result, steps) ∧ steps ≤ 32 := by
  obtain ⟨result, steps, hcounted, -, hle⟩ := @cancelled_solveDist_returns (fun k => k == 1) 3 _
    Deps.sample.randomInRange smallKey
    (by decide) (by decide) ⟨48, .replicate 32 0, 0⟩ 2 1 rfl
  exact ⟨result, steps, hcounted, hle⟩

end Sample

end TrexPow
