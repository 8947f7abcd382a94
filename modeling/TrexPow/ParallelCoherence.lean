import TrexPow.Completeness

/-!
# Which interleavings of the parallel search return a valid block

The workers test and set the flag in two steps, and they publish the nonce and the
solutions in two more. Every published pair is a match of its worker, but two
workers may publish at the same time. The result is coherent when nobody publishes
solutions over a nonce whose owner has already published.
-/

namespace TrexPow

/-- The solution from the map that a worker carries to its publication. -/
def WorkerPc.carried : WorkerPc → Option (Solution ℤ)
  | .load sol | .store sol | .writeNonce sol | .writeRes sol => some sol
  | _ => none

/-- The worker is about to publish its solutions. -/
def WorkerPc.AtResult : WorkerPc → Prop
  | .writeRes _ => True
  | _ => False

instance : (pc : WorkerPc) → Decidable pc.AtResult
  | .writeRes _ => .isTrue trivial
  | .run | .lookup | .load _ | .store _ | .writeNonce _ | .insert | .poll | .returned =>
    .isFalse nofun

theorem WorkerPc.atResult_iff {pc : WorkerPc} : pc.AtResult ↔ ∃ sol, pc = .writeRes sol := by
  cases pc <;> simp [WorkerPc.AtResult]

/-- The worker's state is a distinguished point of the header computer. -/
def WorkerPc.AtPoint : WorkerPc → Prop
  | .lookup | .insert | .load _ | .store _ | .writeNonce _ | .writeRes _ => True
  | _ => False

/-- Some state of the walk of a key has this work and this solution. -/
def Visited (key : PublicKey) (work : ℤ) (solution : Solution ℤ) : Prop :=
  ∃ state, State.OnWalk key state ∧ state.work = work ∧ state.solution = solution

/-- The shared map holds points of walks of the key. -/
def Shared.OnWalk (key : PublicKey) (sh : Shared) : Prop :=
  ∀ work solution, sh.collision work = some solution → Visited key work solution

section Workers

variable [Deps] {key : PublicKey} {before : Compute} {hashDiff : U256}

/-- The invariant of one worker. -/
structure Worker.Good (key : PublicKey) (before : Compute) (hashDiff : U256)
    (w : Worker Compute) : Prop where
  onWalk : w.state.OnWalk key
  header : SameHeader before w.compute
  atPoint : w.pc.AtPoint → w.state.Linked key w.compute ∧ w.state.overflowed hashDiff = false
  carries : ∀ sol, w.pc.carried = some sol → Visited key w.state.work sol ∧ w.state.solution ≠ sol

/-- A worker whose state and the solution it found in the map are a match. -/
structure Worker.Candidate (key : PublicKey) (hashDiff : U256) (w : Worker Compute)
    (sol : Solution ℤ) : Prop where
  linked : w.state.Linked key w.compute
  distinguished : w.state.overflowed hashDiff = false
  visited : Visited key w.state.work sol
  differ : w.state.solution ≠ sol

/-- A worker that carries a solution is a candidate with it. -/
theorem Worker.Good.candidate {w : Worker Compute} (hw : w.Good key before hashDiff)
    {sol : Solution ℤ} (hcarried : w.pc.carried = some sol) : w.Candidate key hashDiff sol := by
  have hpoint : w.pc.AtPoint := by
    cases hpc : w.pc <;> rw [hpc] at hcarried <;> trivial
  obtain ⟨hlinked, hdistinguished⟩ := hw.atPoint hpoint
  obtain ⟨hvisited, hdiffer⟩ := hw.carries sol hcarried
  exact ⟨hlinked, hdistinguished, hvisited, hdiffer⟩

/-- Where nothing is carried and no point is claimed, being on the walk suffices. -/
theorem Worker.Good.of_plain {w : Worker Compute} (hwalk : w.state.OnWalk key)
    (hheader : SameHeader before w.compute) (hpoint : ¬w.pc.AtPoint)
    (hcarried : w.pc.carried = none) : w.Good key before hashDiff where
  onWalk := hwalk
  header := hheader
  atPoint h := absurd h hpoint
  carries sol h := by
    rw [hcarried] at h
    cases h

/-- A step of a worker keeps the invariants of the worker and of the shared map. -/
theorem Worker.StepTo.good (hrand : RandomInRange) (hkey : key.Sound) {n grainSize : ℕ}
    {w w' : Worker Compute} {sh sh' : Shared} (h : w.StepTo key n grainSize hashDiff sh w' sh')
    (hw : w.Good key before hashDiff) (hsh : sh.OnWalk key) :
    w'.Good key before hashDiff ∧ sh'.OnWalk key := by
  cases h with
  | @walk moved _ hpc hi hmove =>
    obtain ⟨next, hnext, hwalk, hlinked⟩ := State.transit_spec hkey hw.onWalk w.compute
    obtain ⟨rfl, rfl⟩ := Prod.mk.inj (Except.ok.inj (hmove.symm.trans hnext))
    refine ⟨?_, hsh⟩
    cases hpoint : moved.overflowed hashDiff with
    | false =>
      refine ⟨hwalk, hw.header, fun _ => ⟨hlinked, hpoint⟩, ?_⟩
      intro sol hcarried
      cases hcarried
    | true => exact .of_plain hwalk hw.header (fun h => h) rfl
  | restart hpc hi hj hstate =>
    obtain ⟨next, hnext, hwalk⟩ :=
      State.fromPubKey_spec hrand hkey (w.localSeed + ((w.j + 1).toNat : ℤ))
    obtain rfl := Except.ok.inj (hstate.symm.trans hnext)
    exact ⟨.of_plain hwalk hw.header (fun h => h) rfl, hsh⟩
  | findOther hpc hfound hne =>
    have hpoint := hw.atPoint (by rw [hpc]; trivial)
    refine ⟨⟨hw.onWalk, hw.header, fun _ => hpoint, ?_⟩, hsh⟩
    intro sol hcarried
    obtain rfl := Option.some.inj hcarried
    exact ⟨hsh _ _ hfound, hne⟩
  | findNone hpc =>
    have hpoint := hw.atPoint (by rw [hpc]; trivial)
    refine ⟨⟨hw.onWalk, hw.header, fun _ => hpoint, ?_⟩, hsh⟩
    intro sol hcarried
    cases hcarried
  | proceed hpc | raise hpc | publishNonce hpc =>
    have hpoint := hw.atPoint (by rw [hpc]; trivial)
    have hcarries := hw.carries
    rw [hpc] at hcarries
    exact ⟨⟨hw.onWalk, hw.header, fun _ => hpoint, hcarries⟩, hsh⟩
  | insert hpc =>
    refine ⟨.of_plain hw.onWalk hw.header (fun h => h) rfl, ?_⟩
    intro work solution hentry
    dsimp only at hentry
    by_cases hwork : work = w.state.work
    · subst hwork
      simp only [Function.update_self, Option.some.injEq] at hentry
      cases hpresent : sh.collision w.state.work with
      | none =>
        rw [hpresent, Option.getD_none] at hentry
        exact ⟨w.state, hw.onWalk, rfl, hentry⟩
      | some present =>
        rw [hpresent, Option.getD_some] at hentry
        exact hentry ▸ hsh _ _ hpresent
    · rw [Function.update_of_ne hwork] at hentry
      exact hsh _ _ hentry
  | rest => exact ⟨hw, hsh⟩
  | giveUp | findOwn | cancel | publishRes | stop | resume =>
    exact ⟨.of_plain hw.onWalk hw.header (fun h => h) rfl, hsh⟩

end Workers

section Publication

variable [Deps] {C : Type} [Hash C] {cpus : ℕ} {key : PublicKey} {n grainSize : ℕ}
  {hashDiff : U256}

/-- What a step does to the published values: it publishes the nonce, it publishes
the solutions, or it leaves both alone. -/
theorem Worker.StepTo.publication {w w' : Worker C} {sh sh' : Shared}
    (h : w.StepTo key n grainSize hashDiff sh w' sh') :
    (∃ sol, w.pc = .writeNonce sol ∧ w' = { w with pc := .writeRes sol } ∧
      sh' = { sh with nonce := w.state.nonce }) ∨
    (∃ sol, w.pc = .writeRes sol ∧ w' = { w with pc := .returned } ∧
      sh' = { sh with res := some (w.state.solution, sol) }) ∨
    (¬w.pc.AtResult ∧ ¬w'.pc.AtResult ∧ sh'.nonce = sh.nonce ∧ sh'.res = sh.res ∧
      (w.pc = .returned → w' = w)) := by
  have hstays : w.pc = .returned → w' = w := h.eq_of_returned
  cases h with
  | publishNonce hpc => exact Or.inl ⟨_, hpc, rfl, rfl⟩
  | publishRes hpc => exact Or.inr (Or.inl ⟨_, hpc, rfl, rfl⟩)
  | rest hpc =>
    have hresult : ¬w.pc.AtResult := by
      rw [hpc]
      exact fun h => h
    exact Or.inr (Or.inr ⟨hresult, hresult, rfl, rfl, hstays⟩)
  | walk hpc =>
    refine Or.inr (Or.inr ⟨?_, ?_, rfl, rfl, hstays⟩)
    · rw [hpc]
      exact fun h => h
    · dsimp only
      split_ifs <;> exact fun h => h
  | restart hpc | giveUp hpc | findOwn hpc | findOther hpc | findNone hpc | cancel hpc
  | proceed hpc | raise hpc | insert hpc | stop hpc | resume hpc =>
    refine Or.inr (Or.inr ⟨?_, fun h => h, rfl, rfl, hstays⟩)
    rw [hpc]
    exact fun h => h

/-- The published nonce belongs to a worker that has not published its solutions yet. -/
def ParState.Publishing (s : ParState C cpus) (k : Fin cpus) : Prop :=
  (s.workers k).pc.AtResult ∧ s.shared.nonce = (s.workers k).state.nonce

instance (s : ParState C cpus) (k : Fin cpus) : Decidable (s.Publishing k) :=
  inferInstanceAs (Decidable (_ ∧ _))

/-- A worker that is about to publish its solutions finds a nonce whose owner, itself
or another one, has not published its solutions yet. -/
def ParState.PublishesInTurn (s : ParState C cpus) : Move cpus → Prop
  | some i => (s.workers i).pc.AtResult → ∃ k, s.Publishing k
  | none => True

instance (s : ParState C cpus) : (move : Move cpus) → Decidable (s.PublishesInTurn move)
  | some i => inferInstanceAs (Decidable ((s.workers i).pc.AtResult → ∃ k, s.Publishing k))
  | none => .isTrue trivial

end Publication

section Coherence

variable [Deps] {cpus : ℕ} {key : PublicKey} {before : Compute} {hashDiff : U256}

/-- The published nonce and the published solutions belong to one worker. -/
def ParState.Published (key : PublicKey) (hashDiff : U256) (s : ParState Compute cpus)
    (k : Fin cpus) : Prop :=
  (s.workers k).pc = .returned ∧ s.shared.nonce = (s.workers k).state.nonce ∧
    ∃ sol, s.shared.res = some ((s.workers k).state.solution, sol) ∧
      (s.workers k).Candidate key hashDiff sol

/-- The invariant of a run in which workers publish in turn: somebody is publishing,
or a coherent result is published, or nothing is. -/
structure ParState.Coherent (key : PublicKey) (before : Compute) (hashDiff : U256)
    (s : ParState Compute cpus) : Prop where
  workers : ∀ i, (s.workers i).Good key before hashDiff
  shared : s.shared.OnWalk key
  publication : (∃ k, s.Publishing k) ∨ (∃ k, s.Published key hashDiff k) ∨
    ((∀ k, ¬(s.workers k).pc.AtResult) ∧ s.shared.res = none)

/-- The publication survives a step of worker `i`, given that the worker publishes in turn. -/
private theorem publication_step {n grainSize : ℕ} {s s' : ParState Compute cpus}
    (hs : s.Coherent key before hashDiff) {i : Fin cpus} (hturn : s.PublishesInTurn (some i))
    (hstep : (s.workers i).StepTo key n grainSize hashDiff s.shared (s'.workers i) s'.shared)
    (hother : ∀ k, k ≠ i → s'.workers k = s.workers k) :
    (∃ k, s'.Publishing k) ∨ (∃ k, s'.Published key hashDiff k) ∨
      ((∀ k, ¬(s'.workers k).pc.AtResult) ∧ s'.shared.res = none) := by
  rcases hstep.publication with
    ⟨sol, hpc, hw, hsh⟩ | ⟨sol, hpc, hw, hsh⟩ | ⟨hpc, hpc', hnonce, hres, hreturned⟩
  · refine Or.inl ⟨i, ?_⟩
    rw [ParState.Publishing, hw, hsh]
    exact ⟨trivial, rfl⟩
  · obtain ⟨k, hk, hnonce⟩ := hturn (WorkerPc.atResult_iff.mpr ⟨sol, hpc⟩)
    by_cases hki : k = i
    · -- the nonce is this worker's own
      subst hki
      have hcandidate := (hs.workers k).candidate (by rw [hpc]; rfl : _ = some sol)
      refine Or.inr (Or.inl ⟨k, ?_⟩)
      rw [ParState.Published, hw, hsh]
      exact ⟨rfl, hnonce, sol, rfl, hcandidate.linked, hcandidate.distinguished,
        hcandidate.visited, hcandidate.differ⟩
    · refine Or.inl ⟨k, ?_⟩
      rw [ParState.Publishing, hother k hki, hsh]
      exact ⟨hk, hnonce⟩
  · rcases hs.publication with ⟨k, hk, hown⟩ | ⟨k, hk, hown, sol, hsol, hcandidate⟩ |
      ⟨hnobody, hnone⟩
    · have hki : k ≠ i := by
        rintro rfl
        exact hpc hk
      refine Or.inl ⟨k, ?_⟩
      rw [ParState.Publishing, hother k hki, hnonce]
      exact ⟨hk, hown⟩
    · have hsame : s'.workers k = s.workers k := by
        by_cases hki : k = i
        · subst hki
          exact hreturned hk
        · exact hother k hki
      refine Or.inr (Or.inl ⟨k, ?_⟩)
      rw [ParState.Published, hsame]
      exact ⟨hk, hnonce.trans hown, sol, hres.trans hsol, hcandidate⟩
    · refine Or.inr (Or.inr ⟨fun k => ?_, hres.trans hnone⟩)
      by_cases hki : k = i
      · subst hki
        exact hpc'
      · rw [hother k hki]
        exact hnobody k

/-- One move in turn keeps the invariant. -/
theorem ParState.move_coherent (hrand : RandomInRange) (hkey : key.Sound) {n grainSize : ℕ}
    {s s' : ParState Compute cpus} (hs : s.Coherent key before hashDiff) {move : Move cpus}
    (hturn : s.PublishesInTurn move) (h : s.move key n grainSize hashDiff move = .ok s') :
    s'.Coherent key before hashDiff := by
  cases move with
  | none =>
    obtain rfl := Except.ok.inj h
    exact ⟨hs.workers, hs.shared, hs.publication⟩
  | some i =>
    obtain ⟨hstep, hother⟩ := ParState.stepTo_of_move h
    obtain ⟨hgood, hwalk⟩ := hstep.good hrand hkey (hs.workers i) hs.shared
    refine ⟨fun k => ?_, hwalk, publication_step hs hturn hstep hother⟩
    by_cases hki : k = i
    · subst hki
      exact hgood
    · rw [hother k hki]
      exact hs.workers k

/-- The freshly spawned workers satisfy the invariant. -/
theorem ParState.setup_coherent (hrand : RandomInRange) (hkey : key.Sound) {seed : ℤ} {flag : Bool}
    {n : ℕ} {s : ParState Compute cpus}
    (h : ParState.setup key before seed flag cpus = .ok (hashDiff, n, s)) :
    s.Coherent key before hashDiff := by
  obtain ⟨hworkers, hshared, -⟩ := ParState.setup_spec h
  have hspawn (i : Fin cpus) : (s.workers i).pc = .run ∧ (s.workers i).compute = before ∧
      (s.workers i).state.OnWalk key := by
    obtain ⟨state, hstate, hworker⟩ := hworkers i
    obtain ⟨start, hstart, hwalk⟩ := State.fromPubKey_spec hrand hkey (localSeedOf seed i)
    obtain rfl := Except.ok.inj (hstate.symm.trans hstart)
    rw [hworker]
    exact ⟨rfl, rfl, hwalk⟩
  refine ⟨fun i => ?_, ?_, Or.inr (Or.inr ⟨fun i => ?_, ?_⟩)⟩
  · obtain ⟨hpc, hcompute, hwalk⟩ := hspawn i
    refine .of_plain hwalk ?_ ?_ ?_
    · rw [hcompute]
      exact ⟨rfl, rfl⟩
    · rw [hpc]
      exact fun h => h
    · rw [hpc]
      rfl
  · intro work solution hentry
    rw [hshared] at hentry
    cases hentry
  · rw [(hspawn i).1]
    exact fun h => h
  · rw [hshared]

/-- After all workers have returned, a coherent result is a match of one worker. -/
theorem ParState.Coherent.match_of_joined {s : ParState Compute cpus}
    (hs : s.Coherent key before hashDiff)
    (htester : key.hashDiff = .ok hashDiff) (hjoined : s.Joined) {solutions : Solutions ℤ}
    (hres : s.shared.res = some solutions) :
    ∃ k state2, Match key (before.at s.shared.nonce) (s.workers k).state state2 ∧
      solutions = ((s.workers k).state.solution, state2.solution) ∧
      s.shared.nonce = (s.workers k).state.nonce := by
  rcases hs.publication with ⟨k, hk, -⟩ | ⟨k, -, hnonce, sol, hsol, hcandidate⟩ | ⟨-, hnone⟩
  · rw [hjoined k] at hk
    exact hk.elim
  · obtain ⟨state2, hwalk2, hwork2, rfl⟩ := hcandidate.visited
    have hheader : before.at s.shared.nonce = (s.workers k).compute := by
      obtain ⟨hdifficulty, hpreHash⟩ := (hs.workers k).header
      rw [hnonce, Blake3Compute.at, ← hcandidate.linked.nonce_eq, ← hdifficulty, ← hpreHash]
    refine ⟨k, state2, ⟨(hs.workers k).onWalk, hwalk2, ?_, hwork2.symm, hcandidate.differ,
      hashDiff, htester, hcandidate.distinguished⟩,
      (Option.some.inj (hsol.symm.trans hres)).symm, hnonce⟩
    rw [hheader]
    exact hcandidate.linked
  · rw [hnone] at hres
    cases hres

/-- Every publication in a parallel search is in turn. -/
def RunInTurn (key : PublicKey) (compute : Compute) (seed : ℤ) (grainSize : ℕ) (flag : Bool)
    (cpus : ℕ) (schedule : List (Move cpus)) : Prop :=
  EachMove (fun _ => ParState.PublishesInTurn) key compute seed grainSize flag schedule

/-- A whole run in turn ends in a state of the invariant. -/
theorem parallelRun_coherent (hrand : RandomInRange) (hkey : key.Sound) {seed : ℤ}
    {grainSize : ℕ} {flag : Bool} {schedule : List (Move cpus)}
    (hturn : RunInTurn key before seed grainSize flag cpus schedule) {s : ParState Compute cpus}
    (h : parallelRun key before seed grainSize flag cpus schedule = .ok s) :
    ∃ hashDiff, key.hashDiff = .ok hashDiff ∧ s.Coherent key before hashDiff := by
  obtain ⟨⟨hashDiff, n, start⟩, hsetup, hrun⟩ := Rust.bind_eq_ok.mp h
  rw [RunInTurn, EachMove, hsetup] at hturn
  refine ⟨hashDiff, (ParState.setup_spec hsetup).2.2,
    hturn.invariant ?_ (ParState.setup_coherent hrand hkey hsetup) hrun⟩
  exact fun _ _ _ hs hguard hmove => ParState.move_coherent hrand hkey hs hguard hmove

/-- **Coherence of the parallel search.** When every publication is in turn, the
nonce and the solutions that the search returns come from one worker's state, and
the verifier accepts them. -/
theorem solveParallel_coherent (hrand : RandomInRange) (hkey : key.Sound) {seed : ℤ}
    {grainSize : ℕ} {flag : Bool} {schedule : List (Move cpus)}
    (hturn : RunInTurn key before seed grainSize flag cpus schedule) {solutions : Solutions ℤ}
    {after : Compute} (h : solveParallel key before seed grainSize flag cpus schedule =
      .ok (some solutions, after)) :
    (∃ (s : ParState Compute cpus) (k : Fin cpus),
      parallelRun key before seed grainSize flag cpus schedule = .ok s ∧
        solutions.1 = (s.workers k).state.solution ∧
        after.nonce = BitVec.ofNat 256 (s.workers k).state.nonce.toNat) ∧
      SolutionVerifier.verify ⟨key⟩ solutions after = .ok true := by
  obtain ⟨s, hrun, hfinish⟩ := Rust.bind_eq_ok.mp h
  obtain ⟨hashDiff, htester, hs⟩ := parallelRun_coherent hrand hkey hturn hrun
  unfold ParState.finish at hfinish
  split_ifs at hfinish with hjoined
  obtain ⟨compute, hset, hfinish⟩ := Rust.bind_eq_ok.mp hfinish
  obtain ⟨hres, rfl⟩ := Prod.mk.inj (Except.ok.inj hfinish)
  obtain ⟨k, state2, hmatch, rfl, hnonce⟩ := hs.match_of_joined htester hjoined hres
  have hafter : compute = before.at s.shared.nonce := by
    obtain ⟨hnonce0, hnoncep⟩ := hmatch.linked.nonce_bounds
    have hlt := hkey.lt
    rw [hnonce, setNonce_of_lt before hnonce0 (by omega)] at hset
    rw [hnonce]
    exact (Except.ok.inj hset).symm
  rw [hafter]
  refine ⟨⟨s, k, hrun, rfl, ?_⟩, hmatch.verify hrand hkey⟩
  rw [Blake3Compute.at, hnonce]

end Coherence

section Sample

attribute [local instance] Deps.sample

/-- Two workers load the flag before either sets it. The one that publishes the
nonce last publishes its solutions first. -/
def racingSchedule : List (Move 2) :=
  List.replicate 8 (some 1) ++ [some 0, some 0, some 1, some 1] ++
    [some 0, some 1, some 0, some 1, some 0, some 1, some 1, some 0]

/-- Some interleaving returns solutions that the verifier rejects with the returned
header computer. -/
theorem parallel_result_incoherent :
    ¬∀ (key : PublicKey) (before : Compute) (seed : ℤ) (grainSize : ℕ) (flag : Bool) (cpus : ℕ)
      (schedule : List (Move cpus)) (solutions : Solutions ℤ) (after : Compute), key.Sound →
      48 ≤ key.bitLength.toNat → key.bitLength.toNat ≤ 224 →
      solveParallel key before seed grainSize flag cpus schedule = .ok (some solutions, after) →
      SolutionVerifier.verify ⟨key⟩ solutions after = .ok true := by
  intro h
  have hrun : solveParallel smallKey plainHeader 2 grainSize false 2 racingSchedule =
      .ok (some (⟨2, 2, 3⟩, ⟨4, 3, 3⟩), plainHeader.at 4) := by decide +kernel
  have hverify := h _ _ _ _ _ _ _ _ _ smallKey_sound (by decide) (by decide) hrun
  exact absurd hverify (by decide +kernel)

/-- The same workers, one after the other. -/
def orderlySchedule : List (Move 2) :=
  List.replicate 8 (some 1) ++ List.replicate 6 (some 0) ++ List.replicate 20 (some 1)

/-- One after the other, the workers return solutions that the verifier accepts. -/
theorem orderly_result_coherent : ∃ solutions after,
    solveParallel smallKey plainHeader 2 grainSize false 2 orderlySchedule =
      .ok (some solutions, after) ∧
    SolutionVerifier.verify ⟨smallKey⟩ solutions after = .ok true := by
  have hturn : RunInTurn smallKey plainHeader 2 grainSize false 2 orderlySchedule := by
    unfold RunInTurn
    decide +kernel
  have hrun : solveParallel smallKey plainHeader 2 grainSize false 2 orderlySchedule =
      .ok (some (⟨2, 2, 3⟩, ⟨4, 3, 3⟩), plainHeader.at 2) := by decide +kernel
  exact ⟨_, _, hrun,
    (solveParallel_coherent Deps.sample.randomInRange smallKey_sound hturn hrun).2⟩

end Sample

end TrexPow
