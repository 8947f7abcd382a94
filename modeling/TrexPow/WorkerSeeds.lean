import Mathlib.Data.List.OfFn
import TrexPow.Parallel
import TrexPow.Walk

/-!
# The seeds of the workers

Worker `i` starts from the seed of the search plus `10 * i` and restarts from the next
seeds. A worker that restarts ten times comes to the first seed of the next worker, and
the product of 8-bit words is too large from the 27th worker on. Up to there the seeds
of a run are distinct as long as no worker but the last restarts a tenth time.
-/

namespace TrexPow

/-- Without an overflow the seeds of the workers are ten apart. -/
theorem localSeedOf_eq (seed : ℤ) {cpuI : ℕ} (h : maxTry.toNat * cpuI < 2 ^ 8) :
    localSeedOf seed cpuI = seed + 10 * cpuI := by
  rw [maxTry_toNat] at h
  rw [localSeedOf, BitVec.toNat_mul, maxTry_toNat, BitVec.toNat_ofNat, Nat.mod_eq_of_lt
    (by omega : cpuI < 2 ^ 8), Nat.mod_eq_of_lt h]
  push_cast
  rfl

/-- The seeds of up to 26 workers are ten apart. -/
theorem localSeedOf_eq_of_lt (seed : ℤ) {cpus cpuI : ℕ} (hcpus : cpus ≤ 26) (h : cpuI < cpus) :
    localSeedOf seed cpuI = seed + 10 * cpuI := by
  apply localSeedOf_eq
  rw [maxTry_toNat]
  omega

/-- The seeds are computed without an overflow for up to 26 workers. -/
theorem no_overflow_iff {cpus : ℕ} :
    (∀ i : Fin cpus, maxTry.toNat * (i : ℕ) < 2 ^ 8) ↔ cpus ≤ 26 := by
  rw [maxTry_toNat]
  constructor
  · intro h
    by_contra hmany
    have := h ⟨26, by omega⟩
    dsimp only at this
    omega
  · intro h i
    have := i.isLt
    omega

section Seeds

variable {C : Type} {cpus : ℕ}

/-- The seed from which a move starts a new walk, if it raises the restart counter. -/
def restartSeed (made : MoveMade C cpus) : Option ℤ :=
  match made.input with
  | some i =>
    let w := made.after.workers i
    if w.j ≠ (made.before.workers i).j then some (w.localSeed + (w.j.toNat : ℤ)) else none
  | none => none

/-- The seeds that the workers have used: those of their first starts and those of their
restarts. -/
def usedSeeds (seed : ℤ) (history : List (MoveMade C cpus)) : List ℤ :=
  List.ofFn (fun i : Fin cpus => localSeedOf seed i) ++ history.filterMap restartSeed

/-- No worker repeats a walk: the seeds are computed without an overflow and distinct. -/
structure SeedsDistinct (seed : ℤ) (history : List (MoveMade C cpus)) : Prop where
  no_overflow : ∀ i : Fin cpus, maxTry.toNat * (i : ℕ) < 2 ^ 8
  distinct : (usedSeeds seed history).Nodup

/-- The move is not the tenth restart of a worker before the last. -/
def ParState.SkipsLastTry (n : ℕ) (s : ParState C cpus) : Move cpus → Prop
  | some i => (i : ℕ) + 1 < cpus →
    ¬((s.workers i).pc = .run ∧ n ≤ (s.workers i).i ∧ (s.workers i).j = maxTry - 1)
  | none => True

instance (n : ℕ) (s : ParState C cpus) : (move : Move cpus) → Decidable (s.SkipsLastTry n move)
  | some i => inferInstanceAs (Decidable ((i : ℕ) + 1 < cpus → ¬(_ ∧ _ ∧ _)))
  | none => .isTrue trivial

/-- The seeds used so far come from the workers' restart counters, and they are distinct. -/
structure ParState.SeedsUsed (seed : ℤ) (history : List (MoveMade C cpus)) (s : ParState C cpus) :
    Prop where
  localSeed : ∀ i, (s.workers i).localSeed = localSeedOf seed i
  tries : ∀ i : Fin cpus, (s.workers i).j.toNat ≤ 10 ∧
    ((i : ℕ) + 1 < cpus → (s.workers i).j.toNat ≤ 9)
  used : ∀ x ∈ usedSeeds seed history, ∃ i : Fin cpus, ∃ k ≤ (s.workers i).j.toNat,
    x = localSeedOf seed i + k
  distinct : (usedSeeds seed history).Nodup

/-- The first seeds of up to 26 workers are distinct. -/
theorem nodup_localSeeds (seed : ℤ) {cpus : ℕ} (hcpus : cpus ≤ 26) :
    (List.ofFn fun i : Fin cpus => localSeedOf seed i).Nodup := by
  rw [List.nodup_ofFn]
  intro i k heq
  dsimp only at heq
  rw [localSeedOf_eq_of_lt seed hcpus i.isLt, localSeedOf_eq_of_lt seed hcpus k.isLt] at heq
  apply Fin.ext
  omega

/-- Before the first move only the first seeds have been used. -/
theorem usedSeeds_nil (seed : ℤ) : usedSeeds seed ([] : List (MoveMade C cpus)) =
    List.ofFn fun i : Fin cpus => localSeedOf seed i := by
  rw [usedSeeds, List.filterMap_nil, List.append_nil]

/-- One more move uses its seed if it has one. -/
theorem usedSeeds_concat (seed : ℤ) (history : List (MoveMade C cpus)) (made : MoveMade C cpus) :
    usedSeeds seed (history ++ [made]) = usedSeeds seed history ++ (restartSeed made).toList := by
  rw [usedSeeds, usedSeeds, List.filterMap_append, List.append_assoc]
  cases hrestart : restartSeed made with
  | none => simp [hrestart]
  | some x => simp [hrestart]

variable {seed : ℤ} {history : List (MoveMade C cpus)} {s s' : ParState C cpus}

/-- A move that restarts no worker uses no seed. -/
theorem ParState.SeedsUsed.quiet {move : Move cpus} (hs : s.SeedsUsed seed history)
    (hseeds : ∀ i, (s'.workers i).localSeed = (s.workers i).localSeed)
    (htries : ∀ i, (s'.workers i).j = (s.workers i).j) :
    s'.SeedsUsed seed (history ++ [⟨s, move, s'⟩]) := by
  have hnone : restartSeed (⟨s, move, s'⟩ : MoveMade C cpus) = none := by
    cases move with
    | none => rfl
    | some i => exact if_neg (not_not.mpr (htries i))
  have hused : usedSeeds seed (history ++ [(⟨s, move, s'⟩ : MoveMade C cpus)]) =
      usedSeeds seed history := by
    rw [usedSeeds_concat, hnone, Option.toList_none, List.append_nil]
  refine ⟨?_, ?_, ?_, ?_⟩
  · intro i
    rw [hseeds, hs.localSeed]
  · intro i
    rw [htries]
    exact hs.tries i
  · rw [hused]
    intro x hx
    obtain ⟨i, k, hk, hx⟩ := hs.used x hx
    exact ⟨i, k, by rwa [htries], hx⟩
  · rw [hused]
    exact hs.distinct

/-- A restart uses the next seed of its worker. -/
theorem ParState.SeedsUsed.usedSeeds_restart (hs : s.SeedsUsed seed history) {i : Fin cpus}
    (hj : (s.workers i).j < maxTry)
    (hseed : (s'.workers i).localSeed = (s.workers i).localSeed)
    (htry : (s'.workers i).j = (s.workers i).j + 1) :
    usedSeeds seed (history ++ [(⟨s, some i, s'⟩ : MoveMade C cpus)]) =
      usedSeeds seed history ++ [localSeedOf seed i + ((s'.workers i).j.toNat : ℤ)] := by
  have hchanged : (s'.workers i).j ≠ (s.workers i).j := by
    intro hsame
    have hnext := toNat_succ_of_lt_maxTry hj
    rw [← htry, hsame] at hnext
    omega
  have hnew : restartSeed (⟨s, some i, s'⟩ : MoveMade C cpus) =
      some (localSeedOf seed i + ((s'.workers i).j.toNat : ℤ)) := by
    rw [← hs.localSeed, ← hseed]
    exact if_pos hchanged
  rw [usedSeeds_concat, hnew, Option.toList_some]

/-- The next seed of a worker has not been used, unless it is the next worker's. -/
theorem ParState.SeedsUsed.fresh (hcpus : cpus ≤ 26) (hs : s.SeedsUsed seed history) {i : Fin cpus}
    (hj : (s.workers i).j < maxTry)
    (hlast : (i : ℕ) + 1 < cpus → (s.workers i).j.toNat ≠ 9) :
    ∀ x ∈ usedSeeds seed history, x ≠ localSeedOf seed i + (((s.workers i).j + 1).toNat : ℤ) := by
  intro x hx heq
  obtain ⟨k, t, ht, rfl⟩ := hs.used x hx
  rw [toNat_succ_of_lt_maxTry hj, localSeedOf_eq_of_lt seed hcpus k.isLt,
    localSeedOf_eq_of_lt seed hcpus i.isLt] at heq
  have hlt : (s.workers i).j.toNat < 10 := hj
  have htries := hs.tries k
  have hki := k.isLt
  have hii := i.isLt
  -- an equal seed would belong to this worker or to a neighbour's range
  rcases Nat.lt_trichotomy (k : ℕ) (i : ℕ) with hbefore | hsame | hafter
  · omega
  · rw [Fin.ext hsame] at ht
    omega
  · omega

/-- A restart keeps the seeds distinct, unless it reaches the next worker's. -/
theorem ParState.SeedsUsed.restart (hcpus : cpus ≤ 26) (hs : s.SeedsUsed seed history)
    {i : Fin cpus} (hj : (s.workers i).j < maxTry)
    (hskip : (i : ℕ) + 1 < cpus → (s.workers i).j ≠ maxTry - 1)
    (hseed : (s'.workers i).localSeed = (s.workers i).localSeed)
    (htry : (s'.workers i).j = (s.workers i).j + 1)
    (hother : ∀ k, k ≠ i → s'.workers k = s.workers k) :
    s'.SeedsUsed seed (history ++ [⟨s, some i, s'⟩]) := by
  have hlt : (s.workers i).j.toNat < 10 := hj
  have hnext : (s'.workers i).j.toNat = (s.workers i).j.toNat + 1 := by
    rw [htry, toNat_succ_of_lt_maxTry hj]
  have hlast : (i : ℕ) + 1 < cpus → (s.workers i).j.toNat ≠ 9 := by
    intro hi hnine
    exact hskip hi (BitVec.eq_of_toNat_eq hnine)
  have hused := hs.usedSeeds_restart hj hseed htry
  refine ⟨?_, ?_, ?_, ?_⟩
  · intro k
    by_cases hk : k = i
    · rw [hk, hseed, hs.localSeed]
    · rw [hother k hk, hs.localSeed]
  · intro k
    by_cases hk : k = i
    · rw [hk, hnext]
      have := hs.tries i
      omega
    · rw [hother k hk]
      exact hs.tries k
  · rw [hused]
    intro x hx
    rcases List.mem_append.mp hx with hx | hx
    · obtain ⟨k, t, ht, hx⟩ := hs.used x hx
      refine ⟨k, t, ?_, hx⟩
      by_cases hk : k = i
      · rw [hk] at ht ⊢
        omega
      · rwa [hother k hk]
    · exact ⟨i, _, le_rfl, List.mem_singleton.mp hx⟩
  · rw [hused]
    refine List.nodup_append.mpr ⟨hs.distinct, List.nodup_singleton _, ?_⟩
    intro x hx y hy
    rw [List.mem_singleton.mp hy, htry]
    exact hs.fresh hcpus hj hlast x hx

/-- Every worker holds its own seed. -/
def ParState.HasSeeds (seed : ℤ) (s : ParState C cpus) : Prop :=
  ∀ i, (s.workers i).localSeed = localSeedOf seed i

section Setup

variable [Deps] {key : PublicKey} {compute : C} {flag : Bool} {hashDiff : U256} {n : ℕ}

/-- The workers of a new search have used the seeds of their first starts. -/
theorem seedsUsed_setup (hcpus : cpus ≤ 26)
    (h : ParState.setup key compute seed flag cpus = .ok (hashDiff, n, s)) :
    s.SeedsUsed seed [] := by
  obtain ⟨hworkers, -⟩ := ParState.setup_spec h
  refine ⟨?_, ?_, ?_, ?_⟩
  · intro i
    obtain ⟨state, -, hworker⟩ := hworkers i
    rw [hworker]
  · intro i
    obtain ⟨state, -, hworker⟩ := hworkers i
    rw [hworker]
    exact ⟨Nat.zero_le _, fun _ => Nat.zero_le _⟩
  · rw [usedSeeds_nil]
    intro x hx
    obtain ⟨i, rfl⟩ := List.mem_ofFn.mp hx
    exact ⟨i, 0, Nat.zero_le _, (add_zero _).symm⟩
  · rw [usedSeeds_nil]
    exact nodup_localSeeds seed hcpus

/-- The workers of a new search hold their seeds. -/
theorem hasSeeds_setup
    (h : ParState.setup key compute seed flag cpus = .ok (hashDiff, n, s)) : s.HasSeeds seed := by
  intro i
  obtain ⟨state, -, hworker⟩ := (ParState.setup_spec h).1 i
  rw [hworker]

end Setup

end Seeds

section Run

variable {C : Type} [Deps] [Hash C] {cpus : ℕ} {key : PublicKey} {n grainSize : ℕ}
  {hashDiff : U256}

/-- A step keeps the seed of the worker, and it keeps the number of its restarts or restarts
the worker. -/
theorem Worker.StepTo.tries {w w' : Worker C} {sh sh' : Shared}
    (h : w.StepTo key n grainSize hashDiff sh w' sh') :
    w'.localSeed = w.localSeed ∧
      (w'.j = w.j ∨ (w.pc = .run ∧ n ≤ w.i ∧ w.j < maxTry ∧ w'.j = w.j + 1)) := by
  cases h with
  | restart hpc hi hj hstate => exact ⟨rfl, Or.inr ⟨hpc, hi, hj, rfl⟩⟩
  | _ => exact ⟨rfl, Or.inl rfl⟩

variable {seed : ℤ} {history : List (MoveMade C cpus)} {s s' : ParState C cpus}

/-- One move whose restart does not reach the next worker keeps the seeds distinct. -/
theorem ParState.SeedsUsed.step (hcpus : cpus ≤ 26) (hs : s.SeedsUsed seed history)
    {move : Move cpus} (hskip : s.SkipsLastTry n move)
    (h : s.move key n grainSize hashDiff move = .ok s') :
    s'.SeedsUsed seed (history ++ [⟨s, move, s'⟩]) := by
  cases move with
  | none =>
    obtain rfl := Except.ok.inj h
    exact hs.quiet (fun _ => rfl) fun _ => rfl
  | some i =>
    obtain ⟨hstep, hother⟩ := ParState.stepTo_of_move h
    obtain ⟨hseed, hsame | ⟨hpc, hi, hj, htry⟩⟩ := hstep.tries
    · refine hs.quiet (fun k => ?_) fun k => ?_
      all_goals
        by_cases hk : k = i
        · rw [hk]
          assumption
        · rw [hother k hk]
    · exact hs.restart hcpus hj (fun hlast hnine => hskip hlast ⟨hpc, hi, hnine⟩) hseed htry hother

/-- A worker at the end of its loop restarts while it has tries left. -/
theorem Worker.StepTo.restarts {w w' : Worker C} {sh sh' : Shared}
    (h : w.StepTo key n grainSize hashDiff sh w' sh') (hpc : w.pc = .run) (hi : n ≤ w.i)
    (hj : w.j < maxTry) : w'.localSeed = w.localSeed ∧ w'.j = w.j + 1 := by
  cases h with
  | restart => exact ⟨rfl, rfl⟩
  | walk _ hi' => exact absurd hi' (not_lt.mpr hi)
  | giveUp _ _ hj' => exact absurd hj hj'
  | _ hpc' => cases hpc.symm.trans hpc'

/-- The workers keep their seeds. -/
theorem ParState.HasSeeds.move {move : Move cpus} (hs : s.HasSeeds seed)
    (h : s.move key n grainSize hashDiff move = .ok s') : s'.HasSeeds seed := by
  intro k
  by_cases hmove : move = some k
  · subst hmove
    exact (ParState.stepTo_of_move h).1.tries.1.trans (hs k)
  · rw [ParState.workers_eq_of_move h hmove]
    exact hs k

/-- Nothing keeps a worker from its tenth restart. -/
theorem exists_move_of_lastTry (hrand : RandomInRange) (hthree : 3 ≤ key.p) {move : Move cpus}
    (h : ¬s.SkipsLastTry n move) : ∃ s', s.move key n grainSize hashDiff move = .ok s' := by
  cases move with
  | none => exact absurd trivial h
  | some i =>
    simp only [ParState.SkipsLastTry, Classical.not_imp, not_not] at h
    obtain ⟨-, hpc, hi, hj⟩ := h
    have hlt : (s.workers i).j < maxTry := by
      rw [hj]
      decide
    obtain ⟨state, hstate, -⟩ := State.fromPubKey_ok hrand hthree
      ((s.workers i).localSeed + (((s.workers i).j + 1).toNat : ℤ))
    simp only [ParState.move, Worker.step, Worker.restart, hpc, if_neg (not_lt.mpr hi), if_pos hlt,
      hstate, Rust.ok_bind, Rust.pure_eq_ok]
    exact ⟨_, rfl⟩

/-- The tenth restart of a worker uses the first seed of the next one. -/
theorem not_distinct_of_lastTry (hcpus : cpus ≤ 26) {before after : ParState C cpus} {i : Fin cpus}
    (hmade : ⟨before, some i, after⟩ ∈ history)
    (hmove : before.move key n grainSize hashDiff (some i) = .ok after)
    (hseeds : before.HasSeeds seed) (h : ¬before.SkipsLastTry n (some i)) :
    ¬(usedSeeds seed history).Nodup := by
  simp only [ParState.SkipsLastTry, Classical.not_imp, not_not] at h
  obtain ⟨hlast, hpc, hi, hj⟩ := h
  have hlt : (before.workers i).j < maxTry := by
    rw [hj]
    decide
  obtain ⟨hseed, htry⟩ := (ParState.stepTo_of_move hmove).1.restarts hpc hi hlt
  have hten : (after.workers i).j.toNat = 10 := by
    rw [htry, hj]
    rfl
  have hchanged : (after.workers i).j ≠ (before.workers i).j := by
    intro hsame
    rw [hsame, hj] at hten
    cases hten
  have hrestart : restartSeed (⟨before, some i, after⟩ : MoveMade C cpus) =
      some (localSeedOf seed ((i : ℕ) + 1)) := by
    simp only [restartSeed, if_pos hchanged, hseed, hseeds i, hten]
    rw [localSeedOf_eq_of_lt seed hcpus i.isLt, localSeedOf_eq_of_lt seed hcpus hlast]
    congr 1
    omega
  intro hnodup
  have hdisjoint := (List.nodup_append.mp hnodup).2.2
  refine hdisjoint _ (List.mem_ofFn.mpr ⟨⟨(i : ℕ) + 1, hlast⟩, rfl⟩) _ ?_ rfl
  exact List.mem_filterMap.mpr ⟨_, hmade, hrestart⟩

/-- In a run that has been set up the seeds are distinct exactly when there are at most 26
workers and no worker but the last restarts for the tenth time. -/
theorem seedsDistinct_steps_iff (hrand : RandomInRange) {compute : C} {flag : Bool}
    {schedule : List (Move cpus)}
    (hsetup : ParState.setup key compute seed flag cpus = .ok (hashDiff, n, s)) :
    SeedsDistinct seed (Loop.steps (ParState.move key n grainSize hashDiff) schedule s) ↔
      cpus ≤ 26 ∧ Loop.AllSteps (ParState.move key n grainSize hashDiff)
        (ParState.SkipsLastTry n) schedule s := by
  constructor
  · rintro ⟨hfits, hdistinct⟩
    have hcpus := no_overflow_iff.mp hfits
    refine ⟨hcpus, Loop.allSteps_of_mem ?_ ?_⟩
    · intro s' move hlast
      have hthree : 3 ≤ key.p := by
        by_contra hsmall
        cases move with
        | none => exact hlast trivial
        | some i =>
          obtain ⟨state, hstate, -⟩ := (ParState.setup_spec hsetup).1 i
          rw [State.fromPubKey_error (by omega)] at hstate
          cases hstate
      exact exists_move_of_lastTry hrand hthree hlast
    · rintro ⟨before, move, after⟩ hmade
      by_contra hlast
      have hseeds := Loop.invariant_before (fun _ _ _ hs hmove => hs.move hmove)
        (hasSeeds_setup hsetup) hmade
      cases move with
      | none => exact hlast trivial
      | some i =>
        exact not_distinct_of_lastTry hcpus hmade (Loop.step_of_mem_steps hmade) hseeds hlast
          hdistinct
  · rintro ⟨hcpus, hall⟩
    obtain ⟨s', hs', -⟩ := hall.steps_invariant
      (fun _ _ _ _ hs hskip hmove => hs.step hcpus hskip hmove) (seedsUsed_setup hcpus hsetup)
    rw [List.nil_append] at hs'
    exact ⟨no_overflow_iff.mpr hcpus, hs'.distinct⟩

/-- **The seeds of the workers.** In every run the seeds are computed without an overflow and
are distinct exactly when there are at most 26 workers and no worker but the last restarts
for the tenth time. -/
theorem seedsDistinct_iff (hrand : RandomInRange) (key : PublicKey) (compute : C) (seed : ℤ)
    (grainSize : ℕ) (flag : Bool) (schedule : List (Move cpus)) :
    SeedsDistinct seed (moveHistory key compute seed grainSize flag cpus schedule) ↔
      cpus ≤ 26 ∧ EachMove ParState.SkipsLastTry key compute seed grainSize flag schedule := by
  unfold moveHistory EachMove
  cases hsetup : ParState.setup key compute seed flag cpus with
  | ok start =>
    obtain ⟨hashDiff, n, s⟩ := start
    exact seedsDistinct_steps_iff hrand hsetup
  | error fault =>
    -- no thread has started, so only the first seeds count
    constructor
    · intro h
      exact ⟨no_overflow_iff.mp h.no_overflow, trivial⟩
    · rintro ⟨hcpus, -⟩
      refine ⟨no_overflow_iff.mpr hcpus, ?_⟩
      rw [usedSeeds_nil]
      exact nodup_localSeeds seed hcpus

end Run

section Sample

/-- A hash with all bits set, under which no state is a distinguished point. -/
@[reducible] def Deps.noPoints : Deps :=
  { Deps.sample with blake3 := fun _ => .replicate 32 255 }

attribute [local instance] Deps.noPoints

theorem Deps.noPoints.randomInRange : @RandomInRange noPoints := Deps.sample.randomInRange

/-- Two workers that have each restarted once use four seeds. -/
theorem smallKey_seeds : SeedsDistinct 0 (moveHistory smallKey (⟨48, .replicate 32 0, 0⟩ : Compute)
    0 3 false 2 (List.replicate 33 (some 0) ++ List.replicate 33 (some 1))) :=
  (seedsDistinct_iff Deps.noPoints.randomInRange ..).mpr ⟨by decide, by decide +kernel⟩

/-- Of two workers the first restarts ten times and comes to the first seed of the second. -/
theorem smallKey_seeds_overlap :
    ¬∀ (key : PublicKey) (compute : Compute) (seed : ℤ) (grainSize : ℕ) (flag : Bool) (cpus : ℕ)
      (schedule : List (Move cpus)), cpus < 2 ^ 8 →
      SeedsDistinct seed (moveHistory key compute seed grainSize flag cpus schedule) := by
  intro h
  have hdistinct := (h smallKey ⟨48, .replicate 32 0, 0⟩ 0 3 false 2
    (List.replicate 330 (some 0)) (by decide)).distinct
  exact absurd hdistinct (by decide +kernel)

end Sample

end TrexPow
