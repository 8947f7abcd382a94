import TrexPow.Algorithm

/-!
# The parallel search

Each worker thread walks from its own seed and shares the distinguished points
it meets through a map. A step of the model is one access to shared memory: the
map lookup under the read lock, a load or store of the flag, the write of the
nonce, the write of the result, or the insertion under the write lock. Steps of
different workers interleave in any order; that a held read lock delays an
insertion is not modelled, so the interleavings of the code are among these.
-/

namespace TrexPow

/-- Number of restarts of a worker, and distance of the seeds of two workers. -/
def maxTry : U8 := 10

theorem maxTry_toNat : maxTry.toNat = 10 := rfl

/-- While tries are left the restart counter does not wrap. -/
theorem toNat_succ_of_lt_maxTry {j : U8} (h : j < maxTry) : (j + 1).toNat = j.toNat + 1 := by
  have hlt : j.toNat < 10 := h
  have hone : (1 : U8).toNat = 1 := rfl
  rw [BitVec.toNat_add, hone, Nat.mod_eq_of_lt (by omega)]

/-- Where a worker stands, with the solution it found in the map where it has one. -/
inductive WorkerPc
  /-- At the head of the loops, about to walk on, restart or return. -/
  | run
  /-- At a distinguished point, about to look it up. -/
  | lookup
  /-- Its solution differs from the one in the map; about to load the flag. -/
  | load (solInMap : Solution ℤ)
  /-- The flag was clear; about to set it. -/
  | store (solInMap : Solution ℤ)
  /-- About to publish the nonce. -/
  | writeNonce (solInMap : Solution ℤ)
  /-- About to publish the solutions. -/
  | writeRes (solInMap : Solution ℤ)
  /-- The point is new; about to insert it. -/
  | insert
  /-- At the end of a pass, where the flag is checked now and then. -/
  | poll
  /-- The thread has returned. -/
  | returned
  deriving DecidableEq

/-- The local variables of a worker thread. -/
structure Worker (C : Type) where
  pc : WorkerPc
  state : State ℤ
  compute : C
  localSeed : ℤ
  i : ℕ
  counter : ℕ
  j : U8

/-- What the workers share. -/
structure Shared where
  collision : ℤ → Option (Solution ℤ)
  found : Bool
  nonce : ℤ
  res : Option (Solutions ℤ)

/-- The state of a parallel search with a number of workers. -/
structure ParState (C : Type) (cpus : ℕ) where
  workers : Fin cpus → Worker C
  shared : Shared

section Worker

variable {C : Type} [Deps] [Hash C]

/-- The seed of a worker. The product is one of 8-bit words, and it wraps as in the release
build. With overflow checks it panics from the 27th worker on. -/
def localSeedOf (seed : ℤ) (cpuI : ℕ) : ℤ := seed + ((maxTry * BitVec.ofNat 8 cpuI).toNat : ℤ)

/-- The next start of a worker, with the next seed and a reset step counter. -/
def Worker.restart (key : PublicKey) (w : Worker C) (pc : WorkerPc) : Rust (Worker C) := do
  let j := w.j + 1
  let state ← State.fromPubKey key (w.localSeed + (j.toNat : ℤ))
  return { w with j := j, state := state, i := 0, pc := pc }

/-- One atomic step of a worker of a search for `key` whose loops run up to `n`. -/
def Worker.step (key : PublicKey) (n grainSize : ℕ) (hashDiff : U256) (w : Worker C) (sh : Shared) :
    Rust (Worker C × Shared) :=
  match w.pc with
  | .run => do
    if w.i < n then
      let (state, compute) ← w.state.transit w.compute
      let pc := if !state.overflowed hashDiff then WorkerPc.lookup else .poll
      return ({ w with state := state, compute := compute, pc := pc }, sh)
    else if w.j < maxTry then
      return (← w.restart key .run, sh)
    else
      return ({ w with pc := .returned }, sh)
  | .lookup => do
    if (sh.collision w.state.work).isSome then
      match sh.collision w.state.work with
      | some solInMap =>
        if w.state.solution ≠ solInMap then
          return ({ w with pc := .load solInMap }, sh)
        else
          return ({ w with pc := .poll }, sh)
      -- the key is present, so this branch of the source is never taken
      | none => return (← w.restart key .poll, sh)
    else
      return ({ w with pc := .insert }, sh)
  | .load solInMap =>
    if sh.found then .ok ({ w with pc := .returned }, sh)
    else .ok ({ w with pc := .store solInMap }, sh)
  | .store solInMap => .ok ({ w with pc := .writeNonce solInMap }, { sh with found := true })
  | .writeNonce solInMap =>
    .ok ({ w with pc := .writeRes solInMap }, { sh with nonce := w.state.nonce })
  | .writeRes solInMap =>
    .ok ({ w with pc := .returned }, { sh with res := some (w.state.solution, solInMap) })
  | .insert =>
    let entry := (sh.collision w.state.work).getD w.state.solution
    .ok ({ w with pc := .poll },
      { sh with collision := Function.update sh.collision w.state.work (some entry) })
  | .poll =>
    if grainSize ≤ w.counter then
      if sh.found then .ok ({ w with pc := .returned }, sh)
      else .ok ({ w with i := w.i + 1, counter := 1, pc := .run }, sh)
    else .ok ({ w with i := w.i + 1, counter := w.counter + 1, pc := .run }, sh)
  | .returned => .ok (w, sh)

/-- The worker of one thread when it is spawned. -/
def Worker.spawn (key : PublicKey) (compute : C) (seed : ℤ) (cpuI : ℕ) : Rust (Worker C) := do
  let state ← State.fromPubKey key (localSeedOf seed cpuI)
  return ⟨.run, state, compute, localSeedOf seed cpuI, 0, 0, 0⟩

/-- The steps of a worker, one for each branch with what it tests and what it changes. -/
inductive Worker.StepTo (key : PublicKey) (n grainSize : ℕ) (hashDiff : U256) (w : Worker C)
    (sh : Shared) : Worker C → Shared → Prop
  | walk {state : State ℤ} {compute : C} (hpc : w.pc = .run) (hi : w.i < n)
      (hmove : w.state.transit w.compute = .ok (state, compute)) :
      StepTo key n grainSize hashDiff w sh { w with
        state := state
        compute := compute
        pc := if !state.overflowed hashDiff then .lookup else .poll } sh
  | restart {state : State ℤ} (hpc : w.pc = .run) (hi : n ≤ w.i) (hj : w.j < maxTry)
      (hstate : State.fromPubKey key (w.localSeed + ((w.j + 1).toNat : ℤ)) = .ok state) :
      StepTo key n grainSize hashDiff w sh
        { w with j := w.j + 1, state := state, i := 0, pc := .run } sh
  | giveUp (hpc : w.pc = .run) (hi : n ≤ w.i) (hj : ¬w.j < maxTry) :
      StepTo key n grainSize hashDiff w sh { w with pc := .returned } sh
  | findOwn (hpc : w.pc = .lookup)
      (hfound : sh.collision w.state.work = some w.state.solution) :
      StepTo key n grainSize hashDiff w sh { w with pc := .poll } sh
  | findOther {sol : Solution ℤ} (hpc : w.pc = .lookup)
      (hfound : sh.collision w.state.work = some sol) (hne : w.state.solution ≠ sol) :
      StepTo key n grainSize hashDiff w sh { w with pc := .load sol } sh
  | findNone (hpc : w.pc = .lookup) (hfound : sh.collision w.state.work = none) :
      StepTo key n grainSize hashDiff w sh { w with pc := .insert } sh
  | cancel {sol : Solution ℤ} (hpc : w.pc = .load sol) (hflag : sh.found = true) :
      StepTo key n grainSize hashDiff w sh { w with pc := .returned } sh
  | proceed {sol : Solution ℤ} (hpc : w.pc = .load sol) (hflag : sh.found = false) :
      StepTo key n grainSize hashDiff w sh { w with pc := .store sol } sh
  | raise {sol : Solution ℤ} (hpc : w.pc = .store sol) :
      StepTo key n grainSize hashDiff w sh { w with pc := .writeNonce sol }
        { sh with found := true }
  | publishNonce {sol : Solution ℤ} (hpc : w.pc = .writeNonce sol) :
      StepTo key n grainSize hashDiff w sh { w with pc := .writeRes sol }
        { sh with nonce := w.state.nonce }
  | publishRes {sol : Solution ℤ} (hpc : w.pc = .writeRes sol) :
      StepTo key n grainSize hashDiff w sh { w with pc := .returned }
        { sh with res := some (w.state.solution, sol) }
  | insert (hpc : w.pc = .insert) :
      StepTo key n grainSize hashDiff w sh { w with pc := .poll }
        { sh with
          collision := Function.update sh.collision w.state.work
            (some ((sh.collision w.state.work).getD w.state.solution)) }
  | stop (hpc : w.pc = .poll) (hflag : sh.found = true) :
      StepTo key n grainSize hashDiff w sh { w with pc := .returned } sh
  | resume {counter : ℕ} (hpc : w.pc = .poll) :
      StepTo key n grainSize hashDiff w sh
        { w with i := w.i + 1, counter := counter, pc := .run } sh
  | rest (hpc : w.pc = .returned) : StepTo key n grainSize hashDiff w sh w sh

/-- A step that succeeds is one of these. -/
theorem Worker.stepTo_of_step {key : PublicKey} {n grainSize : ℕ} {hashDiff : U256}
    {w w' : Worker C} {sh sh' : Shared} (h : w.step key n grainSize hashDiff sh = .ok (w', sh')) :
    w.StepTo key n grainSize hashDiff sh w' sh' := by
  cases hpc : w.pc with
  | run =>
    simp only [step, hpc] at h
    split_ifs at h with hi hj
    · obtain ⟨⟨state, compute⟩, hmove, h⟩ := Rust.bind_eq_ok.mp h
      obtain ⟨rfl, rfl⟩ := Prod.mk.inj (Except.ok.inj h)
      exact .walk hpc hi hmove
    · obtain ⟨restarted, hrestart, h⟩ := Rust.bind_eq_ok.mp h
      obtain ⟨rfl, rfl⟩ := Prod.mk.inj (Except.ok.inj h)
      obtain ⟨state, hstate, hrestart⟩ := Rust.bind_eq_ok.mp hrestart
      obtain rfl := Except.ok.inj hrestart
      exact .restart hpc (not_lt.mp hi) hj hstate
    · obtain ⟨rfl, rfl⟩ := Prod.mk.inj (Except.ok.inj h)
      exact .giveUp hpc (not_lt.mp hi) hj
  | lookup =>
    cases hfound : sh.collision w.state.work with
    | none =>
      simp only [step, hpc, hfound] at h
      obtain ⟨rfl, rfl⟩ := Prod.mk.inj (Except.ok.inj h)
      exact .findNone hpc hfound
    | some sol =>
      simp only [step, hpc, hfound, Option.isSome_some, if_true] at h
      split_ifs at h with hne
      · obtain ⟨rfl, rfl⟩ := Prod.mk.inj (Except.ok.inj h)
        exact .findOther hpc hfound hne
      · obtain ⟨rfl, rfl⟩ := Prod.mk.inj (Except.ok.inj h)
        rw [ne_eq, not_not] at hne
        exact .findOwn hpc (hne ▸ hfound)
  | load sol =>
    simp only [step, hpc] at h
    split_ifs at h with hflag
    · obtain ⟨rfl, rfl⟩ := Prod.mk.inj (Except.ok.inj h)
      exact .cancel hpc hflag
    · obtain ⟨rfl, rfl⟩ := Prod.mk.inj (Except.ok.inj h)
      exact .proceed hpc (Bool.eq_false_iff.mpr hflag)
  | store sol =>
    simp only [step, hpc] at h
    obtain ⟨rfl, rfl⟩ := Prod.mk.inj (Except.ok.inj h)
    exact .raise hpc
  | writeNonce sol =>
    simp only [step, hpc] at h
    obtain ⟨rfl, rfl⟩ := Prod.mk.inj (Except.ok.inj h)
    exact .publishNonce hpc
  | writeRes sol =>
    simp only [step, hpc] at h
    obtain ⟨rfl, rfl⟩ := Prod.mk.inj (Except.ok.inj h)
    exact .publishRes hpc
  | insert =>
    simp only [step, hpc] at h
    obtain ⟨rfl, rfl⟩ := Prod.mk.inj (Except.ok.inj h)
    exact .insert hpc
  | poll =>
    simp only [step, hpc] at h
    split_ifs at h with hgrain hflag
    · obtain ⟨rfl, rfl⟩ := Prod.mk.inj (Except.ok.inj h)
      exact .stop hpc hflag
    · obtain ⟨rfl, rfl⟩ := Prod.mk.inj (Except.ok.inj h)
      exact .resume hpc
    · obtain ⟨rfl, rfl⟩ := Prod.mk.inj (Except.ok.inj h)
      exact .resume hpc
  | returned =>
    simp only [step, hpc] at h
    obtain ⟨rfl, rfl⟩ := Prod.mk.inj (Except.ok.inj h)
    exact .rest hpc

/-- A worker that has returned stays as it is. -/
theorem Worker.StepTo.eq_of_returned {key : PublicKey} {n grainSize : ℕ} {hashDiff : U256}
    {w w' : Worker C} {sh sh' : Shared} (h : w.StepTo key n grainSize hashDiff sh w' sh')
    (hreturned : w.pc = .returned) : w' = w := by
  cases h with
  | rest => rfl
  | _ hpc => cases hpc.symm.trans hreturned

end Worker

/-- One move of a parallel search: a step of a worker, or the flag raised from
outside the search. -/
abbrev Move (cpus : ℕ) := Option (Fin cpus)

section Search

variable {C : Type} [Deps] [Hash C] {cpus : ℕ}

/-- Make one move. -/
def ParState.move (key : PublicKey) (n grainSize : ℕ) (hashDiff : U256) (s : ParState C cpus) :
    Move cpus → Rust (ParState C cpus)
  | some i => do
    let (w, sh) ← (s.workers i).step key n grainSize hashDiff s.shared
    return ⟨Function.update s.workers i w, sh⟩
  | none => .ok { s with shared := { s.shared with found := true } }

/-- The move of a worker is a step of it and leaves the other workers alone. -/
theorem ParState.stepTo_of_move {key : PublicKey} {n grainSize : ℕ} {hashDiff : U256}
    {s s' : ParState C cpus} {i : Fin cpus}
    (h : s.move key n grainSize hashDiff (some i) = .ok s') :
    (s.workers i).StepTo key n grainSize hashDiff s.shared (s'.workers i) s'.shared ∧
      ∀ k, k ≠ i → s'.workers k = s.workers k := by
  obtain ⟨⟨w, sh⟩, hstep, h⟩ := Rust.bind_eq_ok.mp h
  obtain rfl := Except.ok.inj h
  constructor
  · simp only [Function.update_self]
    exact Worker.stepTo_of_step hstep
  · intro k hk
    exact Function.update_of_ne hk ..

/-- A move of another worker, or one from outside, leaves a worker alone. -/
theorem ParState.workers_eq_of_move {key : PublicKey} {n grainSize : ℕ} {hashDiff : U256}
    {s s' : ParState C cpus} {move : Move cpus} {i : Fin cpus}
    (h : s.move key n grainSize hashDiff move = .ok s') (hmove : move ≠ some i) :
    s'.workers i = s.workers i := by
  cases move with
  | none =>
    obtain rfl := Except.ok.inj h
    rfl
  | some k =>
    refine (ParState.stepTo_of_move h).2 i ?_
    rintro rfl
    exact hmove rfl

/-- The state in which all threads have been spawned. -/
def ParState.spawn (key : PublicKey) (compute : C) (seed : ℤ) (flag : Bool) (cpus : ℕ) :
    Rust (ParState C cpus) := do
  let workers ← List.Vector.mOfFn fun cpuI : Fin cpus => Worker.spawn key compute seed cpuI
  return ⟨workers.get, ⟨fun _ => none, flag, 1, none⟩⟩

/-- The hash tester, the bound of the loops and the spawned threads of a search. -/
def ParState.setup (key : PublicKey) (compute : C) (seed : ℤ) (flag : Bool) (cpus : ℕ) :
    Rust (U256 × ℕ × ParState C cpus) := do
  let hashDiff ← key.hashDiff
  let n ← key.searchLen
  let s ← ParState.spawn key compute seed flag cpus
  return (hashDiff, n, s)

/-- All threads have returned, so that joining them succeeds. -/
def ParState.Joined (s : ParState C cpus) : Prop := ∀ i, (s.workers i).pc = .returned

instance (s : ParState C cpus) : Decidable s.Joined :=
  inferInstanceAs (Decidable (∀ i, (s.workers i).pc = .returned))

/-- Join the threads, store the nonce in the header computer and take the result. -/
def ParState.finish (compute : C) (s : ParState C cpus) : Rust (Option (Solutions ℤ) × C) := do
  if s.Joined then
    let compute ← Hash.setNonce compute s.shared.nonce
    return (s.shared.res, compute)
  else
    .error .unfinished

/-- The state of the threads after a schedule, which says in which order they take
their steps. -/
def parallelRun (key : PublicKey) (compute : C) (seed : ℤ) (grainSize : ℕ) (flag : Bool)
    (cpus : ℕ) (schedule : List (Move cpus)) : Rust (ParState C cpus) := do
  let (hashDiff, n, s) ← ParState.setup key compute seed flag cpus
  schedule.foldlM (ParState.move key n grainSize hashDiff) s

/-- A move of a parallel search that has been made. -/
abbrev MoveMade (C : Type) (cpus : ℕ) := Loop.Step (ParState C cpus) (Move cpus)

/-- The moves that a search makes on a schedule, up to the first that panics. -/
def moveHistory (key : PublicKey) (compute : C) (seed : ℤ) (grainSize : ℕ) (flag : Bool)
    (cpus : ℕ) (schedule : List (Move cpus)) : List (MoveMade C cpus) :=
  match ParState.setup key compute seed flag cpus with
  | .error _ => []
  | .ok (hashDiff, n, s) => Loop.steps (ParState.move key n grainSize hashDiff) schedule s

/-- Every move of a search meets a condition on the bound of the loops, the state before the
move and the move. -/
def EachMove (P : ℕ → ParState C cpus → Move cpus → Prop) (key : PublicKey) (compute : C)
    (seed : ℤ) (grainSize : ℕ) (flag : Bool) (schedule : List (Move cpus)) : Prop :=
  match ParState.setup key compute seed flag cpus with
  | .error _ => True
  | .ok (hashDiff, n, s) => Loop.AllSteps (ParState.move key n grainSize hashDiff) (P n) schedule s

instance {P : ℕ → ParState C cpus → Move cpus → Prop} [∀ n s move, Decidable (P n s move)]
    (key : PublicKey) (compute : C) (seed : ℤ) (grainSize : ℕ) (flag : Bool)
    (schedule : List (Move cpus)) :
    Decidable (EachMove P key compute seed grainSize flag schedule) :=
  show Decidable (match ParState.setup key compute seed flag cpus with
    | .error _ => True
    | .ok (hashDiff, n, s) =>
      Loop.AllSteps (ParState.move key n grainSize hashDiff) (P n) schedule s) from
  match ParState.setup key compute seed flag cpus with
  | .error _ => .isTrue trivial
  | .ok (_, n, s) => @Loop.AllSteps.decidable _ _ _ _ (P n) _ schedule s

section History

variable {key : PublicKey} {compute : C} {seed : ℤ} {grainSize : ℕ} {flag : Bool}
  {schedule : List (Move cpus)} {made : MoveMade C cpus} {P : ParState C cpus → Move cpus → Prop}

/-- What a search has made are moves. -/
theorem exists_move_of_mem_moveHistory
    (hmade : made ∈ moveHistory key compute seed grainSize flag cpus schedule) :
    ∃ n hashDiff, made.before.move key n grainSize hashDiff made.input = .ok made.after := by
  unfold moveHistory at hmade
  cases hsetup : ParState.setup key compute seed flag cpus with
  | error fault =>
    rw [hsetup] at hmade
    cases hmade
  | ok start =>
    rw [hsetup] at hmade
    exact ⟨_, _, Loop.step_of_mem_steps hmade⟩

/-- A condition on each move holds for the moves made. -/
theorem EachMove.of_mem
    (h : EachMove (fun _ => P) key compute seed grainSize flag schedule)
    (hmade : made ∈ moveHistory key compute seed grainSize flag cpus schedule) :
    P made.before made.input := by
  unfold moveHistory at hmade
  unfold EachMove at h
  cases hsetup : ParState.setup key compute seed flag cpus with
  | error fault =>
    rw [hsetup] at hmade
    cases hmade
  | ok start =>
    rw [hsetup] at hmade h
    exact Loop.AllSteps.of_mem h hmade

/-- Where the moves that violate a condition never panic, it is enough to check the moves
made. -/
theorem eachMove_of_mem
    (hok : ∀ n hashDiff s move, ¬P s move → ∃ s', s.move key n grainSize hashDiff move = .ok s')
    (h : ∀ made ∈ moveHistory key compute seed grainSize flag cpus schedule,
      P made.before made.input) :
    EachMove (fun _ => P) key compute seed grainSize flag schedule := by
  unfold moveHistory at h
  unfold EachMove
  cases hsetup : ParState.setup key compute seed flag cpus with
  | error fault => trivial
  | ok start =>
    rw [hsetup] at h
    exact Loop.allSteps_of_mem (hok _ _) h

end History

/-- This method solves the puzzle with parallel computing. -/
def solveParallel (key : PublicKey) (compute : C) (seed : ℤ) (grainSize : ℕ) (flag : Bool)
    (cpus : ℕ) (schedule : List (Move cpus)) : Rust (Option (Solutions ℤ) × C) := do
  let s ← parallelRun key compute seed grainSize flag cpus schedule
  s.finish compute

end Search

/-- A search starts with all workers at the starts of their walks, with nothing shared and
with the hash tester of the key. -/
theorem ParState.setup_spec {C : Type} [Deps] {cpus : ℕ} {key : PublicKey} {compute : C}
    {seed : ℤ} {flag : Bool} {hashDiff : U256} {n : ℕ} {s : ParState C cpus}
    (h : ParState.setup key compute seed flag cpus = .ok (hashDiff, n, s)) :
    (∀ i : Fin cpus, ∃ state, State.fromPubKey key (localSeedOf seed i) = .ok state ∧
      s.workers i = ⟨.run, state, compute, localSeedOf seed i, 0, 0, 0⟩) ∧
    s.shared = ⟨fun _ => none, flag, 1, none⟩ ∧ key.hashDiff = .ok hashDiff := by
  obtain ⟨tester, htester, h⟩ := Rust.bind_eq_ok.mp h
  obtain ⟨length, -, h⟩ := Rust.bind_eq_ok.mp h
  obtain ⟨spawned, hspawn, h⟩ := Rust.bind_eq_ok.mp h
  simp only [Rust.pure_eq_ok, Except.ok.injEq, Prod.mk.injEq] at h
  obtain ⟨rfl, -, rfl⟩ := h
  obtain ⟨workers, hworkers, hspawn⟩ := Rust.bind_eq_ok.mp hspawn
  obtain rfl := Except.ok.inj hspawn
  refine ⟨fun i => ?_, rfl, htester⟩
  obtain ⟨state, hstate, hworker⟩ := Rust.bind_eq_ok.mp (Loop.mOfFn_eq_ok.mp hworkers i)
  exact ⟨state, hstate, (Except.ok.inj hworker).symm⟩

end TrexPow
