import TrexPow.CancellableSolver
import TrexPow.CountedSolvers
import TrexPow.Parallel

/-!
# All searches terminate

A worker of the parallel search has an outer loop without a bound. But whatever it reads
from the shared memory, its counter only goes back when its restart counter advances, and
that stops at ten: eleven walks are all it can make. The measure below pays for every
step of a worker and is independent of the map, so that it holds for any interleaving.
-/

namespace TrexPow

/-- How far a worker is from the next pass of its loop, or from its return. -/
def WorkerPc.rank : WorkerPc → ℕ
  | .lookup => 5
  | .load _ => 4
  | .store _ | .insert => 3
  | .writeNonce _ | .poll => 2
  | .writeRes _ | .run => 1
  | .returned => 0

section Measure

variable {C : Type}

/-- The next step of the worker is one of its walk. -/
def Worker.Transits (n : ℕ) (w : Worker C) : Prop := w.pc = .run ∧ w.i < n

instance (n : ℕ) (w : Worker C) : Decidable (w.Transits n) :=
  inferInstanceAs (Decidable (_ ∧ _))

/-- The steps of walks that a worker can still make: those left of its walk and those of its
restarts. In the middle of a pass the step of that pass has been made. -/
def Worker.remaining (n : ℕ) (w : Worker C) : ℕ :=
  match w.pc with
  | .returned => 0
  | .run => (maxTry.toNat - w.j.toNat) * n + (n - w.i)
  | _ => (maxTry.toNat - w.j.toNat) * n + (n - w.i - 1)

/-- A bound of the atomic steps that a worker can still make: six for each step of a walk, one
for each restart, and those up to its next pass. -/
def Worker.potential (n : ℕ) (w : Worker C) : ℕ :=
  6 * w.remaining n + (maxTry.toNat - w.j.toNat) + w.pc.rank

/-- Only a worker that has returned has no step to make. -/
theorem Worker.potential_pos {n : ℕ} {w : Worker C} (hpc : w.pc ≠ .returned) :
    0 < w.potential n := by
  have hrank : 0 < w.pc.rank := by
    cases hat : w.pc with
    | returned => exact absurd hat hpc
    | _ => exact Nat.succ_pos _
  exact Nat.add_pos_right _ hrank

/-- A restart spends a whole walk. -/
theorem tries_mul_succ {j : U8} (hj : j < maxTry) (n : ℕ) :
    (maxTry.toNat - (j + 1).toNat) * n + n = (maxTry.toNat - j.toNat) * n := by
  have hlt : j.toNat < maxTry.toNat := hj
  have htries : maxTry.toNat - j.toNat = maxTry.toNat - (j + 1).toNat + 1 := by
    rw [toNat_succ_of_lt_maxTry hj]
    omega
  rw [htries, Nat.succ_mul]

variable [Deps] [Hash C] {key : PublicKey} {n grainSize : ℕ} {hashDiff : U256} {w w' : Worker C}
  {sh sh' : Shared}

/-- A step of a walk takes one from what remains, and no other step adds to it. -/
theorem Worker.StepTo.remaining_le (h : w.StepTo key n grainSize hashDiff sh w' sh') :
    (if w.Transits n then 1 else 0) + w'.remaining n ≤ w.remaining n := by
  cases h with
  | @walk state compute hpc hi =>
    simp only [Transits, remaining, hpc, hi, and_self, if_true]
    cases state.overflowed hashDiff with
    | false =>
      simp only [Bool.not_false, if_true]
      omega
    | true =>
      simp only [Bool.not_true, Bool.false_eq_true, if_false]
      omega
  | restart hpc hi hj =>
    have hwalk := tries_mul_succ hj n
    simp only [Transits, remaining, hpc, not_lt.mpr hi, and_false, if_false]
    omega
  | giveUp hpc hi =>
    simp [Transits, remaining, hpc, not_lt.mpr hi]
  | resume hpc =>
    simp only [Transits, remaining, hpc, reduceCtorEq, false_and, if_false]
    omega
  | rest hpc => simp [Transits, hpc]
  | findOwn hpc | findOther hpc | findNone hpc | cancel hpc | proceed hpc | raise hpc
  | publishNonce hpc | publishRes hpc | insert hpc | stop hpc =>
    simp [Transits, remaining, hpc]

/-- Every step of a worker that has not returned takes from its potential. -/
theorem Worker.StepTo.potential_lt (h : w.StepTo key n grainSize hashDiff sh w' sh')
    (hpc : w.pc ≠ .returned) : w'.potential n < w.potential n := by
  have hle := h.remaining_le
  cases h with
  | @walk state compute hrun hi =>
    rw [if_pos ⟨hrun, hi⟩] at hle
    -- the six units of the walk's step pay for the whole pass that it begins
    have hrank : (if !state.overflowed hashDiff then WorkerPc.lookup else .poll).rank ≤ 5 := by
      cases state.overflowed hashDiff <;> decide
    simp only [potential, hrun, WorkerPc.rank] at hle hrank ⊢
    omega
  | restart hrun hi hj =>
    have hlt : w.j.toNat < maxTry.toNat := hj
    simp only [potential, hrun, WorkerPc.rank, toNat_succ_of_lt_maxTry hj]
    omega
  | rest hreturned => exact absurd hreturned hpc
  | giveUp hat | resume hat | findOwn hat | findOther hat | findNone hat | cancel hat | proceed hat
  | raise hat | publishNonce hat | publishRes hat | insert hat | stop hat =>
    simp only [potential, hat, WorkerPc.rank]
    omega

end Measure

section Totality

variable [Deps] {key : PublicKey} {n grainSize : ℕ} {hashDiff : U256} {w w' : Worker Compute}
  {sh sh' : Shared}

/-- The state of a worker is reduced, and its nonce fits a word. -/
structure Worker.Reduced (key : PublicKey) (w : Worker Compute) : Prop where
  state : w.state.Reduced key
  nonce : 0 ≤ w.state.nonce ∧ w.state.nonce < 2 ^ 256

/-- The published nonce fits a word. -/
def Shared.NonceFits (sh : Shared) : Prop := 0 ≤ sh.nonce ∧ sh.nonce < 2 ^ 256

/-- A random state of a key can be that of a worker. -/
theorem Worker.reduced_of_fromPubKey (hp : 0 < key.p) {seed : ℤ}
    (h : State.fromPubKey key seed = .ok w.state) : w.Reduced key := by
  obtain ⟨hreduced, hnonce⟩ := State.fromPubKey_reduced hp h
  refine ⟨hreduced, ?_⟩
  rw [hnonce]
  decide

/-- The step of a worker succeeds, whatever it reads from the shared memory. -/
theorem Worker.Reduced.step_ok (hrand : RandomInRange) (hthree : 3 ≤ key.p)
    (hlt : key.p < 2 ^ 256) (hw : w.Reduced key) (n grainSize : ℕ) (hashDiff : U256)
    (sh : Shared) : ∃ next, w.step key n grainSize hashDiff sh = .ok next := by
  cases hpc : w.pc with
  | run =>
    obtain ⟨moved, compute, hmove, -⟩ := hw.state.transit_ok hthree hlt w.compute
    obtain ⟨fresh, hfresh, -⟩ :=
      State.fromPubKey_ok hrand hthree (w.localSeed + ((w.j + 1).toNat : ℤ))
    simp only [step, hpc, restart, hmove, hfresh, Rust.ok_bind, Rust.pure_eq_ok]
    by_cases hi : w.i < n
    · exact ⟨_, if_pos hi⟩
    · by_cases hj : w.j < maxTry
      · exact ⟨_, (if_neg hi).trans (if_pos hj)⟩
      · exact ⟨_, (if_neg hi).trans (if_neg hj)⟩
  | lookup =>
    simp only [step, hpc]
    cases sh.collision w.state.work with
    | none => exact ⟨_, rfl⟩
    | some sol =>
      simp only [Option.isSome_some, if_true]
      split_ifs
      · exact ⟨_, rfl⟩
      · exact ⟨_, rfl⟩
  | load sol =>
    simp only [step, hpc]
    split_ifs
    · exact ⟨_, rfl⟩
    · exact ⟨_, rfl⟩
  | poll =>
    simp only [step, hpc]
    split_ifs
    · exact ⟨_, rfl⟩
    · exact ⟨_, rfl⟩
    · exact ⟨_, rfl⟩
  | store | writeNonce | writeRes | insert | returned =>
    simp only [step, hpc]
    exact ⟨_, rfl⟩

/-- A step of a worker keeps its state reduced and the nonces within a word. -/
theorem Worker.StepTo.reduced (hthree : 3 ≤ key.p) (hlt : key.p < 2 ^ 256)
    (h : w.StepTo key n grainSize hashDiff sh w' sh') (hw : w.Reduced key) :
    w'.Reduced key ∧ (sh.NonceFits → sh'.NonceFits) := by
  cases h with
  | walk hpc hi hmove =>
    obtain ⟨hwork0, hworkp⟩ := hw.state.work_bounds
    have hbounds : 0 ≤ w.state.work ∧ w.state.work < 2 ^ 256 := ⟨hwork0, by omega⟩
    obtain ⟨next, compute', hnext, hreduced⟩ := hw.state.transit_ok hthree hlt w.compute
    obtain ⟨rfl, rfl⟩ := Prod.mk.inj (Except.ok.inj (hmove.symm.trans hnext))
    have hpubkey : 3 ≤ w.state.pubkey.p := by rwa [hw.state.pubkey_eq]
    obtain ⟨rfl, -⟩ := Prod.mk.inj
      (Except.ok.inj (hmove.symm.trans (State.transit_eq hpubkey hbounds w.compute)))
    exact ⟨⟨hreduced, hbounds⟩, id⟩
  | restart hpc hi hj hstate =>
    exact ⟨Worker.reduced_of_fromPubKey (by omega) hstate, id⟩
  | publishNonce hpc => exact ⟨⟨hw.state, hw.nonce⟩, fun _ => hw.nonce⟩
  | giveUp | findOwn | findOther | findNone | cancel | proceed | raise | publishRes | insert | stop
  | resume | rest => exact ⟨⟨hw.state, hw.nonce⟩, id⟩

end Totality

section AnyMemory

/-- A step of a worker on some content of the shared memory. -/
def Worker.stepIn {C : Type} [Deps] [Hash C] (key : PublicKey) (n grainSize : ℕ) (hashDiff : U256)
    (w : Worker C) (sh : Shared) : Rust (Worker C) := do
  let (w, _) ← w.step key n grainSize hashDiff sh
  return w

/-- The steps of walks among the steps of a worker. -/
def transitsIn {C : Type} (n : ℕ) (history : List (Loop.Step (Worker C) Shared)) : ℕ :=
  history.countP fun made => decide (made.before.Transits n)

variable [Deps] {key : PublicKey} {n grainSize : ℕ} {hashDiff : U256} {w w' : Worker Compute}

theorem Worker.stepTo_of_stepIn {sh : Shared}
    (h : w.stepIn key n grainSize hashDiff sh = .ok w') :
    ∃ sh', w.StepTo key n grainSize hashDiff sh w' sh' := by
  obtain ⟨⟨next, sh'⟩, hstep, h⟩ := Rust.bind_eq_ok.mp h
  obtain rfl := Except.ok.inj h
  exact ⟨sh', Worker.stepTo_of_step hstep⟩

/-- Whatever the shared memory holds at its steps, a worker makes no more steps of walks than
remain, and it has returned after as many steps as its potential. -/
theorem Worker.Reduced.ends (hrand : RandomInRange) (hthree : 3 ≤ key.p) (hlt : key.p < 2 ^ 256)
    (hw : w.Reduced key) (memories : List Shared) :
    ∃ w', memories.foldlM (Worker.stepIn key n grainSize hashDiff) w = .ok w' ∧
      transitsIn n (Loop.steps (Worker.stepIn key n grainSize hashDiff) memories w) ≤
        w.remaining n ∧
      (w.potential n ≤ memories.length → w'.pc = .returned) := by
  have hkeeps (w : Worker Compute) (sh : Shared) (hw : w.Reduced key) :
      ∃ w', w.stepIn key n grainSize hashDiff sh = .ok w' ∧ w'.Reduced key := by
    obtain ⟨⟨next, sh'⟩, hstep⟩ := hw.step_ok hrand hthree hlt n grainSize hashDiff sh
    refine ⟨next, ?_, ((Worker.stepTo_of_step hstep).reduced hthree hlt hw).1⟩
    rw [stepIn, hstep, Rust.ok_bind]
    rfl
  obtain ⟨w', hrun, -⟩ := Loop.foldlM_total hkeeps memories hw
  refine ⟨w', hrun, ?_, ?_⟩
  · refine Loop.countP_steps_le (P := fun w _ => decide (w.Transits n)) ?_ memories w
    intro w sh w' h
    obtain ⟨sh', hstep⟩ := Worker.stepTo_of_stepIn h
    simpa using hstep.remaining_le
  · intro hlong
    refine Loop.final_of_potential_le (T := fun _ => true) (F := fun w => w.pc = .returned) ?_ ?_
      (fun w => w.potential_pos) hrun (by rwa [List.countP_true])
    · intro w sh w' hreturned h
      obtain ⟨sh', hstep⟩ := Worker.stepTo_of_stepIn h
      rwa [hstep.eq_of_returned hreturned]
    · intro w sh w' h hend
      obtain ⟨sh', hstep⟩ := Worker.stepTo_of_stepIn h
      have hpc : w.pc ≠ .returned := by
        intro hreturned
        rw [hstep.eq_of_returned hreturned] at hend
        exact hend hreturned
      have hpays := hstep.potential_lt hpc
      rw [if_pos rfl]
      omega

end AnyMemory

section Search

variable [Deps] {cpus : ℕ} {key : PublicKey} {n grainSize : ℕ} {hashDiff : U256}
  {s s' : ParState Compute cpus}

/-- The steps of walks that worker `i` makes among the moves of a search. -/
def transitMoves {C : Type} {cpus : ℕ} (n : ℕ) (i : Fin cpus) (history : List (MoveMade C cpus)) :
    ℕ :=
  history.countP fun made => decide (made.input = some i ∧ (made.before.workers i).Transits n)

/-- All workers of a search are reduced, and the published nonce fits a word. -/
structure ParState.Reduced (key : PublicKey) (s : ParState Compute cpus) : Prop where
  workers : ∀ i, (s.workers i).Reduced key
  nonce : s.shared.NonceFits

/-- Only the steps of its walks take from what remains to a worker. -/
theorem ParState.move_remaining_le {move : Move cpus}
    (h : s.move key n grainSize hashDiff move = .ok s') (i : Fin cpus) :
    (if move = some i ∧ (s.workers i).Transits n then 1 else 0) + (s'.workers i).remaining n ≤
      (s.workers i).remaining n := by
  by_cases hmove : move = some i
  · subst hmove
    simpa using (ParState.stepTo_of_move h).1.remaining_le
  · simp [hmove, ParState.workers_eq_of_move h hmove]

/-- A worker that has returned stays so. -/
theorem ParState.returned_of_move {move : Move cpus} {i : Fin cpus}
    (hreturned : (s.workers i).pc = .returned)
    (h : s.move key n grainSize hashDiff move = .ok s') : (s'.workers i).pc = .returned := by
  by_cases hmove : move = some i
  · subst hmove
    rwa [(ParState.stepTo_of_move h).1.eq_of_returned hreturned]
  · rwa [ParState.workers_eq_of_move h hmove]

/-- Every move of a worker that has not returned by it takes from its potential. -/
theorem ParState.move_potential_le {move : Move cpus} {i : Fin cpus}
    (h : s.move key n grainSize hashDiff move = .ok s') (hend : (s'.workers i).pc ≠ .returned) :
    (if move == some i then 1 else 0) + (s'.workers i).potential n ≤
      (s.workers i).potential n := by
  by_cases hmove : move = some i
  · subst hmove
    have hpays := (ParState.stepTo_of_move h).1.potential_lt
      (fun hreturned => hend (ParState.returned_of_move hreturned h))
    rw [if_pos (beq_self_eq_true _)]
    omega
  · simp [hmove, ParState.workers_eq_of_move h hmove]

/-- Every move of a search succeeds. -/
theorem ParState.Reduced.move_ok (hrand : RandomInRange) (hthree : 3 ≤ key.p)
    (hlt : key.p < 2 ^ 256) (hs : s.Reduced key) (n grainSize : ℕ) (hashDiff : U256)
    (move : Move cpus) :
    ∃ s', s.move key n grainSize hashDiff move = .ok s' ∧ s'.Reduced key := by
  cases move with
  | none => exact ⟨_, rfl, hs.workers, hs.nonce⟩
  | some i =>
    obtain ⟨⟨w, sh⟩, hstep⟩ :=
      (hs.workers i).step_ok hrand hthree hlt n grainSize hashDiff s.shared
    obtain ⟨hw, hnonce⟩ := (Worker.stepTo_of_step hstep).reduced hthree hlt (hs.workers i)
    refine ⟨⟨Function.update s.workers i w, sh⟩, ?_, ?_, hnonce hs.nonce⟩
    · simp only [ParState.move, hstep, Rust.ok_bind, Rust.pure_eq_ok]
    · intro k
      by_cases hk : k = i
      · subst hk
        dsimp only
        rwa [Function.update_self]
      · dsimp only
        rw [Function.update_of_ne hk]
        exact hs.workers k

/-- A worker is spawned with all its walks before it. -/
theorem Worker.spawn_ok (hrand : RandomInRange) (hthree : 3 ≤ key.p) (compute : Compute)
    (seed : ℤ) (cpuI n : ℕ) :
    ∃ w, Worker.spawn key compute seed cpuI = .ok w ∧ w.Reduced key ∧
      w.remaining n = 11 * n ∧ w.potential n = 66 * n + 11 := by
  obtain ⟨state, hstate, -⟩ := State.fromPubKey_ok hrand hthree (localSeedOf seed cpuI)
  have hzero : (0 : U8).toNat = 0 := rfl
  refine ⟨⟨.run, state, compute, localSeedOf seed cpuI, 0, 0, 0⟩, ?_,
    Worker.reduced_of_fromPubKey (by omega) hstate, ?_, ?_⟩
  · simp only [Worker.spawn, hstate, Rust.ok_bind, Rust.pure_eq_ok]
  · simp only [remaining, maxTry_toNat, hzero]
    omega
  · simp only [potential, remaining, WorkerPc.rank, maxTry_toNat, hzero]
    omega

/-- The threads of a search are spawned with all their walks before them. -/
theorem ParState.setup_ok (hrand : RandomInRange) (hthree : 3 ≤ key.p)
    (hbits : 18 ≤ key.bitLength.toNat) (hn : n = 8 * key.p.toNat.sqrt) (compute : Compute)
    (seed : ℤ) (flag : Bool) (cpus : ℕ) :
    ∃ hashDiff s, ParState.setup key compute seed flag cpus = .ok (hashDiff, n, s) ∧
      s.Reduced key ∧ ∀ i : Fin cpus, (s.workers i).remaining n = 11 * n ∧
        (s.workers i).potential n = 66 * n + 11 := by
  obtain ⟨hashDiff, htester⟩ := PublicKey.hashDiff_ok hbits
  have hlen := PublicKey.searchLen_eq (by omega) hn
  have hspawn (i : Fin cpus) := Worker.spawn_ok hrand hthree compute seed i n
  choose workers hworkers hreduced hmeasure using hspawn
  have hvector : (List.Vector.mOfFn fun i : Fin cpus => Worker.spawn key compute seed i) =
      .ok (.ofFn workers) := by
    refine Loop.mOfFn_eq_ok.mpr fun i => ?_
    rw [hworkers, List.Vector.get_ofFn]
  have hget : (List.Vector.ofFn workers).get = workers := funext (List.Vector.get_ofFn workers)
  have hone : (0 : ℤ) ≤ 1 ∧ (1 : ℤ) < 2 ^ 256 := by decide
  refine ⟨hashDiff, ⟨workers, ⟨fun _ => none, flag, 1, none⟩⟩, ?_, ⟨hreduced, hone⟩, hmeasure⟩
  simp only [ParState.setup, ParState.spawn, htester, hlen, hvector, hget, Rust.ok_bind,
    Rust.pure_eq_ok]

/-- Every schedule can be run, no worker makes more steps of walks than eleven times the search
length, and a worker with enough moves has returned. -/
theorem parallelRun_ends (hrand : RandomInRange) (hthree : 3 ≤ key.p) (hlt : key.p < 2 ^ 256)
    (hbits : 18 ≤ key.bitLength.toNat) (hn : n = 8 * key.p.toNat.sqrt) (compute : Compute)
    (seed : ℤ) (grainSize : ℕ) (flag : Bool) (cpus : ℕ) (schedule : List (Move cpus)) :
    ∃ s, parallelRun key compute seed grainSize flag cpus schedule = .ok s ∧ s.Reduced key ∧
      ∀ i, transitMoves n i (moveHistory key compute seed grainSize flag cpus schedule) ≤ 11 * n ∧
        (66 * n + 11 ≤ schedule.count (some i) → (s.workers i).pc = .returned) := by
  obtain ⟨hashDiff, start, hsetup, hstart, hmeasure⟩ :=
    ParState.setup_ok hrand hthree hbits hn compute seed flag cpus
  obtain ⟨s, hrun, hs⟩ := Loop.foldlM_total
    (fun _ move hs => hs.move_ok hrand hthree hlt n grainSize hashDiff move) schedule hstart
  refine ⟨s, ?_, hs, ?_⟩
  · simp only [parallelRun, hsetup, Rust.ok_bind]
    exact hrun
  · intro i
    obtain ⟨hremaining, hpotential⟩ := hmeasure i
    constructor
    · rw [← hremaining, moveHistory, hsetup]
      have hpays (s : ParState Compute cpus) (move : Move cpus) (s' : ParState Compute cpus)
          (h : s.move key n grainSize hashDiff move = .ok s') :
          (if decide (move = some i ∧ (s.workers i).Transits n) then 1 else 0) +
            (s'.workers i).remaining n ≤ (s.workers i).remaining n := by
        simpa using ParState.move_remaining_le h i
      exact Loop.countP_steps_le (P := fun s move =>
        decide (move = some i ∧ (s.workers i).Transits n)) hpays schedule start
    · rw [← hpotential]
      exact Loop.final_of_potential_le (F := fun s => (s.workers i).pc = .returned)
        (fun s move s' hreturned h => ParState.returned_of_move hreturned h)
        (fun s move s' h hend => ParState.move_potential_le h hend)
        (fun s hend => Worker.potential_pos hend) hrun

/-- Once all threads have returned, joining them succeeds. -/
theorem ParState.Reduced.finish_ok (hs : s.Reduced key) (compute : Compute) (hjoined : s.Joined) :
    ∃ result, s.finish compute = .ok result := by
  obtain ⟨hnonneg, hlt⟩ := hs.nonce
  refine ⟨(s.shared.res, { compute with nonce := .ofNat 256 s.shared.nonce.toNat }), ?_⟩
  rw [finish, if_pos hjoined, setNonce_of_lt compute hnonneg hlt]
  rfl

/-- **All searches terminate within a fixed budget.** The single-threaded and the cancellable
solver return after at most five steps of walks for each unit of the search length. A worker
of the parallel search makes at most eleven, whatever the shared memory holds at its steps,
and it returns within a bounded number of its own atomic steps. So under every interleaving
no worker makes more, and the search joins as soon as each worker has made enough moves. -/
theorem searches_terminate (hrand : RandomInRange) (hp : 3 ≤ key.p ∧ key.p < 2 ^ 256)
    (hbits : 48 ≤ key.bitLength.toNat ∧ key.bitLength.toNat ≤ 224)
    (hn : n = 8 * key.p.toNat.sqrt) (header : Compute) (seed : ℤ) (grainSize : ℕ) :
    (∃ result steps, countedSolve key header seed = .ok (result, steps) ∧
      solve key header seed = .ok result ∧ steps ≤ 5 * n) ∧
    (∀ flag, ∃ result steps, countedSolveDist key header seed grainSize flag =
        .ok (result, steps) ∧
      solveDist key header seed grainSize flag = .ok result ∧ steps ≤ 5 * n) ∧
    (∀ (cpuI : ℕ) (hashDiff : U256) (memories : List Shared), ∃ start w,
      Worker.spawn key header seed cpuI = .ok start ∧
      memories.foldlM (Worker.stepIn key n grainSize hashDiff) start = .ok w ∧
      transitsIn n (Loop.steps (Worker.stepIn key n grainSize hashDiff) memories start) ≤ 11 * n ∧
      (66 * n + 11 ≤ memories.length → w.pc = .returned)) ∧
    ∀ (flag : Bool) (cpus : ℕ) (schedule : List (Move cpus)),
      ∃ s, parallelRun key header seed grainSize flag cpus schedule = .ok s ∧
        (∀ i, transitMoves n i (moveHistory key header seed grainSize flag cpus schedule) ≤ 11 * n ∧
          (66 * n + 11 ≤ schedule.count (some i) → (s.workers i).pc = .returned)) ∧
        ((∀ i, 66 * n + 11 ≤ schedule.count (some i)) →
          ∃ result, solveParallel key header seed grainSize flag cpus schedule = .ok result) := by
  obtain ⟨hthree, hlt⟩ := hp
  have hlen := PublicKey.searchLen_eq (by omega) hn
  have hsolvers (flag : ℕ → Bool) :=
    solveDist_follows hrand hthree hlt (by omega : 18 ≤ key.bitLength.toNat) header seed grainSize
      flag
  refine ⟨?_, ?_, ?_, ?_⟩
  · obtain ⟨result, -, hresult, -⟩ := hsolvers fun _ => false
    obtain ⟨steps, hle, hcounted⟩ := countedSolve_eq hlen header seed
    exact ⟨result, steps, by rw [hcounted, hresult]; rfl, hresult, hle⟩
  · intro flag
    obtain ⟨-, result, -, hresult, -⟩ := hsolvers flag
    obtain ⟨steps, hle, hcounted⟩ := countedSolveDist_eq hlen header seed grainSize flag
    exact ⟨result, steps, by rw [hcounted, hresult]; rfl, hresult, hle⟩
  · intro cpuI hashDiff memories
    obtain ⟨start, hspawn, hreduced, hremaining, hpotential⟩ :=
      Worker.spawn_ok hrand hthree header seed cpuI n
    obtain ⟨w, hrun, htransits, hreturns⟩ := hreduced.ends hrand hthree hlt memories
    rw [hremaining] at htransits
    rw [hpotential] at hreturns
    exact ⟨start, w, hspawn, hrun, htransits, hreturns⟩
  · intro flag cpus schedule
    obtain ⟨s, hrun, hs, hworkers⟩ := parallelRun_ends hrand hthree hlt (by omega) hn header seed
      grainSize flag cpus schedule
    refine ⟨s, hrun, hworkers, ?_⟩
    intro hmany
    have hjoined : s.Joined := fun i => (hworkers i).2 (hmany i)
    obtain ⟨result, hresult⟩ := hs.finish_ok header hjoined
    refine ⟨result, ?_⟩
    rw [solveParallel, hrun, Rust.ok_bind, hresult]

end Search

section Sample

attribute [local instance] Deps.sample

/-- On the small key both solvers make at most 80 steps, and two workers join after 1067 moves
of each, in any order. -/
theorem smallKey_searches_terminate :
    (∃ result steps, countedSolve smallKey (⟨48, .replicate 32 0, 0⟩ : Compute) 0 =
      .ok (result, steps) ∧ steps ≤ 80) ∧
    (∃ result steps, countedSolveDist smallKey (⟨48, .replicate 32 0, 0⟩ : Compute) 0 3
      (fun k => decide (2 ≤ k)) = .ok (result, steps) ∧ steps ≤ 80) ∧
    ∀ schedule : List (Move 2), (∀ i, 1067 ≤ schedule.count (some i)) → ∃ result,
      solveParallel smallKey (⟨48, .replicate 32 0, 0⟩ : Compute) 0 3 false 2 schedule =
        .ok result := by
  have hn : 16 = 8 * smallKey.p.toNat.sqrt := by decide +kernel
  obtain ⟨hsolve, hdist, -, hparallel⟩ := searches_terminate Deps.sample.randomInRange
    (by decide : 3 ≤ smallKey.p ∧ smallKey.p < 2 ^ 256) (by decide) hn ⟨48, .replicate 32 0, 0⟩ 0 3
  refine ⟨?_, ?_, ?_⟩
  · obtain ⟨result, steps, hcounted, -, hle⟩ := hsolve
    exact ⟨result, steps, hcounted, hle⟩
  · obtain ⟨result, steps, hcounted, -, hle⟩ := hdist fun k => decide (2 ≤ k)
    exact ⟨result, steps, hcounted, hle⟩
  · intro schedule hmany
    obtain ⟨_, -, -, hjoins⟩ := hparallel false 2 schedule
    exact hjoins hmany

end Sample

end TrexPow
