import TrexPow.ParallelCoherence

/-!
# The map of distinguished points

A worker looks a point up under one lock and inserts it under another, and the insertion
keeps a solution that is already there. Between the two another worker may have inserted
the same work with a different solution; then the collision of the two is lost. A worker
that finds its own solution walks on along the trail it has walked before.
-/

namespace TrexPow

section Handling

variable {C : Type} {cpus : ℕ}

/-- A worker has finished with a distinguished point and has not been cancelled there. -/
def Worker.Finishes (w w' : Worker C) : Prop :=
  w.pc.AtPoint ∧ ¬w'.pc.AtPoint ∧ ∀ sol, w.pc ≠ .load sol

/-- The point that worker `i` has finished with is stored with its solution, or the worker
has reported the collision with the different solution that is stored. -/
def ParState.Handled (s : ParState C cpus) (made : MoveMade C cpus) (i : Fin cpus) : Prop :=
  let w := made.before.workers i
  s.shared.collision w.state.work = some w.state.solution ∨
    ∃ sol, w.pc = .writeRes sol ∧ (made.after.workers i).pc = .returned ∧
      s.shared.collision w.state.work = some sol ∧ w.state.solution ≠ sol ∧
      made.after.shared.res = some (w.state.solution, sol)

/-- Every point that a worker has finished with is handled. -/
def ParState.AllHandled (s : ParState C cpus) (history : List (MoveMade C cpus)) : Prop :=
  ∀ made ∈ history, ∀ i, made.input = some i →
    (made.before.workers i).Finishes (made.after.workers i) → s.Handled made i

/-- No collision is lost: every point that a worker has finished with is handled, so two
workers never walk on from points with the same work and different solutions. -/
structure NoCollisionLost (history : List (MoveMade C cpus)) (s : ParState C cpus) : Prop where
  handled : s.AllHandled history
  apart : ∀ made₁ ∈ history, ∀ made₂ ∈ history, ∀ i₁ i₂, made₁.input = some i₁ →
    made₂.input = some i₂ → (made₁.before.workers i₁).Finishes (made₁.after.workers i₁) →
    (made₂.before.workers i₂).Finishes (made₂.after.workers i₂) →
    (made₁.after.workers i₁).pc = .poll → (made₂.after.workers i₂).pc = .poll →
    (made₁.before.workers i₁).state.work = (made₂.before.workers i₂).state.work →
    (made₁.before.workers i₁).state.solution = (made₂.before.workers i₂).state.solution

/-- Workers that walk on from handled points have their solutions in the map. -/
theorem noCollisionLost_of_handled {history : List (MoveMade C cpus)} {s : ParState C cpus}
    (h : s.AllHandled history) : NoCollisionLost history s := by
  have hstored : ∀ made ∈ history, ∀ i, made.input = some i →
      (made.before.workers i).Finishes (made.after.workers i) →
      (made.after.workers i).pc = .poll →
      s.shared.collision (made.before.workers i).state.work =
        some (made.before.workers i).state.solution := by
    intro made hmade i hi hfinishes hpoll
    rcases h made hmade i hi hfinishes with hown | ⟨sol, -, hreturned, -⟩
    · exact hown
    · cases hpoll.symm.trans hreturned
  refine ⟨h, ?_⟩
  intro made₁ hmade₁ made₂ hmade₂ i₁ i₂ hi₁ hi₂ hfinishes₁ hfinishes₂ hpoll₁ hpoll₂ hwork
  have hstored₁ := hstored made₁ hmade₁ i₁ hi₁ hfinishes₁ hpoll₁
  rw [hwork, hstored made₂ hmade₂ i₂ hi₂ hfinishes₂ hpoll₂] at hstored₁
  exact (Option.some.inj hstored₁).symm

/-- A worker that inserts its point finds the work still missing, or stored with its own
solution. -/
def ParState.InsertsOwn (s : ParState C cpus) : Move cpus → Prop
  | some i => (s.workers i).pc = .insert →
    s.shared.collision (s.workers i).state.work = none ∨
      s.shared.collision (s.workers i).state.work = some (s.workers i).state.solution
  | none => True

instance (s : ParState C cpus) : (move : Move cpus) → Decidable (s.InsertsOwn move)
  | some i => inferInstanceAs (Decidable ((s.workers i).pc = .insert → _ ∨ _))
  | none => .isTrue trivial

/-- What is stored stays, and a worker that carries a solution has found it stored for its
work. -/
structure ParState.Stores (history : List (MoveMade C cpus)) (s : ParState C cpus) : Prop where
  stays : ∀ made ∈ history, ∀ work sol, made.after.shared.collision work = some sol →
    s.shared.collision work = some sol
  carried : ∀ i sol, (s.workers i).pc.carried = some sol →
    s.shared.collision (s.workers i).state.work = some sol ∧ (s.workers i).state.solution ≠ sol

/-- The workers of a new search carry nothing. -/
theorem stores_setup [Deps] {key : PublicKey} {compute : C} {seed : ℤ} {flag : Bool}
    {hashDiff : U256} {n : ℕ} {s : ParState C cpus}
    (h : ParState.setup key compute seed flag cpus = .ok (hashDiff, n, s)) : s.Stores [] := by
  constructor
  · intro made hmade
    cases hmade
  · intro i sol hcarried
    obtain ⟨state, -, hworker⟩ := (ParState.setup_spec h).1 i
    rw [hworker] at hcarried
    cases hcarried

end Handling

section Steps

variable {C : Type} [Deps] [Hash C] {cpus : ℕ} {key : PublicKey} {n grainSize : ℕ}
  {hashDiff : U256}

/-- No step removes or replaces what is stored. -/
theorem Worker.StepTo.stays {w w' : Worker C} {sh sh' : Shared}
    (h : w.StepTo key n grainSize hashDiff sh w' sh') {work : ℤ} {sol : Solution ℤ}
    (hstored : sh.collision work = some sol) : sh'.collision work = some sol := by
  cases h with
  | insert hpc =>
    by_cases hwork : work = w.state.work
    · subst hwork
      simp only [Function.update_self, hstored, Option.getD_some]
    · simp only [Function.update_of_ne hwork, hstored]
  | _ => exact hstored

/-- A carried solution comes from the map, and it differs from the worker's own. -/
theorem Worker.StepTo.carries {w w' : Worker C} {sh sh' : Shared}
    (h : w.StepTo key n grainSize hashDiff sh w' sh') {sol : Solution ℤ}
    (hcarried : w'.pc.carried = some sol) :
    w'.state = w.state ∧ (w.pc.carried = some sol ∨
      (sh.collision w.state.work = some sol ∧ w.state.solution ≠ sol)) := by
  cases h with
  | walk =>
    dsimp only at hcarried
    split_ifs at hcarried
    · cases hcarried
    · cases hcarried
  | findOther hpc hfound hne =>
    obtain rfl := Option.some.inj hcarried
    exact ⟨rfl, Or.inr ⟨hfound, hne⟩⟩
  | proceed hpc | raise hpc | publishNonce hpc =>
    rw [hpc]
    exact ⟨rfl, Or.inl hcarried⟩
  | rest => exact ⟨rfl, Or.inl hcarried⟩
  | _ => cases hcarried

/-- After an insertion a worker is at the end of its pass. -/
theorem Worker.StepTo.poll_of_insert {w w' : Worker C} {sh sh' : Shared}
    (h : w.StepTo key n grainSize hashDiff sh w' sh') (hpc : w.pc = .insert) : w'.pc = .poll := by
  cases h with
  | insert => rfl
  | _ hpc' => cases hpc.symm.trans hpc'

/-- A lookup is no restart. -/
theorem Worker.StepTo.tries_of_lookup {w w' : Worker C} {sh sh' : Shared}
    (h : w.StepTo key n grainSize hashDiff sh w' sh') (hpc : w.pc = .lookup) : w'.j = w.j := by
  cases h with
  | restart hpc' => cases hpc.symm.trans hpc'
  | _ => rfl

/-- A worker finishes with a point that it finds stored with its own solution, after an
insertion, or after its report. -/
theorem Worker.StepTo.finishes {w w' : Worker C} {sh sh' : Shared}
    (h : w.StepTo key n grainSize hashDiff sh w' sh') (hfinishes : w.Finishes w') :
    sh'.collision w.state.work = some w.state.solution ∨
      (w.pc = .insert ∧ sh'.collision w.state.work =
        some ((sh.collision w.state.work).getD w.state.solution)) ∨
      ∃ sol, w.pc = .writeRes sol ∧ w'.pc = .returned ∧ sh'.collision = sh.collision ∧
        sh'.res = some (w.state.solution, sol) := by
  obtain ⟨hpoint, hleft, hload⟩ := hfinishes
  cases h with
  | findOwn hpc hfound => exact Or.inl hfound
  | insert hpc => exact Or.inr (Or.inl ⟨hpc, Function.update_self ..⟩)
  | publishRes hpc => exact Or.inr (Or.inr ⟨_, hpc, rfl, rfl, rfl⟩)
  | cancel hpc => exact absurd hpc (hload _)
  | findOther | findNone | proceed | raise | publishNonce => exact absurd trivial hleft
  | walk hpc | restart hpc | giveUp hpc | stop hpc | resume hpc | rest hpc =>
    rw [hpc] at hpoint
    exact hpoint.elim

section Moves

variable {history : List (MoveMade C cpus)} {s s' : ParState C cpus}

/-- No move removes or replaces what is stored. -/
theorem ParState.move_stays {move : Move cpus}
    (h : s.move key n grainSize hashDiff move = .ok s') {work : ℤ} {sol : Solution ℤ}
    (hstored : s.shared.collision work = some sol) :
    s'.shared.collision work = some sol := by
  cases move with
  | none =>
    obtain rfl := Except.ok.inj h
    exact hstored
  | some i => exact (ParState.stepTo_of_move h).1.stays hstored

/-- Every move keeps what is stored and carried. -/
theorem ParState.Stores.move {move : Move cpus} (hs : s.Stores history)
    (h : s.move key n grainSize hashDiff move = .ok s') :
    s'.Stores (history ++ [⟨s, move, s'⟩]) := by
  constructor
  · intro made hmade work sol hsol
    rcases List.mem_append.mp hmade with hmade | hmade
    · exact ParState.move_stays h (hs.stays made hmade work sol hsol)
    · obtain rfl := List.mem_singleton.mp hmade
      exact hsol
  · intro k sol hcarried
    have hold : (s'.workers k).state = (s.workers k).state ∧
        s.shared.collision (s.workers k).state.work = some sol ∧
        (s.workers k).state.solution ≠ sol := by
      by_cases hmove : move = some k
      · subst hmove
        obtain ⟨hstate, hcarried' | hfound⟩ := (ParState.stepTo_of_move h).1.carries hcarried
        · exact ⟨hstate, hs.carried k sol hcarried'⟩
        · exact ⟨hstate, hfound⟩
      · rw [ParState.workers_eq_of_move h hmove] at hcarried ⊢
        exact ⟨rfl, hs.carried k sol hcarried⟩
    obtain ⟨hstate, hstored, hne⟩ := hold
    rw [hstate]
    exact ⟨ParState.move_stays h hstored, hne⟩

/-- A worker that inserts its own solution, if any, handles the point that it finishes with. -/
theorem ParState.Stores.handles {i : Fin cpus} (hs : s.Stores history)
    (hown : s.InsertsOwn (some i)) (h : s.move key n grainSize hashDiff (some i) = .ok s')
    (hfinishes : (s.workers i).Finishes (s'.workers i)) :
    s'.Handled ⟨s, some i, s'⟩ i := by
  rcases (ParState.stepTo_of_move h).1.finishes hfinishes with
    hstored | ⟨hpc, hstored⟩ | ⟨sol, hpc, hreturned, hsame, hres⟩
  · exact Or.inl hstored
  · left
    rcases hown hpc with hmissing | hpresent
    · rwa [hmissing, Option.getD_none] at hstored
    · rwa [hpresent, Option.getD_some] at hstored
  · obtain ⟨hstored, hne⟩ := hs.carried i sol (by rw [hpc]; rfl)
    refine Or.inr ⟨sol, hpc, hreturned, ?_, hne, hres⟩
    rw [hsame]
    exact hstored

/-- A handled point stays handled. -/
theorem ParState.Handled.move {move : Move cpus} {made : MoveMade C cpus} {i : Fin cpus}
    (hs : s.Handled made i) (h : s.move key n grainSize hashDiff move = .ok s') :
    s'.Handled made i := by
  rcases hs with hown | ⟨sol, hpc, hreturned, hstored, hne, hres⟩
  · exact Or.inl (ParState.move_stays h hown)
  · exact Or.inr ⟨sol, hpc, hreturned, ParState.move_stays h hstored, hne, hres⟩

/-- A move that inserts its own solution, if any, leaves all points handled. -/
theorem ParState.AllHandled.move {move : Move cpus} (hall : s.AllHandled history)
    (hs : s.Stores history) (hown : s.InsertsOwn move)
    (h : s.move key n grainSize hashDiff move = .ok s') :
    s'.AllHandled (history ++ [⟨s, move, s'⟩]) := by
  intro made hmade i hi hfinishes
  rcases List.mem_append.mp hmade with hmade | hmade
  · exact (hall made hmade i hi hfinishes).move h
  · obtain rfl := List.mem_singleton.mp hmade
    obtain rfl : move = some i := hi
    exact hs.handles hown h hfinishes

/-- An insertion over a different solution loses a collision for the rest of the run. -/
theorem not_handled_of_insert {before after : ParState C cpus} {i : Fin cpus}
    (hs : s.Stores history) (hmade : ⟨before, some i, after⟩ ∈ history)
    (h : before.move key n grainSize hashDiff (some i) = .ok after)
    (hlost : ¬before.InsertsOwn (some i)) :
    (before.workers i).Finishes (after.workers i) ∧ ¬s.Handled ⟨before, some i, after⟩ i := by
  simp only [ParState.InsertsOwn, Classical.not_imp, not_or] at hlost
  obtain ⟨hpc, hpresent, hother⟩ := hlost
  obtain ⟨sol, hsol⟩ := Option.ne_none_iff_exists'.mp hpresent
  have hstored := hs.stays _ hmade _ _ (ParState.move_stays h hsol)
  constructor
  · rw [Worker.Finishes, (ParState.stepTo_of_move h).1.poll_of_insert hpc, hpc]
    exact ⟨trivial, fun h => h, fun sol h => WorkerPc.noConfusion h⟩
  · rintro (hown | ⟨sol', hres, -⟩)
    · rw [hstored] at hown
      exact hother (hsol.trans hown)
    · cases hpc.symm.trans hres

end Moves

/-- In a run with such an insertion a collision is lost. -/
theorem not_allHandled_of_insert {compute : C} {seed : ℤ} {flag : Bool}
    {schedule : List (Move cpus)} {s : ParState C cpus}
    (hrun : parallelRun key compute seed grainSize flag cpus schedule = .ok s)
    {made : MoveMade C cpus}
    (hmade : made ∈ moveHistory key compute seed grainSize flag cpus schedule)
    (hlost : ¬made.before.InsertsOwn made.input) :
    ¬s.AllHandled (moveHistory key compute seed grainSize flag cpus schedule) := by
  intro hall
  obtain ⟨⟨hashDiff, n, start⟩, hsetup, hrun⟩ := Rust.bind_eq_ok.mp hrun
  simp only [moveHistory, hsetup] at hmade hall
  have hstores := Loop.steps_invariant (fun _ _ _ _ hs hmove => hs.move hmove)
    (stores_setup hsetup) hrun
  rw [List.nil_append] at hstores
  obtain ⟨before, _ | i, after⟩ := made
  · exact hlost trivial
  · obtain ⟨hfinishes, hnot⟩ := not_handled_of_insert hstores hmade
      (Loop.step_of_mem_steps hmade) hlost
    exact hnot (hall _ hmade i rfl hfinishes)

/-- **Lost collisions.** In every run no collision is lost exactly when every worker that
inserts a point finds its work still missing, or stored with the worker's own solution. -/
theorem noCollisionLost_iff {compute : C} {seed : ℤ} {flag : Bool} {schedule : List (Move cpus)}
    {s : ParState C cpus}
    (hrun : parallelRun key compute seed grainSize flag cpus schedule = .ok s) :
    NoCollisionLost (moveHistory key compute seed grainSize flag cpus schedule) s ↔
      EachMove (fun _ => ParState.InsertsOwn) key compute seed grainSize flag schedule := by
  constructor
  · intro hkept
    refine eachMove_of_mem ?_ fun made hmade => ?_
    · -- an insertion always succeeds
      rintro n hashDiff s' (_ | i) hlost
      · exact absurd trivial hlost
      · simp only [ParState.InsertsOwn, Classical.not_imp] at hlost
        simp only [ParState.move, Worker.step, hlost.1, Rust.ok_bind, Rust.pure_eq_ok]
        exact ⟨_, rfl⟩
    · by_contra hlost
      exact not_allHandled_of_insert hrun hmade hlost hkept.handled
  · intro hall
    obtain ⟨⟨hashDiff, n, start⟩, hsetup, hrun⟩ := Rust.bind_eq_ok.mp hrun
    simp only [moveHistory, EachMove, hsetup] at hall ⊢
    obtain ⟨s', ⟨-, hhandled⟩, hend⟩ := hall.steps_invariant
      (I := fun history s => s.Stores history ∧ s.AllHandled history)
      (fun _ _ _ _ hs hown hmove => ⟨hs.1.move hmove, hs.2.move hs.1 hown hmove⟩)
      ⟨stores_setup hsetup, fun _ hmade => absurd hmade List.not_mem_nil⟩
    rw [List.nil_append, ← hend s hrun] at hhandled
    exact noCollisionLost_of_handled hhandled

end Steps

/-! ### Own trails -/

section Trails

variable {C : Type} {cpus : ℕ}

/-- Worker `i` looks up a point that is stored with its own solution. -/
def ParState.FindsOwn (s : ParState C cpus) (i : Fin cpus) : Prop :=
  (s.workers i).pc = .lookup ∧
    s.shared.collision (s.workers i).state.work = some (s.workers i).state.solution

/-- The move is not such a lookup. -/
def ParState.FindsNoOwn (s : ParState C cpus) : Move cpus → Prop
  | some i => ¬s.FindsOwn i
  | none => True

instance (s : ParState C cpus) (i : Fin cpus) : Decidable (s.FindsOwn i) :=
  inferInstanceAs (Decidable (_ ∧ _))

instance (s : ParState C cpus) : (move : Move cpus) → Decidable (s.FindsNoOwn move)
  | some i => inferInstanceAs (Decidable (¬s.FindsOwn i))
  | none => .isTrue trivial

/-- The worker starts a new walk from the next seed, with a reset step counter. -/
structure Worker.Restarts [Deps] (key : PublicKey) (w w' : Worker C) : Prop where
  j_eq : w'.j = w.j + 1
  i_eq : w'.i = 0
  state_eq : State.fromPubKey key (w.localSeed + ((w.j + 1).toNat : ℤ)) = .ok w'.state

/-- Workers leave the trails they have walked: a worker that finds its own solution restarts,
so between two such finds of one worker there is a restart. -/
structure LeavesTrails [Deps] (key : PublicKey) (history : List (MoveMade C cpus)) : Prop where
  restarts : ∀ made ∈ history, ∀ i, made.input = some i → made.before.FindsOwn i →
    (made.before.workers i).Restarts key (made.after.workers i)
  between : ∀ i earlier made₁ middle made₂ later,
    history = earlier ++ made₁ :: middle ++ made₂ :: later →
    made₁.input = some i → made₁.before.FindsOwn i →
    made₂.input = some i → made₂.before.FindsOwn i →
    ∃ made ∈ made₁ :: middle, made.input = some i ∧
      (made.before.workers i).Restarts key (made.after.workers i)

/-- If every find of an own solution is followed by a restart, the first of two finds is. -/
theorem leavesTrails_of_restarts [Deps] {key : PublicKey} {history : List (MoveMade C cpus)}
    (h : ∀ made ∈ history, ∀ i, made.input = some i → made.before.FindsOwn i →
      (made.before.workers i).Restarts key (made.after.workers i)) :
    LeavesTrails key history := by
  refine ⟨h, ?_⟩
  rintro i earlier made₁ middle made₂ later rfl hi₁ hown₁ - -
  exact ⟨made₁, List.mem_cons_self, hi₁, h made₁ (by simp) i hi₁ hown₁⟩

/-- A worker that finds its own solution goes on and does not restart. -/
theorem ParState.FindsOwn.not_restarts [Deps] [Hash C] {key : PublicKey} {n grainSize : ℕ}
    {hashDiff : U256} {s s' : ParState C cpus} {i : Fin cpus} (hown : s.FindsOwn i)
    (h : s.move key n grainSize hashDiff (some i) = .ok s') :
    ¬(s.workers i).Restarts key (s'.workers i) := by
  obtain ⟨hpc, hfound⟩ := hown
  have hkept : (s'.workers i).j = (s.workers i).j :=
    (ParState.stepTo_of_move h).1.tries_of_lookup hpc
  rintro ⟨hnext, -, -⟩
  rw [hkept] at hnext
  have htoNat := congrArg BitVec.toNat hnext
  have hlt := (s.workers i).j.isLt
  rw [BitVec.toNat_add, show (1 : U8).toNat = 1 from rfl] at htoNat
  omega

/-- A run in which a worker finds its own solution does not leave the trail. -/
theorem not_leavesTrails_of_findsOwn [Deps] [Hash C] {key : PublicKey} {compute : C} {seed : ℤ}
    {grainSize : ℕ} {flag : Bool} {schedule : List (Move cpus)} {made : MoveMade C cpus}
    (hmade : made ∈ moveHistory key compute seed grainSize flag cpus schedule)
    (hown : ¬made.before.FindsNoOwn made.input) :
    ¬LeavesTrails key (moveHistory key compute seed grainSize flag cpus schedule) := by
  intro h
  obtain ⟨n, hashDiff, hmove⟩ := exists_move_of_mem_moveHistory hmade
  obtain ⟨before, _ | i, after⟩ := made
  · exact hown trivial
  · have hfinds : before.FindsOwn i := not_not.mp hown
    exact hfinds.not_restarts hmove (h.restarts _ hmade i rfl hfinds)

/-- **Own trails.** The workers of a run leave the trails they have walked exactly when no
worker ever finds its own solution: the worker that does walks on. -/
theorem leavesTrails_iff [Deps] [Hash C] (key : PublicKey) (compute : C) (seed : ℤ)
    (grainSize : ℕ) (flag : Bool) (schedule : List (Move cpus)) :
    LeavesTrails key (moveHistory key compute seed grainSize flag cpus schedule) ↔
      EachMove (fun _ => ParState.FindsNoOwn) key compute seed grainSize flag schedule := by
  constructor
  · intro h
    refine eachMove_of_mem ?_ fun made hmade => ?_
    · -- a lookup always succeeds
      rintro n hashDiff s (_ | i) hown
      · exact absurd trivial hown
      · obtain ⟨hpc, hfound⟩ := not_not.mp hown
        simp only [ParState.move, Worker.step, hpc, hfound, Option.isSome_some, if_true, ne_eq,
          not_true_eq_false, if_false, Rust.ok_bind, Rust.pure_eq_ok]
        exact ⟨_, rfl⟩
    · by_contra hown
      exact not_leavesTrails_of_findsOwn hmade hown h
  · intro hall
    apply leavesTrails_of_restarts
    rintro ⟨before, move, after⟩ hmade i hi hown
    obtain rfl : move = some i := hi
    exact absurd hown (hall.of_mem hmade)

end Trails

section Sample

attribute [local instance] Deps.sample

/-- Two workers look their points up before either inserts its own, and a collision is lost. -/
theorem smallKey_collision_lost :
    ¬∀ (key : PublicKey) (compute : Compute) (seed : ℤ) (grainSize : ℕ) (flag : Bool) (cpus : ℕ)
      (schedule : List (Move cpus)) (s : ParState Compute cpus),
      parallelRun key compute seed grainSize flag cpus schedule = .ok s →
      NoCollisionLost (moveHistory key compute seed grainSize flag cpus schedule) s := by
  intro h
  have hany : (parallelRun smallKey plainHeader 2 3 false 2 (List.replicate 5 (some 1) ++
      [some 0, some 1, some 0, some 1, some 0])).toOption.any (fun _ => true) = true := by
    decide +kernel
  obtain ⟨s, hrun, -⟩ := Rust.exists_ok_of_any hany
  have hlost : ∃ made ∈ moveHistory smallKey plainHeader 2 3 false 2 (List.replicate 5 (some 1) ++
      [some 0, some 1, some 0, some 1, some 0]), ¬made.before.InsertsOwn made.input := by
    decide +kernel
  obtain ⟨made, hmade, hlost⟩ := hlost
  exact not_allHandled_of_insert hrun hmade hlost (h _ _ _ _ _ _ _ _ hrun).handled

/-- Worker 0 comes to the point of worker 1 after worker 1 has inserted it. -/
theorem smallKey_collision_kept :
    ∃ s, parallelRun smallKey plainHeader 2 3 false 2
        (List.replicate 8 (some 1) ++ List.replicate 6 (some 0)) = .ok s ∧
      NoCollisionLost (moveHistory smallKey plainHeader 2 3 false 2
        (List.replicate 8 (some 1) ++ List.replicate 6 (some 0))) s := by
  have hany : (parallelRun smallKey plainHeader 2 3 false 2
      (List.replicate 8 (some 1) ++ List.replicate 6 (some 0))).toOption.any
      (fun _ => true) = true := by decide +kernel
  obtain ⟨s, hrun, -⟩ := Rust.exists_ok_of_any hany
  exact ⟨s, hrun, (noCollisionLost_iff hrun).mpr (by decide +kernel)⟩

/-- A worker on a cycle of length three finds its own solutions and walks on. -/
theorem smallKey_own_trail :
    ¬∀ (key : PublicKey) (compute : Compute) (seed : ℤ) (grainSize : ℕ) (flag : Bool) (cpus : ℕ)
      (schedule : List (Move cpus)),
      LeavesTrails key (moveHistory key compute seed grainSize flag cpus schedule) := by
  intro h
  have hown : ∃ made ∈ moveHistory smallKey plainHeader 1 3 false 1 (List.replicate 14 (some 0)),
      ¬made.before.FindsNoOwn made.input := by decide +kernel
  obtain ⟨made, hmade, hown⟩ := hown
  exact not_leavesTrails_of_findsOwn hmade hown (h ..)

end Sample

end TrexPow
