import Mathlib.Order.Basic

/-!
# Transition systems

A system has a set of initial states and a function for its moves, which several
parties make in any order. A move that is not enabled changes nothing. Safety
properties are proved by an invariant of one move. A guard restricts the runs to
those whose moves all meet a condition on the state they start from.
-/

/-- A transition system over the states `σ` with the moves `α`. -/
structure TransitionSystem (σ α : Type) where
  /-- The states a run may start in. -/
  init : σ → Prop
  /-- The state after a move. -/
  next : σ → α → σ

namespace TransitionSystem

variable {σ α : Type} (sys : TransitionSystem σ α)

/-- The states that are reached by moves which all meet a guard. -/
inductive ReachableVia (guard : σ → α → Prop) : σ → Prop
  | start {s : σ} (h : sys.init s) : ReachableVia guard s
  | move {s : σ} (h : ReachableVia guard s) (a : α) (hguard : guard s a) :
    ReachableVia guard (sys.next s a)

/-- The states that some run reaches. -/
def Reachable (s : σ) : Prop := sys.ReachableVia (fun _ _ => True) s

variable {sys}

/-- The invariant rule: what holds initially and is kept by every move that meets
the guard holds in every state that such moves reach. -/
theorem ReachableVia.invariant {guard : σ → α → Prop} {I : σ → Prop}
    (hinit : ∀ s, sys.init s → I s) (hmove : ∀ s a, I s → guard s a → I (sys.next s a)) {s : σ}
    (h : sys.ReachableVia guard s) : I s := by
  induction h with
  | start h => exact hinit _ h
  | move _ a hguard ih => exact hmove _ a ih hguard

/-- The invariant rule for all runs. -/
theorem Reachable.invariant {I : σ → Prop} (hinit : ∀ s, sys.init s → I s)
    (hmove : ∀ s a, I s → I (sys.next s a)) {s : σ} (h : sys.Reachable s) : I s :=
  ReachableVia.invariant hinit (fun s a hs _ => hmove s a hs) h

/-- Making a list of moves leads to a reachable state. -/
theorem Reachable.run {s : σ} (h : sys.Reachable s) (moves : List α) :
    sys.Reachable (moves.foldl sys.next s) := by
  induction moves generalizing s with
  | nil => exact h
  | cons a moves ih => exact ih (.move h a trivial)

end TransitionSystem
