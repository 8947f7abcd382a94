import Mathlib.Algebra.Order.Group.Abs
import Mathlib.Data.List.Forall2
import Mathlib.Order.Interval.Set.Basic

/-!
# Bounded walks

A walk on an ordered group that never leaves an interval: every move is cut off at the
bounds. A walk is monotone in its start and in its moves, and it is no further from its
start than its moves could take it without the bounds.
-/

namespace BoundedWalk

variable {G : Type*} [AddCommGroup G] [LinearOrder G] [IsOrderedAddMonoid G] {lo hi x y move : G}

/-- The position after a move, cut off at the bounds. -/
def step (lo hi x move : G) : G := max lo (min hi (x + move))

/-- The position after a list of moves. -/
def walk (lo hi x : G) (moves : List G) : G := moves.foldl (step lo hi) x

omit [IsOrderedAddMonoid G] in
/-- A move ends within the bounds. -/
theorem step_mem (h : lo ≤ hi) : step lo hi x move ∈ Set.Icc lo hi :=
  ⟨le_max_left _ _, max_le h (min_le_left _ _)⟩

/-- A larger move from a position at least as high ends at least as high. -/
theorem step_mono {move' : G} (hx : x ≤ y) (hmove : move ≤ move') :
    step lo hi x move ≤ step lo hi y move' :=
  max_le_max le_rfl (min_le_min le_rfl (add_le_add hx hmove))

/-- The bounds only shorten a move. -/
theorem abs_step_sub_le (hx : x ∈ Set.Icc lo hi) : |step lo hi x move - x| ≤ |move| := by
  obtain ⟨hlo, hhi⟩ := hx
  rw [abs_le]
  constructor
  · rw [neg_le_sub_iff_le_add]
    have hdown : x ≤ x + move + |move| := by
      rw [add_assoc, le_add_iff_nonneg_right]
      exact neg_le_iff_add_nonneg'.mp (neg_le_abs move)
    rcases le_total hi (x + move) with h | h
    · rw [step, min_eq_left h]
      exact hhi.trans ((le_max_right lo hi).trans (le_add_of_nonneg_right (abs_nonneg move)))
    · rw [step, min_eq_right h]
      exact hdown.trans (by gcongr; exact le_max_right _ _)
  · rw [sub_le_iff_le_add']
    apply max_le
    · exact hlo.trans (le_add_of_nonneg_right (abs_nonneg move))
    · exact (min_le_right _ _).trans (by gcongr; exact le_abs_self move)

omit [IsOrderedAddMonoid G] in
theorem walk_append (lo hi x : G) (moves moves' : List G) :
    walk lo hi x (moves ++ moves') = walk lo hi (walk lo hi x moves) moves' :=
  List.foldl_append

omit [IsOrderedAddMonoid G] in
/-- A walk from within the bounds ends there. -/
theorem walk_mem (hx : x ∈ Set.Icc lo hi) (moves : List G) :
    walk lo hi x moves ∈ Set.Icc lo hi := by
  induction moves generalizing x with
  | nil => exact hx
  | cons move moves ih => exact ih (step_mem (hx.1.trans hx.2))

/-- Larger moves from a start at least as high end at least as high. -/
theorem walk_mono (hx : x ≤ y) {moves moves' : List G} (h : List.Forall₂ (· ≤ ·) moves moves') :
    walk lo hi x moves ≤ walk lo hi y moves' := by
  induction h generalizing x y with
  | nil => exact hx
  | cons hmove _ ih => exact ih (step_mono hx hmove)

/-- A walk of equal moves upwards ends where they lead, or at the upper bound. -/
theorem walk_eq_min (hx : x ∈ Set.Icc lo hi) (hmove : 0 ≤ move) {moves : List G}
    (h : ∀ m ∈ moves, m = move) : walk lo hi x moves = min hi (x + moves.length • move) := by
  induction moves generalizing x with
  | nil => simp [walk, hx.2]
  | cons m moves ih =>
    obtain ⟨rfl, hmoves⟩ := List.forall_mem_cons.mp h
    have hup : x ≤ x + m := le_add_of_nonneg_right hmove
    have hstep : step lo hi x m = min hi (x + m) :=
      max_eq_right (le_min (hx.1.trans hx.2) (hx.1.trans hup))
    have hmem : step lo hi x m ∈ Set.Icc lo hi := step_mem (hx.1.trans hx.2)
    have hrest := ih hmem hmoves
    rw [hstep] at hrest
    have hwalk : walk lo hi x (m :: moves) = walk lo hi (min hi (x + m)) moves := by
      rw [← hstep]
      rfl
    have hnonneg : 0 ≤ moves.length • m := nsmul_nonneg hmove _
    rw [hwalk, hrest, List.length_cons, succ_nsmul', ← add_assoc]
    rcases le_total hi (x + m) with hhigh | hlow
    · -- the first move reaches the bound, and the others stay there
      rw [min_eq_left hhigh, min_eq_left (le_add_of_nonneg_right hnonneg),
        min_eq_left (hhigh.trans (le_add_of_nonneg_right hnonneg))]
    · rw [min_eq_right hlow]

/-- A walk is no further from its start than its moves allow. -/
theorem abs_walk_sub_le (hx : x ∈ Set.Icc lo hi) {moves : List G} {c : G}
    (h : ∀ move ∈ moves, |move| ≤ c) : |walk lo hi x moves - x| ≤ moves.length • c := by
  induction moves generalizing x with
  | nil => simp [walk]
  | cons move moves ih =>
    obtain ⟨hmove, hmoves⟩ := List.forall_mem_cons.mp h
    have hstep : |step lo hi x move - x| ≤ c := (abs_step_sub_le hx).trans hmove
    have hrest := ih (step_mem (hx.1.trans hx.2)) hmoves (x := step lo hi x move)
    calc |walk lo hi x (move :: moves) - x|
        ≤ |walk lo hi (step lo hi x move) moves - step lo hi x move| + |step lo hi x move - x| :=
          abs_sub_le _ _ _
      _ ≤ moves.length • c + c := add_le_add hrest hstep
      _ = (move :: moves).length • c := by rw [List.length_cons, succ_nsmul]

end BoundedWalk
