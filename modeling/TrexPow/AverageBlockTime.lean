import Mathlib.Order.Bounds.Basic
import TrexPow.Retargeting

/-!
# The reported average block time

The window is read in slot order. Unless the height pointer is at the start of the window,
the newest call is followed there by the oldest one, and the interval between the last
slot and the first is missing. The sum of the other intervals is divided by the number
of slots, of which there is at least one more than intervals.
-/

namespace TrexPow

/-- The differences of the last calls that the sum in slot order contains: all of them but
the one that starts at the call in the last slot. -/
def countedDifferences (moments : List ℕ) : List ℕ :=
  (differences (lastCalls moments)).eraseIdx
    (difficultyAdjustWindow - 1 - moments.length % difficultyAdjustWindow)

theorem consecutive_append {α : Type} (earlier later : List α) (x y : α) :
    consecutive ((earlier ++ [x]) ++ y :: later) =
      consecutive (earlier ++ [x]) ++ (x, y) :: consecutive (y :: later) := by
  induction earlier with
  | nil => rfl
  | cons z earlier ih => cases earlier with
    | nil => rfl
    | cons u earlier => exact congrArg ((z, u) :: ·) ih

/-- The differences of two parts of a sequence of moments and the one between them. -/
theorem differences_append (earlier later : List ℕ) (x y : ℕ) :
    differences ((earlier ++ [x]) ++ y :: later) =
      differences (earlier ++ [x]) ++ (y - x) / 1000 :: differences (y :: later) := by
  rw [differences, consecutive_append, List.map_append, List.map_cons, differences, differences]

/-- In slot order the difference between the two parts gives way to none at all. -/
theorem sum_differences_rotated {oldest newest : List ℕ}
    (hsorted : (oldest ++ newest).Pairwise (· ≤ ·)) (hne : oldest ≠ []) :
    (differences (newest ++ oldest)).sum =
      ((differences (oldest ++ newest)).eraseIdx (oldest.length - 1)).sum := by
  rcases List.eq_nil_or_concat' newest with rfl | ⟨newest, last, rfl⟩
  · rw [List.nil_append, List.append_nil, List.eraseIdx_of_length_le]
    rw [length_differences]
  · obtain ⟨oldest, x, rfl⟩ := (List.eq_nil_or_concat' oldest).resolve_left hne
    -- the first of the newest calls and the oldest call
    obtain ⟨y, newest', hnewest⟩ := List.exists_cons_of_ne_nil
      (List.append_ne_nil_of_right_ne_nil newest (List.cons_ne_nil last []))
    obtain ⟨z, oldest', holdest⟩ := List.exists_cons_of_ne_nil
      (List.append_ne_nil_of_right_ne_nil oldest (List.cons_ne_nil x []))
    have hseam : z - last = 0 := by
      have hz : z ∈ oldest ++ [x] := by
        rw [holdest]
        exact List.mem_cons_self
      have hle := (List.pairwise_append.mp hsorted).2.2 z hz last (by simp)
      omega
    have hbreak : (oldest ++ [x]).length - 1 = (differences (oldest ++ [x])).length :=
      (length_differences _).symm
    rw [hbreak, hnewest, differences_append, List.eraseIdx_append_of_length_le le_rfl,
      Nat.sub_self, List.eraseIdx_zero, List.tail_cons, ← hnewest, holdest, differences_append,
      hseam, ← holdest, List.sum_append, List.sum_append, List.sum_cons]
    omega

section Run

variable {cfg : DifficultyConfig} {start s : DifficultyStorage} {moments : List ℕ}

/-- The slots before the height pointer hold the newest calls, the others the oldest. -/
theorem stamps_of_run (hheight : start.currentHeight.getD 0 = 0)
    (hlong : difficultyAdjustWindow ≤ moments.length)
    (hrun : moments.foldlM (onTimestampSet cfg) start = .ok s) :
    let split := difficultyAdjustWindow - moments.length % difficultyAdjustWindow
    stamps s.pastDifficultiesAndTimestamps =
      ((lastCalls moments).drop split ++ (lastCalls moments).take split).map some := by
  intro split
  have hrecorded := recorded_of_run hheight hrun
  have hinputs := Loop.steps_input hrun
  have hmod := Nat.mod_lt moments.length (by decide : 0 < difficultyAdjustWindow)
  have hdiv := Nat.div_add_mod moments.length difficultyAdjustWindow
  obtain ⟨q, hq⟩ : ∃ q, moments.length / difficultyAdjustWindow = q + 1 :=
    Nat.exists_eq_succ_of_ne_zero (Nat.div_pos hlong (by decide)).ne'
  rw [hq] at hdiv
  have hnext : difficultyAdjustWindow * (q + 1) =
      difficultyAdjustWindow * q + difficultyAdjustWindow := Nat.mul_succ ..
  have hentries : ((Loop.steps (onTimestampSet cfg) moments start).map recordedEntry).length =
      difficultyAdjustWindow * (q + 1) + moments.length % difficultyAdjustWindow := by
    rw [List.length_map, ← List.length_map (f := Loop.Step.input), hinputs]
    exact hdiv.symm
  have hstamps : ((Loop.steps (onTimestampSet cfg) moments start).map recordedEntry).map
      DifficultyAndTimestamp.timestamp = moments := by
    rw [List.map_map]
    exact hinputs
  have hread (entries : List DifficultyAndTimestamp) :
      (entries.map some).map (Option.map DifficultyAndTimestamp.timestamp) =
        (entries.map DifficultyAndTimestamp.timestamp).map some := by
    rw [List.map_map, List.map_map]
    rfl
  have hfirst : moments.length - difficultyAdjustWindow =
      difficultyAdjustWindow * q + moments.length % difficultyAdjustWindow := by omega
  have hnewest : difficultyAdjustWindow * q + moments.length % difficultyAdjustWindow + split =
      difficultyAdjustWindow * (q + 1) := by omega
  rw [stamps, hrecorded.window.toList_eq hmod hentries, hread, List.map_append, List.map_take,
    List.map_drop, List.map_drop, hstamps, lastCalls, hfirst, List.drop_drop, hnewest]

/-- The sum that the average divides. -/
theorem tsDelta_of_run (hheight : start.currentHeight.getD 0 = 0)
    (hlong : difficultyAdjustWindow ≤ moments.length)
    (hrun : moments.foldlM (onTimestampSet cfg) start = .ok s)
    (hsorted : (lastCalls moments).Pairwise (· ≤ ·))
    (hbound : ∀ moment ∈ lastCalls moments, moment ≤ u128Max) (blockTime : ℕ) :
    tsDelta blockTime s.pastDifficultiesAndTimestamps = (countedDifferences moments).sum := by
  have hmod := Nat.mod_lt moments.length (by decide : 0 < difficultyAdjustWindow)
  have hlast : (lastCalls moments).length = difficultyAdjustWindow := by
    rw [lastCalls, List.length_drop]
    omega
  have holdest : ((lastCalls moments).take
      (difficultyAdjustWindow - moments.length % difficultyAdjustWindow)).length =
      difficultyAdjustWindow - moments.length % difficultyAdjustWindow := by
    rw [List.length_take, hlast]
    omega
  rw [tsDelta_of_stamps (stamps_of_run hheight hlong hrun), sum_differences_rotated,
    List.take_append_drop, holdest, countedDifferences, Nat.sub_right_comm]
  · rwa [List.take_append_drop]
  · rw [← List.length_pos_iff, holdest]
    omega
  · intro moment hmoment
    rcases List.mem_append.mp hmoment with hmoment | hmoment
    · exact hbound moment (List.mem_of_mem_drop hmoment)
    · exact hbound moment (List.mem_of_mem_take hmoment)

/-- The reported average lies between the smallest and the largest difference of the last
calls. So it is the common difference when there is one. -/
structure AveragesLastCalls (cfg : DifficultyConfig) (s : DifficultyStorage) (moments : List ℕ) :
    Prop where
  least : ∀ low, IsLeast {d | d ∈ differences (lastCalls moments)} low →
    low ≤ (getAvgBlocktime cfg s).toNat
  greatest : ∀ high, IsGreatest {d | d ∈ differences (lastCalls moments)} high →
    (getAvgBlocktime cfg s).toNat ≤ high
  regular : ∀ seconds, (∀ d ∈ differences (lastCalls moments), d = seconds) →
    (getAvgBlocktime cfg s).toNat = seconds

/-- What the counted differences have over the smallest one makes up for the differences
that are missing to the number of slots. -/
def SurplusCovers (moments : List ℕ) : Prop :=
  ∀ low, IsLeast {d | d ∈ differences (lastCalls moments)} low →
    (difficultyAdjustWindow - (countedDifferences moments).length) * low ≤
      ((countedDifferences moments).map (· - low)).sum

theorem sum_sub_add {seconds : List ℕ} {low : ℕ} (h : ∀ d ∈ seconds, low ≤ d) :
    (seconds.map (· - low)).sum + seconds.length * low = seconds.sum := by
  induction seconds with
  | nil => simp
  | cons d seconds ih =>
    obtain ⟨hd, hrest⟩ := List.forall_mem_cons.mp h
    have hsum := ih hrest
    rw [List.map_cons, List.sum_cons, List.sum_cons, List.length_cons, Nat.succ_mul]
    omega

theorem countedDifferences_subset (moments : List ℕ) :
    ∀ d ∈ countedDifferences moments, d ∈ differences (lastCalls moments) :=
  fun _ hd => List.mem_of_mem_eraseIdx hd

theorem length_countedDifferences (moments : List ℕ) :
    (countedDifferences moments).length ≤ difficultyAdjustWindow - 1 := by
  have hle := List.length_eraseIdx_le (differences (lastCalls moments))
    (difficultyAdjustWindow - 1 - moments.length % difficultyAdjustWindow)
  rw [length_differences, lastCalls, List.length_drop] at hle
  rw [countedDifferences, lastCalls]
  omega

/-- The counted differences are too few to reach more than the largest of them on average. -/
theorem sum_countedDifferences_le {high : ℕ}
    (hhigh : ∀ d ∈ differences (lastCalls moments), d ≤ high) :
    (countedDifferences moments).sum / difficultyAdjustWindow ≤ high := by
  have hsum := List.sum_le_card_nsmul _ _ fun d hd =>
    hhigh d (countedDifferences_subset moments d hd)
  rw [nsmul_eq_mul, Nat.cast_id] at hsum
  have hmul := Nat.mul_le_mul_right high (length_countedDifferences moments)
  rw [difficultyAdjustWindow_eq] at hmul ⊢
  omega

/-- The average after a run whose differences fit in 32 bits. -/
theorem getAvgBlocktime_of_run (hheight : start.currentHeight.getD 0 = 0)
    (hlong : difficultyAdjustWindow ≤ moments.length)
    (hrun : moments.foldlM (onTimestampSet cfg) start = .ok s)
    (hsorted : (lastCalls moments).Pairwise (· ≤ ·))
    (hbound : ∀ moment ∈ lastCalls moments, moment ≤ u128Max)
    (hfits : ∀ d ∈ differences (lastCalls moments), d < 2 ^ 32) :
    (getAvgBlocktime cfg s).toNat =
      (countedDifferences moments).sum / difficultyAdjustWindow := by
  have hle : (countedDifferences moments).sum / difficultyAdjustWindow ≤ 2 ^ 32 - 1 :=
    sum_countedDifferences_le fun d hd => Nat.le_sub_one_of_lt (hfits d hd)
  rw [getAvgBlocktime, tsDelta_of_run hheight hlong hrun hsorted hbound, BitVec.toNat_ofNat,
    Nat.mod_eq_of_lt (by omega)]

/-- **The average block time.** After at least a window of calls with nondecreasing moments the
reported average is one exactly when the surplus of the counted differences covers the
missing ones. -/
theorem averagesLastCalls_iff (hheight : start.currentHeight.getD 0 = 0)
    (hlong : difficultyAdjustWindow ≤ moments.length)
    (hrun : moments.foldlM (onTimestampSet cfg) start = .ok s)
    (hsorted : moments.Pairwise (· ≤ ·)) (hbound : ∀ moment ∈ moments, moment ≤ u128Max)
    (hfits : ∀ d ∈ differences (lastCalls moments), d < 2 ^ 32) :
    AveragesLastCalls cfg s moments ↔ SurplusCovers moments := by
  have havg := getAvgBlocktime_of_run hheight hlong hrun
    (hsorted.sublist (List.drop_sublist _ _))
    (fun moment hmoment => hbound moment (List.mem_of_mem_drop hmoment)) hfits
  have hcount := length_countedDifferences moments
  -- the lower bound and the surplus are two forms of one inequality
  have hlow (low : ℕ) (hlow : IsLeast {d | d ∈ differences (lastCalls moments)} low) :
      low ≤ (getAvgBlocktime cfg s).toNat ↔
        (difficultyAdjustWindow - (countedDifferences moments).length) * low ≤
          ((countedDifferences moments).map (· - low)).sum := by
    have hsum := sum_sub_add fun d hd => hlow.2 (countedDifferences_subset moments d hd)
    have hslots : (difficultyAdjustWindow - (countedDifferences moments).length) * low +
        (countedDifferences moments).length * low = difficultyAdjustWindow * low := by
      rw [← Nat.add_mul, Nat.sub_add_cancel (by omega)]
    rw [havg, Nat.le_div_iff_mul_le (by decide), Nat.mul_comm low]
    omega
  constructor
  · intro h low hleast
    exact (hlow low hleast).mp (h.least low hleast)
  · intro h
    have hgreatest : ∀ high, IsGreatest {d | d ∈ differences (lastCalls moments)} high →
        (getAvgBlocktime cfg s).toNat ≤ high := by
      intro high hhigh
      rw [havg]
      exact sum_countedDifferences_le fun d hd => hhigh.2 hd
    refine ⟨fun low hleast => (hlow low hleast).mpr (h low hleast), hgreatest, ?_⟩
    intro seconds hall
    obtain ⟨d, hd⟩ : ∃ d, d ∈ differences (lastCalls moments) := by
      apply List.exists_mem_of_length_pos
      rw [length_differences, lastCalls, List.length_drop]
      rw [difficultyAdjustWindow_eq] at hlong ⊢
      omega
    have hmem : seconds ∈ {d | d ∈ differences (lastCalls moments)} := hall d hd ▸ hd
    have hleast : IsLeast {d | d ∈ differences (lastCalls moments)} seconds :=
      ⟨hmem, fun d hd => (hall d hd).ge⟩
    exact le_antisymm (hgreatest seconds ⟨hmem, fun d hd => (hall d hd).le⟩)
      ((hlow seconds hleast).mpr (h seconds hleast))

end Run

/-- The slow blocks, but two of them are only one minute apart. -/
def unevenMoments : List ℕ :=
  (List.range 65).map fun k => if k ≤ 20 then 90000 * k else 90000 * k - 30000

/-- The five calls after the first window leave the height pointer inside the next one. The two
differences that are not counted are made up for, and the average is one. -/
theorem unevenMoments_average : ∃ s,
    unevenMoments.foldlM (onTimestampSet slowBlocks) (.genesis initDifficulty) = .ok s ∧
      AveragesLastCalls slowBlocks s unevenMoments ∧ IsLeast {d | d ∈ differences
        (lastCalls unevenMoments)} 60 ∧ (getAvgBlocktime slowBlocks s).toNat = 86 := by
  have hrange : (DifficultyStorage.genesis initDifficulty).InRange :=
    ⟨initDifficulty, rfl, by decide, by decide⟩
  obtain ⟨s, hrun⟩ := @run_returns slowBlocks _ (by decide) hrange (by decide) unevenMoments
  have hsorted : unevenMoments.Pairwise (· ≤ ·) := by decide +kernel
  have hfits : ∀ d ∈ differences (lastCalls unevenMoments), d < 2 ^ 32 := by decide
  have hleast : IsLeast {d | d ∈ differences (lastCalls unevenMoments)} 60 := by
    have hmem : 60 ∈ differences (lastCalls unevenMoments) := by decide
    have hall : ∀ d ∈ differences (lastCalls unevenMoments), 60 ≤ d := by decide
    exact ⟨hmem, hall⟩
  refine ⟨s, hrun, (averagesLastCalls_iff rfl (by decide) hrun hsorted (by decide) hfits).mpr ?_,
    hleast, ?_⟩
  · intro low hlow
    obtain rfl := hlow.unique hleast
    decide
  · rw [getAvgBlocktime_of_run rfl (by decide) hrun (hsorted.sublist (List.drop_sublist _ _))
      (by decide) hfits]
    decide

/-- Blocks one minute apart are reported to be 59 seconds apart. -/
theorem average_misses_interval :
    ¬∀ (cfg : DifficultyConfig) (start s : DifficultyStorage) (moments : List ℕ),
      start.pastDifficultiesAndTimestamps = .replicate difficultyAdjustWindow none →
      start.currentHeight.getD 0 = 0 → difficultyAdjustWindow ≤ moments.length →
      moments.foldlM (onTimestampSet cfg) start = .ok s → moments.Pairwise (· ≤ ·) →
      (∀ moment ∈ moments, moment ≤ u128Max) →
      (∀ d ∈ differences (lastCalls moments), d < 2 ^ 32) → AveragesLastCalls cfg s moments := by
  intro h
  have hrange : (DifficultyStorage.genesis initDifficulty).InRange :=
    ⟨initDifficulty, rfl, by decide, by decide⟩
  obtain ⟨s, hrun⟩ := @run_returns steadyBlocks _ (by decide) hrange (by decide)
    ((List.range 60).map (60000 * ·))
  have hregular := (h steadyBlocks _ s _ rfl rfl (by decide) hrun (by decide +kernel) (by decide)
    (by decide)).regular 60 (by decide)
  rw [getAvgBlocktime_of_run rfl (by decide) hrun (by decide +kernel) (by decide)
    (by decide)] at hregular
  exact absurd hregular (by decide)

end TrexPow
