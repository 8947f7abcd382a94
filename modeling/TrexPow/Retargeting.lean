import Mathlib.Data.Int.ConditionallyCompleteOrder
import TrexPow.WindowHistory

/-!
# Retargeting follows the block times

One full window of calls from the start of the window adjusts once, on the measured time
of exactly these calls. A longer measured time never leads to a higher difficulty, if the
clamp does not grow with the measured time.
-/

namespace TrexPow

/-- A measured time is at least one. -/
theorem measured_mono {x y : ℕ} (h : x ≤ y) :
    (if x = 0 then 1 else x) ≤ if y = 0 then 1 else y := by
  split_ifs <;> omega

/-- A larger adjustment of one difficulty leads to a difficulty at least as high. -/
theorem moveDifficulty_mono {difficulty moved₁ moved₂ : Difficulty} {adj₁ adj₂ : ℤ}
    (hle : adj₂ ≤ adj₁) (h₁ : moveDifficulty difficulty adj₁ = .ok moved₁)
    (h₂ : moveDifficulty difficulty adj₂ = .ok moved₂) : moved₂ ≤ moved₁ := by
  rw [BitVec.le_def]
  rcases moveDifficulty_cases h₁ with ⟨_, h₁⟩ | ⟨_, h₁⟩ | ⟨_, rfl⟩ <;>
    rcases moveDifficulty_cases h₂ with ⟨_, h₂⟩ | ⟨_, h₂⟩ | ⟨_, rfl⟩ <;> omega

/-- Keeping a difficulty within its bounds keeps the order. -/
theorem boundDifficulty_mono {d₁ d₂ : Difficulty} (h : d₂ ≤ d₁) :
    boundDifficulty d₂ ≤ boundDifficulty d₁ := by
  have hminmax : minDifficulty ≤ maxDifficulty := by decide
  simp only [BitVec.le_def] at h hminmax ⊢
  unfold boundDifficulty
  simp only [BitVec.lt_def]
  split_ifs <;> omega

section Window

variable {cfg : DifficultyConfig} {start s : DifficultyStorage} {moments : List ℕ}

/-- One full window of calls adjusts the difficulty at its start on the differences of its
moments, whatever the window held before. -/
theorem window_adjusts (hheight : start.currentHeight.getD 0 = 0)
    (hlength : moments.length = difficultyAdjustWindow)
    (hbound : ∀ moment ∈ moments, moment ≤ u128Max)
    (hrun : moments.foldlM (onTimestampSet cfg) start = .ok s) :
    ∃ moved, moveDifficulty start.difficulty
        (cfg.clamp (uniqueSaturatedInto cfg.targetBlockTime * difficultyAdjustWindow)
          (if (differences moments).sum = 0 then 1 else (differences moments).sum)) = .ok moved ∧
      s.currentDifficulty = some (boundDifficulty moved) := by
  have hne : moments ≠ [] := by
    rintro rfl
    cases hlength
  obtain ⟨earlier, moment, rfl⟩ := (List.eq_nil_or_concat' moments).resolve_left hne
  rw [List.length_append, List.length_singleton] at hlength
  obtain ⟨before, hearlier, hcall⟩ := Loop.foldlM_concat_eq_ok.mp hrun
  have hrecorded := recorded_of_run hheight hearlier
  have hinputs := Loop.steps_input hearlier
  have hcount := congrArg List.length hinputs
  rw [List.length_map] at hcount
  rw [difficultyAdjustWindow_eq] at hlength
  have hfull : before.currentHeight.getD 0 = difficultyAdjustWindow - 1 := by
    rw [hrecorded.height, hcount, difficultyAdjustWindow_eq]
    omega
  -- the first call of the round has recorded the difficulty at the start
  have hsame : before.difficulty = start.difficulty := by
    obtain ⟨first, after, hfirst, hstep⟩ := Loop.steps_before hearlier (by omega : 0 < _)
    obtain rfl := Except.ok.inj hfirst
    have hall := hrecorded.unadjusted _ (List.mem_of_getElem? (i := 0) (by
      rw [hcount, difficultyAdjustWindow_eq, Nat.div_eq_of_lt (by omega), Nat.mul_zero,
        List.drop_zero]
      exact hstep))
    exact hall.symm
  have hmeasured := hrecorded.tsDelta_of_full hcall hfull (by rwa [hinputs])
    (uniqueSaturatedInto cfg.targetBlockTime)
  have hlast : lastCalls (earlier ++ [moment]) = earlier ++ [moment] := by
    rw [lastCalls, List.length_append, List.length_singleton, hlength]
    rfl
  rw [hinputs, hlast] at hmeasured
  obtain ⟨moved, hmove, hput⟩ := onTimestampSet_adjusts hcall hfull
  rw [measuredTime, hmeasured, hsame] at hmove
  exact ⟨moved, hmove, hput⟩

/-- Calls from a difficulty within its bounds return. -/
theorem run_returns (htarget : cfg.targetBlockTime < 2 ^ 64) (hrange : start.InRange)
    (hheight : start.currentHeight.getD 0 < difficultyAdjustWindow) (moments : List ℕ) :
    ∃ s, moments.foldlM (onTimestampSet cfg) start = .ok s := by
  have hstep : ∀ (s : DifficultyStorage) moment,
      s.InRange ∧ s.currentHeight.getD 0 < difficultyAdjustWindow →
      ∃ s', onTimestampSet cfg s moment = .ok s' ∧
        s'.InRange ∧ s'.currentHeight.getD 0 < difficultyAdjustWindow := by
    rintro s moment ⟨hs, hlt⟩
    obtain ⟨s', hcall, -, hnext, -⟩ := onTimestampSet_spec htarget hs hlt moment
    refine ⟨s', hcall, onTimestampSet_inRange hs hcall, ?_⟩
    rw [hnext]
    exact Nat.mod_lt _ (by decide)
  obtain ⟨s, hrun, -⟩ := Loop.foldlM_total hstep moments ⟨hrange, hheight⟩
  exact ⟨s, hrun⟩

end Window

/-- The times between consecutive moments. -/
def gaps (moments : List ℕ) : List ℕ := (consecutive moments).map fun pair => pair.2 - pair.1

/-- Longer times between the moments take longer in whole seconds, too. -/
theorem sum_differences_mono {moments₁ moments₂ : List ℕ}
    (h : List.Forall₂ (· ≤ ·) (gaps moments₁) (gaps moments₂)) :
    (differences moments₁).sum ≤ (differences moments₂).sum := by
  have hseconds (moments : List ℕ) : differences moments = (gaps moments).map (· / 1000) := by
    rw [gaps, List.map_map]
    rfl
  rw [hseconds, hseconds]
  apply List.Forall₂.sum_le_sum
  rw [List.forall₂_map_left_iff, List.forall₂_map_right_iff]
  exact h.imp fun _ _ hle => Nat.div_le_div_right hle

/-- **Slower blocks never raise the difficulty.** Take two full windows of calls from the same
difficulty and whatever the windows held before. If every time between two calls of the
first is at most the corresponding one of the second, the difficulty after the first is at
least the one after the second. The clamp must not grow with the measured time. -/
theorem slower_blocks_never_raise {cfg : DifficultyConfig}
    (hclamp : ∀ target, Antitone (cfg.clamp target)) {start₁ start₂ s₁ s₂ : DifficultyStorage}
    (hsame : start₁.currentDifficulty = start₂.currentDifficulty)
    (hheight₁ : start₁.currentHeight.getD 0 = 0) (hheight₂ : start₂.currentHeight.getD 0 = 0)
    {moments₁ moments₂ : List ℕ} (hlength₁ : moments₁.length = difficultyAdjustWindow)
    (hlength₂ : moments₂.length = difficultyAdjustWindow)
    (hbound₁ : ∀ moment ∈ moments₁, moment ≤ u128Max)
    (hbound₂ : ∀ moment ∈ moments₂, moment ≤ u128Max)
    (hgaps : List.Forall₂ (· ≤ ·) (gaps moments₁) (gaps moments₂))
    (hrun₁ : moments₁.foldlM (onTimestampSet cfg) start₁ = .ok s₁)
    (hrun₂ : moments₂.foldlM (onTimestampSet cfg) start₂ = .ok s₂) :
    ∃ d₁ d₂, s₁.currentDifficulty = some d₁ ∧ s₂.currentDifficulty = some d₂ ∧ d₂ ≤ d₁ := by
  obtain ⟨moved₁, hmove₁, hput₁⟩ := window_adjusts hheight₁ hlength₁ hbound₁ hrun₁
  obtain ⟨moved₂, hmove₂, hput₂⟩ := window_adjusts hheight₂ hlength₂ hbound₂ hrun₂
  have hstart : start₂.difficulty = start₁.difficulty := by
    rw [DifficultyStorage.difficulty, ← hsame, DifficultyStorage.difficulty]
  rw [hstart] at hmove₂
  refine ⟨_, _, hput₁, hput₂, boundDifficulty_mono (moveDifficulty_mono ?_ hmove₁ hmove₂)⟩
  exact hclamp _ (measured_mono (sum_differences_mono hgaps))

/-- The clamp in exact arithmetic: the binary logarithm of the squared ratio rounds to at
least one when the ratio is at least the fourth root of two. -/
def exactClamp (target measured : ℕ) : ℤ :=
  if 2 * measured ^ 4 ≤ target ^ 4 then 1
  else if 2 * target ^ 4 ≤ measured ^ 4 then -1
  else 0

theorem exactClamp_antitone (target : ℕ) : Antitone (exactClamp target) := by
  intro measured₁ measured₂ hle
  have hpow : measured₁ ^ 4 ≤ measured₂ ^ 4 := Nat.pow_le_pow_left hle 4
  unfold exactClamp
  split_ifs <;> omega

/-- A window of blocks at one moment against one of blocks two minutes apart. -/
theorem fast_and_slow_window : ∃ s₁ s₂ : DifficultyStorage, ∃ d₁ d₂,
    (List.replicate 60 0).foldlM (onTimestampSet ⟨blockTimeSec, exactClamp⟩)
      (.genesis initDifficulty) = .ok s₁ ∧
    ((List.range 60).map (120000 * ·)).foldlM (onTimestampSet ⟨blockTimeSec, exactClamp⟩)
      (.genesis initDifficulty) = .ok s₂ ∧
    s₁.currentDifficulty = some d₁ ∧ s₂.currentDifficulty = some d₂ ∧ d₂ ≤ d₁ := by
  have hrange : (DifficultyStorage.genesis initDifficulty).InRange :=
    ⟨initDifficulty, rfl, by decide, by decide⟩
  obtain ⟨s₁, hrun₁⟩ := @run_returns ⟨blockTimeSec, exactClamp⟩ _ (by decide) hrange (by decide)
    (List.replicate 60 0)
  obtain ⟨s₂, hrun₂⟩ := @run_returns ⟨blockTimeSec, exactClamp⟩ _ (by decide) hrange (by decide)
    ((List.range 60).map (120000 * ·))
  obtain ⟨d₁, d₂, hd₁, hd₂, hle⟩ := slower_blocks_never_raise exactClamp_antitone rfl rfl rfl
    (by decide) (by decide) (by decide) (by decide) (by decide) hrun₁ hrun₂
  exact ⟨s₁, s₂, d₁, d₂, hrun₁, hrun₂, hd₁, hd₂, hle⟩

end TrexPow
