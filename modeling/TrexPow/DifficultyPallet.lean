import Mathlib.Data.Vector.Basic
import TrexPow.Rug

/-!
# The difficulty pallet

The pallet records the timestamp of every block in a window. The call that fills
the window compares the time it took with the target and moves the difficulty by
at most one, within its bounds. The floating-point comparison of the two times is
a parameter.
-/

namespace TrexPow

/-- The difficulty and the timestamp of a block. -/
structure DifficultyAndTimestamp where
  difficulty : Difficulty
  timestamp : ℕ
  deriving DecidableEq

/-- The parameters of the pallet. -/
structure DifficultyConfig where
  /-- Target block time. -/
  targetBlockTime : ℕ
  /-- The clamped adjustment for a target time and a measured time. -/
  clamp : ℕ → ℕ → ℤ

/-- What the pallet stores. -/
structure DifficultyStorage where
  pastDifficultiesAndTimestamps :
    List.Vector (Option DifficultyAndTimestamp) difficultyAdjustWindow
  currentHeight : Option ℕ
  currentDifficulty : Option Difficulty
  deriving DecidableEq

/-- The largest 128-bit number. -/
def u128Max : ℕ := 2 ^ 128 - 1

/-- `unique_saturated_into` of a moment. -/
def uniqueSaturatedInto (moment : ℕ) : ℕ := min moment u128Max

/-- Addition of 128-bit numbers that stops at the largest one. -/
def saturatingAdd (x y : ℕ) : ℕ := min (x + y) u128Max

/-- The storage that the genesis configuration builds. -/
def DifficultyStorage.genesis (initialDifficulty : Difficulty) : DifficultyStorage where
  pastDifficultiesAndTimestamps := .replicate difficultyAdjustWindow none
  currentHeight := none
  currentDifficulty := some initialDifficulty

/-- `Pallet::difficulty` with the default of the adjustment. -/
def DifficultyStorage.difficulty (s : DifficultyStorage) : Difficulty :=
  s.currentDifficulty.getD initDifficulty

/-- The seconds between two entries of the window. A missing entry counts as the
target block time. -/
def interval (blockTime : ℕ) (prev cur : Option DifficultyAndTimestamp) : ℕ :=
  match prev, cur with
  | some prev, some cur =>
    (uniqueSaturatedInto cur.timestamp - uniqueSaturatedInto prev.timestamp) / 1000
  | _, _ => blockTime

/-- The sum of the intervals between consecutive entries of the window. -/
def tsDelta (blockTime : ℕ)
    (data : List.Vector (Option DifficultyAndTimestamp) difficultyAdjustWindow) : ℕ :=
  (data.toList.zipWith (interval blockTime) data.toList.tail).foldl saturatingAdd 0

/-- The measured time, which is at least one. -/
def measuredTime (blockTime : ℕ)
    (data : List.Vector (Option DifficultyAndTimestamp) difficultyAdjustWindow) : ℕ :=
  if tsDelta blockTime data = 0 then 1 else tsDelta blockTime data

/-- Move the difficulty in the direction of the adjustment. -/
def moveDifficulty (difficulty : Difficulty) (adjTs : ℤ) : Rust Difficulty :=
  if 0 < adjTs then
    if 2 ^ 128 ≤ difficulty.toNat + clampFactor.toNat then .error .overflow
    else .ok (difficulty + clampFactor)
  else if adjTs < 0 then
    if difficulty.toNat < clampFactor.toNat then .error .overflow
    else .ok (difficulty - clampFactor)
  else .ok difficulty

/-- Keep the difficulty within its bounds. -/
def boundDifficulty (difficulty : Difficulty) : Difficulty :=
  if difficulty < minDifficulty then minDifficulty
  else if maxDifficulty < difficulty then maxDifficulty
  else difficulty

/-- `on_timestamp_set`: record a block, and adjust the difficulty when the window is full. -/
def onTimestampSet (cfg : DifficultyConfig) (s : DifficultyStorage) (moment : ℕ) :
    Rust DifficultyStorage := do
  let blockTime := uniqueSaturatedInto cfg.targetBlockTime
  let blockTimeWindow := blockTime * difficultyAdjustWindow
  if u128Max < blockTimeWindow then
    .error .overflow
  else
    let currentHeight := s.currentHeight.getD 0
    if h : currentHeight < difficultyAdjustWindow then
      let entry : DifficultyAndTimestamp := ⟨s.difficulty, moment⟩
      let data := s.pastDifficultiesAndTimestamps.set ⟨currentHeight, h⟩ (some entry)
      if currentHeight = difficultyAdjustWindow - 1 then
        -- it is time to adjust the difficulty
        let adjTs := cfg.clamp blockTimeWindow (measuredTime blockTime data)
        let difficulty ← moveDifficulty s.difficulty adjTs
        return ⟨data, some 0, some (boundDifficulty difficulty)⟩
      else
        return { s with
          pastDifficultiesAndTimestamps := data
          currentHeight := some (currentHeight + 1) }
    else
      -- the height pointer is out of bounds
      .error .indexOutOfBounds

/-- `get_avg_blocktime`: the intervals of the window over its length, in 32 bits. -/
def getAvgBlocktime (cfg : DifficultyConfig) (s : DifficultyStorage) : U32 :=
  let blockTime := uniqueSaturatedInto cfg.targetBlockTime
  BitVec.ofNat 32 (tsDelta blockTime s.pastDifficultiesAndTimestamps / difficultyAdjustWindow)

/-- The difficulty is stored and within its bounds. -/
def DifficultyStorage.InRange (s : DifficultyStorage) : Prop :=
  ∃ difficulty, s.currentDifficulty = some difficulty ∧ 48 ≤ difficulty.toNat ∧
    difficulty.toNat ≤ 224

/-- An adjustment ends within the bounds, wherever it starts. -/
theorem boundDifficulty_bounds (difficulty : Difficulty) :
    48 ≤ (boundDifficulty difficulty).toNat ∧ (boundDifficulty difficulty).toNat ≤ 224 := by
  unfold boundDifficulty
  split_ifs with hlow hhigh
  · decide
  · decide
  · rw [BitVec.lt_def, minDifficulty_toNat] at hlow
    rw [BitVec.lt_def, maxDifficulty_toNat] at hhigh
    omega

/-- The difficulty moves by one in the direction of the adjustment. -/
theorem moveDifficulty_cases {difficulty moved : Difficulty} {adjTs : ℤ}
    (h : moveDifficulty difficulty adjTs = .ok moved) :
    (0 < adjTs ∧ moved.toNat = difficulty.toNat + 1) ∨
      (adjTs < 0 ∧ moved.toNat + 1 = difficulty.toNat) ∨ (adjTs = 0 ∧ moved = difficulty) := by
  unfold moveDifficulty at h
  rw [clampFactor_toNat] at h
  split_ifs at h with hup hover hdown hunder
  · obtain rfl := Except.ok.inj h
    refine Or.inl ⟨hup, ?_⟩
    rw [BitVec.toNat_add, clampFactor_toNat]
    omega
  · obtain rfl := Except.ok.inj h
    refine Or.inr (Or.inl ⟨hdown, ?_⟩)
    have hlt := difficulty.isLt
    rw [BitVec.toNat_sub, clampFactor_toNat]
    omega
  · obtain rfl := Except.ok.inj h
    exact Or.inr (Or.inr ⟨by omega, rfl⟩)

/-- What one successful call does: it records its block at the height pointer, and it
advances the pointer and keeps the difficulty, or it resets the pointer and adjusts the
difficulty on the window that it leaves. -/
theorem onTimestampSet_cases {cfg : DifficultyConfig} {s s' : DifficultyStorage} {moment : ℕ}
    (h : onTimestampSet cfg s moment = .ok s') :
    ∃ hheight : s.currentHeight.getD 0 < difficultyAdjustWindow,
      s'.pastDifficultiesAndTimestamps = s.pastDifficultiesAndTimestamps.set
        ⟨s.currentHeight.getD 0, hheight⟩ (some ⟨s.difficulty, moment⟩) ∧
      ((s.currentHeight.getD 0 < difficultyAdjustWindow - 1 ∧
          s'.currentHeight = some (s.currentHeight.getD 0 + 1) ∧
          s'.currentDifficulty = s.currentDifficulty) ∨
        (s.currentHeight.getD 0 = difficultyAdjustWindow - 1 ∧ s'.currentHeight = some 0 ∧
          ∃ moved, moveDifficulty s.difficulty
              (cfg.clamp (uniqueSaturatedInto cfg.targetBlockTime * difficultyAdjustWindow)
                (measuredTime (uniqueSaturatedInto cfg.targetBlockTime)
                  s'.pastDifficultiesAndTimestamps)) = .ok moved ∧
            s'.currentDifficulty = some (boundDifficulty moved))) := by
  unfold onTimestampSet at h
  dsimp only at h
  split_ifs at h with _ hheight hfull
  · obtain ⟨moved, hmove, hput⟩ := Rust.bind_eq_ok.mp h
    obtain rfl := Except.ok.inj hput
    exact ⟨hheight, rfl, Or.inr ⟨hfull, rfl, moved, hmove, rfl⟩⟩
  · obtain rfl := Except.ok.inj h
    exact ⟨hheight, rfl, Or.inl ⟨by omega, rfl, rfl⟩⟩

/-- A call that returns has recorded its block at the height pointer and advanced it. -/
theorem onTimestampSet_records {cfg : DifficultyConfig} {s s' : DifficultyStorage} {moment : ℕ}
    (h : onTimestampSet cfg s moment = .ok s') :
    ∃ hheight : s.currentHeight.getD 0 < difficultyAdjustWindow,
      s'.pastDifficultiesAndTimestamps = s.pastDifficultiesAndTimestamps.set
        ⟨s.currentHeight.getD 0, hheight⟩ (some ⟨s.difficulty, moment⟩) ∧
      s'.currentHeight.getD 0 = (s.currentHeight.getD 0 + 1) % difficultyAdjustWindow := by
  obtain ⟨hheight, hwindow, ⟨hpart, hnext, -⟩ | ⟨hfull, hnext, -⟩⟩ := onTimestampSet_cases h
  · refine ⟨hheight, hwindow, ?_⟩
    rw [hnext, Option.getD_some, Nat.mod_eq_of_lt (by omega)]
  · refine ⟨hheight, hwindow, ?_⟩
    rw [hnext, hfull]
    rfl

/-- The call that fills the window adjusts the difficulty on the window it leaves. -/
theorem onTimestampSet_adjusts {cfg : DifficultyConfig} {s s' : DifficultyStorage} {moment : ℕ}
    (h : onTimestampSet cfg s moment = .ok s')
    (hfull : s.currentHeight.getD 0 = difficultyAdjustWindow - 1) :
    ∃ moved, moveDifficulty s.difficulty
        (cfg.clamp (uniqueSaturatedInto cfg.targetBlockTime * difficultyAdjustWindow)
          (measuredTime (uniqueSaturatedInto cfg.targetBlockTime)
            s'.pastDifficultiesAndTimestamps)) = .ok moved ∧
      s'.currentDifficulty = some (boundDifficulty moved) := by
  obtain ⟨_, -, ⟨hpart, -, -⟩ | ⟨-, -, hadjust⟩⟩ := onTimestampSet_cases h
  · omega
  · exact hadjust

/-- One call keeps the difficulty within its bounds. -/
theorem onTimestampSet_inRange {cfg : DifficultyConfig} {s s' : DifficultyStorage} {moment : ℕ}
    (hs : s.InRange) (h : onTimestampSet cfg s moment = .ok s') : s'.InRange := by
  obtain ⟨difficulty, hstored, hbounds⟩ := hs
  obtain ⟨_, -, ⟨-, -, hkept⟩ | ⟨-, -, moved, -, hput⟩⟩ := onTimestampSet_cases h
  · exact ⟨difficulty, hkept.trans hstored, hbounds⟩
  · exact ⟨boundDifficulty moved, hput, boundDifficulty_bounds moved⟩

end TrexPow
