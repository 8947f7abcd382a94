import TrexPow.DifficultyPallet
import TrexPow.Lib.Loop
import TrexPow.Lib.RingBuffer

/-!
# The window of the difficulty pallet

The window is a ring buffer over the calls: the height pointer counts them modulo its
length, and every call that fills it adjusts the difficulty on the last round of calls.
The adjustment sums the intervals inside of one round. The interval from one round to
the next is counted in none.
-/

namespace TrexPow

/-- A call that has returned. -/
abbrev TimestampCall := Loop.Step DifficultyStorage ℕ

/-- What a call records: the difficulty before it, and its moment. -/
def recordedEntry (call : TimestampCall) : DifficultyAndTimestamp :=
  ⟨call.before.difficulty, call.input⟩

/-- The calls so far have left their entries in the window and their number in the
height pointer. -/
structure DifficultyStorage.Records (s : DifficultyStorage) (history : List TimestampCall) :
    Prop where
  inRange : s.InRange
  height : s.currentHeight.getD 0 = history.length % difficultyAdjustWindow
  window : RingBuffer.Holds s.pastDifficultiesAndTimestamps (history.map recordedEntry)

/-- The genesis storage records no call. -/
theorem genesis_records {initial : Difficulty} (hmin : 48 ≤ initial.toNat)
    (hmax : initial.toNat ≤ 224) : (DifficultyStorage.genesis initial).Records [] :=
  ⟨⟨initial, rfl, hmin, hmax⟩, rfl, RingBuffer.holds_nil⟩

/-- A difficulty that is one off the bounds goes back by one. -/
theorem boundDifficulty_near {difficulty moved : Difficulty} (hmin : 48 ≤ difficulty.toNat)
    (hmax : difficulty.toNat ≤ 224) (hup : moved.toNat ≤ difficulty.toNat + 1)
    (hdown : difficulty.toNat ≤ moved.toNat + 1) :
    (boundDifficulty moved).toNat ≤ difficulty.toNat + 1 ∧
      difficulty.toNat ≤ (boundDifficulty moved).toNat + 1 := by
  unfold boundDifficulty
  split_ifs with hlow hhigh
  · rw [BitVec.lt_def, minDifficulty_toNat] at hlow
    rw [minDifficulty_toNat]
    omega
  · rw [BitVec.lt_def, maxDifficulty_toNat] at hhigh
    rw [maxDifficulty_toNat]
    omega
  · exact ⟨hup, hdown⟩

/-- Within its bounds, the difficulty moves by at most the clamp factor. -/
theorem moveDifficulty_spec {difficulty : Difficulty} (hmin : 48 ≤ difficulty.toNat)
    (hmax : difficulty.toNat ≤ 224) (adjTs : ℤ) :
    ∃ moved, moveDifficulty difficulty adjTs = .ok moved ∧
      (boundDifficulty moved).toNat ≤ difficulty.toNat + clampFactor.toNat ∧
      difficulty.toNat ≤ (boundDifficulty moved).toNat + clampFactor.toNat := by
  have hreturns : ∃ moved, moveDifficulty difficulty adjTs = .ok moved := by
    unfold moveDifficulty
    rw [clampFactor_toNat]
    split_ifs
    · omega
    · exact ⟨_, rfl⟩
    · omega
    · exact ⟨_, rfl⟩
    · exact ⟨_, rfl⟩
  obtain ⟨moved, hmove⟩ := hreturns
  rw [clampFactor_toNat]
  refine ⟨moved, hmove, ?_⟩
  rcases moveDifficulty_cases hmove with ⟨-, hmoved⟩ | ⟨-, hmoved⟩ | ⟨-, rfl⟩
  · exact boundDifficulty_near hmin hmax (by omega) (by omega)
  · exact boundDifficulty_near hmin hmax (by omega) (by omega)
  · exact boundDifficulty_near hmin hmax (by omega) (by omega)

/-- The effect of one call on the difficulty, at the given height. -/
def AdjustsAt (height : ℕ) (s s' : DifficultyStorage) : Prop :=
  ∃ difficulty difficulty', s.currentDifficulty = some difficulty ∧
    s'.currentDifficulty = some difficulty' ∧
    (difficulty' ≠ difficulty → height = difficultyAdjustWindow - 1) ∧
    difficulty'.toNat ≤ difficulty.toNat + clampFactor.toNat ∧
    difficulty.toNat ≤ difficulty'.toNat + clampFactor.toNat

/-- A call within the bounds succeeds. It records its entry at the height pointer and
advances the pointer, and it can change the difficulty only when the window is full. -/
theorem onTimestampSet_spec {cfg : DifficultyConfig} (htarget : cfg.targetBlockTime < 2 ^ 64)
    {s : DifficultyStorage} (hs : s.InRange)
    (hheight : s.currentHeight.getD 0 < difficultyAdjustWindow) (moment : ℕ) :
    ∃ s', onTimestampSet cfg s moment = .ok s' ∧
      s'.pastDifficultiesAndTimestamps = s.pastDifficultiesAndTimestamps.set
        ⟨s.currentHeight.getD 0, hheight⟩ (some ⟨s.difficulty, moment⟩) ∧
      s'.currentHeight.getD 0 = (s.currentHeight.getD 0 + 1) % difficultyAdjustWindow ∧
      AdjustsAt (s.currentHeight.getD 0) s s' := by
  obtain ⟨difficulty, hstored, hmin, hmax⟩ := hs
  have hdifficulty : s.difficulty = difficulty := by
    rw [DifficultyStorage.difficulty, hstored, Option.getD_some]
  have htime : ¬u128Max < uniqueSaturatedInto cfg.targetBlockTime * difficultyAdjustWindow := by
    have hle : uniqueSaturatedInto cfg.targetBlockTime ≤ cfg.targetBlockTime := Nat.min_le_left ..
    rw [u128Max, difficultyAdjustWindow_eq]
    omega
  have hreturns : ∃ s', onTimestampSet cfg s moment = .ok s' ∧
      AdjustsAt (s.currentHeight.getD 0) s s' := by
    unfold onTimestampSet
    dsimp only
    rw [if_neg htime, dif_pos hheight]
    split_ifs with hfull
    · obtain ⟨moved, hmove, hup, hdown⟩ := moveDifficulty_spec hmin hmax
        (cfg.clamp (uniqueSaturatedInto cfg.targetBlockTime * difficultyAdjustWindow)
          (measuredTime (uniqueSaturatedInto cfg.targetBlockTime)
            (s.pastDifficultiesAndTimestamps.set ⟨s.currentHeight.getD 0, hheight⟩
              (some ⟨s.difficulty, moment⟩))))
      rw [hdifficulty] at hmove ⊢
      rw [hmove]
      exact ⟨_, rfl, difficulty, _, hstored, rfl, fun _ => hfull, hup, hdown⟩
    · refine ⟨_, rfl, difficulty, difficulty, hstored, hstored, ?_, by omega, by omega⟩
      intro hne
      exact absurd rfl hne
  obtain ⟨s', hcall, hadjust⟩ := hreturns
  obtain ⟨_, hwindow, hnext⟩ := onTimestampSet_records hcall
  exact ⟨s', hcall, hwindow, hnext, hadjust⟩

/-- One more call is recorded behind the ones before. -/
theorem DifficultyStorage.Records.step {cfg : DifficultyConfig}
    (htarget : cfg.targetBlockTime < 2 ^ 64) {s : DifficultyStorage}
    {history : List TimestampCall} (hs : s.Records history) (moment : ℕ) :
    ∃ s', onTimestampSet cfg s moment = .ok s' ∧ s'.Records (history ++ [⟨s, moment, s'⟩]) ∧
      AdjustsAt (history.length % difficultyAdjustWindow) s s' := by
  have hheight : s.currentHeight.getD 0 < difficultyAdjustWindow := by
    rw [hs.height]
    exact Nat.mod_lt _ (by decide)
  obtain ⟨s', hcall, hwindow, hnext, hadjust⟩ :=
    onTimestampSet_spec htarget hs.inRange hheight moment
  refine ⟨s', hcall, ⟨onTimestampSet_inRange hs.inRange hcall, ?_, ?_⟩, ?_⟩
  · rw [hnext, hs.height, List.length_append, List.length_singleton, Nat.mod_add_mod]
  · rw [hwindow, List.map_append]
    apply hs.window.write
    rw [List.length_map]
    exact hs.height.symm
  · rw [← hs.height]
    exact hadjust

/-- **No panic.** From a genesis difficulty within the bounds, every sequence of calls
succeeds and stays within the bounds, the height pointer counts the calls modulo the
window, and only a call that completes a window can change the difficulty, by at most
the clamp factor. The target is a moment of the runtime, a 64-bit number. -/
theorem run_never_panics {cfg : DifficultyConfig} (htarget : cfg.targetBlockTime < 2 ^ 64)
    {initial : Difficulty} (hmin : 48 ≤ initial.toNat) (hmax : initial.toNat ≤ 224)
    (moments : List ℕ) :
    ∃ s, moments.foldlM (onTimestampSet cfg) (.genesis initial) = .ok s ∧ s.InRange ∧
      s.currentHeight.getD 0 = moments.length % difficultyAdjustWindow ∧
      ∀ moment, ∃ s' difficulty difficulty', onTimestampSet cfg s moment = .ok s' ∧
        s.currentDifficulty = some difficulty ∧ s'.currentDifficulty = some difficulty' ∧
        (difficulty' ≠ difficulty → difficultyAdjustWindow ∣ moments.length + 1) ∧
        difficulty'.toNat ≤ difficulty.toNat + clampFactor.toNat ∧
        difficulty.toNat ≤ difficulty'.toNat + clampFactor.toNat := by
  have hstep : ∀ (history : List TimestampCall) (s : DifficultyStorage) moment,
      s.Records history →
      ∃ s', onTimestampSet cfg s moment = .ok s' ∧ s'.Records (history ++ [⟨s, moment, s'⟩]) := by
    intro history s moment hs
    obtain ⟨s', hcall, hs', -⟩ := hs.step htarget moment
    exact ⟨s', hcall, hs'⟩
  obtain ⟨s, hrun, hs, hinputs⟩ := Loop.steps_total hstep moments (genesis_records hmin hmax)
  rw [List.nil_append] at hs
  have hlength := congrArg List.length hinputs
  rw [List.length_map] at hlength
  refine ⟨s, hrun, hs.inRange, hlength ▸ hs.height, ?_⟩
  intro moment
  obtain ⟨s', hcall, -, difficulty, difficulty', hstored, hstored', hfull, hup, hdown⟩ :=
    hs.step htarget moment
  refine ⟨s', difficulty, difficulty', hcall, hstored, hstored', ?_, hup, hdown⟩
  intro hne
  have hlast := hfull hne
  rw [hlength] at hlast
  apply Nat.dvd_of_mod_eq_zero
  rw [Nat.add_mod, hlast]
  rfl

/-- The target of the runtime, and a clamp that never adjusts. -/
def steadyBlocks : DifficultyConfig := ⟨blockTimeSec, fun _ _ => 0⟩

/-- The target of the runtime, and a clamp for windows that always take too long. -/
def slowBlocks : DifficultyConfig := ⟨blockTimeSec, fun _ _ => -1⟩

/-- The moments of a window of blocks one and a half minutes apart, and of five more. -/
def slowMoments : List ℕ := (List.range 65).map (90000 * ·)

/-- The run of slow blocks completes a window and lowers the difficulty by one. Its next call
completes none and changes nothing. -/
theorem slowBlocks_run : ∃ s,
    slowMoments.foldlM (onTimestampSet slowBlocks) (.genesis initDifficulty) = .ok s ∧
      s.currentHeight.getD 0 = 5 ∧ s.currentDifficulty = some 55 ∧
      ∃ s', onTimestampSet slowBlocks s 5850000 = .ok s' ∧ s'.currentDifficulty = some 55 := by
  obtain ⟨s, hrun, -, hheight, hcalls⟩ :=
    run_never_panics (show slowBlocks.targetBlockTime < 2 ^ 64 by decide)
      (show 48 ≤ initDifficulty.toNat by decide) (by decide) slowMoments
  have hany : (slowMoments.foldlM (onTimestampSet slowBlocks)
      (.genesis initDifficulty)).toOption.any (fun s => s.currentDifficulty = some 55) = true := by
    decide +kernel
  rw [hrun] at hany
  have hlower : s.currentDifficulty = some 55 := of_decide_eq_true hany
  obtain ⟨s', difficulty, difficulty', hcall, hstored, hstored', hadjusts, -⟩ := hcalls 5850000
  refine ⟨s, hrun, hheight, hlower, s', hcall, ?_⟩
  by_cases hsame : difficulty' = difficulty
  · rw [hstored', hsame, ← hstored, hlower]
  · exact absurd (hadjusts hsame) (by decide)

/-! ### The intervals that are summed -/

/-- The windows on which the calls of a run adjust the difficulty, in order. -/
def adjustmentWindows (history : List TimestampCall) :
    List (List.Vector (Option DifficultyAndTimestamp) difficultyAdjustWindow) :=
  (history.filter fun call => call.before.currentHeight.getD 0 = difficultyAdjustWindow - 1).map
    fun call => call.after.pastDifficultiesAndTimestamps

/-- The timestamps of a window. -/
def stamps (window : List.Vector (Option DifficultyAndTimestamp) difficultyAdjustWindow) :
    List (Option ℕ) :=
  window.toList.map (Option.map DifficultyAndTimestamp.timestamp)

/-- The pairs of neighbours in a list. -/
def consecutive {α : Type} (l : List α) : List (α × α) := l.zip l.tail

/-- The intervals that the adjustment on a window sums. -/
def summedIntervals (window : List.Vector (Option DifficultyAndTimestamp) difficultyAdjustWindow) :
    List (Option ℕ × Option ℕ) :=
  consecutive (stamps window)

/-- The seconds between two timestamps, as the adjustment counts them. -/
def secondsBetween (blockTime : ℕ) : Option ℕ × Option ℕ → ℕ
  | (some prev, some cur) => (uniqueSaturatedInto cur - uniqueSaturatedInto prev) / 1000
  | _ => blockTime

/-- The measured time of a window is the sum over these intervals. -/
theorem tsDelta_eq (blockTime : ℕ)
    (window : List.Vector (Option DifficultyAndTimestamp) difficultyAdjustWindow) :
    tsDelta blockTime window =
      ((summedIntervals window).map (secondsBetween blockTime)).foldl saturatingAdd 0 := by
  have hinterval : ∀ prev cur, interval blockTime prev cur =
      secondsBetween blockTime (prev.map DifficultyAndTimestamp.timestamp,
        cur.map DifficultyAndTimestamp.timestamp) := by
    intro prev cur
    cases prev <;> cases cur <;> rfl
  rw [tsDelta, summedIntervals, consecutive, stamps, ← List.map_tail, List.zip_map, List.map_map,
    List.map_zip_eq_zipWith, show interval blockTime = _ from funext₂ hinterval]
  rfl

theorem length_summedIntervals
    (window : List.Vector (Option DifficultyAndTimestamp) difficultyAdjustWindow) :
    (summedIntervals window).length = difficultyAdjustWindow - 1 := by
  rw [summedIntervals, consecutive, List.length_zip, List.length_tail, stamps, List.length_map,
    List.Vector.toList_length]
  rfl

/-- The `round`-th round of calls. -/
def roundOf {α : Type} (calls : List α) (round : ℕ) : List α :=
  (calls.drop (difficultyAdjustWindow * round)).take difficultyAdjustWindow

/-- A later call does not change the rounds that are complete. -/
theorem roundOf_append {α : Type} {calls : List α} {round : ℕ}
    (hround : round < calls.length / difficultyAdjustWindow) (later : List α) :
    roundOf (calls ++ later) round = roundOf calls round := by
  have hcomplete : difficultyAdjustWindow * round + difficultyAdjustWindow ≤ calls.length := by
    have hle := Nat.mul_le_mul_left difficultyAdjustWindow (Nat.succ_le_of_lt hround)
    have hdiv := Nat.mul_div_le calls.length difficultyAdjustWindow
    rw [Nat.mul_succ] at hle
    omega
  rw [roundOf, List.drop_append_of_le_length (by omega), List.take_append_of_le_length, roundOf]
  rw [List.length_drop]
  omega

/-- A call that completes a round leaves that round in the window. -/
theorem DifficultyStorage.Records.stamps_eq {s : DifficultyStorage}
    {history : List TimestampCall} (hs : s.Records history) {round : ℕ}
    (hlength : history.length = difficultyAdjustWindow * round + difficultyAdjustWindow) :
    stamps s.pastDifficultiesAndTimestamps =
      (roundOf (history.map Loop.Step.input) round).map some := by
  have hrounds : (history.map recordedEntry).length =
      difficultyAdjustWindow * round + difficultyAdjustWindow := by
    rw [List.length_map, hlength]
  have htake : ((history.map Loop.Step.input).drop (difficultyAdjustWindow * round)).length =
      difficultyAdjustWindow := by
    rw [List.length_drop, List.length_map, hlength, Nat.add_sub_cancel_left]
  rw [stamps, hs.window.toList_eq hrounds, roundOf, List.take_of_length_le htake.le]
  simp only [List.map_map, List.map_drop]
  rfl

/-- The windows of the adjustments are the complete rounds of calls. -/
def WindowsAreRounds (history : List TimestampCall) : Prop :=
  (adjustmentWindows history).map stamps =
    (List.range (history.length / difficultyAdjustWindow)).map fun round =>
      (roundOf (history.map Loop.Step.input) round).map some

theorem windowsAreRounds_step {cfg : DifficultyConfig} (htarget : cfg.targetBlockTime < 2 ^ 64)
    {s : DifficultyStorage} {history : List TimestampCall} (hs : s.Records history)
    (hwindows : WindowsAreRounds history) (moment : ℕ) :
    ∃ s', onTimestampSet cfg s moment = .ok s' ∧ s'.Records (history ++ [⟨s, moment, s'⟩]) ∧
      WindowsAreRounds (history ++ [⟨s, moment, s'⟩]) := by
  obtain ⟨s', hcall, hs', -⟩ := hs.step htarget moment
  refine ⟨s', hcall, hs', ?_⟩
  have hold : ∀ round ∈ List.range (history.length / difficultyAdjustWindow),
      (roundOf ((history ++ [(⟨s, moment, s'⟩ : TimestampCall)]).map Loop.Step.input) round).map
          some =
        (roundOf (history.map Loop.Step.input) round).map some := by
    intro round hround
    rw [List.map_append, roundOf_append]
    rw [List.length_map]
    exact List.mem_range.mp hround
  have hsplit := Nat.div_add_mod history.length difficultyAdjustWindow
  have hlength : (history ++ [(⟨s, moment, s'⟩ : TimestampCall)]).length = history.length + 1 := by
    simp
  unfold WindowsAreRounds adjustmentWindows at hwindows ⊢
  rw [hlength, List.filter_append, List.map_append, List.map_append, hwindows]
  by_cases hfull : history.length % difficultyAdjustWindow = difficultyAdjustWindow - 1
  · -- the call completes a round
    have hrounds : history.length + 1 = difficultyAdjustWindow *
        (history.length / difficultyAdjustWindow) + difficultyAdjustWindow := by
      rw [difficultyAdjustWindow_eq] at hfull hsplit ⊢
      omega
    have hdiv : (history.length + 1) / difficultyAdjustWindow =
        history.length / difficultyAdjustWindow + 1 := by
      rw [hrounds, ← Nat.mul_succ]
      exact Nat.mul_div_cancel_left _ (by decide)
    rw [hdiv, List.range_succ, List.map_append, List.map_congr_left hold, List.map_singleton,
      ← hs'.stamps_eq (hlength.trans hrounds), List.filter_cons_of_pos]
    · rfl
    · simp [hs.height, hfull]
  · have hdiv : (history.length + 1) / difficultyAdjustWindow =
        history.length / difficultyAdjustWindow := by
      rw [difficultyAdjustWindow_eq] at hfull ⊢
      omega
    rw [hdiv, List.map_congr_left hold, List.filter_cons_of_neg]
    · rw [List.filter_nil, List.map_nil, List.map_nil, List.append_nil]
    · simp [hs.height, hfull]

/-- The windows of the adjustments in a run of calls. -/
def adjustments (cfg : DifficultyConfig) (initial : Difficulty) (moments : List ℕ) :
    List (List.Vector (Option DifficultyAndTimestamp) difficultyAdjustWindow) :=
  adjustmentWindows (Loop.steps (onTimestampSet cfg) moments (.genesis initial))

/-- The adjustments of a run sum the complete rounds of its moments, each on its own. -/
theorem adjustments_stamps {cfg : DifficultyConfig} (htarget : cfg.targetBlockTime < 2 ^ 64)
    {initial : Difficulty} (hmin : 48 ≤ initial.toNat) (hmax : initial.toNat ≤ 224)
    (moments : List ℕ) :
    (adjustments cfg initial moments).map stamps =
      (List.range (moments.length / difficultyAdjustWindow)).map fun round =>
        (roundOf moments round).map some := by
  have hstep : ∀ (history : List TimestampCall) (s : DifficultyStorage) moment,
      s.Records history ∧ WindowsAreRounds history →
      ∃ s', onTimestampSet cfg s moment = .ok s' ∧ s'.Records (history ++ [⟨s, moment, s'⟩]) ∧
        WindowsAreRounds (history ++ [⟨s, moment, s'⟩]) := by
    intro history s moment hs
    exact windowsAreRounds_step htarget hs.1 hs.2 moment
  obtain ⟨s, -, ⟨-, hwindows⟩, hinputs⟩ :=
    Loop.steps_total hstep moments ⟨genesis_records hmin hmax, rfl⟩
  have hlength := congrArg List.length hinputs
  rw [List.length_map] at hlength
  rw [List.nil_append, WindowsAreRounds, hlength, hinputs] at hwindows
  exact hwindows

/-- No interval between two calls is lost: up to the last adjustment every interval is
summed by exactly one adjustment, so every adjustment after the first sums as many
intervals as the target time of the window assumes, and measures exactly that time when
all blocks take the target block time. -/
structure NoIntervalLost (cfg : DifficultyConfig) (initial : Difficulty) (moments : List ℕ) :
    Prop where
  counted_once : ((adjustments cfg initial moments).flatMap summedIntervals).Perm
    ((consecutive (moments.take
      (difficultyAdjustWindow * (adjustments cfg initial moments).length))).map
        (Prod.map some some))
  full_windows : ∀ window ∈ (adjustments cfg initial moments).tail,
    (summedIntervals window).length = difficultyAdjustWindow
  regular : (moments.IsChain fun prev cur => cur = prev + 1000 * cfg.targetBlockTime) →
    ∀ window ∈ (adjustments cfg initial moments).tail,
      tsDelta (uniqueSaturatedInto cfg.targetBlockTime) window =
        uniqueSaturatedInto cfg.targetBlockTime * difficultyAdjustWindow

theorem length_flatMap_summedIntervals
    (windows : List (List.Vector (Option DifficultyAndTimestamp) difficultyAdjustWindow)) :
    (windows.flatMap summedIntervals).length = (difficultyAdjustWindow - 1) * windows.length := by
  induction windows with
  | nil => rfl
  | cons window windows ih =>
    rw [List.flatMap_cons, List.length_append, ih, length_summedIntervals, List.length_cons,
      Nat.mul_succ, Nat.add_comm]

/-- The adjustments of two windows or more sum too few intervals. -/
theorem not_noIntervalLost {cfg : DifficultyConfig} (htarget : cfg.targetBlockTime < 2 ^ 64)
    {initial : Difficulty} (hmin : 48 ≤ initial.toNat) (hmax : initial.toNat ≤ 224)
    {moments : List ℕ} (htwo : 2 * difficultyAdjustWindow ≤ moments.length) :
    ¬NoIntervalLost cfg initial moments := by
  intro h
  have hcount := congrArg List.length (adjustments_stamps htarget hmin hmax moments)
  rw [List.length_map, List.length_map, List.length_range] at hcount
  have hperm := h.counted_once.length_eq
  rw [length_flatMap_summedIntervals, List.length_map, consecutive, List.length_zip,
    List.length_tail, List.length_take, hcount] at hperm
  rw [difficultyAdjustWindow_eq] at hperm htwo
  omega

/-- **Lost intervals.** No interval is lost exactly in the runs with less than two
windows of calls, so with at most one adjustment. -/
theorem noIntervalLost_iff {cfg : DifficultyConfig} (htarget : cfg.targetBlockTime < 2 ^ 64)
    {initial : Difficulty} (hmin : 48 ≤ initial.toNat) (hmax : initial.toNat ≤ 224)
    (moments : List ℕ) :
    NoIntervalLost cfg initial moments ↔ moments.length < 2 * difficultyAdjustWindow := by
  constructor
  · intro h
    by_contra htwo
    exact not_noIntervalLost htarget hmin hmax (not_lt.mp htwo) h
  · intro hone
    have hstamps := adjustments_stamps htarget hmin hmax moments
    have hrounds : moments.length / difficultyAdjustWindow = 0 ∨
        moments.length / difficultyAdjustWindow = 1 := by
      rw [difficultyAdjustWindow_eq] at hone ⊢
      omega
    rcases hrounds with hnone | hfirst
    · -- no window has been completed
      rw [hnone, List.range_zero, List.map_nil, List.map_eq_nil_iff] at hstamps
      constructor
      all_goals simp [hstamps, consecutive]
    · -- one window has been completed, with all intervals up to its end
      rw [hfirst, List.range_one, List.map_singleton, List.map_eq_singleton_iff] at hstamps
      obtain ⟨window, hwindows, hwindow⟩ := hstamps
      constructor
      · rw [hwindows, List.flatMap_singleton, summedIntervals, hwindow, consecutive,
          ← List.map_tail, List.zip_map]
        exact .refl _
      · simp [hwindows]
      · simp [hwindows]

/-! ### Regular blocks -/

/-- The one adjustment of the slow blocks loses no interval. -/
theorem slowBlocks_noIntervalLost : NoIntervalLost slowBlocks initDifficulty slowMoments ∧
    (adjustments slowBlocks initDifficulty slowMoments).length = 1 := by
  constructor
  · exact (noIntervalLost_iff (by decide) (by decide) (by decide) _).mpr (by decide)
  · decide +kernel

/-- The timestamps of two windows of blocks that take the target block time. -/
def regularMoments : List ℕ := (List.range (2 * difficultyAdjustWindow)).map (60000 * ·)

/-- Regular blocks lose an interval at the second adjustment. -/
theorem regularMoments_interval_lost :
    ¬∀ (cfg : DifficultyConfig) (initial : Difficulty) (moments : List ℕ),
      cfg.targetBlockTime < 2 ^ 64 → 48 ≤ initial.toNat → initial.toNat ≤ 224 →
      moments.Pairwise (· ≤ ·) → (∀ moment ∈ moments, 1000 ∣ moment) →
      NoIntervalLost cfg initial moments := by
  intro h
  have hsorted : regularMoments.Pairwise (· ≤ ·) := by
    apply List.pairwise_map.mpr
    apply List.pairwise_lt_range.imp
    intro a b hlt
    omega
  have hseconds : ∀ moment ∈ regularMoments, 1000 ∣ moment := by
    intro moment hmoment
    obtain ⟨k, -, rfl⟩ := List.mem_map.mp hmoment
    exact ⟨60 * k, by omega⟩
  have htwo : 2 * difficultyAdjustWindow ≤ regularMoments.length := by
    rw [regularMoments, List.length_map, List.length_range]
  have hlost := h steadyBlocks initDifficulty regularMoments (by decide) (by decide) (by decide)
    hsorted hseconds
  exact not_noIntervalLost (by decide) (by decide) (by decide) htwo hlost

end TrexPow
