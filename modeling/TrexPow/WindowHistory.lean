import Mathlib.Algebra.Order.BigOperators.Group.List
import TrexPow.DifficultyWindow

/-!
# The window as the recent history

Whatever the window held before, each call overwrites the next slot. From the first
full round on, the window holds the last calls, split at the height pointer, and an
adjustment reads the round of calls that has just been completed. All calls of a round
are recorded at one difficulty.
-/

namespace TrexPow

/-- The calls so far have been written over old contents of the window, and those of the
round that is not complete were recorded at the current difficulty. -/
structure DifficultyStorage.Recorded
    (old : List.Vector (Option DifficultyAndTimestamp) difficultyAdjustWindow)
    (s : DifficultyStorage) (history : List TimestampCall) : Prop where
  height : s.currentHeight.getD 0 = history.length % difficultyAdjustWindow
  window : RingBuffer.Overwrites old s.pastDifficultiesAndTimestamps (history.map recordedEntry)
  unadjusted : ∀ call ∈ history.drop (difficultyAdjustWindow * (history.length /
    difficultyAdjustWindow)), call.before.difficulty = s.difficulty

section Run

variable {cfg : DifficultyConfig} {s s' : DifficultyStorage} {moment : ℕ}
  {old : List.Vector (Option DifficultyAndTimestamp) difficultyAdjustWindow}
  {history : List TimestampCall}

/-- A storage whose height pointer is at the start of the window has recorded no call. -/
theorem recorded_nil (hheight : s.currentHeight.getD 0 = 0) :
    s.Recorded s.pastDifficultiesAndTimestamps [] := by
  refine ⟨hheight, RingBuffer.overwrites_nil _, ?_⟩
  intro call hcall
  rw [List.drop_nil] at hcall
  cases hcall

/-- One more call is recorded behind the ones before. -/
theorem DifficultyStorage.Recorded.step (hs : s.Recorded old history)
    (h : onTimestampSet cfg s moment = .ok s') :
    s'.Recorded old (history ++ [⟨s, moment, s'⟩]) := by
  obtain ⟨hheight, hwindow, hnext⟩ := onTimestampSet_records h
  have hlength : (history ++ [(⟨s, moment, s'⟩ : TimestampCall)]).length = history.length + 1 := by
    simp
  have hsplit := Nat.div_add_mod history.length difficultyAdjustWindow
  refine ⟨?_, ?_, ?_⟩
  · rw [hnext, hs.height, hlength, Nat.mod_add_mod]
  · rw [hwindow, List.map_append]
    apply hs.window.write
    rw [List.length_map]
    exact hs.height.symm
  · rw [hlength]
    obtain ⟨_, -, ⟨hpart, -, hkept⟩ | ⟨hfull, -, -⟩⟩ := onTimestampSet_cases h
    · -- the round goes on, and the difficulty stays
      have hround : (history.length + 1) / difficultyAdjustWindow =
          history.length / difficultyAdjustWindow := by
        rw [hs.height] at hpart
        rw [difficultyAdjustWindow_eq] at hpart ⊢
        omega
      have hsame : s'.difficulty = s.difficulty := by
        rw [DifficultyStorage.difficulty, hkept, DifficultyStorage.difficulty]
      rw [hround, List.drop_append_of_le_length (by omega), hsame]
      intro call hcall
      rcases List.mem_append.mp hcall with hcall | hcall
      · exact hs.unadjusted call hcall
      · obtain rfl := List.mem_singleton.mp hcall
        rfl
    · -- the round is complete, and the next one is empty
      have hround : difficultyAdjustWindow * ((history.length + 1) / difficultyAdjustWindow) =
          history.length + 1 := by
        rw [hs.height] at hfull
        rw [difficultyAdjustWindow_eq] at hfull ⊢
        omega
      intro call hcall
      rw [hround, List.drop_eq_nil_of_le hlength.le] at hcall
      cases hcall

/-- A run of calls from the start of the window records them all. -/
theorem recorded_of_run {start : DifficultyStorage} (hheight : start.currentHeight.getD 0 = 0)
    {moments : List ℕ} (hrun : moments.foldlM (onTimestampSet cfg) start = .ok s) :
    s.Recorded start.pastDifficultiesAndTimestamps
      (Loop.steps (onTimestampSet cfg) moments start) :=
  Loop.steps_invariant
    (I := fun history s => s.Recorded start.pastDifficultiesAndTimestamps history)
    (fun _ _ _ _ hs h => hs.step h) (recorded_nil hheight) hrun

/-- The last calls, as many as the window has slots. -/
def lastCalls {α : Type} (calls : List α) : List α :=
  calls.drop (calls.length - difficultyAdjustWindow)

/-- A call that completes a round leaves the last calls in the window, all of them at the
difficulty before it. -/
theorem DifficultyStorage.Recorded.window_of_full (hs : s.Recorded old history)
    (h : onTimestampSet cfg s moment = .ok s')
    (hfull : s.currentHeight.getD 0 = difficultyAdjustWindow - 1) :
    s'.pastDifficultiesAndTimestamps.toList =
      (lastCalls (history.map Loop.Step.input ++ [moment])).map fun moment =>
        some ⟨s.difficulty, moment⟩ := by
  have hsplit := Nat.div_add_mod history.length difficultyAdjustWindow
  rw [← hs.height, hfull] at hsplit
  have hle : difficultyAdjustWindow * (history.length / difficultyAdjustWindow) ≤
      history.length := by omega
  have hrounds : ((history ++ [(⟨s, moment, s'⟩ : TimestampCall)]).map recordedEntry).length =
      difficultyAdjustWindow * (history.length / difficultyAdjustWindow) +
        difficultyAdjustWindow := by
    simp only [List.length_map, List.length_append, List.length_singleton]
    rw [difficultyAdjustWindow_eq] at hsplit ⊢
    omega
  have hlast : (history.map Loop.Step.input ++ [moment]).length - difficultyAdjustWindow =
      difficultyAdjustWindow * (history.length / difficultyAdjustWindow) := by
    simp only [List.length_map, List.length_append, List.length_singleton] at hrounds ⊢
    omega
  have hround : ∀ call ∈ history.drop (difficultyAdjustWindow *
      (history.length / difficultyAdjustWindow)) ++ [(⟨s, moment, s'⟩ : TimestampCall)],
      some (recordedEntry call) = some ⟨s.difficulty, call.input⟩ := by
    intro call hcall
    rw [recordedEntry]
    rcases List.mem_append.mp hcall with hcall | hcall
    · rw [hs.unadjusted call hcall]
    · obtain rfl := List.mem_singleton.mp hcall
      rfl
  rw [(hs.step h).window.toList_of_rounds hrounds, lastCalls, hlast, ← List.map_drop,
    List.drop_append_of_le_length hle, List.map_map,
    List.drop_append_of_le_length (by rwa [List.length_map]), ← List.map_drop]
  refine (List.map_congr_left hround).trans ?_
  simp only [List.map_append, List.map_drop, List.map_map]
  rfl

end Run

/-! ### The measured time of recent calls -/

/-- The whole seconds between consecutive timestamps, where a negative difference counts as
zero. -/
def differences (moments : List ℕ) : List ℕ :=
  (consecutive moments).map fun pair => (pair.2 - pair.1) / 1000

theorem length_differences (moments : List ℕ) :
    (differences moments).length = moments.length - 1 := by
  rw [differences, List.length_map, consecutive, List.length_zip, List.length_tail]
  omega

/-- The saturating sum is the sum up to the largest number. -/
theorem foldl_saturatingAdd (seconds : List ℕ) {total : ℕ} (htotal : total ≤ u128Max) :
    seconds.foldl saturatingAdd total = min (total + seconds.sum) u128Max := by
  induction seconds generalizing total with
  | nil => rw [List.foldl_nil, List.sum_nil, Nat.add_zero, Nat.min_eq_left htotal]
  | cons second seconds ih =>
    have hle : saturatingAdd total second ≤ u128Max := Nat.min_le_right ..
    rw [List.foldl_cons, ih hle, List.sum_cons, saturatingAdd]
    omega

/-- A timestamp below the largest number is read unchanged. -/
theorem uniqueSaturatedInto_of_le {moment : ℕ} (h : moment ≤ u128Max) :
    uniqueSaturatedInto moment = moment := Nat.min_eq_left h

/-- The differences of a window of timestamps sum to a 128-bit number. -/
theorem sum_differences_le {moments : List ℕ} (hbound : ∀ moment ∈ moments, moment ≤ u128Max)
    (hlength : moments.length ≤ difficultyAdjustWindow) :
    (differences moments).sum ≤ u128Max := by
  have heach : ∀ second ∈ differences moments, second ≤ u128Max / 1000 := by
    intro second hsecond
    obtain ⟨⟨prev, cur⟩, hpair, rfl⟩ := List.mem_map.mp hsecond
    have hcur := hbound cur (List.mem_of_mem_tail (List.of_mem_zip hpair).2)
    exact Nat.div_le_div_right (by omega)
  have hsum := List.sum_le_card_nsmul _ _ heach
  rw [length_differences, nsmul_eq_mul, Nat.cast_id] at hsum
  rw [difficultyAdjustWindow_eq] at hlength
  have hmul : (moments.length - 1) * (u128Max / 1000) ≤ 59 * (u128Max / 1000) :=
    Nat.mul_le_mul_right _ (by omega)
  have hmax : 59 * (u128Max / 1000) ≤ u128Max := by decide
  omega

/-- A full window measures the sum of the differences in slot order. -/
theorem tsDelta_of_stamps {blockTime : ℕ}
    {window : List.Vector (Option DifficultyAndTimestamp) difficultyAdjustWindow}
    {moments : List ℕ} (hstamps : stamps window = moments.map some)
    (hbound : ∀ moment ∈ moments, moment ≤ u128Max) :
    tsDelta blockTime window = (differences moments).sum := by
  have hlength : moments.length = difficultyAdjustWindow := by
    have hlengths := congrArg List.length hstamps
    rw [stamps, List.length_map, List.Vector.toList_length, List.length_map] at hlengths
    exact hlengths.symm
  have hseconds : (summedIntervals window).map (secondsBetween blockTime) =
      differences moments := by
    rw [summedIntervals, hstamps, differences, consecutive, consecutive, ← List.map_tail,
      List.zip_map, List.map_map]
    apply List.map_congr_left
    rintro ⟨prev, cur⟩ hpair
    have hprev := hbound prev (List.of_mem_zip hpair).1
    have hcur := hbound cur (List.mem_of_mem_tail (List.of_mem_zip hpair).2)
    simp only [Function.comp, Prod.map, secondsBetween, uniqueSaturatedInto_of_le hprev,
      uniqueSaturatedInto_of_le hcur]
  rw [tsDelta_eq, hseconds, foldl_saturatingAdd _ (Nat.zero_le _), Nat.zero_add,
    Nat.min_eq_left (sum_differences_le hbound hlength.le)]

/-- A call that fills the window measures the last calls. -/
theorem DifficultyStorage.Recorded.tsDelta_of_full {cfg : DifficultyConfig}
    {s s' : DifficultyStorage} {moment : ℕ}
    {old : List.Vector (Option DifficultyAndTimestamp) difficultyAdjustWindow}
    {history : List TimestampCall} (hs : s.Recorded old history)
    (h : onTimestampSet cfg s moment = .ok s')
    (hfull : s.currentHeight.getD 0 = difficultyAdjustWindow - 1)
    (hbound : ∀ t ∈ history.map Loop.Step.input ++ [moment], t ≤ u128Max) (blockTime : ℕ) :
    tsDelta blockTime s'.pastDifficultiesAndTimestamps =
      (differences (lastCalls (history.map Loop.Step.input ++ [moment]))).sum := by
  apply tsDelta_of_stamps
  · rw [stamps, hs.window_of_full h hfull, List.map_map]
    rfl
  · intro t ht
    exact hbound t (List.mem_of_mem_drop ht)

/-- **The window is the recent history.** After any run of calls from an empty window each
slot holds the latest call that falls on it, with the difficulty in force before that call,
and nothing if there is none. Every adjustment reads the last calls in order, all at the
difficulty before it, and measures the sum of the differences of their moments. A moment
is a number of at most 128 bits. -/
theorem window_is_history {cfg : DifficultyConfig} {start s : DifficultyStorage}
    (hempty : start.pastDifficultiesAndTimestamps = .replicate difficultyAdjustWindow none)
    (hheight : start.currentHeight.getD 0 = 0) {moments : List ℕ}
    (hrun : moments.foldlM (onTimestampSet cfg) start = .ok s) :
    (∀ (i : Fin difficultyAdjustWindow) (k : ℕ),
      RingBuffer.Latest difficultyAdjustWindow moments.length i k →
      ∃ before moment, (moments.take k).foldlM (onTimestampSet cfg) start = .ok before ∧
        moments[k]? = some moment ∧
        s.pastDifficultiesAndTimestamps.get i = some ⟨before.difficulty, moment⟩) ∧
    (∀ i : Fin difficultyAdjustWindow,
      (∀ k < moments.length, k % difficultyAdjustWindow ≠ i) →
      s.pastDifficultiesAndTimestamps.get i = none) ∧
    ∀ moment s', onTimestampSet cfg s moment = .ok s' →
      s.currentHeight.getD 0 = difficultyAdjustWindow - 1 →
      let last := lastCalls (moments ++ [moment])
      let blockTime := uniqueSaturatedInto cfg.targetBlockTime
      last.length = difficultyAdjustWindow ∧
      s'.pastDifficultiesAndTimestamps.toList = last.map (fun t => some ⟨s.difficulty, t⟩) ∧
      ((∀ t ∈ moments ++ [moment], t ≤ u128Max) →
        tsDelta blockTime s'.pastDifficultiesAndTimestamps = (differences last).sum) ∧
      ∃ moved, moveDifficulty s.difficulty (cfg.clamp (blockTime * difficultyAdjustWindow)
          (measuredTime blockTime s'.pastDifficultiesAndTimestamps)) = .ok moved ∧
        s'.currentDifficulty = some (boundDifficulty moved) := by
  have hrecorded := recorded_of_run hheight hrun
  have hinputs := Loop.steps_input hrun
  have hlength := congrArg List.length hinputs
  rw [List.length_map] at hlength
  refine ⟨?_, ?_, ?_⟩
  · intro i k hlatest
    have hlt := hlatest.lt
    obtain ⟨before, after, hbefore, hstep⟩ := Loop.steps_before hrun hlt
    refine ⟨before, moments[k], hbefore, List.getElem?_eq_getElem hlt, ?_⟩
    rw [hrecorded.window.filled i k (by rwa [List.length_map, hlength]), List.getElem?_map, hstep]
    rfl
  · intro i hnone
    rw [hrecorded.window.kept i (by rwa [List.length_map, hlength]), hempty,
      List.Vector.get_replicate]
  · intro moment s' hcall hfull last blockTime
    have hwindow := hrecorded.window_of_full hcall hfull
    rw [hinputs] at hwindow
    refine ⟨?_, hwindow, ?_, onTimestampSet_adjusts hcall hfull⟩
    · have hlengths := congrArg List.length hwindow
      rw [List.Vector.toList_length, List.length_map] at hlengths
      exact hlengths.symm
    · intro hbound
      have hsum := hrecorded.tsDelta_of_full hcall hfull (by rwa [hinputs]) blockTime
      rwa [hinputs] at hsum

/-- After the slow blocks, slot 2 has been overwritten at the lower difficulty, and slot 10 has
not. The adjustment in between has measured the 59 differences of the first window. -/
theorem slowBlocks_slots :
    (∃ s, slowMoments.foldlM (onTimestampSet slowBlocks) (.genesis initDifficulty) = .ok s ∧
      s.pastDifficultiesAndTimestamps.get ⟨2, by decide⟩ = some ⟨55, 5580000⟩ ∧
      s.pastDifficultiesAndTimestamps.get ⟨10, by decide⟩ = some ⟨56, 900000⟩) ∧
    ∃ s s', (slowMoments.take 59).foldlM (onTimestampSet slowBlocks) (.genesis initDifficulty) =
        .ok s ∧
      onTimestampSet slowBlocks s 5310000 = .ok s' ∧
      tsDelta 60 s'.pastDifficultiesAndTimestamps = 5310 ∧
      s'.pastDifficultiesAndTimestamps.toList =
        (slowMoments.take 60).map (fun moment => some ⟨56, moment⟩) := by
  have hdifficulty (k : ℕ) (difficulty : Difficulty)
      (hany : ((slowMoments.take k).foldlM (onTimestampSet slowBlocks)
        (.genesis initDifficulty)).toOption.any (fun s => s.difficulty = difficulty) = true) :
      ∃ s, (slowMoments.take k).foldlM (onTimestampSet slowBlocks) (.genesis initDifficulty) =
        .ok s ∧ s.difficulty = difficulty := by
    obtain ⟨s, hrun, hreads⟩ := Rust.exists_ok_of_any hany
    exact ⟨s, hrun, of_decide_eq_true hreads⟩
  constructor
  · obtain ⟨s, hrun, -⟩ := hdifficulty 65 55 (by decide +kernel)
    have hslots := (window_is_history rfl rfl hrun).1
    obtain ⟨before, moment, hbefore, hmoment, hslot⟩ := hslots ⟨2, by decide⟩ 62
      ⟨by decide, rfl, by decide⟩
    obtain ⟨before', moment', hbefore', hmoment', hslot'⟩ := hslots ⟨10, by decide⟩ 10
      ⟨by decide, rfl, by decide⟩
    obtain ⟨found, hfound, hlower⟩ := hdifficulty 62 55 (by decide +kernel)
    obtain ⟨found', hfound', hsame⟩ := hdifficulty 10 56 (by decide +kernel)
    obtain rfl := Except.ok.inj (hbefore.symm.trans hfound)
    obtain rfl := Except.ok.inj (hbefore'.symm.trans hfound')
    obtain rfl : 5580000 = moment := Option.some.inj hmoment
    obtain rfl : 900000 = moment' := Option.some.inj hmoment'
    rw [hlower] at hslot
    rw [hsame] at hslot'
    exact ⟨s, hrun, hslot, hslot'⟩
  · obtain ⟨s, hrun, hsame⟩ := hdifficulty 59 56 (by decide +kernel)
    obtain ⟨s', hcall⟩ : ∃ s', onTimestampSet slowBlocks s 5310000 = .ok s' := by
      obtain ⟨s', hrun', -⟩ := hdifficulty 60 55 (by decide +kernel)
      have hsplit : slowMoments.take 60 = slowMoments.take 59 ++ [5310000] := rfl
      rw [hsplit] at hrun'
      obtain ⟨before, hbefore, hcall⟩ := Loop.foldlM_concat_eq_ok.mp hrun'
      obtain rfl := Except.ok.inj (hbefore.symm.trans hrun)
      exact ⟨s', hcall⟩
    have hheight : s.currentHeight.getD 0 = difficultyAdjustWindow - 1 := by
      rw [(recorded_of_run rfl hrun).height, ← List.length_map, Loop.steps_input hrun]
      rfl
    obtain ⟨-, hwindow, hsum, -⟩ := (window_is_history rfl rfl hrun).2.2 5310000 s' hcall hheight
    rw [hsame] at hwindow
    exact ⟨s, s', hrun, hcall, hsum (by decide), hwindow⟩

end TrexPow
