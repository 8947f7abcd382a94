import TrexPow.DifficultyRange
import TrexPow.Lib.BoundedWalk
import TrexPow.Retargeting

/-!
# The difficulty as a bounded walk

Over a whole run the difficulty is a walk between its bounds with one move for each full
window of calls. The direction of a move depends on the moments of its window alone. So
the difficulty changes slowly, and slower blocks never lead to a higher difficulty.
-/

namespace TrexPow

open BoundedWalk

/-- The full windows of a sequence of moments, in order. -/
def fullWindows {α : Type} (moments : List α) : List (List α) :=
  (List.range (moments.length / difficultyAdjustWindow)).map (roundOf moments)

/-- The adjustment for a full window of moments. -/
def windowAdjTs (cfg : DifficultyConfig) (window : List ℕ) : ℤ :=
  cfg.clamp (uniqueSaturatedInto cfg.targetBlockTime * difficultyAdjustWindow)
    (if (differences window).sum = 0 then 1 else (differences window).sum)

/-- The direction in which a full window of moments moves the difficulty. -/
def windowMove (cfg : DifficultyConfig) (window : List ℕ) : ℤ := (windowAdjTs cfg window).sign

/-- The difficulty after a sequence of moments, as a walk. -/
def difficultyWalk (cfg : DifficultyConfig) (initial : ℤ) (moments : List ℕ) : ℤ :=
  walk 48 224 initial ((fullWindows moments).map (windowMove cfg))

theorem length_fullWindows {α : Type} (moments : List α) :
    (fullWindows moments).length = moments.length / difficultyAdjustWindow := by
  rw [fullWindows, List.length_map, List.length_range]

/-- Before the first full window the walk stays where it starts. -/
theorem difficultyWalk_of_short {cfg : DifficultyConfig} {initial : ℤ} {moments : List ℕ}
    (h : moments.length < difficultyAdjustWindow) :
    difficultyWalk cfg initial moments = initial := by
  rw [difficultyWalk, fullWindows, Nat.div_eq_of_lt h]
  rfl

/-- A call that does not complete a window adds none. -/
theorem fullWindows_concat_of_part {α : Type} {moments : List α}
    (h : moments.length % difficultyAdjustWindow ≠ difficultyAdjustWindow - 1) (moment : α) :
    fullWindows (moments ++ [moment]) = fullWindows moments := by
  have hsame : (moments ++ [moment]).length / difficultyAdjustWindow =
      moments.length / difficultyAdjustWindow := by
    rw [List.length_append, List.length_singleton]
    rw [difficultyAdjustWindow_eq] at h ⊢
    omega
  rw [fullWindows, hsame]
  apply List.map_congr_left
  intro round hround
  exact roundOf_append (List.mem_range.mp hround) [moment]

/-- A call that completes a window adds the last calls. -/
theorem fullWindows_concat_of_full {α : Type} {moments : List α}
    (h : moments.length % difficultyAdjustWindow = difficultyAdjustWindow - 1) (moment : α) :
    fullWindows (moments ++ [moment]) =
      fullWindows moments ++ [lastCalls (moments ++ [moment])] := by
  have hlength : (moments ++ [moment]).length = moments.length + 1 := by simp
  have hsplit := Nat.div_add_mod moments.length difficultyAdjustWindow
  have hnext : (moments ++ [moment]).length / difficultyAdjustWindow =
      moments.length / difficultyAdjustWindow + 1 := by
    rw [hlength]
    rw [difficultyAdjustWindow_eq] at h ⊢
    omega
  have hlast : roundOf (moments ++ [moment]) (moments.length / difficultyAdjustWindow) =
      lastCalls (moments ++ [moment]) := by
    have hstart : difficultyAdjustWindow * (moments.length / difficultyAdjustWindow) =
        (moments ++ [moment]).length - difficultyAdjustWindow := by
      rw [difficultyAdjustWindow_eq] at *
      omega
    rw [roundOf, hstart, lastCalls, List.take_of_length_le]
    rw [List.length_drop]
    rw [difficultyAdjustWindow_eq] at *
    omega
  rw [fullWindows, hnext, List.range_succ, List.map_append, List.map_singleton, hlast]
  congr 1
  apply List.map_congr_left
  intro round hround
  exact roundOf_append (List.mem_range.mp hround) [moment]

/-- The direction of an adjustment. -/
theorem sign_cases (adjTs : ℤ) : (0 < adjTs ∧ adjTs.sign = 1) ∨ (adjTs < 0 ∧ adjTs.sign = -1) ∨
    (adjTs = 0 ∧ adjTs.sign = 0) := by
  rcases lt_trichotomy adjTs 0 with h | rfl | h
  · exact Or.inr (Or.inl ⟨h, Int.sign_eq_neg_one_of_neg h⟩)
  · exact Or.inr (Or.inr ⟨rfl, rfl⟩)
  · exact Or.inl ⟨h, Int.sign_eq_one_of_pos h⟩

/-- An adjustment is one move of the walk. -/
theorem boundDifficulty_eq_step {difficulty moved : Difficulty} {adjTs : ℤ}
    (h : moveDifficulty difficulty adjTs = .ok moved) :
    ((boundDifficulty moved).toNat : ℤ) =
      step (48 : ℤ) 224 difficulty.toNat adjTs.sign := by
  have hmoved : (moved.toNat : ℤ) = difficulty.toNat + adjTs.sign := by
    have hsign := sign_cases adjTs
    rcases moveDifficulty_cases h with ⟨hup, hmove⟩ | ⟨hdown, hmove⟩ | ⟨hkeep, rfl⟩ <;> omega
  rw [step, ← hmoved]
  unfold boundDifficulty
  simp only [BitVec.lt_def, minDifficulty_toNat, maxDifficulty_toNat]
  split_ifs
  · rw [minDifficulty_toNat]
    omega
  · rw [maxDifficulty_toNat]
    omega
  · omega

section Runs

variable {cfg : DifficultyConfig} {start s : DifficultyStorage} {moments : List ℕ}

/-- A storage within the bounds holds the difficulty that it reports. -/
theorem DifficultyStorage.InRange.difficulty_mem (hs : s.InRange) :
    s.currentDifficulty = some s.difficulty ∧ (s.difficulty.toNat : ℤ) ∈ Set.Icc (48 : ℤ) 224 := by
  obtain ⟨difficulty, hstored, hlow, hhigh⟩ := hs
  have hreported : s.difficulty = difficulty := by
    rw [DifficultyStorage.difficulty, hstored, Option.getD_some]
  rw [hreported]
  exact ⟨hstored, by omega, by omega⟩

/-- The difficulty follows the walk of the full windows. -/
theorem difficulty_eq_walk (hheight : start.currentHeight.getD 0 = 0)
    (hbound : ∀ moment ∈ moments, moment ≤ u128Max)
    (hrun : moments.foldlM (onTimestampSet cfg) start = .ok s) :
    (s.difficulty.toNat : ℤ) = difficultyWalk cfg start.difficulty.toNat moments := by
  induction moments using List.reverseRecOn generalizing s with
  | nil =>
    obtain rfl := Except.ok.inj hrun
    rfl
  | append_singleton moments moment ih =>
    obtain ⟨before, hearlier, hcall⟩ := Loop.foldlM_concat_eq_ok.mp hrun
    have hbefore := ih (fun t ht => hbound t (List.mem_append_left _ ht)) hearlier
    have hrecorded := recorded_of_run hheight hearlier
    have hinputs := Loop.steps_input hearlier
    have hcount := congrArg List.length hinputs
    rw [List.length_map] at hcount
    have hpointer := hrecorded.height
    rw [hcount] at hpointer
    rw [difficultyWalk] at hbefore ⊢
    obtain ⟨_, -, ⟨hpart, -, hkept⟩ | ⟨hfull, -, -⟩⟩ := onTimestampSet_cases hcall
    · rw [hpointer] at hpart
      rw [fullWindows_concat_of_part hpart.ne, ← hbefore, DifficultyStorage.difficulty, hkept,
        DifficultyStorage.difficulty]
    · -- the last calls are the new window, and the clamp is applied to their differences
      obtain ⟨moved, hmove, hput⟩ := onTimestampSet_adjusts hcall hfull
      have hmeasured := hrecorded.tsDelta_of_full hcall hfull (by rwa [hinputs])
        (uniqueSaturatedInto cfg.targetBlockTime)
      rw [hinputs] at hmeasured
      rw [measuredTime, hmeasured] at hmove
      have hreported : s.difficulty = boundDifficulty moved := by
        rw [DifficultyStorage.difficulty, hput, Option.getD_some]
      rw [hpointer] at hfull
      rw [fullWindows_concat_of_full hfull, List.map_append, walk_append, ← hbefore, hreported,
        boundDifficulty_eq_step hmove]
      rfl

/-- Every run of calls from genesis succeeds, and its difficulty is that of the walk. -/
theorem difficulty_of_run (htarget : cfg.targetBlockTime < 2 ^ 64) {initial : Difficulty}
    (hmin : 48 ≤ initial.toNat) (hmax : initial.toNat ≤ 224)
    (hbound : ∀ moment ∈ moments, moment ≤ u128Max) :
    ∃ s difficulty, moments.foldlM (onTimestampSet cfg) (.genesis initial) = .ok s ∧
      s.currentDifficulty = some difficulty ∧
      (difficulty.toNat : ℤ) = difficultyWalk cfg initial.toNat moments := by
  have hrange : (DifficultyStorage.genesis initial).InRange := ⟨initial, rfl, hmin, hmax⟩
  obtain ⟨s, hrun⟩ := run_returns htarget hrange (Nat.zero_lt_succ 59) moments
  have hs : s.InRange := Loop.foldlM_invariant (fun _ _ _ => onTimestampSet_inRange) hrange hrun
  exact ⟨s, s.difficulty, hrun, hs.difficulty_mem.1, difficulty_eq_walk rfl hbound hrun⟩

/-- Later calls add full windows behind the earlier ones. -/
theorem fullWindows_append {α : Type} (earlier later : List α) :
    ∃ added, fullWindows (earlier ++ later) = fullWindows earlier ++ added ∧
      added.length = (earlier.length + later.length) / difficultyAdjustWindow -
        earlier.length / difficultyAdjustWindow := by
  have hearlier : fullWindows earlier = (fullWindows (earlier ++ later)).take
      (earlier.length / difficultyAdjustWindow) := by
    have hle : earlier.length / difficultyAdjustWindow ≤
        (earlier ++ later).length / difficultyAdjustWindow :=
      Nat.div_le_div_right (by rw [List.length_append]; omega)
    rw [fullWindows, fullWindows, ← List.map_take, List.take_range, Nat.min_eq_left hle]
    apply List.map_congr_left
    intro round hround
    exact (roundOf_append (List.mem_range.mp hround) later).symm
  refine ⟨(fullWindows (earlier ++ later)).drop (earlier.length / difficultyAdjustWindow), ?_, ?_⟩
  · rw [hearlier, List.take_append_drop]
  · rw [List.length_drop, length_fullWindows, List.length_append]

/-- The walk stays in range. -/
theorem difficultyWalk_mem (cfg : DifficultyConfig) {initial : Difficulty}
    (hmin : 48 ≤ initial.toNat) (hmax : initial.toNat ≤ 224) (moments : List ℕ) :
    difficultyWalk cfg initial.toNat moments ∈ Set.Icc (48 : ℤ) 224 :=
  walk_mem ⟨by omega, by omega⟩ _

/-- The walk moves by at most one for each full window that is added. -/
theorem difficultyWalk_near (cfg : DifficultyConfig) {initial : ℤ}
    (hinitial : initial ∈ Set.Icc (48 : ℤ) 224) (earlier later : List ℕ) :
    |difficultyWalk cfg initial (earlier ++ later) - difficultyWalk cfg initial earlier| ≤
      ((earlier.length + later.length) / difficultyAdjustWindow -
        earlier.length / difficultyAdjustWindow : ℕ) := by
  obtain ⟨added, hwindows, hcount⟩ := fullWindows_append earlier later
  have hmoves : ∀ move ∈ added.map (windowMove cfg), |move| ≤ 1 := by
    intro move hmove
    obtain ⟨window, -, rfl⟩ := List.mem_map.mp hmove
    have hsign := sign_cases (windowAdjTs cfg window)
    rw [windowMove, abs_le]
    omega
  have hnear := abs_walk_sub_le (walk_mem hinitial ((fullWindows earlier).map (windowMove cfg)))
    hmoves
  rw [List.length_map, hcount, nsmul_one] at hnear
  rwa [difficultyWalk, difficultyWalk, hwindows, List.map_append, walk_append]

/-- A walk reaches the maximum after as many windows at least as it starts below it. -/
theorem maxDifficulty_needs_windows {initial : ℕ} (hinitial : (initial : ℤ) ∈ Set.Icc (48 : ℤ) 224)
    (hlast : difficultyWalk cfg initial moments = maxDifficulty.toNat) :
    difficultyAdjustWindow * (224 - initial) ≤ moments.length := by
  have hnear := difficultyWalk_near cfg hinitial [] moments
  have hstart : difficultyWalk cfg initial [] = initial := rfl
  rw [List.nil_append, hlast, hstart, maxDifficulty_toNat, List.length_nil, Nat.zero_div,
    Nat.sub_zero, Nat.zero_add, abs_le] at hnear
  rw [difficultyAdjustWindow_eq] at hnear ⊢
  omega

/-- **The difficulty changes slowly.** Between any two points of a run from genesis, the
difficulty changes by at most one for each window that is completed in between. So it takes
at least as many windows to reach the maximum as the genesis difficulty is below it. -/
theorem difficulty_rate_limited (htarget : cfg.targetBlockTime < 2 ^ 64) {initial : Difficulty}
    (hmin : 48 ≤ initial.toNat) (hmax : initial.toNat ≤ 224) {earlier later : List ℕ}
    (hbound : ∀ moment ∈ earlier ++ later, moment ≤ u128Max) :
    ∃ s s' difficulty difficulty', earlier.foldlM (onTimestampSet cfg) (.genesis initial) = .ok s ∧
      later.foldlM (onTimestampSet cfg) s = .ok s' ∧ s.currentDifficulty = some difficulty ∧
      s'.currentDifficulty = some difficulty' ∧
      |(difficulty'.toNat : ℤ) - difficulty.toNat| ≤
        ((earlier.length + later.length) / difficultyAdjustWindow -
          earlier.length / difficultyAdjustWindow : ℕ) ∧
      (difficulty' = maxDifficulty →
        difficultyAdjustWindow * (224 - initial.toNat) ≤ earlier.length + later.length) := by
  obtain ⟨s, difficulty, hrun, hstored, hwalk⟩ := difficulty_of_run htarget hmin hmax
    fun moment hmoment => hbound moment (List.mem_append_left _ hmoment)
  obtain ⟨s', difficulty', hrun', hstored', hwalk'⟩ := difficulty_of_run htarget hmin hmax hbound
  have hinitial : (initial.toNat : ℤ) ∈ Set.Icc (48 : ℤ) 224 := ⟨by omega, by omega⟩
  refine ⟨s, s', difficulty, difficulty', hrun, ?_, hstored, hstored', ?_, ?_⟩
  · rw [List.foldlM_append, hrun] at hrun'
    exact hrun'
  · rw [hwalk, hwalk']
    exact difficultyWalk_near cfg hinitial earlier later
  · intro hlast
    rw [hlast] at hwalk'
    rw [← List.length_append]
    exact maxDifficulty_needs_windows hinitial hwalk'.symm

end Runs

section Gaps

theorem gaps_cons_cons (x y : ℕ) (moments : List ℕ) :
    gaps (x :: y :: moments) = (y - x) :: gaps (y :: moments) := rfl

/-- The first moments have the first gaps. -/
theorem gaps_take (moments : List ℕ) (n : ℕ) :
    gaps (moments.take (n + 1)) = (gaps moments).take n := by
  induction moments generalizing n with
  | nil => simp [gaps, consecutive]
  | cons x moments ih =>
    cases moments with
    | nil => simp [gaps, consecutive]
    | cons y moments =>
      cases n with
      | zero => simp [gaps, consecutive]
      | succ n =>
        rw [List.take_succ_cons, List.take_succ_cons, gaps_cons_cons, gaps_cons_cons,
          List.take_succ_cons, ← List.take_succ_cons, ih]

/-- The last moments have the last gaps. -/
theorem gaps_drop (moments : List ℕ) (n : ℕ) : gaps (moments.drop n) = (gaps moments).drop n := by
  induction n generalizing moments with
  | zero => rfl
  | succ n ih =>
    rcases moments with _ | ⟨x, _ | ⟨y, moments⟩⟩
    · simp [gaps, consecutive]
    · simp [gaps, consecutive]
    · rw [List.drop_succ_cons, gaps_cons_cons, List.drop_succ_cons, ih]

/-- Longer gaps in a run are longer gaps in each of its windows. -/
theorem forall₂_gaps_roundOf {moments₁ moments₂ : List ℕ}
    (h : List.Forall₂ (· ≤ ·) (gaps moments₁) (gaps moments₂)) (round : ℕ) :
    List.Forall₂ (· ≤ ·) (gaps (roundOf moments₁ round)) (gaps (roundOf moments₂ round)) := by
  have hround (moments : List ℕ) : gaps (roundOf moments round) =
      ((gaps moments).drop (difficultyAdjustWindow * round)).take 59 := by
    rw [roundOf, ← gaps_drop]
    exact gaps_take _ 59
  rw [hround, hround]
  exact List.forall₂_take _ (List.forall₂_drop _ h)

/-- A longer time never moves the difficulty up more. -/
theorem windowMove_le {cfg : DifficultyConfig} (hclamp : ∀ target, Antitone (cfg.clamp target))
    {window₁ window₂ : List ℕ} (h : List.Forall₂ (· ≤ ·) (gaps window₁) (gaps window₂)) :
    windowMove cfg window₂ ≤ windowMove cfg window₁ := by
  have hadj : windowAdjTs cfg window₂ ≤ windowAdjTs cfg window₁ :=
    hclamp _ (measured_mono (sum_differences_mono h))
  have hsign₁ := sign_cases (windowAdjTs cfg window₁)
  have hsign₂ := sign_cases (windowAdjTs cfg window₂)
  rw [windowMove, windowMove]
  omega

/-- **Slower runs never lead to a higher difficulty.** Take two runs of as many calls from
genesis difficulties of which the second is not higher. If every time between two calls of
the first run is at most the corresponding one of the second, the difficulty after the second
is at most the one after the first. The clamp must not grow with the measured time. -/
theorem slower_runs_never_harder {cfg : DifficultyConfig} (htarget : cfg.targetBlockTime < 2 ^ 64)
    (hclamp : ∀ target, Antitone (cfg.clamp target)) {initial₁ initial₂ : Difficulty}
    (hmin : 48 ≤ initial₂.toNat) (hle : initial₂ ≤ initial₁) (hmax : initial₁.toNat ≤ 224)
    {moments₁ moments₂ : List ℕ} (hlength : moments₁.length = moments₂.length)
    (hbound₁ : ∀ moment ∈ moments₁, moment ≤ u128Max)
    (hbound₂ : ∀ moment ∈ moments₂, moment ≤ u128Max)
    (hgaps : List.Forall₂ (· ≤ ·) (gaps moments₁) (gaps moments₂)) :
    ∃ s₁ s₂ d₁ d₂, moments₁.foldlM (onTimestampSet cfg) (.genesis initial₁) = .ok s₁ ∧
      moments₂.foldlM (onTimestampSet cfg) (.genesis initial₂) = .ok s₂ ∧
      s₁.currentDifficulty = some d₁ ∧ s₂.currentDifficulty = some d₂ ∧ d₂ ≤ d₁ := by
  have hinitial : initial₂.toNat ≤ initial₁.toNat := BitVec.le_def.mp hle
  obtain ⟨s₁, d₁, hrun₁, hd₁, hwalk₁⟩ :=
    difficulty_of_run htarget (hmin.trans hinitial) hmax hbound₁
  obtain ⟨s₂, d₂, hrun₂, hd₂, hwalk₂⟩ :=
    difficulty_of_run htarget hmin (hinitial.trans hmax) hbound₂
  refine ⟨s₁, s₂, d₁, d₂, hrun₁, hrun₂, hd₁, hd₂, BitVec.le_def.mpr ?_⟩
  have hmoves : List.Forall₂ (· ≤ ·) ((fullWindows moments₂).map (windowMove cfg))
      ((fullWindows moments₁).map (windowMove cfg)) := by
    rw [fullWindows, fullWindows, hlength, List.map_map, List.map_map, List.forall₂_map_left_iff,
      List.forall₂_map_right_iff, List.forall₂_same]
    intro round _
    exact windowMove_le hclamp (forall₂_gaps_roundOf hgaps round)
  have hstart : (initial₂.toNat : ℤ) ≤ initial₁.toNat := by omega
  have hmono : (d₂.toNat : ℤ) ≤ d₁.toNat := by
    rw [hwalk₁, hwalk₂]
    exact walk_mono hstart hmoves
  omega

end Gaps

section Keys

variable [Deps]

/-- **A young chain has keys.** After fewer calls from genesis than it takes to reach the
maximum difficulty, every seal has a key of the length of the current difficulty. -/
theorem young_chain_hasKey (hbits : KeysHaveBitLength) {cfg : DifficultyConfig}
    (htarget : cfg.targetBlockTime < 2 ^ 64) {initial : Difficulty} (hmin : 48 ≤ initial.toNat)
    (hmax : initial.toNat ≤ 224) {moments : List ℕ}
    (hbound : ∀ moment ∈ moments, moment ≤ u128Max)
    (hyoung : moments.length < difficultyAdjustWindow * (224 - initial.toNat)) :
    ∃ s difficulty, moments.foldlM (onTimestampSet cfg) (.genesis initial) = .ok s ∧
      s.currentDifficulty = some difficulty ∧ ∀ parent : Seal, parent.HasKeyAt difficulty := by
  obtain ⟨s, difficulty, hrun, hstored, hwalk⟩ := difficulty_of_run htarget hmin hmax hbound
  have hinitial : (initial.toNat : ℤ) ∈ Set.Icc (48 : ℤ) 224 := ⟨by omega, by omega⟩
  obtain ⟨hlow, hhigh⟩ := difficultyWalk_mem cfg hmin hmax moments
  rw [← hwalk] at hlow hhigh
  refine ⟨s, difficulty, hrun, hstored, fun parent => ?_⟩
  refine (hasKeyAt_iff hbits parent (by omega) (by omega)).mpr ?_
  rintro rfl
  have hnear := maxDifficulty_needs_windows hinitial hwalk.symm
  omega

end Keys

section Sample

/-- Blocks that are always too fast raise the difficulty by one in one window. -/
theorem fastBlocks_one_window : ∃ s s' difficulty difficulty',
    [].foldlM (onTimestampSet fastBlocks) (.genesis 223) = .ok s ∧
      (List.replicate 60 0).foldlM (onTimestampSet fastBlocks) s = .ok s' ∧
      s.currentDifficulty = some difficulty ∧ s'.currentDifficulty = some difficulty' ∧
      |(difficulty'.toNat : ℤ) - difficulty.toNat| ≤ 1 := by
  obtain ⟨s, s', difficulty, difficulty', hrun, hrun', hstored, hstored', hnear, -⟩ :=
    @difficulty_rate_limited fastBlocks (by decide) 223 (by decide) (by decide) []
      (List.replicate 60 0) (by decide)
  exact ⟨s, s', difficulty, difficulty', hrun, hrun', hstored, hstored', hnear⟩

/-- Blocks at one moment against blocks two minutes apart, from a lower difficulty. -/
theorem slow_run_below_fast_run : ∃ s₁ s₂ d₁ d₂,
    (List.replicate 60 0).foldlM (onTimestampSet ⟨blockTimeSec, exactClamp⟩) (.genesis 57) =
      .ok s₁ ∧
    ((List.range 60).map (120000 * ·)).foldlM (onTimestampSet ⟨blockTimeSec, exactClamp⟩)
      (.genesis 56) = .ok s₂ ∧
    s₁.currentDifficulty = some d₁ ∧ s₂.currentDifficulty = some d₂ ∧ d₂ ≤ d₁ :=
  @slower_runs_never_harder ⟨blockTimeSec, exactClamp⟩ (by decide) exactClamp_antitone 57 56
    (by decide) (by decide) (by decide) _ _ (by decide) (by decide) (by decide) (by decide)

attribute [local instance] Deps.sample

/-- From difficulty 223, a chain of fast blocks has keys for 59 blocks. -/
theorem fastBlocks_young_chain : ∃ s difficulty,
    (List.replicate 59 0).foldlM (onTimestampSet fastBlocks) (.genesis 223) = .ok s ∧
      s.currentDifficulty = some difficulty ∧ ∀ parent : Seal, parent.HasKeyAt difficulty :=
  @young_chain_hasKey Deps.sample Deps.sample.keysHaveBitLength fastBlocks (by decide) 223
    (by decide) (by decide) (List.replicate 59 0) (by decide) (by decide)

end Sample

end TrexPow
