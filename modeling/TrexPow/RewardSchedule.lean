import TrexPow.RewardsPallet

/-!
# The reward schedule

Every initialization of a block replays the changes up to its number, so the reward
follows the schedule. The changes it has replayed are removed from clones only, so they
stay stored and are replayed in every later block.
-/

namespace TrexPow

open RewardsConfig Timetable
open Std (TreeMap)

section Schedule

variable [RewardsConfig]

/-- The stored change for a block number. -/
def RewardsStorage.changeAt (s : RewardsStorage) (number : ℕ) : Option ℕ :=
  s.rewardChanges.bind fun table => table[number]?

theorem RewardsStorage.changeAt_eq (s : RewardsStorage) (number : ℕ) :
    s.changeAt number = (s.rewardChanges.getD ∅)[number]? := by
  cases hchanges : s.rewardChanges <;> simp [changeAt, hchanges]

theorem RewardsStorage.mem_due {s : RewardsStorage} {now number value : ℕ} :
    (number, value) ∈ s.due now ↔ s.changeAt number = some value ∧ number ≤ now := by
  rw [changeAt_eq, due, Timetable.mem_due]

/-- A call that no storage lets succeed. -/
def ScheduleCall.Fails (call : ScheduleCall) : Prop := ∀ s, (call.dispatch s).1 ≠ .ok ()

theorem ScheduleCall.Fails.not_accepted {call : ScheduleCall} (h : call.Fails)
    (s : RewardsStorage) : ¬call.Accepted := by
  intro haccepted
  apply h s
  rw [call.dispatch_of_accepted haccepted]

/-- The storage after a call that succeeded. -/
theorem ScheduleCall.eq_scheduled {call : ScheduleCall} {s s' : RewardsStorage}
    (h : call.dispatch s = (.ok (), s')) : s.scheduled call = s' := by
  by_cases haccepted : call.Accepted
  · rw [call.dispatch_of_accepted haccepted] at h
    exact congrArg Prod.snd h
  · obtain ⟨error, hdispatch⟩ := call.dispatch_of_not_accepted haccepted s
    rw [hdispatch] at h
    cases h

/-- Calls that fail change nothing. -/
theorem runCalls_eq_of_fails {calls : List ScheduleCall} (h : ∀ call ∈ calls, call.Fails)
    (s : RewardsStorage) : runCalls s calls = s :=
  runCalls_eq_self (fun call hcall => (h call hcall).not_accepted s) s

/-- No call of the blocks succeeds. -/
def NoSchedule (blocks : List RewardsBlock) : Prop :=
  ∀ block ∈ blocks, ∀ call ∈ block.calls, call.Fails

theorem noSchedule_cons {block : RewardsBlock} {blocks : List RewardsBlock} :
    NoSchedule (block :: blocks) ↔ (∀ call ∈ block.calls, call.Fails) ∧ NoSchedule blocks :=
  List.forall_mem_cons

/-- A block without a call that succeeds is its initialization and its finalization. -/
theorem RewardsStorage.afterBlock_of_fails {block : RewardsBlock}
    (h : ∀ call ∈ block.calls, call.Fails) (s : RewardsStorage) :
    s.afterBlock block = onFinalize (s.initialized block.number block.logs) := by
  rw [afterBlock, runCalls_eq_of_fails h]

/-! ### Following the schedule -/

/-- The schedule is stored, and the reward is still the initial one as long as no
change has come due. -/
structure RewardsStorage.Follows (s : RewardsStorage) (table : TreeMap ℕ ℕ) (reward now : ℕ) :
    Prop where
  stored : s.rewardChanges = some table
  initial : (∀ number ∈ table, now < number) → s.reward = some reward

/-- The initialization of a block up to the given number keeps to the schedule. -/
theorem RewardsStorage.Follows.initialized {s : RewardsStorage} {table : TreeMap ℕ ℕ}
    {reward now number : ℕ} (hs : s.Follows table reward now) (hle : number ≤ now)
    (logs : List DigestItem) : (s.initialized number logs).Follows table reward now := by
  refine ⟨hs.stored, ?_⟩
  intro hlater
  have hdue : s.due number = [] := by
    rw [RewardsStorage.due, hs.stored]
    apply due_eq_nil_iff.mpr
    intro time htime
    exact hle.trans_lt (hlater time htime)
  rw [RewardsStorage.initialized, hdue]
  exact hs.initial hlater

/-- So does a block without a call that succeeds. -/
theorem RewardsStorage.Follows.afterBlock {s : RewardsStorage} {table : TreeMap ℕ ℕ}
    {reward now : ℕ} (hs : s.Follows table reward now) {block : RewardsBlock}
    (hcalls : ∀ call ∈ block.calls, call.Fails) (hle : block.number ≤ now) :
    (s.afterBlock block).Follows table reward now := by
  have hinit := hs.initialized hle block.logs
  rw [RewardsStorage.afterBlock_of_fails hcalls, onFinalize_eq]
  exact ⟨hinit.stored, hinit.initial⟩

theorem RewardsStorage.Follows.run {s : RewardsStorage} {table : TreeMap ℕ ℕ} {reward now : ℕ}
    (hs : s.Follows table reward now) {blocks : List RewardsBlock} (hcalls : NoSchedule blocks)
    (hle : ∀ block ∈ blocks, block.number ≤ now) :
    (blocks.foldl RewardsStorage.afterBlock s).Follows table reward now := by
  induction blocks generalizing s with
  | nil => exact hs
  | cons block blocks ih =>
    obtain ⟨hblock, hrest⟩ := noSchedule_cons.mp hcalls
    obtain ⟨hnumber, hnumbers⟩ := List.forall_mem_cons.mp hle
    exact ih (hs.afterBlock hblock hnumber) hrest hnumbers

/-- The reward that the initialization of block `now` leaves. -/
theorem RewardsStorage.Follows.reward_eq {s : RewardsStorage} {table : TreeMap ℕ ℕ}
    {reward now : ℕ} (hs : s.Follows table reward now) (logs : List DigestItem) :
    (∀ number value, table[number]? = some value → number ≤ now →
      (∀ other ∈ table, other ≤ now → other ≤ number) →
      (s.initialized now logs).reward = some value) ∧
    ((∀ number ∈ table, now < number) → (s.initialized now logs).reward = some reward) := by
  constructor
  · intro number value hentry hdue hlatest
    have hlast : (s.due now).getLast? = some (number, value) := by
      rw [RewardsStorage.due, hs.stored]
      exact getLast?_due hentry hdue hlatest
    rw [RewardsStorage.initialized, hlast]
    rfl
  · exact (hs.initialized le_rfl logs).initial

/-- **The reward follows the schedule.** After a successful `set_schedule`, and blocks up
to the number `now` without another one, the initialization of block `now` leaves the
last given value of the latest change that is due, and the initial reward when none is
due. -/
theorem reward_follows_schedule {call : ScheduleCall} {s s₁ : RewardsStorage}
    (hset : call.dispatch s = (.ok (), s₁)) {rest : List ScheduleCall}
    (hrest : ∀ other ∈ rest, other.Fails) {blocks : List RewardsBlock}
    (hcalls : NoSchedule blocks) {now : ℕ} (hle : ∀ block ∈ blocks, block.number ≤ now)
    (logs : List DigestItem) :
    ∃ s₂ s₃, blocks.foldlM runBlock (onFinalize (runCalls s₁ rest)) = .ok s₂ ∧
      onInitialize now logs s₂ = .ok s₃ ∧
      (∀ number value, LastGiven call.rewardChanges number value → number ≤ now →
        (∀ other otherValue, LastGiven call.rewardChanges other otherValue → other ≤ now →
          other ≤ number) → s₃.reward = some value) ∧
      ((∀ number value, LastGiven call.rewardChanges number value → now < number) →
        s₃.reward = some call.reward) := by
  obtain rfl := ScheduleCall.eq_scheduled hset
  have hstart : (onFinalize (runCalls (s.scheduled call) rest)).Follows
      (TreeMap.ofList call.rewardChanges compare) call.reward now := by
    rw [runCalls_eq_of_fails hrest, onFinalize_eq]
    exact ⟨rfl, fun _ => rfl⟩
  obtain ⟨hlatest, hinitial⟩ := (hstart.run hcalls hle).reward_eq logs
  refine ⟨_, _, runBlocks_eq _ _, onInitialize_eq _ _ _, ?_, ?_⟩
  · intro number value hgiven hdue hothers
    apply hlatest number value (getElem?_ofList_eq_some.mpr hgiven) hdue
    intro other hother
    obtain ⟨otherValue, hotherGiven⟩ := mem_ofList_iff.mp hother
    exact hothers other otherValue hotherGiven
  · intro hlater
    apply hinitial
    intro number hnumber
    obtain ⟨value, hgiven⟩ := mem_ofList_iff.mp hnumber
    exact hlater number value hgiven

/-! ### Consuming the schedule -/

/-- The initialization of the block removes the changes up to its number, and no others. -/
def ConsumesDue (s : RewardsStorage) (block : RewardsBlock) : Prop :=
  ∃ s', onInitialize block.number block.logs s = .ok s' ∧
    ∀ number, s'.changeAt number = if number ≤ block.number then none else s.changeAt number

/-- No stored change is due in the block. -/
def NothingDue (s : RewardsStorage) (block : RewardsBlock) : Prop :=
  ∀ number ≤ block.number, s.changeAt number = none

/-- The changes that the blocks of a run apply, in order. -/
def applied (s : RewardsStorage) (blocks : List RewardsBlock) : List (ℕ × ℕ) :=
  (Loop.steps runBlock blocks s).flatMap fun step => step.before.due step.input.number

theorem applied_cons (s : RewardsStorage) (block : RewardsBlock) (blocks : List RewardsBlock) :
    applied s (block :: blocks) = s.due block.number ++ applied (s.afterBlock block) blocks := by
  rw [applied, Loop.steps, runBlock_eq, List.flatMap_cons, applied]

/-- The events of a run without a successful call report the applied changes. -/
theorem run_events {blocks : List RewardsBlock} (hcalls : NoSchedule blocks)
    (s : RewardsStorage) :
    (blocks.foldl RewardsStorage.afterBlock s).events =
      s.events ++ (applied s blocks).map fun entry => .rewardChanged entry.2 := by
  induction blocks generalizing s with
  | nil => simp [applied, Loop.steps]
  | cons block blocks ih =>
    obtain ⟨hblock, hrest⟩ := noSchedule_cons.mp hcalls
    have hevents : (s.afterBlock block).events =
        s.events ++ (s.due block.number).map fun entry => .rewardChanged entry.2 := by
      rw [RewardsStorage.afterBlock_of_fails hblock, onFinalize_eq]
      rfl
    rw [List.foldl_cons, ih hrest, hevents, applied_cons, List.map_append, List.append_assoc]

/-- A run consumes the schedule: every block removes what is due and nothing else, and
without another successful call every change is applied at most once. -/
structure ConsumesOnce (s : RewardsStorage) (blocks : List RewardsBlock) : Prop where
  consumes : Loop.AllSteps runBlock ConsumesDue blocks s
  once : NoSchedule blocks → (applied s blocks).Nodup

/-- The initialization keeps all changes, so it consumes what is due only if nothing is. -/
theorem consumesDue_iff {s : RewardsStorage} {block : RewardsBlock} :
    ConsumesDue s block ↔ NothingDue s block := by
  constructor
  · rintro ⟨s', hinit, hchanges⟩ number hle
    obtain rfl := Except.ok.inj ((onInitialize_eq _ _ _).symm.trans hinit)
    have hgone := hchanges number
    rwa [if_pos hle] at hgone
  · intro hnothing
    refine ⟨_, onInitialize_eq _ _ _, ?_⟩
    intro number
    split_ifs with hle
    · exact hnothing number hle
    · rfl

/-- A run in which nothing is due applies nothing. -/
theorem applied_eq_nil {s : RewardsStorage} {blocks : List RewardsBlock}
    (h : Loop.AllSteps runBlock NothingDue blocks s) : applied s blocks = [] := by
  induction blocks generalizing s with
  | nil => rfl
  | cons block blocks ih =>
    obtain ⟨hnothing, hrest⟩ := h
    rw [runBlock_eq] at hrest
    have hdue : s.due block.number = [] := by
      apply List.eq_nil_iff_forall_not_mem.mpr
      rintro ⟨number, value⟩ hmem
      obtain ⟨hentry, hle⟩ := RewardsStorage.mem_due.mp hmem
      rw [hnothing number hle] at hentry
      cases hentry
    rw [applied_cons, hdue, ih hrest, List.append_nil]

/-- Nothing is due below all numbers of the stored changes. -/
theorem nothingDue_iff {s : RewardsStorage} {table : TreeMap ℕ ℕ}
    (hstored : s.rewardChanges = some table) {block : RewardsBlock} :
    NothingDue s block ↔ ∀ number ∈ table, block.number < number := by
  have hat : ∀ number, s.changeAt number = table[number]? := by
    intro number
    rw [RewardsStorage.changeAt, hstored, Option.bind_some]
  constructor
  · intro hnothing number hmem
    by_contra hle
    have hnone := hnothing number (not_lt.mp hle)
    rw [hat] at hnone
    rw [TreeMap.mem_iff_isSome_getElem?, hnone] at hmem
    cases hmem
  · intro hlater number hle
    rw [hat, ← Option.not_isSome_iff_eq_none, ← TreeMap.mem_iff_isSome_getElem?]
    intro hmem
    exact absurd hle (not_le.mpr (hlater number hmem))

/-- While no call succeeds, nothing is due as long as the blocks stay below all changes. -/
theorem allSteps_nothingDue_iff {table : TreeMap ℕ ℕ} {blocks : List RewardsBlock}
    (hcalls : NoSchedule blocks) {s : RewardsStorage} (hstored : s.rewardChanges = some table) :
    Loop.AllSteps runBlock NothingDue blocks s ↔
      ∀ block ∈ blocks, ∀ number ∈ table, block.number < number := by
  induction blocks generalizing s with
  | nil => exact iff_of_true trivial fun _ h => absurd h List.not_mem_nil
  | cons block blocks ih =>
    obtain ⟨hblock, hrest⟩ := noSchedule_cons.mp hcalls
    have hafter : (s.afterBlock block).rewardChanges = some table := by
      rw [RewardsStorage.afterBlock_of_fails hblock, onFinalize_eq]
      exact hstored
    rw [Loop.AllSteps, runBlock_eq, nothingDue_iff hstored, List.forall_mem_cons]
    apply and_congr_right'
    exact ih hrest hafter

/-- **Consuming the schedule.** A run of blocks consumes its schedule exactly when no
block finds a stored change that is due. After a successful `set_schedule` this means
that the run stays below all of its changes. -/
theorem consumesOnce_iff :
    (∀ (s : RewardsStorage) (blocks : List RewardsBlock),
      ConsumesOnce s blocks ↔ Loop.AllSteps runBlock NothingDue blocks s) ∧
    ∀ (call : ScheduleCall) (s s₁ : RewardsStorage) (blocks : List RewardsBlock),
      call.dispatch s = (.ok (), s₁) → NoSchedule blocks →
      (ConsumesOnce s₁ blocks ↔ ∀ block ∈ blocks, ∀ number value,
        LastGiven call.rewardChanges number value → block.number < number) := by
  have hrun : ∀ (s : RewardsStorage) (blocks : List RewardsBlock),
      ConsumesOnce s blocks ↔ Loop.AllSteps runBlock NothingDue blocks s := by
    intro s blocks
    constructor
    · intro h
      exact (Loop.allSteps_congr fun _ _ => consumesDue_iff).mp h.consumes
    · intro h
      refine ⟨(Loop.allSteps_congr fun _ _ => consumesDue_iff).mpr h, ?_⟩
      intro _
      rw [applied_eq_nil h]
      exact List.nodup_nil
  refine ⟨hrun, ?_⟩
  intro call s s₁ blocks hset hcalls
  obtain rfl := ScheduleCall.eq_scheduled hset
  rw [hrun, allSteps_nothingDue_iff hcalls rfl]
  simp only [mem_ofList_iff, forall_exists_index]

end Schedule

section Sample

attribute [local instance] RewardsConfig.sample

/-- Root sets a reward of 60 and four changes, out of order. -/
def sampleCall : ScheduleCall := ⟨.root, 60, [(50, 20), (40, 25), (20, 50), (10, 100)]⟩

theorem sampleCall_dispatch (s : RewardsStorage) :
    sampleCall.dispatch s = (.ok (), s.scheduled sampleCall) :=
  sampleCall.dispatch_of_accepted ⟨rfl, by decide, by decide⟩ s

/-- Blocks without calls and without a digest. -/
def emptyBlocks (numbers : List ℕ) : List RewardsBlock := numbers.map fun number => ⟨number, [], []⟩

theorem emptyBlocks_noSchedule (numbers : List ℕ) : NoSchedule (emptyBlocks numbers) := by
  intro block hblock call hcall
  obtain ⟨number, -, rfl⟩ := List.mem_map.mp hblock
  exact absurd hcall List.not_mem_nil

/-- Block 40 starts with the reward that was set for it. -/
theorem sampleCall_reward : ∃ s₂ s₃,
    (emptyBlocks [9, 10, 20, 39]).foldlM runBlock
      (onFinalize ((RewardsStorage.genesis 60 (0, fun _ => 0)).scheduled sampleCall)) = .ok s₂ ∧
    onInitialize 40 [] s₂ = .ok s₃ ∧ s₃.reward = some 25 := by
  obtain ⟨s₂, s₃, hrun, hinit, hlatest, -⟩ := reward_follows_schedule
    (sampleCall_dispatch (.genesis 60 (0, fun _ => 0)))
    (fun other (h : other ∈ []) => absurd h List.not_mem_nil)
    (emptyBlocks_noSchedule [9, 10, 20, 39])
    (show ∀ block ∈ emptyBlocks [9, 10, 20, 39], block.number ≤ 40 by decide) []
  refine ⟨s₂, s₃, hrun, hinit, ?_⟩
  apply hlatest 40 25 ⟨[(50, 20)], [(20, 50), (10, 100)], rfl, by decide⟩ le_rfl
  intro _ _ _ hle
  exact hle

/-- The run up to block 9 consumes the schedule, because nothing comes due in it. -/
theorem sampleCall_consumed :
    ConsumesOnce ((RewardsStorage.genesis 60 (0, fun _ => 0)).scheduled sampleCall)
      (emptyBlocks [2, 9]) := by
  apply (consumesOnce_iff.2 sampleCall _ _ _ (sampleCall_dispatch _)
    (emptyBlocks_noSchedule _)).mpr
  intro block hblock number value hgiven
  have hnumber : 10 ≤ number := by
    obtain ⟨earlier, later, hsplit, -⟩ := hgiven
    have hmem : (number, value) ∈ sampleCall.rewardChanges := by
      rw [hsplit]
      simp
    simp [sampleCall] at hmem
    omega
  obtain ⟨given, hmem, rfl⟩ := List.mem_map.mp hblock
  simp at hmem
  change given < number
  omega

/-- In blocks 10 and 11 the change for block 10 is applied twice. -/
theorem schedule_not_consumed :
    ¬∀ (call : ScheduleCall) (s s₁ : RewardsStorage) (blocks : List RewardsBlock),
      call.dispatch s = (.ok (), s₁) → NoSchedule blocks →
      (blocks.map RewardsBlock.number).Pairwise (· < ·) → ConsumesOnce s₁ blocks := by
  intro h
  have honce := (h sampleCall (.genesis 60 (0, fun _ => 0)) _ (emptyBlocks [10, 11])
    (sampleCall_dispatch _) (emptyBlocks_noSchedule _) (by decide)).once
    (emptyBlocks_noSchedule _)
  revert honce
  decide

end Sample

end TrexPow
