import TrexPow.RewardsPallet

/-!
# Reward accounting

Between blocks no author is stored, so a block pays the author that its own digest
names, and pays the reward that is stored when the block ends. A reward that starts
at the minimum balance or above stays there, as do all scheduled changes.
-/

namespace TrexPow

open RewardsConfig Timetable
open Std (TreeMap)

section Accounting

variable [RewardsConfig]

/-! ### Payments -/

/-- Between blocks no author is stored, and a reward is. -/
structure RewardsStorage.Settled (s : RewardsStorage) : Prop where
  author_eq : s.author = none
  has_reward : s.reward.isSome

theorem RewardsStorage.afterBlock_reward (s : RewardsStorage) (block : RewardsBlock) :
    (s.afterBlock block).reward =
      (runCalls (s.initialized block.number block.logs) block.calls).reward := by
  rw [afterBlock, onFinalize_eq]

/-- A block leaves no author and some reward behind. -/
theorem RewardsStorage.Settled.afterBlock {s : RewardsStorage} (hs : s.Settled)
    (block : RewardsBlock) : (s.afterBlock block).Settled := by
  constructor
  · rw [RewardsStorage.afterBlock, onFinalize_eq]
  · rw [RewardsStorage.afterBlock_reward]
    apply runCalls_invariant (I := fun t => t.reward.isSome)
    · intro call _ _ t _
      rfl
    · rw [RewardsStorage.initialized, Option.isSome_or, hs.has_reward, Bool.or_true]

/-- What a block pays from a settled state. -/
theorem RewardsStorage.Settled.afterBlock_ledger {s : RewardsStorage} (hs : s.Settled)
    (block : RewardsBlock) :
    (s.afterBlock block).ledger = (findAuthor block.logs).elim s.ledger fun author =>
      depositCreating s.ledger author ((s.afterBlock block).reward.getD 0) := by
  rw [RewardsStorage.afterBlock_reward, RewardsStorage.afterBlock, onFinalize_eq]
  simp only [runCalls_author, runCalls_ledger, RewardsStorage.initialized, hs.author_eq,
    Option.or_none]

/-- **Payment.** In every run from genesis, a block whose digest names an author pays
the reward that is stored at its end to the author that is named first, and a block
whose digest names none pays nothing. No author is left behind. -/
theorem block_pays_author (hdeposit : DepositCredits) (rewards : ℕ) (ledger : Ledger)
    (blocks : List RewardsBlock) (block : RewardsBlock) :
    ∃ s s' reward, blocks.foldlM runBlock (.genesis rewards ledger) = .ok s ∧
      runBlock s block = .ok s' ∧ s.author = none ∧ s'.author = none ∧
      s'.reward = some reward ∧
      ((∀ item ∈ block.logs, ∀ who, ¬item.Names who) → s'.ledger = s.ledger) ∧
      ∀ author, FirstNamed block.logs author →
        s'.ledger = depositCreating s.ledger author reward ∧
        (minimumBalance ≤ reward → freeBalance s.ledger author + reward ≤ maxBalance →
          totalIssuance s.ledger + reward ≤ maxBalance →
          Credited s.ledger s'.ledger author reward) := by
  have hstep : ∀ s block, RewardsStorage.Settled s →
      ∃ s', runBlock s block = .ok s' ∧ s'.Settled := by
    intro s block hs
    exact ⟨_, runBlock_eq s block, hs.afterBlock block⟩
  obtain ⟨s, hrun, hs⟩ := Loop.foldlM_total hstep blocks
    (s := .genesis rewards ledger) ⟨rfl, rfl⟩
  have hend := hs.afterBlock block
  obtain ⟨reward, hreward⟩ := Option.isSome_iff_exists.mp hend.has_reward
  have hledger := hs.afterBlock_ledger block
  rw [hreward, Option.getD_some] at hledger
  refine ⟨s, s.afterBlock block, reward, hrun, runBlock_eq s block, hs.author_eq, hend.author_eq,
    hreward, ?_, ?_⟩
  · intro hnone
    rw [hledger, findAuthor_eq_none_iff.mpr hnone]
    rfl
  · intro author hfirst
    rw [findAuthor_eq_some_iff.mpr hfirst, Option.elim_some] at hledger
    refine ⟨hledger, ?_⟩
    intro hmin hfree hissued
    rw [hledger]
    exact hdeposit s.ledger author reward hmin hfree hissued

/-! ### Payable rewards -/

/-- The reward and all scheduled changes are at least the minimum balance. -/
structure RewardsStorage.Payable (s : RewardsStorage) : Prop where
  reward : ∃ reward, s.reward = some reward ∧ minimumBalance ≤ reward
  changes : ∀ table, s.rewardChanges = some table → ∀ (number value : ℕ),
    table[number]? = some value → minimumBalance ≤ value

/-- The initialization of a block moves a payable change into the reward. -/
theorem RewardsStorage.Payable.initialized {s : RewardsStorage} (hs : s.Payable) (now : ℕ)
    (logs : List DigestItem) : (s.initialized now logs).Payable := by
  refine ⟨?_, hs.changes⟩
  change ∃ reward, ((s.due now).getLast?.map Prod.snd).or s.reward = some reward ∧ _
  cases hlast : (s.due now).getLast? with
  | none => exact hs.reward
  | some entry =>
    obtain ⟨number, value⟩ := entry
    refine ⟨value, rfl, ?_⟩
    have hmem : (number, value) ∈ s.due now := List.mem_of_getLast? hlast
    obtain ⟨hentry, -⟩ := mem_due.mp hmem
    cases hchanges : s.rewardChanges with
    | none =>
      rw [hchanges] at hentry
      simp at hentry
    | some table =>
      rw [hchanges, Option.getD_some] at hentry
      exact hs.changes table hchanges number value hentry

/-- The condition for success, in terms of the changes as they were given. -/
theorem ScheduleCall.accepted_iff {call : ScheduleCall} :
    call.Accepted ↔ intoRaw call.origin = some .root ∧ minimumBalance ≤ call.reward ∧
      ∀ number value, LastGiven call.rewardChanges number value → minimumBalance ≤ value := by
  constructor
  · rintro ⟨hroot, hreward, hchanges⟩
    refine ⟨hroot, hreward, ?_⟩
    intro number value hlast
    apply hchanges (number, value)
    rw [TreeMap.mem_toList_iff_getElem?_eq_some]
    exact getElem?_ofList_eq_some.mpr hlast
  · rintro ⟨hroot, hreward, hchanges⟩
    refine ⟨hroot, hreward, ?_⟩
    rintro ⟨number, value⟩ hentry
    apply hchanges number value
    rw [TreeMap.mem_toList_iff_getElem?_eq_some] at hentry
    exact getElem?_ofList_eq_some.mp hentry

/-- An accepted call stores payable values only. -/
theorem ScheduleCall.Accepted.payable {call : ScheduleCall} (h : call.Accepted)
    (s : RewardsStorage) : (s.scheduled call).Payable := by
  refine ⟨⟨call.reward, rfl, h.reward_payable⟩, ?_⟩
  intro table htable number value hentry
  obtain rfl := Option.some.inj htable
  exact h.changes_payable (number, value) (TreeMap.mem_toList_iff_getElem?_eq_some.mpr hentry)

/-- The operations of the pallet. -/
inductive RewardsOp
  | setSchedule (call : ScheduleCall)
  | onInitialize (now : ℕ) (logs : List DigestItem)
  | onFinalize

/-- One operation, whatever its outcome. -/
def RewardsOp.run (s : RewardsStorage) : RewardsOp → Rust RewardsStorage
  | .setSchedule call => .ok (call.dispatch s).2
  | .onInitialize now logs => TrexPow.onInitialize now logs s
  | .onFinalize => .ok (TrexPow.onFinalize s)

/-- Every operation succeeds and keeps the rewards payable. -/
theorem RewardsStorage.Payable.run {s : RewardsStorage} (hs : s.Payable) (op : RewardsOp) :
    ∃ s', op.run s = .ok s' ∧ s'.Payable := by
  cases op with
  | setSchedule call =>
    refine ⟨_, rfl, ?_⟩
    by_cases haccepted : call.Accepted
    · rw [call.dispatch_of_accepted haccepted]
      exact haccepted.payable s
    · obtain ⟨error, hdispatch⟩ := call.dispatch_of_not_accepted haccepted s
      rw [hdispatch]
      exact hs
  | onInitialize now logs => exact ⟨_, onInitialize_eq now logs s, hs.initialized now logs⟩
  | onFinalize =>
    refine ⟨_, rfl, ?_⟩
    rw [onFinalize_eq]
    exact ⟨hs.reward, hs.changes⟩

/-- **Schedules.** A call of `set_schedule` succeeds exactly when root gives a reward
and last changes that are at least the minimum balance, and it writes nothing on an
error. So from a payable genesis reward every interleaving of the operations keeps the
reward and all changes payable. -/
theorem setSchedule_atomic (rewards : ℕ) (ledger : Ledger) :
    (∀ (call : ScheduleCall) (s : RewardsStorage),
      ((call.dispatch s).1 = .ok () ↔
        intoRaw call.origin = some .root ∧ minimumBalance ≤ call.reward ∧
          ∀ number value, LastGiven call.rewardChanges number value → minimumBalance ≤ value) ∧
      ∀ error, (call.dispatch s).1 = .error error →
        (call.dispatch s).2.reward = s.reward ∧
          (call.dispatch s).2.rewardChanges = s.rewardChanges ∧
          (call.dispatch s).2.events = s.events) ∧
    (minimumBalance ≤ rewards → ∀ ops : List RewardsOp,
      ∃ s, ops.foldlM RewardsOp.run (.genesis rewards ledger) = .ok s ∧ s.Payable) := by
  constructor
  · intro call s
    by_cases haccepted : call.Accepted
    · rw [call.dispatch_of_accepted haccepted]
      exact ⟨iff_of_true rfl (ScheduleCall.accepted_iff.mp haccepted), fun _ h => nomatch h⟩
    · obtain ⟨error, hdispatch⟩ := call.dispatch_of_not_accepted haccepted s
      rw [hdispatch]
      constructor
      · exact iff_of_false (fun h => nomatch h) fun h => haccepted (ScheduleCall.accepted_iff.mpr h)
      · intro _ _
        exact ⟨rfl, rfl, rfl⟩
  · intro hmin ops
    apply Loop.foldlM_total (fun s op hs => hs.run op)
    exact ⟨⟨rewards, rfl, hmin⟩, fun _ h => nomatch h⟩

end Accounting

section Sample

attribute [local instance] RewardsConfig.sample

/-- A block whose digest holds an item that does not decode, and then names account 7. -/
def namedBlock : RewardsBlock where
  number := 1
  logs := [.preRuntime powEngineId [7], .preRuntime powEngineId [7, 0, 0, 0, 0, 0, 0, 0]]
  calls := []

theorem namedBlock_firstNamed : FirstNamed namedBlock.logs (7 : ℕ) :=
  findAuthor_eq_some_iff.mp rfl

/-- The block pays the genesis reward to that account. -/
theorem namedBlock_pays : ∃ s', runBlock (.genesis 60 (0, fun _ => 0)) namedBlock = .ok s' ∧
    Credited (0, fun _ => 0) s'.ledger (7 : ℕ) 60 := by
  obtain ⟨s, s', reward, hrun, hblock, -, -, hreward, -, hpays⟩ :=
    block_pays_author sample_depositCredits 60 (0, fun _ => 0) [] namedBlock
  obtain rfl : RewardsStorage.genesis 60 (0, fun _ => 0) = s := Except.ok.inj hrun
  obtain rfl : _ = s' := Except.ok.inj ((runBlock_eq _ _).symm.trans hblock)
  obtain rfl : 60 = reward := Option.some.inj hreward
  exact ⟨_, hblock, (hpays (7 : ℕ) namedBlock_firstNamed).2 (by decide) (by decide) (by decide)⟩

/-- A genesis reward of 60 stays payable when root sets a new schedule. -/
theorem sample_stays_payable : ∃ s,
    [RewardsOp.setSchedule ⟨.root, 42, [(10, 20), (10, 50)]⟩, .onInitialize 10 [],
      .onFinalize].foldlM RewardsOp.run (.genesis 60 (0, fun _ => 0)) = .ok s ∧ s.Payable :=
  (setSchedule_atomic 60 (0, fun _ => 0)).2 (by decide) _

end Sample

end TrexPow
