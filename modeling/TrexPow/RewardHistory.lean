import TrexPow.Lib.EventLog
import TrexPow.RewardAccounting

/-!
# The history of the rewards

Every change of the reward is announced by an event, so the log tells at each point which
reward is stored. The payments of a run can be read off the digests of its blocks and the
log, and they account for all that the pallet has issued and for every balance.
-/

namespace TrexPow

open RewardsConfig EventLog

/-- The reward that an event announces. -/
def RewardsEvent.announces : RewardsEvent → Option ℕ
  | .scheduleSet => none
  | .rewardChanged reward => some reward

/-- The reward that a log announces last, beginning with the one of the genesis. -/
def announced (rewards : ℕ) (log : List RewardsEvent) : ℕ :=
  (log.filterMap RewardsEvent.announces).getLast?.getD rewards

section History

variable [RewardsConfig]

/-! ### Announcements -/

/-- The reward has changed as the new events announce. -/
def RewardsStorage.Announces (s s' : RewardsStorage) : Prop :=
  Replays RewardsStorage.events RewardsStorage.reward (keepLast RewardsEvent.announces) s s'

/-- The initialization of a block announces the changes that it applies. -/
theorem RewardsStorage.announces_initialized (s : RewardsStorage) (now : ℕ)
    (logs : List DigestItem) : s.Announces (s.initialized now logs) := by
  refine ⟨(s.due now).map fun entry => .rewardChanged entry.2, rfl, ?_⟩
  have hvalues : ((s.due now).map fun entry => RewardsEvent.rewardChanged entry.2).filterMap
      RewardsEvent.announces = (s.due now).map Prod.snd := by
    rw [List.filterMap_map, ← List.filterMap_eq_map]
    rfl
  rw [foldl_keepLast, hvalues, List.getLast?_map]
  rfl

/-- Calls announce the rewards that they set. -/
theorem RewardsStorage.announces_runCalls (s : RewardsStorage) (calls : List ScheduleCall) :
    s.Announces (runCalls s calls) := by
  apply runCalls_invariant (I := s.Announces)
  · intro call _ _ t ht
    exact ht.trans ⟨[.rewardChanged call.reward, .scheduleSet], rfl, rfl⟩
  · exact Replays.refl s

/-- The finalization announces nothing, and keeps the reward. -/
theorem RewardsStorage.announces_onFinalize (s : RewardsStorage) : s.Announces (onFinalize s) := by
  rw [onFinalize_eq]
  exact ⟨[], (List.append_nil s.events).symm, rfl⟩

theorem RewardsStorage.announces_afterBlock (s : RewardsStorage) (block : RewardsBlock) :
    s.Announces (s.afterBlock block) := by
  have hinit := s.announces_initialized block.number block.logs
  have hcalls := (s.initialized block.number block.logs).announces_runCalls block.calls
  exact (hinit.trans hcalls).trans (RewardsStorage.announces_onFinalize _)

/-- Every operation announces what it does to the reward. -/
theorem RewardsOp.announces {s s' : RewardsStorage} {op : RewardsOp} (h : op.run s = .ok s') :
    s.Announces s' := by
  cases op with
  | setSchedule call =>
    obtain rfl := Except.ok.inj h
    exact s.announces_runCalls [call]
  | onInitialize now logs =>
    obtain rfl := Except.ok.inj ((onInitialize_eq now logs s).symm.trans h)
    exact s.announces_initialized now logs
  | onFinalize =>
    obtain rfl := Except.ok.inj h
    exact s.announces_onFinalize

/-- From genesis the stored reward is the one that has been announced last. -/
theorem RewardsStorage.Announces.reward_eq {rewards : ℕ} {ledger : Ledger} {s : RewardsStorage}
    (h : (RewardsStorage.genesis rewards ledger).Announces s) :
    s.reward = some (announced rewards s.events) := by
  rw [Replays.part_eq h rfl, foldl_keepLast, announced, RewardsStorage.genesis]
  cases (s.events.filterMap RewardsEvent.announces).getLast? <;> rfl

/-- **No reward changes in silence.** Every interleaving of the operations from genesis
succeeds, and after it the stored reward is the one that the log announces last. -/
theorem reward_is_last_announced (rewards : ℕ) (ledger : Ledger) (ops : List RewardsOp) :
    ∃ s, ops.foldlM RewardsOp.run (.genesis rewards ledger) = .ok s ∧
      s.reward = some (announced rewards s.events) := by
  have hstep : ∀ s op, (RewardsStorage.genesis rewards ledger).Announces s →
      ∃ s', RewardsOp.run s op = .ok s' ∧ (RewardsStorage.genesis rewards ledger).Announces s' := by
    intro s op hs
    have hok : ∃ s', RewardsOp.run s op = .ok s' := by
      cases op with
      | setSchedule call => exact ⟨_, rfl⟩
      | onInitialize now logs => exact ⟨_, onInitialize_eq now logs s⟩
      | onFinalize => exact ⟨_, rfl⟩
    obtain ⟨s', hrun⟩ := hok
    exact ⟨s', hrun, hs.trans (RewardsOp.announces hrun)⟩
  obtain ⟨s, hrun, hs⟩ := Loop.foldlM_total hstep ops (Replays.refl _)
  exact ⟨s, hrun, hs.reward_eq⟩

/-! ### Payments -/

/-- What a block pays, and to whom: the author that its digest names is paid the reward
that the log announces at its end. -/
def payment (rewards : ℕ) (step : Loop.Step RewardsStorage RewardsBlock) :
    Option (AccountId × ℕ) :=
  (findAuthor step.input.logs).map fun author => (author, announced rewards step.after.events)

/-- The payments of a run, in order. -/
def payments (rewards : ℕ) (s : RewardsStorage) (blocks : List RewardsBlock) :
    List (AccountId × ℕ) :=
  (Loop.steps runBlock blocks s).filterMap (payment rewards)

theorem payments_cons (rewards : ℕ) (s : RewardsStorage) (block : RewardsBlock)
    (blocks : List RewardsBlock) : payments rewards s (block :: blocks) =
      (payment rewards ⟨s, block, s.afterBlock block⟩).toList ++
        payments rewards (s.afterBlock block) blocks := by
  rw [payments, Loop.steps, runBlock_eq]
  cases hpayment : payment rewards ⟨s, block, s.afterBlock block⟩ with
  | none => exact List.filterMap_cons_none hpayment
  | some p => exact List.filterMap_cons_some hpayment

/-- A state between two blocks of a run from genesis. -/
structure RewardsStorage.Running (s : RewardsStorage) (rewards : ℕ) (ledger : Ledger) : Prop where
  settled : s.Settled
  payable : s.Payable
  announces : (RewardsStorage.genesis rewards ledger).Announces s

theorem RewardsStorage.running_genesis {rewards : ℕ} (hmin : minimumBalance ≤ rewards)
    (ledger : Ledger) : (RewardsStorage.genesis rewards ledger).Running rewards ledger where
  settled := ⟨rfl, rfl⟩
  payable := by
    refine ⟨⟨rewards, rfl, hmin⟩, ?_⟩
    intro table htable
    cases htable
  announces := Replays.refl _

/-- A block is three kinds of operations, and each of them keeps the rewards payable. -/
theorem RewardsStorage.Payable.afterBlock {s : RewardsStorage} (hs : s.Payable)
    (block : RewardsBlock) : (s.afterBlock block).Payable := by
  have hcalls : (runCalls (s.initialized block.number block.logs) block.calls).Payable := by
    apply runCalls_invariant (I := RewardsStorage.Payable)
    · intro call _ haccepted t _
      exact haccepted.payable t
    · exact hs.initialized block.number block.logs
  rw [RewardsStorage.afterBlock, onFinalize_eq]
  exact ⟨hcalls.reward, hcalls.changes⟩

theorem RewardsStorage.Running.afterBlock {s : RewardsStorage} {rewards : ℕ} {ledger : Ledger}
    (hs : s.Running rewards ledger) (block : RewardsBlock) :
    (s.afterBlock block).Running rewards ledger where
  settled := hs.settled.afterBlock block
  payable := hs.payable.afterBlock block
  announces := hs.announces.trans (s.announces_afterBlock block)

/-- Credit a payment. -/
def creditPayment (ledger : Ledger) (p : AccountId × ℕ) : Ledger := depositCreating ledger p.1 p.2

/-- A block credits its payment, which is not below the minimum balance. -/
theorem RewardsStorage.Running.afterBlock_ledger {s : RewardsStorage} {rewards : ℕ}
    {ledger : Ledger} (hs : s.Running rewards ledger) (block : RewardsBlock) :
    (s.afterBlock block).ledger =
      (payment rewards ⟨s, block, s.afterBlock block⟩).toList.foldl creditPayment s.ledger ∧
    ∀ p ∈ (payment rewards ⟨s, block, s.afterBlock block⟩).toList, minimumBalance ≤ p.2 := by
  have hend := hs.afterBlock block
  have hreward := hend.announces.reward_eq
  have hledger := hs.settled.afterBlock_ledger block
  rw [hreward, Option.getD_some] at hledger
  rw [payment]
  cases hauthor : findAuthor block.logs with
  | none =>
    rw [hauthor] at hledger
    exact ⟨hledger, fun p hp => absurd hp List.not_mem_nil⟩
  | some author =>
    rw [hauthor] at hledger
    refine ⟨hledger, ?_⟩
    intro p hp
    obtain rfl := List.mem_singleton.mp hp
    obtain ⟨reward, hstored, hmin⟩ := hend.payable.reward
    obtain rfl := Option.some.inj (hreward.symm.trans hstored)
    exact hmin

/-- A run credits its payments in order. -/
theorem RewardsStorage.Running.run_ledger {s : RewardsStorage} {rewards : ℕ} {ledger : Ledger}
    (hs : s.Running rewards ledger) (blocks : List RewardsBlock) :
    (blocks.foldl RewardsStorage.afterBlock s).ledger =
      (payments rewards s blocks).foldl creditPayment s.ledger ∧
    ∀ p ∈ payments rewards s blocks, minimumBalance ≤ p.2 := by
  induction blocks generalizing s with
  | nil => exact ⟨rfl, fun p hp => absurd hp List.not_mem_nil⟩
  | cons block blocks ih =>
    obtain ⟨hfirst, hfirstMin⟩ := hs.afterBlock_ledger block
    obtain ⟨hrest, hrestMin⟩ := ih (hs.afterBlock block)
    rw [payments_cons]
    constructor
    · rw [List.foldl_cons, hrest, hfirst, List.foldl_append]
    · intro p hp
      rcases List.mem_append.mp hp with hp | hp
      · exact hfirstMin p hp
      · exact hrestMin p hp

/-! ### Accounts -/

/-- The amount of all payments. -/
def totalPaid (list : List (AccountId × ℕ)) : ℕ := (list.map Prod.snd).sum

variable [DecidableEq AccountId]

/-- The amount of the payments to an account. -/
def paidTo (who : AccountId) (list : List (AccountId × ℕ)) : ℕ :=
  totalPaid (list.filter fun p => p.1 = who)

theorem paidTo_cons (who : AccountId) (p : AccountId × ℕ) (list : List (AccountId × ℕ)) :
    paidTo who (p :: list) = (if p.1 = who then p.2 else 0) + paidTo who list := by
  rw [paidTo, List.filter_cons]
  by_cases h : p.1 = who <;> simp [h, paidTo, totalPaid]

/-- Payments that fit are credited in full. -/
theorem foldl_creditPayment (hdeposit : DepositCredits) {list : List (AccountId × ℕ)}
    (hmin : ∀ p ∈ list, minimumBalance ≤ p.2) {ledger : Ledger}
    (hissued : totalIssuance ledger + totalPaid list ≤ maxBalance)
    (hfree : ∀ who, freeBalance ledger who + paidTo who list ≤ maxBalance) :
    totalIssuance (list.foldl creditPayment ledger) = totalIssuance ledger + totalPaid list ∧
    ∀ who, freeBalance (list.foldl creditPayment ledger) who =
      freeBalance ledger who + paidTo who list := by
  induction list generalizing ledger with
  | nil => exact ⟨rfl, fun _ => rfl⟩
  | cons p list ih =>
    obtain ⟨who, amount⟩ := p
    obtain ⟨hfirst, hrest⟩ := List.forall_mem_cons.mp hmin
    have htotal : totalPaid ((who, amount) :: list) = amount + totalPaid list := rfl
    rw [htotal] at hissued
    simp only [paidTo_cons] at hfree
    have hwho := hfree who
    rw [if_pos rfl] at hwho
    -- the first payment is credited, and leaves room for the others
    obtain ⟨hcredIssued, hcredited, hothers⟩ :
        Credited ledger (creditPayment ledger (who, amount)) who amount :=
      hdeposit ledger who amount hfirst (by omega) (by omega)
    have hbalance : ∀ other, freeBalance (creditPayment ledger (who, amount)) other =
        freeBalance ledger other + if who = other then amount else 0 := by
      intro other
      split_ifs with h
      · rw [← h, hcredited]
      · rw [hothers other (Ne.symm h), Nat.add_zero]
    have hroom : ∀ other, freeBalance (creditPayment ledger (who, amount)) other +
        paidTo other list ≤ maxBalance := by
      intro other
      rw [hbalance, Nat.add_assoc]
      exact hfree other
    obtain ⟨ihIssued, ihBalance⟩ := ih hrest (by omega) hroom
    rw [List.foldl_cons]
    constructor
    · rw [ihIssued, hcredIssued, htotal, Nat.add_assoc]
    · intro other
      rw [ihBalance, hbalance, paidTo_cons, Nat.add_assoc]

/-- **The supply is accounted for.** In every run from genesis with a payable reward, all
that is issued and all that an account gains are the sums of its payments, which the
digests and the log determine, as long as the balances can hold them. -/
theorem supply_is_paid_rewards (hdeposit : DepositCredits) {rewards : ℕ}
    (hmin : minimumBalance ≤ rewards) (ledger : Ledger) (blocks : List RewardsBlock)
    (hissued : totalIssuance ledger +
      totalPaid (payments rewards (.genesis rewards ledger) blocks) ≤ maxBalance)
    (hfree : ∀ who, freeBalance ledger who +
      paidTo who (payments rewards (.genesis rewards ledger) blocks) ≤ maxBalance) :
    ∃ s, blocks.foldlM runBlock (.genesis rewards ledger) = .ok s ∧
      totalIssuance s.ledger = totalIssuance ledger +
        totalPaid (payments rewards (.genesis rewards ledger) blocks) ∧
      ∀ who, freeBalance s.ledger who = freeBalance ledger who +
        paidTo who (payments rewards (.genesis rewards ledger) blocks) := by
  obtain ⟨hledger, hpaid⟩ := (RewardsStorage.running_genesis hmin ledger).run_ledger blocks
  refine ⟨_, runBlocks_eq _ blocks, ?_⟩
  rw [hledger]
  exact foldl_creditPayment hdeposit hpaid hissued hfree

end History

section Sample

attribute [local instance] RewardsConfig.sample

instance : DecidableEq AccountId := inferInstanceAs (DecidableEq ℕ)

/-- Account 7 is paid by two blocks, of which the second raises the reward. -/
def twoPayments : List RewardsBlock :=
  [namedBlock, { namedBlock with number := 2, calls := [⟨.root, 80, []⟩] }]

theorem twoPayments_paid : payments 60 (.genesis 60 (0, fun _ => 0)) twoPayments =
    [((7 : ℕ), 60), ((7 : ℕ), 80)] := rfl

/-- Together the two payments are what has been issued, and all that account 7 has. -/
theorem twoPayments_supply : ∃ s,
    twoPayments.foldlM runBlock (.genesis 60 (0, fun _ => 0)) = .ok s ∧
    totalIssuance s.ledger = 140 ∧ freeBalance s.ledger (7 : ℕ) = 140 := by
  have hissued : 0 + totalPaid (payments 60 (.genesis 60 (0, fun _ => 0)) twoPayments) ≤
      2 ^ 128 - 1 := by
    rw [twoPayments_paid]
    decide
  have hfree : ∀ who : ℕ,
      0 + paidTo who (payments 60 (.genesis 60 (0, fun _ => 0)) twoPayments) ≤ 2 ^ 128 - 1 := by
    intro who
    rw [twoPayments_paid, paidTo_cons, paidTo_cons]
    by_cases h : 7 = who <;> simp [h, paidTo, totalPaid]
  obtain ⟨s, hrun, htotal, hbalance⟩ := supply_is_paid_rewards sample_depositCredits
    (by decide) (0, fun _ => 0) twoPayments hissued hfree
  have hseven := hbalance (7 : ℕ)
  rw [twoPayments_paid] at htotal hseven
  exact ⟨s, hrun, htotal, hseven⟩

end Sample

end TrexPow
