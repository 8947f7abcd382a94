import TrexPow.Digest
import TrexPow.Lib.Loop
import TrexPow.Lib.Timetable
import TrexPow.Rug

/-!
# The rewards pallet

The pallet pays the author of every block. The author is read from the digest when
the block is initialized and paid when the block is finalized. Root sets the reward
together with a schedule of later changes, which the initialization of a block
replays up to its number. Accounts and the currency are parameters.
-/

namespace TrexPow

open Std (TreeMap)

/-- The origin of a call, as the system pallet knows it. -/
inductive RawOrigin (AccountId : Type)
  | root
  | signed (who : AccountId)
  | none
  deriving DecidableEq

/-- What the pallet takes from the runtime: accounts, origins and the currency. -/
class RewardsConfig where
  AccountId : Type
  /-- `AccountId::decode` of the data of a digest item. -/
  decodeAccountId : List UInt8 → Option AccountId
  Origin : Type
  /-- The system origin behind an origin of the runtime, if there is one. -/
  intoRaw : Origin → Option (RawOrigin AccountId)
  /-- The state of the currency. -/
  Ledger : Type
  minimumBalance : ℕ
  /-- The largest number that a balance can hold. -/
  maxBalance : ℕ
  totalIssuance : Ledger → ℕ
  freeBalance : Ledger → AccountId → ℕ
  depositCreating : Ledger → AccountId → ℕ → Ledger

open RewardsConfig

/-- The amount has been issued and credited to the account, and no other account has
changed. -/
structure Credited [RewardsConfig] (before after : Ledger) (who : AccountId) (amount : ℕ) :
    Prop where
  issued : totalIssuance after = totalIssuance before + amount
  credited : freeBalance after who = freeBalance before who + amount
  others : ∀ other, other ≠ who → freeBalance after other = freeBalance before other

/-- The documented behaviour of `deposit_creating`: it credits an amount that is at
least the minimum balance and does not overflow. -/
def DepositCredits [RewardsConfig] : Prop :=
  ∀ (ledger : Ledger) (who : AccountId) (amount : ℕ), minimumBalance ≤ amount →
    freeBalance ledger who + amount ≤ maxBalance → totalIssuance ledger + amount ≤ maxBalance →
    Credited ledger (depositCreating ledger who amount) who amount

/-- The events that the pallet deposits. -/
inductive RewardsEvent
  /-- A new schedule has been set. -/
  | scheduleSet
  /-- Reward has been changed. -/
  | rewardChanged (reward : ℕ)
  deriving DecidableEq

/-- The errors of a call. -/
inductive RewardsError
  | badOrigin
  /-- Reward set is too low. -/
  | rewardTooLow
  deriving DecidableEq

section Pallet

variable [RewardsConfig]

/-- What the pallet stores, the events that it has deposited since genesis, and the
state of the currency. -/
structure RewardsStorage where
  author : Option AccountId
  reward : Option ℕ
  rewardChanges : Option (TreeMap ℕ ℕ)
  events : List RewardsEvent
  ledger : Ledger

/-- The storage that the genesis configuration builds. -/
def RewardsStorage.genesis (rewards : ℕ) (ledger : Ledger) : RewardsStorage where
  author := none
  reward := some rewards
  rewardChanges := none
  events := []
  ledger := ledger

/-- The author that a pre-runtime item names, if it is one of this engine. -/
def decodeAuthor (item : List.Vector UInt8 4 × List UInt8) : Option AccountId :=
  if item.1 = powEngineId then decodeAccountId item.2 else none

/-- The author of a block: the first item of its digest that names one. -/
def findAuthor (logs : List DigestItem) : Option AccountId :=
  ((logs.filterMap DigestItem.asPreRuntime).filterMap decodeAuthor).head?

/-- One pass over the due changes: set the reward, note the entry for removal and
report it. -/
def replayChange (s : RewardsStorage × List ℕ) (entry : ℕ × ℕ) : RewardsStorage × List ℕ :=
  ({ s.1 with
      reward := some entry.2
      events := s.1.events ++ [.rewardChanged entry.2] }, s.2 ++ [entry.1])

/-- One pass over the noted entries. The entry is removed from a clone of the map,
which is dropped. -/
def removeChange (rewardChanges : Option (TreeMap ℕ ℕ)) (blockNumber : ℕ) :
    Rust (Option (TreeMap ℕ ℕ)) := do
  let clone ← unwrap rewardChanges
  let _ := clone.erase blockNumber
  return rewardChanges

/-- `on_initialize`. -/
def onInitialize (now : ℕ) (logs : List DigestItem) (s : RewardsStorage) :
    Rust RewardsStorage := do
  let s := match findAuthor logs with
    | some author => { s with author := some author }
    | none => s
  let (s, removing) := (Timetable.due (s.rewardChanges.getD ∅) now).foldl replayChange (s, [])
  let rewardChanges ← removing.foldlM removeChange s.rewardChanges
  return { s with rewardChanges := rewardChanges }

/-- `do_reward`. -/
def doReward (author : AccountId) (reward : ℕ) (s : RewardsStorage) : RewardsStorage :=
  { s with ledger := depositCreating s.ledger author reward }

/-- `on_finalize`. -/
def onFinalize (s : RewardsStorage) : RewardsStorage :=
  let s := match s.author with
    | some author => doReward author (s.reward.getD 0) s
    | none => s
  { s with author := none }

/-- A call that changes the storage as it goes. What it has written before an error
stays written. -/
abbrev Dispatch := ExceptT RewardsError (StateM RewardsStorage)

/-- `ensure!`. -/
def ensure (condition : Prop) [Decidable condition] (error : RewardsError) : Dispatch Unit :=
  if condition then pure () else throw error

/-- `ensure_root`. -/
def ensureRoot (origin : Origin) : Dispatch Unit :=
  match intoRaw origin with
  | some .root => pure ()
  | _ => throw .badOrigin

/-- `deposit_event`. -/
def depositEvent (event : RewardsEvent) : Dispatch Unit :=
  modify fun s => { s with events := s.events ++ [event] }

/-- `set_schedule`. -/
def setSchedule (origin : Origin) (reward : ℕ) (rewardChanges : List (ℕ × ℕ)) :
    Dispatch Unit := do
  ensureRoot origin
  let rewardChanges := TreeMap.ofList rewardChanges compare
  ensure (minimumBalance ≤ reward) .rewardTooLow
  rewardChanges.toList.forM fun (_, rewardChange) =>
    ensure (minimumBalance ≤ rewardChange) .rewardTooLow
  modify fun s => { s with reward := some reward }
  depositEvent (.rewardChanged reward)
  modify fun s => { s with rewardChanges := some rewardChanges }
  depositEvent .scheduleSet

/-- A call of `set_schedule`. -/
structure ScheduleCall where
  origin : Origin
  reward : ℕ
  rewardChanges : List (ℕ × ℕ)

/-- The outcome of a call, and the storage after it. -/
def ScheduleCall.dispatch (call : ScheduleCall) (s : RewardsStorage) :
    Except RewardsError Unit × RewardsStorage :=
  (setSchedule call.origin call.reward call.rewardChanges).run s

/-- A block: its number, its digest and its calls of `set_schedule`. -/
structure RewardsBlock where
  number : ℕ
  logs : List DigestItem
  calls : List ScheduleCall

/-- The calls of a block, of which some may fail. -/
def runCalls (s : RewardsStorage) (calls : List ScheduleCall) : RewardsStorage :=
  calls.foldl (fun s call => (call.dispatch s).2) s

/-- A block is initialized, its calls run, and it is finalized. -/
def runBlock (s : RewardsStorage) (block : RewardsBlock) : Rust RewardsStorage := do
  let s ← onInitialize block.number block.logs s
  return onFinalize (runCalls s block.calls)

/-! ### The digest -/

/-- The item is a pre-runtime item of this engine whose data decodes to the author. -/
def DigestItem.Names (item : DigestItem) (author : AccountId) : Prop :=
  ∃ data, item = .preRuntime powEngineId data ∧ decodeAccountId data = some author

theorem DigestItem.names_iff {item : DigestItem} {author : AccountId} :
    item.Names author ↔ item.asPreRuntime.bind decodeAuthor = some author := by
  constructor
  · rintro ⟨data, rfl, hdecode⟩
    simpa [asPreRuntime, decodeAuthor] using hdecode
  · intro h
    cases item with
    | preRuntime engine data =>
      change decodeAuthor (engine, data) = some author at h
      unfold decodeAuthor at h
      split_ifs at h with hengine
      exact ⟨data, by rw [← hengine], h⟩
    | consensus | sealItem | other | runtimeEnvironmentUpdated => cases h

theorem findAuthor_eq_findSome? (logs : List DigestItem) :
    findAuthor logs = logs.findSome? fun item => item.asPreRuntime.bind decodeAuthor := by
  rw [findAuthor, List.filterMap_filterMap, List.head?_filterMap]

/-- The first item of the digest that names an author names this one. -/
def FirstNamed (logs : List DigestItem) (author : AccountId) : Prop :=
  ∃ earlier item later, logs = earlier ++ item :: later ∧ DigestItem.Names item author ∧
    ∀ other ∈ earlier, ∀ who, ¬DigestItem.Names other who

theorem findAuthor_eq_some_iff {logs : List DigestItem} {author : AccountId} :
    findAuthor logs = some author ↔ FirstNamed logs author := by
  simp only [FirstNamed, findAuthor_eq_findSome?, List.findSome?_eq_some_iff,
    DigestItem.names_iff, Option.eq_none_iff_forall_ne_some]

/-- No author is found exactly when no item names one. -/
theorem findAuthor_eq_none_iff {logs : List DigestItem} :
    findAuthor logs = none ↔ ∀ item ∈ logs, ∀ who, ¬DigestItem.Names item who := by
  rw [findAuthor_eq_findSome?, List.findSome?_eq_none_iff]
  simp only [DigestItem.names_iff, Option.eq_none_iff_forall_ne_some]

/-! ### Initialization -/

/-- The stored changes that are due. -/
def RewardsStorage.due (s : RewardsStorage) (now : ℕ) : List (ℕ × ℕ) :=
  Timetable.due (s.rewardChanges.getD ∅) now

/-- The storage after the initialization of a block. -/
def RewardsStorage.initialized (s : RewardsStorage) (now : ℕ) (logs : List DigestItem) :
    RewardsStorage :=
  { s with
    author := (findAuthor logs).or s.author
    reward := ((s.due now).getLast?.map Prod.snd).or s.reward
    events := s.events ++ (s.due now).map fun entry => .rewardChanged entry.2 }

/-- Replaying changes leaves the value of the last one, and reports all of them. -/
theorem foldl_replayChange (entries : List (ℕ × ℕ)) (s : RewardsStorage) (removing : List ℕ) :
    entries.foldl replayChange (s, removing) =
      ({ s with
          reward := (entries.getLast?.map Prod.snd).or s.reward
          events := s.events ++ entries.map fun entry => .rewardChanged entry.2 },
        removing ++ entries.map Prod.fst) := by
  induction entries generalizing s removing with
  | nil => simp
  | cons entry entries ih =>
    rw [List.foldl_cons, replayChange, ih]
    simp only [List.getLast?_cons, List.map_cons, List.append_assoc, List.singleton_append]
    cases entries.getLast? <;> rfl

omit [RewardsConfig] in
/-- Removing entries from clones succeeds on a stored map, and keeps it. -/
theorem foldlM_removeChange (table : TreeMap ℕ ℕ) (removing : List ℕ) :
    removing.foldlM removeChange (some table) = .ok (some table) := by
  induction removing with
  | nil => rfl
  | cons blockNumber removing ih => exact ih

/-- The initialization of a block succeeds. It keeps the stored changes. -/
theorem onInitialize_eq (now : ℕ) (logs : List DigestItem) (s : RewardsStorage) :
    onInitialize now logs s = .ok (s.initialized now logs) := by
  have hremove : ((s.due now).map Prod.fst).foldlM removeChange s.rewardChanges =
      .ok s.rewardChanges := by
    cases hchanges : s.rewardChanges with
    | some table => exact foldlM_removeChange table _
    | none =>
      have hdue : s.due now = [] := by
        rw [RewardsStorage.due, hchanges]
        apply Timetable.due_eq_nil_iff.mpr
        simp
      rw [hdue]
      rfl
  unfold onInitialize RewardsStorage.initialized
  cases findAuthor logs <;>
    simp only [foldl_replayChange, List.nil_append, Rust.pure_eq_ok] <;>
    exact congrArg (fun removed => removed >>= _) hremove

/-! ### Calls -/

/-- Root gives a reward and changes that are all at least the minimum balance. -/
structure ScheduleCall.Accepted (call : ScheduleCall) : Prop where
  root : intoRaw call.origin = some .root
  reward_payable : minimumBalance ≤ call.reward
  changes_payable : ∀ entry ∈ (TreeMap.ofList call.rewardChanges compare).toList,
    minimumBalance ≤ entry.2

/-- The storage after a call that succeeds. -/
def RewardsStorage.scheduled (s : RewardsStorage) (call : ScheduleCall) : RewardsStorage :=
  { s with
    reward := some call.reward
    rewardChanges := some (TreeMap.ofList call.rewardChanges compare)
    events := s.events ++ [.rewardChanged call.reward, .scheduleSet] }

theorem throw_bind (error : RewardsError) (rest : Unit → Dispatch Unit) :
    (throw error >>= rest) = throw error := rfl

/-- A check of every change passes when all are at least the minimum balance. -/
theorem forM_ensure_of_forall {entries : List (ℕ × ℕ)}
    (h : ∀ entry ∈ entries, minimumBalance ≤ entry.2) :
    (entries.forM fun entry => ensure (minimumBalance ≤ entry.2) .rewardTooLow) = pure () := by
  induction entries with
  | nil => rfl
  | cons entry entries ih =>
    have hfirst : minimumBalance ≤ entry.2 := h entry List.mem_cons_self
    have hrest := ih fun other hother => h other (List.mem_cons_of_mem _ hother)
    rw [List.forM, ensure, if_pos hfirst, pure_bind]
    exact hrest

/-- It stops at the first change that is not. -/
theorem forM_ensure_of_exists {entries : List (ℕ × ℕ)}
    (h : ∃ entry ∈ entries, entry.2 < minimumBalance) :
    (entries.forM fun entry => ensure (minimumBalance ≤ entry.2) .rewardTooLow) =
      throw .rewardTooLow := by
  induction entries with
  | nil => simp at h
  | cons entry entries ih =>
    rw [List.forM, ensure]
    by_cases hfirst : minimumBalance ≤ entry.2
    · rw [if_pos hfirst, pure_bind]
      apply ih
      obtain ⟨other, hother, hlow⟩ := h
      rcases List.mem_cons.mp hother with rfl | hother
      · omega
      · exact ⟨other, hother, hlow⟩
    · rw [if_neg hfirst, throw_bind]

theorem ScheduleCall.dispatch_of_accepted {call : ScheduleCall} (h : call.Accepted)
    (s : RewardsStorage) : call.dispatch s = (.ok (), s.scheduled call) := by
  obtain ⟨hroot, hreward, hchanges⟩ := h
  rw [dispatch, setSchedule, ensureRoot, hroot, pure_bind]
  dsimp only
  rw [ensure, if_pos hreward, pure_bind, forM_ensure_of_forall hchanges, pure_bind]
  rw [RewardsStorage.scheduled, List.append_cons]
  rfl

/-- A call that is turned down has written nothing. -/
theorem ScheduleCall.dispatch_of_not_accepted {call : ScheduleCall} (h : ¬call.Accepted)
    (s : RewardsStorage) : ∃ error, call.dispatch s = (.error error, s) := by
  rw [dispatch, setSchedule, ensureRoot]
  split
  · next hroot =>
    rw [pure_bind]
    dsimp only
    by_cases hreward : minimumBalance ≤ call.reward
    · have hlow : ∃ entry ∈ (TreeMap.ofList call.rewardChanges compare).toList,
          entry.2 < minimumBalance := by
        by_contra hnone
        push Not at hnone
        exact h ⟨hroot, hreward, hnone⟩
      rw [ensure, if_pos hreward, pure_bind, forM_ensure_of_exists hlow]
      exact ⟨_, rfl⟩
    · rw [ensure, if_neg hreward, throw_bind]
      exact ⟨_, rfl⟩
  · rw [throw_bind]
    exact ⟨_, rfl⟩

/-- What accepted calls keep, the calls of a block keep. -/
theorem runCalls_invariant {I : RewardsStorage → Prop} {calls : List ScheduleCall}
    (hcall : ∀ call ∈ calls, call.Accepted → ∀ s, I s → I (s.scheduled call)) {s : RewardsStorage}
    (hs : I s) : I (runCalls s calls) := by
  induction calls generalizing s with
  | nil => exact hs
  | cons call calls ih =>
    apply ih fun other hother => hcall other (List.mem_cons_of_mem _ hother)
    change I (call.dispatch s).2
    by_cases haccepted : call.Accepted
    · rw [call.dispatch_of_accepted haccepted]
      exact hcall call List.mem_cons_self haccepted s hs
    · obtain ⟨error, hdispatch⟩ := call.dispatch_of_not_accepted haccepted s
      rw [hdispatch]
      exact hs

@[simp] theorem runCalls_author (s : RewardsStorage) (calls : List ScheduleCall) :
    (runCalls s calls).author = s.author :=
  runCalls_invariant (I := fun t => t.author = s.author) (fun _ _ _ _ ht => ht) rfl

@[simp] theorem runCalls_ledger (s : RewardsStorage) (calls : List ScheduleCall) :
    (runCalls s calls).ledger = s.ledger :=
  runCalls_invariant (I := fun t => t.ledger = s.ledger) (fun _ _ _ _ ht => ht) rfl

/-- Calls that are all turned down change nothing. -/
theorem runCalls_eq_self {calls : List ScheduleCall} (h : ∀ call ∈ calls, ¬call.Accepted)
    (s : RewardsStorage) : runCalls s calls = s :=
  runCalls_invariant (I := fun t => t = s)
    (fun call hcall haccepted => absurd haccepted (h call hcall)) rfl

/-! ### Blocks -/

/-- The storage after the finalization of a block. -/
theorem onFinalize_eq (s : RewardsStorage) :
    onFinalize s = { s with
      author := none
      ledger := s.author.elim s.ledger fun author =>
        depositCreating s.ledger author (s.reward.getD 0) } := by
  cases hauthor : s.author <;> simp [onFinalize, doReward, hauthor]

/-- The storage after a block. -/
def RewardsStorage.afterBlock (s : RewardsStorage) (block : RewardsBlock) : RewardsStorage :=
  onFinalize (runCalls (s.initialized block.number block.logs) block.calls)

theorem runBlock_eq (s : RewardsStorage) (block : RewardsBlock) :
    runBlock s block = .ok (s.afterBlock block) := by
  rw [runBlock, onInitialize_eq]
  rfl

/-- Every run of blocks succeeds. -/
theorem runBlocks_eq (s : RewardsStorage) (blocks : List RewardsBlock) :
    blocks.foldlM runBlock s = .ok (blocks.foldl RewardsStorage.afterBlock s) := by
  have hpure : (runBlock : RewardsStorage → RewardsBlock → Rust RewardsStorage) =
      fun s block => pure (s.afterBlock block) := by
    funext s block
    exact runBlock_eq s block
  rw [hpure]
  exact List.foldlM_pure

end Pallet

section Sample

/-- Numbered accounts and a currency that is the issued amount with every balance. An
account is decoded from its first eight bytes. -/
@[reducible] def RewardsConfig.sample : RewardsConfig where
  AccountId := ℕ
  decodeAccountId data :=
    if 8 ≤ data.length then some (LittleEndian.toNat (data.take 8)) else none
  Origin := RawOrigin ℕ
  intoRaw := some
  Ledger := ℕ × (ℕ → ℕ)
  minimumBalance := 1
  maxBalance := 2 ^ 128 - 1
  totalIssuance ledger := ledger.1
  freeBalance ledger who := ledger.2 who
  depositCreating ledger who amount :=
    (ledger.1 + amount, fun account => if account = who then ledger.2 who + amount
      else ledger.2 account)

attribute [local instance] RewardsConfig.sample

theorem sample_depositCredits : DepositCredits := by
  intro ledger who amount _ _ _
  refine ⟨rfl, if_pos rfl, ?_⟩
  intro other hother
  exact if_neg hother

end Sample

end TrexPow
