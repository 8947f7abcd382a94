import TrexPow.Dispatch
import TrexPow.Lib.EventLog
import TrexPow.Rug

/-!
# The storage pallet

Signed calls set two numbers, and the runtime reports their sum. A third call increments a
number that no call ever sets.
-/

namespace TrexPow

/-- The event that the pallet deposits: which number has been set, and to what. -/
structure ValueSet where
  thing : U32
  val : U32
  deriving DecidableEq

/-- Errors inform users that something went wrong. -/
inductive StorageError
  /-- The number has not been set. -/
  | noneValue
  | storageOverflow
  deriving DecidableEq

/-- What the pallet stores, and the events that it has deposited since genesis. -/
structure StorageStorage where
  something : Option U32
  thing1 : Option U32
  thing2 : Option U32
  events : List ValueSet
  deriving DecidableEq

/-- The storage at genesis. -/
def StorageStorage.genesis : StorageStorage := ⟨none, none, none, []⟩

/-- The outcome of a call, and the storage after it. -/
abbrev StorageOutcome := Except (DispatchError StorageError) Unit × StorageStorage

section Pallet

variable {AccountId : Type}

/-- A signed call that sets one of the two numbers. -/
def setThing (thing : U32) (put : U32 → StorageStorage → StorageStorage)
    (origin : Option (RawOrigin AccountId)) (val : U32) (s : StorageStorage) : StorageOutcome :=
  match ensureSigned origin with
  | .error error => (.error error, s)
  | .ok _ => (.ok (), { put val s with events := s.events ++ [⟨thing, val⟩] })

/-- Sets the first simple storage value. -/
def setThing1 : Option (RawOrigin AccountId) → U32 → StorageStorage → StorageOutcome :=
  setThing 1 fun val s => { s with thing1 := some val }

/-- Sets the second stored value. -/
def setThing2 : Option (RawOrigin AccountId) → U32 → StorageStorage → StorageOutcome :=
  setThing 2 fun val s => { s with thing2 := some val }

/-- An example dispatchable that may throw a custom error. -/
def causeError (origin : Option (RawOrigin AccountId)) (s : StorageStorage) : StorageOutcome :=
  match ensureSigned origin with
  | .error error => (.error error, s)
  | .ok _ =>
    match s.something with
    | none => (.error (.module .noneValue), s)
    | some old =>
      -- increment the value; an overflow is an error
      if old = BitVec.allOnes 32 then (.error (.module .storageOverflow), s)
      else (.ok (), { s with something := some (old + 1) })

/-- `get_sum`, with the default of the two numbers. -/
def StorageStorage.getSum (s : StorageStorage) : Rust U32 :=
  let thing1 := s.thing1.getD 0
  let thing2 := s.thing2.getD 0
  if 2 ^ 32 ≤ thing1.toNat + thing2.toNat then .error .overflow else .ok (thing1 + thing2)

/-- The calls of the pallet. -/
inductive StorageCall (AccountId : Type)
  | setThing1 (origin : Option (RawOrigin AccountId)) (val : U32)
  | setThing2 (origin : Option (RawOrigin AccountId)) (val : U32)
  | causeError (origin : Option (RawOrigin AccountId))

/-- Dispatch a call. -/
def StorageCall.dispatch (s : StorageStorage) : StorageCall AccountId → StorageOutcome
  | .setThing1 origin val => TrexPow.setThing1 origin val s
  | .setThing2 origin val => TrexPow.setThing2 origin val s
  | .causeError origin => TrexPow.causeError origin s

/-- The storage after calls, whatever their outcomes. -/
def runStorageCalls (s : StorageStorage) (calls : List (StorageCall AccountId)) :
    StorageStorage :=
  calls.foldl (fun s call => (call.dispatch s).2) s

/-- What a call sets, if it is signed. -/
def StorageCall.sets : StorageCall AccountId → Option ValueSet
  | .setThing1 origin val => (signer origin).map fun _ => ⟨1, val⟩
  | .setThing2 origin val => (signer origin).map fun _ => ⟨2, val⟩
  | .causeError _ => none

/-- The value that an event announces for a number. -/
def ValueSet.valueOf (thing : U32) (event : ValueSet) : Option U32 :=
  if event.thing = thing then some event.val else none

/-- The value to which a number has last been set, zero at first. -/
def lastSet (thing : U32) (log : List ValueSet) : U32 :=
  (log.filterMap (ValueSet.valueOf thing)).getLast?.getD 0

/-- Record an event with its effect on the two numbers. -/
def StorageStorage.record (s : StorageStorage) (event : ValueSet) : StorageStorage where
  something := s.something
  thing1 := EventLog.keepLast (ValueSet.valueOf 1) s.thing1 event
  thing2 := EventLog.keepLast (ValueSet.valueOf 2) s.thing2 event
  events := s.events ++ [event]

/-- The third number is never set, so the call that increments it fails and changes nothing. -/
theorem causeError_of_unset {s : StorageStorage} (h : s.something = none)
    (origin : Option (RawOrigin AccountId)) : causeError origin s =
      (.error (if (signer origin).isSome then .module .noneValue else .badOrigin), s) := by
  rcases ensureSigned_cases StorageError origin with ⟨who, hsigner, hensure⟩ | ⟨hsigner, hensure⟩
  · simp [causeError, hensure, hsigner, h]
  · simp [causeError, hensure, hsigner]

/-- A call that sets a number does so if it is signed. -/
theorem setThing_snd (thing : U32) (put : U32 → StorageStorage → StorageStorage)
    (origin : Option (RawOrigin AccountId)) (val : U32) (s : StorageStorage) :
    (setThing thing put origin val s).2 = if (signer origin).isSome then
      { put val s with events := s.events ++ [⟨thing, val⟩] } else s := by
  rcases ensureSigned_cases StorageError origin with ⟨who, hsigner, hensure⟩ | ⟨hsigner, hensure⟩
  · simp [setThing, hensure, hsigner]
  · simp [setThing, hensure, hsigner]

/-- As long as the third number is unset, a call records what it sets and nothing else. -/
theorem StorageCall.dispatch_snd {s : StorageStorage} (h : s.something = none)
    (call : StorageCall AccountId) : (call.dispatch s).2 = call.sets.elim s s.record := by
  cases call with
  | setThing1 origin val =>
    change (setThing 1 _ origin val s).2 = _
    rw [setThing_snd, sets]
    cases signer origin with
    | none => rfl
    | some who => rfl
  | setThing2 origin val =>
    change (setThing 2 _ origin val s).2 = _
    rw [setThing_snd, sets]
    cases signer origin with
    | none => rfl
    | some who => rfl
  | causeError origin =>
    change (TrexPow.causeError origin s).2 = s
    rw [causeError_of_unset h]

/-- Calls record what they set, in order. -/
theorem runStorageCalls_eq {s : StorageStorage} (h : s.something = none)
    (calls : List (StorageCall AccountId)) :
    runStorageCalls s calls = (calls.filterMap StorageCall.sets).foldl StorageStorage.record s := by
  induction calls generalizing s with
  | nil => rfl
  | cons call calls ih =>
    have hcall : runStorageCalls s (call :: calls) =
        runStorageCalls (call.dispatch s).2 calls := rfl
    rw [hcall, StorageCall.dispatch_snd h]
    cases hsets : call.sets with
    | none => rw [List.filterMap_cons_none hsets, Option.elim_none, ih h]
    | some event =>
      rw [List.filterMap_cons_some hsets, Option.elim_some, List.foldl_cons]
      exact ih h

/-- Recorded events leave the third number alone. -/
theorem foldl_record_something (log : List ValueSet) (s : StorageStorage) :
    (log.foldl StorageStorage.record s).something = s.something := by
  induction log generalizing s with
  | nil => rfl
  | cons event log ih => exact ih (s.record event)

/-- They are all in the log. -/
theorem foldl_record_events (log : List ValueSet) (s : StorageStorage) :
    (log.foldl StorageStorage.record s).events = s.events ++ log := by
  induction log generalizing s with
  | nil => exact (List.append_nil s.events).symm
  | cons event log ih =>
    rw [List.foldl_cons, ih]
    exact (List.append_assoc ..).trans rfl

/-- The numbers are the last ones of the log. -/
theorem foldl_record_things (log : List ValueSet) :
    (log.foldl StorageStorage.record .genesis).thing1.getD 0 = lastSet 1 log ∧
      (log.foldl StorageStorage.record .genesis).thing2.getD 0 = lastSet 2 log := by
  have hevents := foldl_record_events log .genesis
  have hreplay1 : EventLog.Replays StorageStorage.events StorageStorage.thing1
      (EventLog.keepLast (ValueSet.valueOf 1)) .genesis
      (log.foldl StorageStorage.record .genesis) :=
    .foldl (fun _ event => ⟨[event], rfl, rfl⟩) log _
  have hreplay2 : EventLog.Replays StorageStorage.events StorageStorage.thing2
      (EventLog.keepLast (ValueSet.valueOf 2)) .genesis
      (log.foldl StorageStorage.record .genesis) :=
    .foldl (fun _ event => ⟨[event], rfl, rfl⟩) log _
  rw [hreplay1.part_eq rfl, hreplay2.part_eq rfl, hevents, EventLog.foldl_keepLast,
    EventLog.foldl_keepLast]
  simp [StorageStorage.genesis, lastSet]

/-- **The storage follows the signed calls.** After any calls from genesis, the log holds what
the signed calls have set, in order. The sum is the one of the last values, and reading it
overflows exactly when they do not fit. The call that may fail always fails. -/
theorem storage_follows_calls (calls : List (StorageCall AccountId)) :
    let s := runStorageCalls .genesis calls
    let log := calls.filterMap StorageCall.sets
    s.events = log ∧
    (∀ sum, s.getSum = .ok sum ↔ sum.toNat = (lastSet 1 log).toNat + (lastSet 2 log).toNat) ∧
    ∀ origin : Option (RawOrigin AccountId), causeError origin s =
      (.error (if (signer origin).isSome then .module .noneValue else .badOrigin), s) := by
  intro s log
  have hs : s = log.foldl StorageStorage.record .genesis := runStorageCalls_eq rfl calls
  obtain ⟨hthing1, hthing2⟩ := foldl_record_things log
  refine ⟨?_, ?_, ?_⟩
  · rw [hs, foldl_record_events]
    rfl
  · intro sum
    have hsum := sum.isLt
    rw [StorageStorage.getSum, hs, hthing1, hthing2]
    split_ifs with hfits
    · refine iff_of_false ?_ (by omega)
      intro h
      cases h
    · rw [Except.ok.injEq, ← BitVec.toNat_inj, BitVec.toNat_add, Nat.mod_eq_of_lt (by omega)]
      exact eq_comm
  · intro origin
    apply causeError_of_unset
    rw [hs, foldl_record_something]
    rfl

end Pallet

section Sample

/-- After an unsigned call the sum is the one of the last signed ones. -/
example : (runStorageCalls .genesis [.setThing1 (some (.signed 7)) 5, .setThing2 (some .root) 9,
    .setThing1 (some (.signed 8)) 3, .causeError (some (.signed 7))]).getSum = .ok 3 := by
  decide

end Sample

end TrexPow
