import TrexPow.Dispatch
import TrexPow.Lib.Compact
import TrexPow.Lib.EventLog
import TrexPow.Rug

/-!
# The TREX pallet

A signed call stores a list of ciphers together with the account that has signed it, both
as bytes, and deposits an event with the same bytes. The account that the caller names as
the sender is not read. The bytes of an account are a parameter.
-/

namespace TrexPow

/-- Struct for holding TREX information. -/
structure TREXData (AccountId : Type) where
  cipherList : List UInt8
  fromAccount : AccountId
  deriving DecidableEq

/-- Errors inform users that something went wrong. No call returns one of them. -/
inductive TREXError
  | noneValue
  | trexInfoSentOverflow
  deriving DecidableEq

/-- The event that the pallet deposits. -/
structure TREXDataSent (AccountId : Type) where
  who : AccountId
  data : List UInt8
  deriving DecidableEq

/-- What the pallet stores, and the events that it has deposited since genesis. -/
structure TREXStorage (AccountId : Type) where
  trexStorage : Option (List UInt8)
  events : List (TREXDataSent AccountId)
  deriving DecidableEq

/-- A call of `send_trex_data`. -/
structure SendTREXData (AccountId : Type) where
  origin : Option (RawOrigin AccountId)
  /-- The account that the caller names as the sender. -/
  sender : AccountId
  cipherList : List UInt8

section Pallet

variable {AccountId : Type} (account : Codec AccountId)

/-- The encoding of a list of bytes, whose length must fit 32 bits. -/
def encodeBytes (list : List UInt8) : Rust (List UInt8) :=
  if 2 ^ 32 ≤ list.length then .error .unwrapNone
  else .ok (Compact.encode (BitVec.ofNat 32 list.length) ++ list)

/-- `TREXData::encode`, field by field. -/
def TREXData.encode (data : TREXData AccountId) : Rust (List UInt8) := do
  return (← encodeBytes data.cipherList) ++ account.encode data.fromAccount

/-- `TREXData::decode`, which reads a prefix of its input and leaves the rest. -/
def TREXData.decode (input : List UInt8) : Option (TREXData AccountId × List UInt8) :=
  ((Compact.bytes.pair account).decode input).map fun (fields, rest) =>
    (⟨fields.1.1, fields.2⟩, rest)

/-- The storage at genesis. -/
def TREXStorage.genesis : TREXStorage AccountId := ⟨none, []⟩

/-- `send_trex_data`. -/
def sendTREXData (origin : Option (RawOrigin AccountId)) (_sender : AccountId)
    (cipherList : List UInt8) (s : TREXStorage AccountId) :
    Rust (Except (DispatchError TREXError) Unit × TREXStorage AccountId) :=
  match ensureSigned origin with
  | .error error => return (.error error, s)
  | .ok who => do
    let trexData : TREXData AccountId := ⟨cipherList, who⟩
    let trexByteData ← trexData.encode account
    return (.ok (), ⟨some trexByteData, s.events ++ [⟨who, trexByteData⟩]⟩)

/-- The storage after a call, whatever its outcome. -/
def SendTREXData.run (s : TREXStorage AccountId) (call : SendTREXData AccountId) :
    Rust (TREXStorage AccountId) := do
  let (_, s) ← sendTREXData account call.origin call.sender call.cipherList s
  return s

/-- The data that a call sends, if it is signed. -/
def SendTREXData.sent (call : SendTREXData AccountId) : Option (TREXData AccountId) :=
  (signer call.origin).map fun who => ⟨call.cipherList, who⟩

variable {account}

/-- The bytes of a list that fits are those of a compact byte string. -/
theorem encodeBytes_of_lt {list : List UInt8} (h : list.length < 2 ^ 32) :
    encodeBytes list = .ok (Compact.bytes.encode ⟨list, h⟩) := by
  rw [encodeBytes, if_neg (by omega)]
  rfl

/-- Data is encoded as its two fields, unless the list is too long. -/
theorem TREXData.encode_eq_ok_iff {data : TREXData AccountId} {bytes : List UInt8} :
    data.encode account = .ok bytes ↔ ∃ h : data.cipherList.length < 2 ^ 32,
      (Compact.bytes.pair account).encode (⟨data.cipherList, h⟩, data.fromAccount) = bytes := by
  by_cases h : data.cipherList.length < 2 ^ 32
  · simp only [TREXData.encode, encodeBytes_of_lt h, Rust.ok_bind, Rust.pure_eq_ok,
      Except.ok.injEq, exists_prop_of_true h]
    rfl
  · simp only [TREXData.encode, encodeBytes, if_pos (not_lt.mp h), Rust.error_bind, reduceCtorEq,
      false_iff, not_exists]
    exact fun hlt => absurd hlt h

/-- Exactly the encoded bytes, whatever follows them, are read as the data. -/
theorem TREXData.decode_eq_some_iff {data : TREXData AccountId} {input rest : List UInt8} :
    TREXData.decode account input = some (data, rest) ↔
      ∃ bytes, data.encode account = .ok bytes ∧ input = bytes ++ rest := by
  simp only [TREXData.encode_eq_ok_iff]
  constructor
  · intro h
    obtain ⟨⟨⟨list, who⟩, rest'⟩, hread, heq⟩ := Option.map_eq_some_iff.mp h
    obtain ⟨rfl, rfl⟩ := Prod.mk.inj heq
    exact ⟨_, ⟨list.2, rfl⟩, (Codec.decode_eq_some_iff _).mp hread⟩
  · rintro ⟨_, ⟨h, rfl⟩, rfl⟩
    rw [TREXData.decode, Codec.decode_encode]
    rfl

/-- Encoded data is read back. -/
theorem TREXData.decode_of_encode {data : TREXData AccountId} {bytes : List UInt8}
    (h : data.encode account = .ok bytes) : TREXData.decode account bytes = some (data, []) :=
  TREXData.decode_eq_some_iff.mpr ⟨bytes, h, (List.append_nil bytes).symm⟩

/-- What a call changes: an unsigned call nothing, a signed one the stored bytes and the log. -/
theorem SendTREXData.run_cases {call : SendTREXData AccountId} {s s' : TREXStorage AccountId} :
    call.run account s = .ok s' ↔ (call.sent = none ∧ s' = s) ∨ ∃ data bytes,
      call.sent = some data ∧ data.encode account = .ok bytes ∧
        s' = ⟨some bytes, s.events ++ [⟨data.fromAccount, bytes⟩]⟩ := by
  unfold run sendTREXData sent
  rcases ensureSigned_cases TREXError call.origin with ⟨who, hsigner, hensure⟩ | ⟨hsigner, hensure⟩
  · simp only [hensure, hsigner, Option.map_some]
    constructor
    · intro h
      obtain ⟨⟨_, s''⟩, h, hrun⟩ := Rust.bind_eq_ok.mp h
      obtain ⟨bytes, hbytes, h⟩ := Rust.bind_eq_ok.mp h
      cases h
      cases hrun
      exact Or.inr ⟨_, bytes, rfl, hbytes, rfl⟩
    · rintro (⟨h, -⟩ | ⟨data, bytes, h, hbytes, rfl⟩)
      · cases h
      · cases h
        simp only [hbytes, Rust.ok_bind, Rust.pure_eq_ok]
  · simp only [hensure, hsigner, Option.map_none, Rust.pure_eq_ok, Rust.ok_bind,
      Except.ok.injEq, true_and, reduceCtorEq, false_and, exists_false, or_false, eq_comm]

/-- The calls of a run succeed as long as the signed ones send lists that fit. -/
theorem runs_iff {calls : List (SendTREXData AccountId)} {s : TREXStorage AccountId} :
    (∃ s', calls.foldlM (SendTREXData.run account) s = .ok s') ↔
      ∀ data ∈ calls.filterMap SendTREXData.sent, data.cipherList.length < 2 ^ 32 := by
  induction calls generalizing s with
  | nil => exact iff_of_true ⟨s, rfl⟩ (by simp)
  | cons call calls ih =>
    simp only [Loop.foldlM_cons_eq_ok, SendTREXData.run_cases]
    cases hsent : call.sent with
    | none =>
      rw [List.filterMap_cons_none hsent]
      constructor
      · rintro ⟨s', middle, ⟨-, rfl⟩ | ⟨data, _, h, -, -⟩, hrest⟩
        · exact ih.mp ⟨s', hrest⟩
        · cases h
      · intro hshort
        obtain ⟨s', hrest⟩ := ih.mpr hshort
        exact ⟨s', s, Or.inl ⟨rfl, rfl⟩, hrest⟩
    | some data =>
      rw [List.filterMap_cons_some hsent, List.forall_mem_cons]
      constructor
      · rintro ⟨s', middle, ⟨h, -⟩ | ⟨_, bytes, h, hencode, rfl⟩, hrest⟩
        · cases h
        · cases h
          obtain ⟨hlength, -⟩ := TREXData.encode_eq_ok_iff.mp hencode
          exact ⟨hlength, ih.mp ⟨s', hrest⟩⟩
      · rintro ⟨hlength, hshort⟩
        obtain ⟨s', hrest⟩ := ih.mpr hshort
        exact ⟨s', _, Or.inr ⟨data, _, rfl, TREXData.encode_eq_ok_iff.mpr ⟨hlength, rfl⟩, rfl⟩,
          hrest⟩

/-- Every event of a run names the signer of its call and holds the data that was sent. -/
theorem events_eq_sent {calls : List (SendTREXData AccountId)} {s : TREXStorage AccountId}
    (hrun : calls.foldlM (SendTREXData.run account) .genesis = .ok s) :
    s.events.map (fun event => (event.who, TREXData.decode account event.data)) =
      (calls.filterMap SendTREXData.sent).map fun data => (data.fromAccount, some (data, [])) := by
  induction calls using List.reverseRecOn generalizing s with
  | nil =>
    obtain rfl := Except.ok.inj hrun
    rfl
  | append_singleton calls call ih =>
    obtain ⟨middle, hcalls, hcall⟩ := Loop.foldlM_concat_eq_ok.mp hrun
    have hbefore := ih hcalls
    rw [List.filterMap_append, List.map_append, ← hbefore]
    obtain ⟨hsent, rfl⟩ | ⟨data, bytes, hsent, hencode, rfl⟩ := SendTREXData.run_cases.mp hcall
    · rw [List.filterMap_cons_none hsent, List.filterMap_nil, List.map_nil, List.append_nil]
    · rw [List.map_append, List.filterMap_cons_some hsent, List.filterMap_nil, List.map_singleton,
        List.map_singleton, TREXData.decode_of_encode hencode]

/-- The stored bytes are those of the last event. -/
theorem stored_eq_last {calls : List (SendTREXData AccountId)} {s : TREXStorage AccountId}
    (hrun : calls.foldlM (SendTREXData.run account) .genesis = .ok s) :
    s.trexStorage = s.events.getLast?.map TREXDataSent.data := by
  have hstep : ∀ (s : TREXStorage AccountId) (call : SendTREXData AccountId) s',
      call.run account s = .ok s' →
      EventLog.Replays TREXStorage.events TREXStorage.trexStorage
        (EventLog.keepLast fun event => some event.data) s s' := by
    intro s call s' hcall
    obtain ⟨-, rfl⟩ | ⟨data, bytes, -, -, rfl⟩ := SendTREXData.run_cases.mp hcall
    · exact .refl _
    · exact ⟨[⟨data.fromAccount, bytes⟩], rfl, rfl⟩
  rw [(EventLog.Replays.run hstep hrun).part_eq rfl, EventLog.foldl_keepLast]
  simp [TREXStorage.genesis]

/-- **Stored data names its signer.** From genesis, calls run as long as the signed ones send
lists whose length fits 32 bits. Then every event names the account that signed its call, and
its bytes decode to what was sent together with this account. The stored bytes decode to what
the last signed call sent, whatever accounts the callers name as senders. -/
theorem sent_data_names_signer (account : Codec AccountId)
    (calls : List (SendTREXData AccountId)) :
    ((∃ s, calls.foldlM (SendTREXData.run account) .genesis = .ok s) ↔
      ∀ data ∈ calls.filterMap SendTREXData.sent, data.cipherList.length < 2 ^ 32) ∧
    ∀ s, calls.foldlM (SendTREXData.run account) .genesis = .ok s →
      s.events.map (fun event => (event.who, TREXData.decode account event.data)) =
        (calls.filterMap SendTREXData.sent).map (fun data => (data.fromAccount, some (data, []))) ∧
      s.trexStorage = s.events.getLast?.map TREXDataSent.data ∧
      s.trexStorage.map (TREXData.decode account) =
        (calls.filterMap SendTREXData.sent).getLast?.map fun data => some (data, []) := by
  refine ⟨runs_iff, ?_⟩
  intro s hrun
  have hevents := events_eq_sent hrun
  have hstored := stored_eq_last hrun
  refine ⟨hevents, hstored, ?_⟩
  have hlast := congrArg (fun log => log.getLast?.map Prod.snd) hevents
  simp only [List.getLast?_map, Option.map_map, Function.comp_def] at hlast
  rw [hstored, Option.map_map]
  exact hlast

end Pallet

section Sample

/-- Account 7 sends in the name of account 9, and an unsigned call follows. -/
def spoofingCalls : List (SendTREXData (List.Vector UInt8 1)) :=
  [⟨some (.signed ⟨[7], rfl⟩), ⟨[9], rfl⟩, [1, 2, 3]⟩, ⟨some .none, ⟨[9], rfl⟩, [4]⟩]

/-- What is stored names account 7. -/
theorem spoofing_stores_signer :
    ∃ s, spoofingCalls.foldlM (SendTREXData.run (.bytes 1)) .genesis = .ok s ∧
      s.trexStorage.map (TREXData.decode (.bytes 1)) =
        some (some (⟨[1, 2, 3], ⟨[7], rfl⟩⟩, [])) := by
  obtain ⟨hruns, hstored⟩ := sent_data_names_signer (.bytes 1) spoofingCalls
  obtain ⟨s, hrun⟩ := hruns.mpr (by decide)
  exact ⟨s, hrun, (hstored s hrun).2.2⟩

end Sample

end TrexPow
