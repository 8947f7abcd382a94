import TrexPow.Lib.LittleEndian
import TrexPow.MiningRuns
import TrexPow.WorkerSeeds

/-!
# The mining seeds of different nodes

A node derives its first mining seed from its peer identity, so that nodes search from
different seeds. A failed attempt counts the seed up, and a mined block resets it to one. So
the identities keep the searches of two nodes apart until they have mined their first
blocks, and never after.
-/

namespace TrexPow

/-- `pop` a number of times. -/
def popBytes : ℕ → List UInt8 → List UInt8
  | 0, bytes => bytes
  | number + 1, bytes => popBytes number bytes.dropLast

/-- `generate_mining_seed`, on the bytes of the peer identity. The bytes behind the first 32
are removed. -/
def generateMiningSeed (localPeerVec : List UInt8) : Rust U256 := do
  let maxNumber ← checkedSub localPeerVec.length 32
  return BitVec.ofNat 256 (LittleEndian.toNat (popBytes maxNumber localPeerVec))

/-- The seed that the mining thread starts with. There is no identity if the node's key
cannot be read. -/
def initialMiningSeed : Option (List UInt8) → Rust U256
  | some localPeerVec => generateMiningSeed localPeerVec
  | none => return 1

/-- What precedes an Ed25519 key in the identity of a peer: the codes and lengths of the
multihash and of the encoded key. -/
def ed25519Header : List UInt8 := [0, 36, 8, 1, 18, 32]

/-- The identity of a peer with an Ed25519 key. -/
structure Ed25519Identity (localPeerVec key : List UInt8) : Prop where
  bytes_eq : localPeerVec = ed25519Header ++ key
  length_eq : key.length = 32

/-- Removing bytes keeps the first ones. -/
theorem popBytes_eq (number : ℕ) (bytes : List UInt8) :
    popBytes number bytes = bytes.take (bytes.length - number) := by
  induction number generalizing bytes with
  | zero => simp [popBytes]
  | succ number ih =>
    rw [popBytes, ih, List.dropLast_eq_take, List.take_take, List.length_take]
    congr 1
    omega

/-- The seed of an Ed25519 key counts the first 26 bytes of the key. -/
theorem Ed25519Identity.toNat_seed {localPeerVec key : List UInt8} {miningSeed : U256}
    (h : Ed25519Identity localPeerVec key)
    (hseed : generateMiningSeed localPeerVec = .ok miningSeed) :
    miningSeed.toNat =
      LittleEndian.toNat ed25519Header + 2 ^ 48 * LittleEndian.toNat (key.take 26) := by
  obtain ⟨rfl, hlength⟩ := h
  have hbytes : (ed25519Header ++ key).length = 38 := by
    rw [List.length_append, hlength]
    rfl
  have hkept : (ed25519Header ++ key).take 32 = ed25519Header ++ key.take 26 := rfl
  have hheader : LittleEndian.toNat ed25519Header < 2 ^ 46 := by decide
  have hlt := LittleEndian.toNat_lt (key.take 26)
  rw [List.length_take, hlength] at hlt
  have hsub : checkedSub 38 32 = .ok 6 := rfl
  rw [generateMiningSeed, hbytes, hsub, Rust.ok_bind, popBytes_eq, hbytes, hkept,
    LittleEndian.toNat_append] at hseed
  obtain rfl := Except.ok.inj hseed
  have hwidth : 256 ^ ed25519Header.length = 2 ^ 48 := by decide
  rw [hwidth, BitVec.toNat_ofNat, Nat.mod_eq_of_lt]
  norm_num at hlt ⊢
  omega

section Outcomes

variable [Deps] {cpus : Option U8}

/-- How a move ends an attempt: with a child, without one, or not at all. -/
def Node.attemptOutcome (cpus : Option U8) (s : Node) : NodeMove → Option Bool
  | .miner run =>
    match s.phase with
    | .mining metadata parent _ =>
      match parent.tryCpuMining metadata.compute s.miningSeed run cpus with
      | .ok (some _, _) => some true
      | .ok (none, _) => some false
      | .error _ => none
    | _ => none
  | _ => none

/-- The outcomes of the attempts that end in a run, in order. -/
def outcomes (cpus : Option U8) : Node → List NodeMove → List Bool
  | _, [] => []
  | s, move :: moves =>
    (s.attemptOutcome cpus move).toList ++ outcomes cpus (s.next cpus move) moves

/-- The mining seed after an attempt. -/
def seedAfter (miningSeed : U256) (mined : Bool) : U256 :=
  if mined then 1 else nextMiningSeed miningSeed

/-- One move changes the mining seed when it ends an attempt. -/
theorem Node.next_miningSeed (s : Node) (move : NodeMove) : (s.next cpus move).miningSeed =
    (s.attemptOutcome cpus move).toList.foldl seedAfter s.miningSeed := by
  cases move with
  | miner run =>
    change (s.mine cpus run).miningSeed = _
    unfold Node.mine Node.attemptOutcome
    cases hphase : s.phase with
    | mining metadata parent read =>
      simp only [Node.endAttempt]
      cases parent.tryCpuMining metadata.compute s.miningSeed run cpus with
      | error fault => rfl
      | ok result =>
        obtain ⟨found, after⟩ := result
        cases found with
        | none => rfl
        | some child => rfl
    | gotMetadata metadata =>
      simp only
      cases findSeal s.best with
      | error fault => rfl
      | ok result => rfl
    | gotSeal metadata found read =>
      cases metadata with
      | none => rfl
      | some metadata =>
        cases found with
        | none => rfl
        | some parent =>
          simp only
          split_ifs
          · rfl
          · rfl
    | _ => rfl
  | raise =>
    change s.raise.miningSeed = _
    rcases s.raise_cases with h | h
    · rw [h]
      rfl
    · rw [h]
      rfl
  | endImport cleared best =>
    change (if cleared ∈ s.imports then _ else s).miningSeed = _
    split_ifs
    · rfl
    · rfl
  | _ => rfl

/-- The mining seed after a run is decided by the outcomes of its attempts. -/
theorem miningSeed_of_run (s : Node) (moves : List NodeMove) :
    (moves.foldl (Node.next cpus) s).miningSeed =
      (outcomes cpus s moves).foldl seedAfter s.miningSeed := by
  induction moves generalizing s with
  | nil => rfl
  | cons move moves ih =>
    rw [List.foldl_cons, ih, outcomes, List.foldl_append, ← Node.next_miningSeed]

end Outcomes

/-- A failed attempt counts the seed up below the largest number. -/
theorem toNat_nextMiningSeed {miningSeed : U256} (h : miningSeed.toNat + 1 < 2 ^ 256 - 1) :
    (nextMiningSeed miningSeed).toNat = miningSeed.toNat + 1 := by
  have hne : miningSeed ≠ BitVec.allOnes 256 := by
    rintro rfl
    rw [BitVec.toNat_allOnes] at h
    omega
  have hadd : (miningSeed + 1).toNat = miningSeed.toNat + 1 := by
    have hone : (1 : U256).toNat = 1 := rfl
    rw [BitVec.toNat_add, hone]
    exact Nat.mod_eq_of_lt (by omega)
  have hnext : miningSeed + 1 ≠ BitVec.allOnes 256 := by
    intro heq
    rw [heq, BitVec.toNat_allOnes] at hadd
    omega
  simp only [nextMiningSeed, if_neg hne, if_neg hnext, hadd]

/-- Failed attempts count the seed up as long as there is room. -/
theorem toNat_foldl_failures {failures : List Bool} (hfailed : ∀ mined ∈ failures, mined = false)
    (miningSeed : U256) (h : miningSeed.toNat + failures.length < 2 ^ 256 - 1) :
    (failures.foldl seedAfter miningSeed).toNat = miningSeed.toNat + failures.length := by
  induction failures generalizing miningSeed with
  | nil => rfl
  | cons mined failures ih =>
    obtain ⟨rfl, hrest⟩ := List.forall_mem_cons.mp hfailed
    rw [List.length_cons] at h ⊢
    have hnext : (seedAfter miningSeed false).toNat = miningSeed.toNat + 1 :=
      toNat_nextMiningSeed (by omega)
    rw [List.foldl_cons, ih hrest _ (by omega), hnext]
    omega

/-- A worker starts at most 255 seeds behind the seed of the search. -/
theorem localSeedOf_bounds (seed : ℤ) (cpuI : ℕ) :
    seed ≤ localSeedOf seed cpuI ∧ localSeedOf seed cpuI ≤ seed + 255 := by
  have hlt := (maxTry * BitVec.ofNat 8 cpuI).isLt
  unfold localSeedOf
  omega

section Starts

variable [Deps] {C : Type} [Hash C] {cpus : ℕ} {key : PublicKey} {n grainSize : ℕ}
  {hashDiff : U256} {seed : ℤ}

/-- The workers hold their seeds and have restarted ten times at most. -/
structure ParState.InTries (seed : ℤ) (s : ParState C cpus) : Prop where
  localSeed : s.HasSeeds seed
  tries : ∀ i, (s.workers i).j.toNat ≤ 10

theorem ParState.InTries.move {s s' : ParState C cpus} {move : Move cpus} (hs : s.InTries seed)
    (h : s.move key n grainSize hashDiff move = .ok s') : s'.InTries seed := by
  refine ⟨hs.localSeed.move h, fun k => ?_⟩
  by_cases hmove : move = some k
  · subst hmove
    have htries := hs.tries k
    obtain ⟨-, hsame | ⟨-, -, hj, htry⟩⟩ := (ParState.stepTo_of_move h).1.tries
    · rwa [hsame]
    · have hlt : (s.workers k).j.toNat < 10 := hj
      rw [htry, toNat_succ_of_lt_maxTry hj]
      omega
  · rw [ParState.workers_eq_of_move h hmove]
    exact hs.tries k

/-- The seeds that a parallel search uses are close to its own. -/
theorem usedSeeds_bounds (key : PublicKey) (compute : C) (seed : ℤ) (grainSize : ℕ) (flag : Bool)
    (schedule : List (Move cpus)) :
    ∀ x ∈ usedSeeds seed (moveHistory key compute seed grainSize flag cpus schedule),
      seed ≤ x ∧ x ≤ seed + 265 := by
  intro x hx
  rcases List.mem_append.mp hx with hfirst | hrestart
  · obtain ⟨i, rfl⟩ := List.mem_ofFn.mp hfirst
    have hbounds := localSeedOf_bounds seed i
    omega
  · obtain ⟨made, hmade, hseed⟩ := List.mem_filterMap.mp hrestart
    unfold moveHistory at hmade
    cases hsetup : ParState.setup key compute seed flag cpus with
    | error fault =>
      rw [hsetup] at hmade
      cases hmade
    | ok start =>
      obtain ⟨hashDiff, n, s⟩ := start
      rw [hsetup] at hmade
      have hstart : s.InTries seed := by
        refine ⟨hasSeeds_setup hsetup, fun i => ?_⟩
        obtain ⟨state, -, hworker⟩ := (ParState.setup_spec hsetup).1 i
        rw [hworker]
        exact Nat.zero_le _
      have hbefore := Loop.invariant_before (fun _ _ _ hs hmove => hs.move hmove) hstart hmade
      have hafter := hbefore.move (Loop.step_of_mem_steps hmade)
      unfold restartSeed at hseed
      split at hseed
      next i hinput =>
        dsimp only at hseed
        split_ifs at hseed
        obtain rfl := Option.some.inj hseed
        have hbounds := localSeedOf_bounds seed i
        have htries := hafter.tries i
        rw [hafter.localSeed i]
        omega
      next => cases hseed

end Starts

/-- The seeds from which an attempt starts its walks. -/
def searchSeeds [Deps] {C : Type} [Hash C] (puzzle : PublicKey) (compute : C) (seed : ℤ)
    (run : MiningRun) (cpus : Option U8) : List ℤ :=
  match cpus with
  | some value =>
    if 1 < value then usedSeeds seed (moveHistory puzzle compute seed grainSize run.found
      value.toNat (run.schedule value.toNat))
    else [seed]
  | none => [seed]

/-- The seeds of an attempt are close to its own. -/
theorem searchSeeds_bounds [Deps] {C : Type} [Hash C] (puzzle : PublicKey) (compute : C)
    (seed : ℤ) (run : MiningRun) (cpus : Option U8) :
    ∀ x ∈ searchSeeds puzzle compute seed run cpus, seed ≤ x ∧ x ≤ seed + 265 := by
  have hsingle : ∀ x ∈ [seed], seed ≤ x ∧ x ≤ seed + 265 := by
    intro x hx
    rw [List.mem_singleton.mp hx]
    omega
  cases cpus with
  | none => exact hsingle
  | some value =>
    by_cases hmany : 1 < value
    · simp only [searchSeeds, if_pos hmany]
      exact usedSeeds_bounds puzzle compute seed grainSize run.found _
    · simp only [searchSeeds, if_neg hmany]
      exact hsingle

/-- Seeds of different keys stay apart while the attempts fail. -/
theorem seeds_apart {id₁ id₂ key₁ key₂ : List UInt8} (hid₁ : Ed25519Identity id₁ key₁)
    (hid₂ : Ed25519Identity id₂ key₂) (hkeys : key₁.take 26 ≠ key₂.take 26) {seed₁ seed₂ : U256}
    (hseed₁ : generateMiningSeed id₁ = .ok seed₁) (hseed₂ : generateMiningSeed id₂ = .ok seed₂) :
    (seed₁.toNat + 2 ^ 48 ≤ seed₂.toNat ∨ seed₂.toNat + 2 ^ 48 ≤ seed₁.toNat) ∧
      seed₁.toNat + 2 ^ 47 < 2 ^ 256 - 1 ∧ seed₂.toNat + 2 ^ 47 < 2 ^ 256 - 1 := by
  have hlength₁ : (key₁.take 26).length = 26 := by rw [List.length_take, hid₁.length_eq]; rfl
  have hlength₂ : (key₂.take 26).length = 26 := by rw [List.length_take, hid₂.length_eq]; rfl
  have hlt₁ := LittleEndian.toNat_lt (key₁.take 26)
  have hlt₂ := LittleEndian.toNat_lt (key₂.take 26)
  have hne : LittleEndian.toNat (key₁.take 26) ≠ LittleEndian.toNat (key₂.take 26) :=
    fun h => hkeys (LittleEndian.eq_of_toNat_eq (hlength₁.trans hlength₂.symm) h)
  have hheader : LittleEndian.toNat ed25519Header < 2 ^ 46 := by decide
  rw [hid₁.toNat_seed hseed₁, hid₂.toNat_seed hseed₂]
  rw [hlength₁] at hlt₁
  rw [hlength₂] at hlt₂
  norm_num at hlt₁ hlt₂ hheader ⊢
  omega

section Nodes

variable [Deps] {cpus₁ cpus₂ : Option U8}

/-- **Identities keep nodes apart until they have mined a block.** Take two nodes whose Ed25519
keys differ in the first 26 bytes. As long as neither has mined a block, and for fewer than
`2 ^ 47` attempts each, no attempt of the one starts a walk from a seed from which an attempt
of the other does. But when both have mined a block and then failed equally often, they mine
with the same seed, whoever they are. -/
theorem identities_keep_nodes_apart {id₁ id₂ key₁ key₂ : List UInt8}
    (hid₁ : Ed25519Identity id₁ key₁) (hid₂ : Ed25519Identity id₂ key₂)
    (hkeys : key₁.take 26 ≠ key₂.take 26) {node₁ node₂ : Node}
    (hseed₁ : initialMiningSeed (some id₁) = .ok node₁.miningSeed)
    (hseed₂ : initialMiningSeed (some id₂) = .ok node₂.miningSeed) (moves₁ moves₂ : List NodeMove) :
    let s₁ := moves₁.foldl (Node.next cpus₁) node₁
    let s₂ := moves₂.foldl (Node.next cpus₂) node₂
    ((∀ mined ∈ outcomes cpus₁ node₁ moves₁, mined = false) →
      (∀ mined ∈ outcomes cpus₂ node₂ moves₂, mined = false) →
      (outcomes cpus₁ node₁ moves₁).length < 2 ^ 47 →
      (outcomes cpus₂ node₂ moves₂).length < 2 ^ 47 →
      ∀ (puzzle₁ puzzle₂ : PublicKey) (compute₁ compute₂ : Compute) (run₁ run₂ : MiningRun),
        List.Disjoint (searchSeeds puzzle₁ compute₁ (u256Bigint s₁.miningSeed) run₁ cpus₁)
          (searchSeeds puzzle₂ compute₂ (u256Bigint s₂.miningSeed) run₂ cpus₂)) ∧
    ∀ earlier₁ earlier₂ failures,
      outcomes cpus₁ node₁ moves₁ = earlier₁ ++ true :: List.replicate failures false →
      outcomes cpus₂ node₂ moves₂ = earlier₂ ++ true :: List.replicate failures false →
      s₁.miningSeed = s₂.miningSeed := by
  intro s₁ s₂
  have hrun₁ : s₁.miningSeed = (outcomes cpus₁ node₁ moves₁).foldl seedAfter node₁.miningSeed :=
    miningSeed_of_run node₁ moves₁
  have hrun₂ : s₂.miningSeed = (outcomes cpus₂ node₂ moves₂).foldl seedAfter node₂.miningSeed :=
    miningSeed_of_run node₂ moves₂
  constructor
  · intro hfailed₁ hfailed₂ hcount₁ hcount₂ puzzle₁ puzzle₂ compute₁ compute₂ run₁ run₂ x hx₁ hx₂
    obtain ⟨hapart, hroom₁, hroom₂⟩ := seeds_apart hid₁ hid₂ hkeys hseed₁ hseed₂
    have hnow₁ := toNat_foldl_failures hfailed₁ node₁.miningSeed (by omega)
    have hnow₂ := toNat_foldl_failures hfailed₂ node₂.miningSeed (by omega)
    rw [← hrun₁] at hnow₁
    rw [← hrun₂] at hnow₂
    have hbounds₁ := searchSeeds_bounds _ _ _ _ _ x hx₁
    have hbounds₂ := searchSeeds_bounds _ _ _ _ _ x hx₂
    rw [u256Bigint_eq, hnow₁] at hbounds₁
    rw [u256Bigint_eq, hnow₂] at hbounds₂
    omega
  · intro earlier₁ earlier₂ failures houtcomes₁ houtcomes₂
    rw [hrun₁, hrun₂, houtcomes₁, houtcomes₂, List.foldl_append, List.foldl_append,
      List.foldl_cons, List.foldl_cons]
    rfl

end Nodes

section Sample

attribute [local instance] Deps.sample

/-- An identity whose key has one byte that is not zero. -/
def identityOf (byte : UInt8) : List UInt8 := ed25519Header ++ byte :: List.replicate 31 0

theorem ed25519_identityOf (byte : UInt8) :
    Ed25519Identity (identityOf byte) (byte :: List.replicate 31 0) := ⟨rfl, rfl⟩

/-- A node in its first attempt, with the seed of such an identity. -/
def identifiedNode (byte : UInt8) : Node :=
  { attemptingNode with
    miningSeed := BitVec.ofNat 256 (LittleEndian.toNat ((identityOf byte).take 32)) }

/-- Two nodes that have each failed once do not search from the same seeds. -/
theorem failedNodes_apart : List.Disjoint
    (searchSeeds smallKey plainMetadata.compute (u256Bigint
      ([.miner quietRun].foldl (Node.next none) (identifiedNode 2)).miningSeed) quietRun none)
    (searchSeeds smallKey plainMetadata.compute (u256Bigint
      ([.miner quietRun].foldl (Node.next none) (identifiedNode 5)).miningSeed) quietRun none) := by
  have hfailed₁ : outcomes none (identifiedNode 2) [.miner quietRun] = [false] := by decide +kernel
  have hfailed₂ : outcomes none (identifiedNode 5) [.miner quietRun] = [false] := by decide +kernel
  obtain ⟨hapart, -⟩ := @identities_keep_nodes_apart Deps.sample none none _ _ _ _
    (ed25519_identityOf 2) (ed25519_identityOf 5) (by decide) (identifiedNode 2)
    (identifiedNode 5) rfl rfl [.miner quietRun] [.miner quietRun]
  rw [hfailed₁, hfailed₂] at hapart
  exact hapart (by simp) (by simp) (by decide) (by decide) _ _ _ _ _ _

end Sample

end TrexPow
