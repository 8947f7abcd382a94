import TrexPow.Cancellation
import TrexPow.MinerSafety

/-!
# How an import moves the mining thread on

An import raises the flag that the search of an attempt checks. So an import during an
attempt ends it soon, whatever the other parties do. The mining thread then goes on to the
new head, unless it has the height at which the thread has just tried.
-/

namespace TrexPow

/-- Only the other parties move. -/
def OthersMove (moves : List NodeMove) : Prop := ∀ run, NodeMove.miner run ∉ moves

/-- What the mining thread owns is as before, and a raised flag is still up. -/
structure Node.Waits (s s' : Node) : Prop extends s.Frame s' where
  miningSeed_eq : s'.miningSeed = s.miningSeed
  found_stays : s.found = true → s'.found = true

section Stretches

variable [Deps] {cpus : Option U8} {s : Node} {moves : List NodeMove}

/-- The mining thread waits during a move of another party. -/
theorem Node.next_waits {move : NodeMove} (hmove : ∀ run, move ≠ .miner run) :
    s.Waits (s.next cpus move) := by
  have hframe : s.Frame (s.next cpus move) := by
    rcases s.next_cases cpus move with ⟨run, rfl⟩ | hframe
    · exact absurd rfl (hmove run)
    · exact hframe
  refine ⟨hframe, ?_, ?_⟩
  · cases move with
    | miner run => exact absurd rfl (hmove run)
    | raise =>
      change s.raise.miningSeed = s.miningSeed
      rcases s.raise_cases with h | h <;> rw [h]
    | refresh metadata => rfl
    | beginImport => rfl
    | endImport cleared best =>
      change Node.miningSeed (if cleared ∈ s.imports then _ else s) = s.miningSeed
      split_ifs <;> rfl
  · intro hfound
    cases move with
    | miner run => exact absurd rfl (hmove run)
    | raise =>
      change s.raise.found = true
      rcases s.raise_cases with h | h <;> rw [h]
      exact hfound
    | refresh metadata => exact hfound
    | beginImport => rfl
    | endImport cleared best =>
      change Node.found (if cleared ∈ s.imports then _ else s) = true
      split_ifs <;> exact hfound

/-- The mining thread waits while only the other parties move. -/
theorem Node.waits_of_others (cpus : Option U8) (hothers : OthersMove moves) :
    s.Waits (moves.foldl (Node.next cpus) s) := by
  induction moves generalizing s with
  | nil => exact ⟨⟨rfl, rfl, rfl⟩, rfl, id⟩
  | cons move moves ih =>
    have hfirst : s.Waits (s.next cpus move) := by
      apply Node.next_waits
      rintro run rfl
      exact hothers run List.mem_cons_self
    have hrest := @ih (s.next cpus move) fun run hmem => hothers run (List.mem_cons_of_mem _ hmem)
    refine ⟨⟨?_, ?_, ?_⟩, ?_, ?_⟩
    · exact hrest.phase_eq.trans hfirst.phase_eq
    · exact hrest.miningNumber_eq.trans hfirst.miningNumber_eq
    · exact hrest.lastAttempt_eq.trans hfirst.lastAttempt_eq
    · exact hrest.miningSeed_eq.trans hfirst.miningSeed_eq
    · exact fun hfound => hrest.found_stays (hfirst.found_stays hfound)

/-- What the loads of the flag return, of which each falls after some of the moves. -/
def Node.flagAt (cpus : Option U8) (s : Node) (moves : List NodeMove) (point : ℕ → ℕ)
    (load : ℕ) : Bool :=
  ((moves.take (point load)).foldl (Node.next cpus) s).found

/-- A load that falls after the beginning of an import returns `true`. -/
theorem Node.flagAt_of_import {earlier later : List NodeMove} (hlater : OthersMove later)
    {point : ℕ → ℕ} {load : ℕ} (hload : earlier.length < point load) :
    s.flagAt cpus (earlier ++ .beginImport :: later) point load = true := by
  obtain ⟨rest, hrest⟩ : ∃ rest, point load = earlier.length + (rest + 1) :=
    ⟨point load - earlier.length - 1, by omega⟩
  have hseen : OthersMove (later.take rest) := by
    intro run hmem
    exact hlater run (List.mem_of_mem_take hmem)
  rw [Node.flagAt, hrest, List.take_length_add_append, List.take_succ_cons, List.foldl_append,
    List.foldl_cons]
  exact (Node.waits_of_others cpus hseen).found_stays rfl

/-- The next step of the mining thread, after moves of the others. -/
def Node.stepAfter (cpus : Option U8) (s : Node) (others : List NodeMove) (run : MiningRun) :
    Node :=
  (others.foldl (Node.next cpus) s).mine cpus run

/-- The mining thread is idle, and it starts an attempt on the best block that it reads next,
if this is at another height, has a seal, and there is metadata. The others may move before
each of its steps. -/
structure Node.MovesOn (cpus : Option U8) (s : Node) (height : U32) : Prop where
  idle : s.phase = .idle
  starts : ∀ (others others' others'' : List NodeMove) (run run' run'' : MiningRun)
    (metadata : MiningMetadata) (parent : Seal) (best : Block) (number : U32),
    OthersMove others → OthersMove others' → OthersMove others'' →
    (others.foldl (Node.next cpus) s).metadata = some metadata →
    (others'.foldl (Node.next cpus) (s.stepAfter cpus others run)).best = best →
    findSeal best = .ok (some parent, number) → best.number ≠ height →
    (((s.stepAfter cpus others run).stepAfter cpus others' run').stepAfter cpus others''
      run'').phase = .starting metadata parent best

/-- An idle thread reads the metadata. -/
theorem Node.stepAfter_idle {others : List NodeMove} (hothers : OthersMove others)
    (hphase : s.phase = .idle) (run : MiningRun) :
    (s.stepAfter cpus others run).phase =
        .gotMetadata (others.foldl (Node.next cpus) s).metadata ∧
      (s.stepAfter cpus others run).miningNumber = s.miningNumber := by
  have hwaits : s.Waits (others.foldl (Node.next cpus) s) := Node.waits_of_others cpus hothers
  have hphase' := hwaits.phase_eq.trans hphase
  simp only [Node.stepAfter, Node.mine, hphase']
  exact ⟨trivial, hwaits.miningNumber_eq⟩

/-- A thread with metadata reads the best block and its seal. -/
theorem Node.stepAfter_gotMetadata {others : List NodeMove} (run : MiningRun)
    (hothers : OthersMove others) {metadata : Option MiningMetadata} {found : Option Seal}
    {best : Block} {number : U32} (hphase : s.phase = .gotMetadata metadata)
    (hbest : (others.foldl (Node.next cpus) s).best = best)
    (hseal : findSeal best = .ok (found, number)) :
    (s.stepAfter cpus others run).phase = .gotSeal metadata found best ∧
      (s.stepAfter cpus others run).miningNumber = s.miningNumber := by
  have hwaits : s.Waits (others.foldl (Node.next cpus) s) := Node.waits_of_others cpus hothers
  have hphase' := hwaits.phase_eq.trans hphase
  simp only [Node.stepAfter, Node.mine, hphase', hbest, hseal]
  exact ⟨trivial, hwaits.miningNumber_eq⟩

/-- An idle thread moves on from the height that it remembers. -/
theorem Node.movesOn_of_idle (hidle : s.phase = .idle) : s.MovesOn cpus s.miningNumber where
  idle := hidle
  starts := by
    intro others others' others'' run run' run'' metadata parent best number hothers hothers'
      hothers'' hmetadata hbest hseal hheight
    obtain ⟨hfirst, hnumber⟩ := Node.stepAfter_idle hothers hidle run
    rw [hmetadata] at hfirst
    obtain ⟨hsecond, hnumber'⟩ :=
      Node.stepAfter_gotMetadata run' hothers' hfirst hbest hseal
    have hwaits := Node.waits_of_others
      (s := (s.stepAfter cpus others run).stepAfter cpus others' run') cpus hothers''
    have hother := (hwaits.miningNumber_eq.trans hnumber').trans hnumber
    rw [Node.stepAfter, Node.mine_gotSeal (hwaits.phase_eq.trans hsecond), hother, if_neg]
    rintro ⟨-, hsame⟩
    exact hheight hsame.symm

/-- The search of an attempt with several CPUs meets the import: from some point of its
schedule on, at which the flag is raised from outside, each thread makes enough steps. -/
def MiningRun.MeetsImport (run : MiningRun) (cpus : Option U8) : Prop :=
  ∀ value, cpus = some value → 1 < value → ∃ before after : List (Move value.toNat),
    run.schedule value.toNat = before ++ none :: after ∧
      ∀ i, 4 * grainSize + 14 ≤ after.count (some i)

/-- A flag that is raised from outside is up. -/
theorem parallelRun_concat_none {key : PublicKey} {header : Compute} {seed : ℤ} {flag : Bool}
    {threads : ℕ} {before : List (Move threads)} {s : ParState Compute threads}
    (h : parallelRun key header seed grainSize flag threads (before ++ [none]) = .ok s) :
    s.shared.found = true := by
  obtain ⟨⟨hashDiff, n, start⟩, -, hmoves⟩ := Rust.bind_eq_ok.mp h
  obtain ⟨reached, -, hraise⟩ := Loop.foldlM_concat_eq_ok.mp hmoves
  obtain rfl := Except.ok.inj hraise
  rfl

/-- A parallel search that meets an import can be joined. -/
theorem MiningRun.joins_of_import {run : MiningRun} {key : PublicKey} {header : Compute}
    {miningSeed : U256} (hrand : RandomInRange) (hkey : key.Sound)
    (hbits : 18 ≤ key.bitLength.toNat) (hmeets : run.MeetsImport cpus) :
    run.Joins cpus key header miningSeed := by
  intro value hvalue hmany s hrun i
  obtain ⟨before, after, hschedule, hsteps⟩ := hmeets value hvalue hmany
  obtain ⟨raised, hraised, -⟩ := parallelRun_ends hrand hkey.three_le hkey.lt hbits rfl header
    (u256Bigint miningSeed) grainSize run.found value.toNat (before ++ [none])
  obtain ⟨s', hrun', -, hreturns⟩ := parallelRun_returned hrand hkey.three_le hkey.lt hbits hraised
    (parallelRun_concat_none hraised) after
  rw [List.append_assoc, List.singleton_append, ← hschedule, hrun] at hrun'
  obtain rfl := Except.ok.inj hrun'
  exact hreturns i (hsteps i)

/-- The mining thread moves on, at once or when it has submitted the seal it has found. -/
def Node.Leaves (cpus : Option U8) (s : Node) (height : U32) : Prop :=
  s.MovesOn cpus height ∨ ∃ child, s.phase = .submitting child ∧
    ∀ others run, OthersMove others → (s.stepAfter cpus others run).MovesOn cpus height

/-- A thread that submits a seal moves on from the height that it remembers. -/
theorem Node.leaves_of_submitting {child : Seal} (hphase : s.phase = .submitting child) :
    s.Leaves cpus s.miningNumber := by
  right
  refine ⟨child, hphase, ?_⟩
  intro others run hothers
  have hwaits : s.Waits (others.foldl (Node.next cpus) s) := Node.waits_of_others cpus hothers
  have hstep : s.stepAfter cpus others run =
      { others.foldl (Node.next cpus) s with phase := .idle } := by
    simp only [Node.stepAfter, Node.mine, hwaits.phase_eq.trans hphase]
  have hnumber : (s.stepAfter cpus others run).miningNumber = s.miningNumber := by
    rw [hstep]
    exact hwaits.miningNumber_eq
  rw [← hnumber]
  exact Node.movesOn_of_idle (by rw [hstep])

/-- The end of an attempt that returns leaves its height. -/
theorem Node.endAttempt_leaves {metadata : MiningMetadata} {parent : Seal} {read : Block}
    {run : MiningRun} (h : ∃ result, parent.tryCpuMining metadata.compute s.miningSeed run cpus =
      .ok result) : (s.endAttempt cpus metadata parent read run).Leaves cpus s.miningNumber := by
  obtain ⟨⟨found, after⟩, hresult⟩ := h
  rw [Node.endAttempt, hresult]
  cases found with
  | none => exact Or.inl (Node.movesOn_of_idle rfl)
  | some child => exact Node.leaves_of_submitting rfl

/-- **An import moves the mining thread on.** When an import begins during an attempt, the
attempt ends, and nothing that the other parties do prevents it: with one CPU at most, a
search that loads the flag at any points of their moves returns within a number of steps that
is fixed by the index of a load after the import, and with several CPUs it returns when each
thread has made a fixed number of steps. From then on the thread, which submits its seal first
if it has found one, starts an attempt on the best block that it reads next, if this is at
another height and has a seal. -/
theorem import_moves_miner_on (hrand : RandomInRange) (hbitLength : KeysHaveBitLength)
    (hprime : KeysHavePrimeModulus) (hseeds : SeedsInRange) (h : (Node.system cpus).Reachable s)
    {metadata : MiningMetadata} {parent : Seal} {read : Block}
    (hphase : s.phase = .mining metadata parent read) (hchain : metadata.InChain)
    {earlier later : List NodeMove} (hearlier : OthersMove earlier) (hlater : OthersMove later)
    {run : MiningRun} {point : ℕ → ℕ} {load : ℕ}
    (hflag : run.flag = s.flagAt cpus (earlier ++ .beginImport :: later) point)
    (hload : earlier.length < point load) (hmeets : run.MeetsImport cpus) :
    (∃ key result steps, Keychain.at (yieldPubKeys parent.seeds) metadata.difficulty = .ok key ∧
      countedSolveDist key metadata.compute (u256Bigint s.miningSeed) grainSize run.flag =
        .ok (result, steps) ∧ steps ≤ (3 * load + 5) * (grainSize + 1) ∧
      ((∀ value, cpus = some value → value ≤ 1) →
        search key metadata.compute (u256Bigint s.miningSeed) run cpus =
          .ok (result.solutions, result.compute))) ∧
    (s.stepAfter cpus (earlier ++ .beginImport :: later) run).Leaves cpus read.number := by
  obtain ⟨hmin, hmax⟩ := hchain
  obtain ⟨key, hat, hsound, hbits⟩ := chainKey_spec hbitLength hprime parent.seeds hmin hmax
  have hlong : 18 ≤ key.bitLength.toNat := by omega
  constructor
  · have hup : run.flag load = true := by
      rw [hflag]
      exact Node.flagAt_of_import hlater hload
    obtain ⟨result, steps, hcounted, hresult⟩ := countedSolveDist_ok hrand hsound.three_le
      hsound.lt hlong metadata.compute (u256Bigint s.miningSeed) grainSize run.flag
    exact ⟨key, result, steps, hat, hcounted, countedSolveDist_steps_le hup hcounted,
      fun hcpus => search_of_le_one hcpus hresult⟩
  · have hothers : OthersMove (earlier ++ .beginImport :: later) := by
      intro other hmem
      rcases List.mem_append.mp hmem with hmem | hmem
      · exact hearlier other hmem
      · rcases List.mem_cons.mp hmem with hmem | hmem
        · cases hmem
        · exact hlater other hmem
    have hwaits := Node.waits_of_others (s := s) cpus hothers
    have hremembers := Node.remembers_of_reachable h
    have hheight : s.miningNumber = read.number := by
      rw [hremembers.otherwise (by rw [hphase]; exact nofun), hremembers.mining _ _ _ hphase]
    rw [Node.stepAfter, ← hheight, ← hwaits.miningNumber_eq]
    simp only [Node.mine, hwaits.phase_eq.trans hphase]
    apply Node.endAttempt_leaves
    apply Seal.tryCpuMining_returns hrand hbitLength hprime hseeds parent hmin hmax
    intro key' hkey'
    obtain rfl := Except.ok.inj (hat.symm.trans hkey')
    exact MiningRun.joins_of_import hrand hsound hlong hmeets

end Stretches

section Sample

attribute [local instance] Deps.sample

theorem luckyAttempt_reached : (Node.system none).Reachable luckyAttempt := by
  have hstart : (Node.system none).Reachable luckyNode := .start ⟨rfl, rfl, rfl, List.not_mem_nil⟩
  exact hstart.run (List.replicate 4 (.miner quietRun))

/-- The sealed block is imported during the attempt on the genesis block. -/
def importOfSealed : List NodeMove := [.beginImport, .endImport false sealedBlock]

/-- An import before the first load of the flag ends the attempt within 50005 steps. -/
theorem luckyAttempt_overtaken : ∃ key result steps,
    countedSolveDist key plainMetadata.compute 2 grainSize
      (luckyAttempt.flagAt none importOfSealed fun load => load + 2) = .ok (result, steps) ∧
    steps ≤ 50005 := by
  have hothers : OthersMove [.endImport false sealedBlock] := by
    intro run hmem
    cases hmem with
    | tail _ hmem => cases hmem
  have hmeets : MiningRun.MeetsImport
      ⟨luckyAttempt.flagAt none importOfSealed fun load => load + 2, false, fun _ => []⟩ none := by
    intro value hvalue
    cases hvalue
  obtain ⟨⟨key, result, steps, -, hcounted, hsteps, -⟩, -⟩ :=
    @import_moves_miner_on _ none luckyAttempt Deps.sample.randomInRange
      Deps.sample.keysHaveBitLength Deps.sample.keysHavePrimeModulus Deps.sample.seedsInRange
      luckyAttempt_reached plainMetadata (genesisSeal initDifficulty) genesisBlock rfl
      ⟨by decide, by decide⟩ [] [.endImport false sealedBlock] (fun _ => List.not_mem_nil) hothers
      ⟨luckyAttempt.flagAt none importOfSealed fun load => load + 2, false, fun _ => []⟩
      (fun load => load + 2) 0 rfl (by decide) hmeets
  exact ⟨key, result, steps, hcounted, hsteps⟩

end Sample

end TrexPow
