import TrexPow.CancellableSolver
import TrexPow.Trail

/-!
# Merged trails stay merged

A step reads the work of a state, its key and the header without the nonce. So two walks
at the same work go on alike, whatever their solutions, the nonces of their states and the
nonces in their header computers are. Only from the next step on do they agree in the
nonce too, which decides with the work which states are distinguished points.
-/

namespace TrexPow

open Loop (Control Reaches Leaves bounded)

/-- Two states of a key at the same work, with header computers that may differ in the
nonce. The work fits a word. -/
structure Merged (key : PublicKey) (s t : State ℤ) (c d : Compute) : Prop where
  pubkey1 : s.pubkey = key
  pubkey2 : t.pubkey = key
  work_eq : s.work = t.work
  fits : |s.work| < 2 ^ 256
  header : SameHeader c d

/-- Two states that a walk of a key does not tell apart: only their solutions may differ. -/
structure State.Alike (key : PublicKey) (s t : State ℤ) : Prop where
  reduced1 : s.Reduced key
  reduced2 : t.Reduced key
  work_eq : s.work = t.work
  nonce_eq : s.nonce = t.nonce

section Step

variable {key : PublicKey} {s t : State ℤ} {c d : Compute}

/-- Reduced states at the same work have merged. -/
theorem State.Reduced.merged (hlt : key.p < 2 ^ 256) (hs : s.Reduced key) (ht : t.Reduced key)
    (hwork : s.work = t.work) (hsame : SameHeader c d) : Merged key s t c d := by
  obtain ⟨hnonneg, hbound⟩ := hs.work_bounds
  refine ⟨hs.pubkey_eq, ht.pubkey_eq, hwork, ?_, hsame⟩
  rw [abs_of_nonneg hnonneg]
  omega

theorem State.Alike.merged (hlt : key.p < 2 ^ 256) (h : s.Alike key t) : Merged key s t c c :=
  h.reduced1.merged hlt h.reduced2 h.work_eq ⟨rfl, rfl⟩

variable [Deps]

/-- Setting the nonce overwrites the one that the header computer holds. -/
theorem SameHeader.setNonce_eq {c d : Compute} (h : SameHeader c d) (x : ℤ) :
    Hash.setNonce c x = Hash.setNonce d x := by
  obtain ⟨difficulty, preHash, nonce⟩ := c
  obtain ⟨difficulty', preHash', nonce'⟩ := d
  obtain ⟨rfl, rfl⟩ : difficulty' = difficulty ∧ preHash' = preHash := h
  rfl

/-- Setting the nonce panics for an integer whose absolute value fits no word. -/
theorem setNonce_error_iff (c : Compute) (x : ℤ) :
    (∃ fault, Hash.setNonce c x = .error fault) ↔ 2 ^ 256 ≤ |x| := by
  have hfits : 32 < (Rug.toDigits x).length ↔ 2 ^ 256 ≤ |x| := by
    rw [← not_le, Rug.toDigits, LittleEndian.length_digits_le_iff, Int.abs_eq_natAbs]
    omega
  rw [← hfits]
  simp only [Hash.setNonce, bigintU256, u256FromLittleEndian]
  split_ifs with hlong
  · exact iff_of_true ⟨_, rfl⟩ hlong
  · refine iff_of_false ?_ hlong
    rintro ⟨fault, hfault⟩
    cases hfault

/-- The hash for distinguished points does not read the solution. -/
theorem State.Alike.hashEncode_eq (h : s.Alike key t) : s.hashEncode = t.hashEncode := by
  simp only [State.hashEncode, h.work_eq, h.nonce_eq, h.reduced1.pubkey_eq, h.reduced2.pubkey_eq]

/-- One step of states that have merged makes them alike, with the same header computer.
Equal solutions stay equal. -/
theorem Merged.transit (hthree : 3 ≤ key.p) (h : Merged key s t c d) :
    ∃ s' t' after, s.transit c = .ok (s', after) ∧ t.transit d = .ok (t', after) ∧
      s'.Alike key t' ∧ (s.solution = t.solution → s'.solution = t'.solution) := by
  obtain ⟨hs, ht, hwork, hfits, hsame⟩ := h
  cases hset : Hash.setNonce c s.work with
  | error fault =>
    have hlarge := (setNonce_error_iff c s.work).mp ⟨fault, hset⟩
    omega
  | ok after =>
    -- both computers hold the common work now, whatever nonces they held before
    have hset' : Hash.setNonce d t.work = .ok after := by
      rw [← hwork, ← hsame.setNonce_eq, hset]
    have hbounds (x y : ℤ) := key.nextWork_bounds (by omega : 0 < key.p) x y
    refine ⟨_, _, after, State.transit_of_setNonce (hs ▸ hthree) hset,
      State.transit_of_setNonce (ht ▸ hthree) hset', ?_, ?_⟩
    · rw [hs, ht, ← hwork]
      exact ⟨⟨rfl, hbounds _ _⟩, ⟨rfl, hbounds _ _⟩, rfl, rfl⟩
    · intro hsolution
      rw [hs, ht, hsolution]

/-- States at the same work stay merged over any number of steps, and equal solutions stay
equal. -/
theorem Merged.transits (hthree : 3 ≤ key.p) (hlt : key.p < 2 ^ 256) (h : Merged key s t c d)
    (k : ℕ) :
    ∃ s' t' c' d', s.transits k c = .ok (s', c') ∧ t.transits k d = .ok (t', d') ∧
      Merged key s' t' c' d' ∧ (s.solution = t.solution → s'.solution = t'.solution) := by
  induction k with
  | zero => exact ⟨s, t, c, d, rfl, rfl, h, id⟩
  | succ k ih =>
    obtain ⟨s', t', c', d', hrun, hrun', hmerged, hsolution⟩ := ih
    obtain ⟨s'', t'', after, hmove, hmove', halike, hstay⟩ := hmerged.transit hthree
    refine ⟨s'', t'', after, after, ?_, ?_, halike.merged hlt, fun heq => hstay (hsolution heq)⟩
    · rw [State.transits_succ hrun, hmove]
    · rw [State.transits_succ hrun', hmove']

/-- After at least one step the states are alike, with the same header computer. -/
theorem Merged.transits_alike (hthree : 3 ≤ key.p) (hlt : key.p < 2 ^ 256)
    (h : Merged key s t c d) {k : ℕ} (hk : 1 ≤ k) :
    ∃ s' t' after, s.transits k c = .ok (s', after) ∧ t.transits k d = .ok (t', after) ∧
      s'.Alike key t' := by
  obtain ⟨k, rfl⟩ := Nat.exists_eq_succ_of_ne_zero (by omega : k ≠ 0)
  obtain ⟨s', t', c', d', hrun, hrun', hmerged, -⟩ := h.transits hthree hlt k
  obtain ⟨s'', t'', after, hmove, hmove', halike, -⟩ := hmerged.transit hthree
  refine ⟨s'', t'', after, ?_, ?_, halike⟩
  · rw [State.transits_succ hrun, hmove]
  · rw [State.transits_succ hrun', hmove']

/-- More steps go on from the state that the first ones reach. -/
theorem State.transits_add (j k : ℕ) {s' : State ℤ} {c' : Compute}
    (h : s.transits j c = .ok (s', c')) : s.transits (j + k) c = s'.transits k c' := by
  induction k with
  | zero => exact h
  | succ k ih => rw [← Nat.add_assoc, State.transits, ih, State.transits]

/-- A work that fits no word makes every number of steps panic. -/
theorem State.transits_error {fault : Fault} (hset : Hash.setNonce c s.work = .error fault) {k : ℕ}
    (hk : 1 ≤ k) : s.transits k c = .error fault := by
  induction k, hk using Nat.le_induction with
  | base =>
    rw [State.transits_succ rfl]
    simp only [State.transit, hset, Rust.error_bind]
  | succ k _ ih => rw [State.transits, ih, Rust.error_bind]

/-- All that a search compares of two states, their solutions apart, is equal. -/
structure State.Agree (s t : State ℤ) : Prop where
  work_eq : s.work = t.work
  nonce_eq : s.nonce = t.nonce
  hashEncode_eq : s.hashEncode = t.hashEncode
  overflowed_eq : ∀ hashDiff, s.overflowed hashDiff = t.overflowed hashDiff

theorem State.Alike.agree (h : s.Alike key t) : s.Agree t := by
  refine ⟨h.work_eq, h.nonce_eq, h.hashEncode_eq, ?_⟩
  intro hashDiff
  rw [State.overflowed, h.hashEncode_eq, State.overflowed]

/-- The solutions after `k` steps, if both walks get that far, are equal. -/
def SolutionsAgree (s t : State ℤ) (c d : Compute) (k : ℕ) : Prop :=
  ∀ s' t' c' d', s.transits k c = .ok (s', c') → t.transits k d = .ok (t', d') →
    s'.solution = t'.solution

/-- Solutions of states that have merged stay equal once they are. -/
theorem Merged.solutionsAgree (hthree : 3 ≤ key.p) (hlt : key.p < 2 ^ 256)
    (h : Merged key s t c d) {j l : ℕ} (hle : j ≤ l) (hj : SolutionsAgree s t c d j) :
    SolutionsAgree s t c d l := by
  obtain ⟨m, rfl⟩ := Nat.exists_eq_add_of_le hle
  obtain ⟨s', t', c', d', hrun, hrun', hmerged, -⟩ := h.transits hthree hlt j
  obtain ⟨s'', t'', c'', d'', hrest, hrest', -, hstay⟩ := hmerged.transits hthree hlt m
  intro s₁ t₁ c₁ d₁ hs₁ ht₁
  rw [State.transits_add j m hrun, hrest] at hs₁
  rw [State.transits_add j m hrun', hrest'] at ht₁
  obtain ⟨rfl, -⟩ := Prod.mk.inj (Except.ok.inj hs₁)
  obtain ⟨rfl, -⟩ := Prod.mk.inj (Except.ok.inj ht₁)
  exact hstay (hj s' t' c' d' hrun hrun')

/-- Steps of states at the same work fail alike, and only where the work fits no word, or
lead to states that agree, with the same header computer. -/
theorem transits_sameWork (hthree : 3 ≤ key.p) (hlt : key.p < 2 ^ 256) (hs : s.pubkey = key)
    (ht : t.pubkey = key) (hwork : s.work = t.work) (hsame : SameHeader c d) {k : ℕ}
    (hk : 1 ≤ k) :
    (2 ^ 256 ≤ |s.work| ∧
        ∃ fault, s.transits k c = .error fault ∧ t.transits k d = .error fault) ∨
      ∃ s' t' after, s.transits k c = .ok (s', after) ∧ t.transits k d = .ok (t', after) ∧
        s'.Agree t' := by
  rcases lt_or_ge |s.work| (2 ^ 256) with hfits | hlarge
  · have hmerged : Merged key s t c d := ⟨hs, ht, hwork, hfits, hsame⟩
    obtain ⟨s', t', after, hrun, hrun', halike⟩ := hmerged.transits_alike hthree hlt hk
    exact Or.inr ⟨s', t', after, hrun, hrun', halike.agree⟩
  · obtain ⟨fault, hset⟩ := (setNonce_error_iff c s.work).mpr hlarge
    have hset' : Hash.setNonce d t.work = .error fault := by
      rw [← hwork, ← hsame.setNonce_eq, hset]
    exact Or.inl ⟨hlarge, fault, State.transits_error hset hk, State.transits_error hset' hk⟩

/-- Solutions of states at the same work stay equal once they are. -/
theorem solutionsAgree_mono (hthree : 3 ≤ key.p) (hlt : key.p < 2 ^ 256) (hs : s.pubkey = key)
    (ht : t.pubkey = key) (hwork : s.work = t.work) (hsame : SameHeader c d) {j l : ℕ}
    (hle : j ≤ l) (hj : SolutionsAgree s t c d j) : SolutionsAgree s t c d l := by
  rcases lt_or_ge |s.work| (2 ^ 256) with hfits | hlarge
  · have hmerged : Merged key s t c d := ⟨hs, ht, hwork, hfits, hsame⟩
    exact hmerged.solutionsAgree hthree hlt hle hj
  · -- no step succeeds, so that only the start can have equal solutions
    rcases Nat.eq_zero_or_pos l with rfl | hl
    · obtain rfl : j = 0 := by omega
      exact hj
    · obtain ⟨fault, hset⟩ := (setNonce_error_iff c s.work).mpr hlarge
      intro s' t' c' d' hrun
      rw [State.transits_error hset hl] at hrun
      cases hrun

/-- A step only changes the nonce of the header computer. -/
theorem State.transit_sameHeader {s' : State ℤ} {c' : Compute}
    (h : s.transit c = .ok (s', c')) : SameHeader c c' := by
  obtain ⟨after, hset, h⟩ := Rust.bind_eq_ok.mp h
  obtain ⟨nonce, -, hafter⟩ := Rust.bind_eq_ok.mp hset
  obtain rfl := Except.ok.inj hafter
  simp only [Rust.bind_eq_ok, Rust.pure_eq_ok, Except.ok.injEq, Prod.mk.injEq] at h
  obtain ⟨_, _, _, _, _, _, _, _, _, rfl⟩ := h
  exact ⟨rfl, rfl⟩

end Step

section Loops

variable {key : PublicKey} {r : Race Compute} {t : DistRace Compute}

/-- The states of a search are reduced, and its header computers differ in the nonce only. -/
structure Race.Paired (key : PublicKey) (r : Race Compute) : Prop where
  reduced : r.Reduced key
  header : SameHeader r.compute r.compute2

/-- The states of a search have merged. -/
def Race.Merged (key : PublicKey) (r : Race Compute) : Prop :=
  TrexPow.Merged key r.state1 r.state2 r.compute r.compute2

/-- A match at the end of a pass of the first loop leaves it with merged states. -/
theorem Race.Paired.merged (hlt : key.p < 2 ^ 256) (hr : r.Paired key)
    (hwork : r.state1.work = r.state2.work) : r.Merged key :=
  hr.reduced.reduced1.merged hlt hr.reduced.reduced2 hwork hr.header

variable [Deps]

/-- The moves of a pass of the first loop keep a search paired. -/
theorem Race.Paired.first_moves (hthree : 3 ≤ key.p) (hlt : key.p < 2 ^ 256) (hr : r.Paired key) :
    ∃ state1 compute middle compute2 state2 compute2',
      r.state1.transit r.compute = .ok (state1, compute) ∧
      r.state2.transit r.compute2 = .ok (middle, compute2) ∧
      middle.transit compute2 = .ok (state2, compute2') ∧
      Race.Paired key ⟨state1, state2, compute, compute2'⟩ := by
  obtain ⟨state1, compute, middle, compute2, state2, compute2', hmove1, hmove2, hmove3,
    hreduced⟩ := hr.reduced.first_moves hthree hlt
  have hheader1 := State.transit_sameHeader hmove1
  have hheader2 := (State.transit_sameHeader hmove2).trans (State.transit_sameHeader hmove3)
  exact ⟨state1, compute, middle, compute2, state2, compute2', hmove1, hmove2, hmove3, hreduced,
    (hheader1.symm.trans hr.header).trans hheader2⟩

/-- The first loop of `solve` is left with merged states. -/
theorem solvePass_merges (hthree : 3 ≤ key.p) (hlt : key.p < 2 ^ 256)
    {c : Control (Race Compute) (Option (Solutions ℤ) × Compute)} (hr : r.Paired key)
    (h : solvePass r = .ok c) :
    c.Satisfies (Race.Paired key) (Race.Merged key) (fun _ => True) := by
  obtain ⟨state1, compute, middle, compute2, state2, compute2', hmove1, hmove2, hmove3,
    hpaired⟩ := hr.first_moves hthree hlt
  simp only [solvePass, hmove1, hmove2, hmove3, Rust.ok_bind, Rust.pure_eq_ok] at h
  split_ifs at h with hwork
  · obtain rfl := Except.ok.inj h
    exact hpaired.merged hlt hwork
  · obtain rfl := Except.ok.inj h
    trivial
  · obtain rfl := Except.ok.inj h
    exact hpaired

/-- The first loop of `solve_dist` is left with merged states. -/
theorem solveDistPass_merges (hthree : 3 ≤ key.p) (hlt : key.p < 2 ^ 256) {flag : ℕ → Bool}
    {grainSize : ℕ} {c : Control (DistRace Compute) (DistResult Compute)}
    (ht : t.toRace.Paired key) (h : solveDistPass flag grainSize t = .ok c) :
    c.Satisfies (fun t => t.toRace.Paired key) (fun t => t.toRace.Merged key)
      (fun _ => True) := by
  obtain ⟨state1, compute, middle, compute2, state2, compute2', hmove1, hmove2, hmove3,
    hpaired⟩ := ht.first_moves hthree hlt
  simp only [solveDistPass, hmove1, hmove2, hmove3, Rust.ok_bind, Rust.pure_eq_ok] at h
  cases hpoll : pollFlag flag grainSize t.counter t.loads with
  | none =>
    rw [hpoll] at h
    obtain rfl := Except.ok.inj h
    trivial
  | some polled =>
    rw [hpoll] at h
    dsimp only at h
    split_ifs at h with hwork
    · obtain rfl := Except.ok.inj h
      exact hpaired.merged hlt hwork
    · obtain rfl := Except.ok.inj h
      trivial
    · obtain rfl := Except.ok.inj h
      exact hpaired

/-- The next pass of the second loop moves to these states, which agree. -/
def Race.MovesAlike (r : Race Compute) (state1 state2 : State ℤ) : Prop :=
  ∃ after, r.state1.transit r.compute = .ok (state1, after) ∧
    r.state2.transit r.compute2 = .ok (state2, after) ∧ state1.Agree state2

/-- The moves of a pass of the second loop from merged states. -/
theorem Race.Merged.second_moves (hthree : 3 ≤ key.p) (hlt : key.p < 2 ^ 256)
    (hr : r.Merged key) :
    ∃ state1 state2 after, r.state1.transit r.compute = .ok (state1, after) ∧
      r.state2.transit r.compute2 = .ok (state2, after) ∧ state1.Agree state2 ∧
      Race.Merged key ⟨state1, state2, after, after⟩ := by
  obtain ⟨state1, state2, after, hmove1, hmove2, halike, -⟩ := TrexPow.Merged.transit hthree hr
  exact ⟨state1, state2, after, hmove1, hmove2, halike.agree, halike.merged hlt⟩

/-- A pass of the second loop of `solve` moves merged states alike. They stay merged when it
goes on, and where it ends at a distinguished point, it returns nothing exactly if the
solutions are equal. -/
theorem Race.Merged.solveNoncePass_spec (hthree : 3 ≤ key.p) (hlt : key.p < 2 ^ 256)
    (hashDiff : U256) (hr : r.Merged key) :
    ∃ state1 state2, r.MovesAlike state1 state2 ∧
      (∀ r', solveNoncePass hashDiff r = .ok (.next r') → r'.Merged key) ∧
      ∀ result, solveNoncePass hashDiff r = .ok (.ret result) →
        state1.overflowed hashDiff = false ∧
          (result.1 = none ↔ state1.solution = state2.solution) := by
  obtain ⟨state1, state2, after, hmove1, hmove2, hagree, hmerged⟩ := hr.second_moves hthree hlt
  refine ⟨state1, state2, ⟨after, hmove1, hmove2, hagree⟩, ?_⟩
  simp only [solveNoncePass, hmove1, hmove2, Rust.ok_bind, Rust.pure_eq_ok, hagree.work_eq,
    true_and]
  split_ifs with hpoint hne
  · rw [Bool.not_eq_true'] at hpoint
    constructor
    · intro r' h
      cases h
    · intro result h
      cases h
      exact ⟨hpoint, iff_of_false (fun h => by cases h) hne⟩
  · rw [Bool.not_eq_true'] at hpoint
    constructor
    · intro r' h
      cases h
    · intro result h
      cases h
      exact ⟨hpoint, iff_of_true rfl (not_not.mp hne)⟩
  · constructor
    · intro r' h
      cases h
      exact hmerged
    · intro result h
      cases h

/-- The same for a pass of the second loop of `solve_dist` that no load of the flag cancels. -/
theorem DistRace.solveDistNoncePass_spec (hthree : 3 ≤ key.p) (hlt : key.p < 2 ^ 256)
    (flag : ℕ → Bool) (grainSize : ℕ) (hashDiff : U256) (ht : t.toRace.Merged key) :
    ∃ state1 state2, t.toRace.MovesAlike state1 state2 ∧
      (∀ t', solveDistNoncePass flag grainSize hashDiff t = .ok (.next t') →
        t'.toRace.Merged key) ∧
      ∀ polled result, pollFlag flag grainSize t.counter t.loads = some polled →
        flag polled.2 = false →
        solveDistNoncePass flag grainSize hashDiff t = .ok (.ret result) →
        state1.overflowed hashDiff = false ∧
          (result.solutions = none ↔ state1.solution = state2.solution) := by
  obtain ⟨state1, state2, after, hmove1, hmove2, hagree, hmerged⟩ := ht.second_moves hthree hlt
  refine ⟨state1, state2, ⟨after, hmove1, hmove2, hagree⟩, ?_⟩
  simp only [solveDistNoncePass, hmove1, hmove2, Rust.ok_bind, Rust.pure_eq_ok, hagree.work_eq,
    true_and]
  cases pollFlag flag grainSize t.counter t.loads with
  | none =>
    constructor
    · intro t' h
      cases h
    · intro polled result hpoll
      cases hpoll
  | some polled =>
    dsimp only
    split_ifs with hpoint hflag hne
    · constructor
      · intro t' h
        cases h
      · intro polled' result hpoll hclear
        obtain rfl := Option.some.inj hpoll
        rw [hflag] at hclear
        cases hclear
    · rw [Bool.not_eq_true'] at hpoint
      constructor
      · intro t' h
        cases h
      · intro polled' result _ _ h
        cases h
        exact ⟨hpoint, iff_of_false (fun h => by cases h) hne⟩
    · rw [Bool.not_eq_true'] at hpoint
      constructor
      · intro t' h
        cases h
      · intro polled' result _ _ h
        cases h
        exact ⟨hpoint, iff_of_true rfl (not_not.mp hne)⟩
    · constructor
      · intro t' h
        cases h
        exact hmerged
      · intro polled' result _ _ h
        cases h

/-- Both states start a search where the other does, with the same header computer. -/
theorem Race.paired_start (hp : 0 < key.p) {seed : ℤ} {start : State ℤ}
    (hstate : State.fromPubKey key seed = .ok start) (header : Compute) :
    Race.Paired key ⟨start, start, header, header⟩ := by
  obtain ⟨hreduced, -⟩ := State.fromPubKey_reduced hp hstate
  exact ⟨⟨hreduced, hreduced⟩, rfl, rfl⟩

/-- The states of `solve` stay merged in the second loop. -/
theorem Race.Merged.of_reaches (hthree : 3 ≤ key.p) (hlt : key.p < 2 ^ 256) {hashDiff : U256}
    {j : ℕ} {r' : Race Compute} (hr : r.Merged key)
    (h : Reaches (solveNoncePass hashDiff) j r r') : r'.Merged key := by
  refine Reaches.invariant (I := fun _ => Race.Merged key) ?_ hr h
  intro _ s t hs hnext
  obtain ⟨_, _, _, hstay, -⟩ := hs.solveNoncePass_spec hthree hlt hashDiff
  exact hstay t hnext

/-- The states of `solve_dist` stay merged in the second loop. -/
theorem DistRace.merged_of_reaches (hthree : 3 ≤ key.p) (hlt : key.p < 2 ^ 256) {flag : ℕ → Bool}
    {grainSize : ℕ} {hashDiff : U256} {j : ℕ} {t' : DistRace Compute} (ht : t.toRace.Merged key)
    (h : Reaches (solveDistNoncePass flag grainSize hashDiff) j t t') : t'.toRace.Merged key := by
  refine Reaches.invariant (I := fun _ (t : DistRace Compute) => t.toRace.Merged key) ?_ ht h
  intro _ s t hs hnext
  obtain ⟨_, _, _, hstay, -⟩ := s.solveDistNoncePass_spec hthree hlt flag grainSize hashDiff hs
  exact hstay t hnext

/-- **Merged trails stay merged.** From two states of a key at the same work, with header
computers that differ in the nonce only, any number of steps from the first on fails alike,
and only for a work that fits no word, or leads to states that agree in work, nonce and
hash; solutions stay equal once they are. So a match that ends the first loop of a solver
keeps its states at the same work in the second, and what that returns at a distinguished
point, unless it is cancelled, is nothing exactly if the solutions have become equal. -/
theorem merged_trails (hp : 3 ≤ key.p ∧ key.p < 2 ^ 256) :
    (∀ (s t : State ℤ) (c d : Compute), s.pubkey = key → t.pubkey = key → s.work = t.work →
      SameHeader c d →
      (∀ k, 1 ≤ k →
        (2 ^ 256 ≤ |s.work| ∧
          ∃ fault, s.transits k c = .error fault ∧ t.transits k d = .error fault) ∨
        ∃ s' t' after, s.transits k c = .ok (s', after) ∧ t.transits k d = .ok (t', after) ∧
          s'.Agree t') ∧
      ∀ j l, j ≤ l → SolutionsAgree s t c d j → SolutionsAgree s t c d l) ∧
    (∀ (header : Compute) (seed : ℤ) (start : State ℤ) (hashDiff : U256) (n : ℕ)
        (r : Race Compute), State.fromPubKey key seed = .ok start →
      Leaves solvePass n ⟨start, start, header, header⟩ r →
      bounded solvePass n ⟨start, start, header, header⟩ = .ok (.inl r) ∧
      ∀ j r', Reaches (solveNoncePass hashDiff) j r r' → r'.state1.work = r'.state2.work ∧
        ∃ state1 state2, r'.MovesAlike state1 state2 ∧
          ∀ result, solveNoncePass hashDiff r' = .ok (.ret result) →
            state1.overflowed hashDiff = false ∧
              (result.1 = none ↔ state1.solution = state2.solution)) ∧
    ∀ (header : Compute) (seed : ℤ) (start : State ℤ) (grainSize : ℕ) (flag : ℕ → Bool)
        (hashDiff : U256) (n : ℕ) (t : DistRace Compute), State.fromPubKey key seed = .ok start →
      Leaves (solveDistPass flag grainSize) n ⟨⟨start, start, header, header⟩, 0, 0⟩ t →
      bounded (solveDistPass flag grainSize) n ⟨⟨start, start, header, header⟩, 0, 0⟩ =
        .ok (.inl t) ∧
      ∀ j t', Reaches (solveDistNoncePass flag grainSize hashDiff) j { t with counter := 0 } t' →
        t'.state1.work = t'.state2.work ∧
        ∃ state1 state2, t'.toRace.MovesAlike state1 state2 ∧
          ∀ polled result, pollFlag flag grainSize t'.counter t'.loads = some polled →
            flag polled.2 = false →
            solveDistNoncePass flag grainSize hashDiff t' = .ok (.ret result) →
            state1.overflowed hashDiff = false ∧
              (result.solutions = none ↔ state1.solution = state2.solution) := by
  obtain ⟨hthree, hlt⟩ := hp
  refine ⟨?_, ?_, ?_⟩
  · intro s t c d hs ht hwork hsame
    exact ⟨fun k hk => transits_sameWork hthree hlt hs ht hwork hsame hk,
      fun j l hle hj => solutionsAgree_mono hthree hlt hs ht hwork hsame hle hj⟩
  · intro header seed start hashDiff n r hstate hleaves
    have hr := hleaves.establishes (fun _ _ => solvePass_merges hthree hlt)
      (Race.paired_start (by omega) hstate header)
    refine ⟨hleaves.bounded_eq, ?_⟩
    intro j r' hreach
    have hr' := hr.of_reaches hthree hlt hreach
    obtain ⟨state1, state2, hmoves, -, hreturns⟩ := hr'.solveNoncePass_spec hthree hlt hashDiff
    exact ⟨hr'.work_eq, state1, state2, hmoves, hreturns⟩
  · intro header seed start grainSize flag hashDiff n t hstate hleaves
    have ht := hleaves.establishes (I := fun t => t.toRace.Paired key)
      (fun _ _ => solveDistPass_merges hthree hlt) (Race.paired_start (by omega) hstate header)
    refine ⟨hleaves.bounded_eq, ?_⟩
    intro j t' hreach
    have ht' : t'.toRace.Merged key :=
      DistRace.merged_of_reaches (t := { t with counter := 0 }) hthree hlt ht hreach
    obtain ⟨state1, state2, hmoves, -, hreturns⟩ :=
      t'.solveDistNoncePass_spec hthree hlt flag grainSize hashDiff ht'
    exact ⟨ht'.work_eq, state1, state2, hmoves, hreturns⟩

end Loops

section Sample

attribute [local instance] Deps.sample

/-- Two states of the small key at the work 3 with different solutions and nonces agree after
two steps, and from seed zero the second pass of the first loop is left with such states. -/
theorem smallKey_merged_trails :
    (∃ s' t' after,
      State.transits 2 ⟨⟨1, 0, 3⟩, 1, 3, smallKey⟩ ⟨48, .replicate 32 0, 0⟩ = .ok (s', after) ∧
      State.transits 2 ⟨⟨0, 5, 3⟩, 6, 3, smallKey⟩ ⟨48, .replicate 32 0, 9⟩ = .ok (t', after) ∧
      s'.Agree t') ∧
    ∃ r state1 state2, bounded solvePass 16 ⟨⟨⟨0, 1, 3⟩, 1, 4, smallKey⟩,
        ⟨⟨0, 1, 3⟩, 1, 4, smallKey⟩, ⟨48, .replicate 32 0, 0⟩, ⟨48, .replicate 32 0, 0⟩⟩ =
          .ok (.inl r) ∧
      r.state1.work = r.state2.work ∧ r.state1.solution ≠ r.state2.solution ∧
      r.MovesAlike state1 state2 := by
  have hp : 3 ≤ smallKey.p ∧ smallKey.p < 2 ^ 256 := by decide
  obtain ⟨hsteps, hsolve, -⟩ := merged_trails hp
  constructor
  · rcases (hsteps ⟨⟨1, 0, 3⟩, 1, 3, smallKey⟩ ⟨⟨0, 5, 3⟩, 6, 3, smallKey⟩ ⟨48, .replicate 32 0, 0⟩
      ⟨48, .replicate 32 0, 9⟩ rfl rfl rfl ⟨rfl, rfl⟩).1 2 (by decide) with ⟨hlarge, -⟩ | hagree
    · exact absurd hlarge (by decide)
    · exact hagree
  · have hstate : State.fromPubKey smallKey 0 = .ok ⟨⟨0, 1, 3⟩, 1, 4, smallKey⟩ := by
      decide +kernel
    have hleaves : Leaves solvePass 16 (⟨⟨⟨0, 1, 3⟩, 1, 4, smallKey⟩, ⟨⟨0, 1, 3⟩, 1, 4, smallKey⟩,
        ⟨48, .replicate 32 0, 0⟩, ⟨48, .replicate 32 0, 0⟩⟩ : Race Compute)
        ⟨⟨⟨4, 3, 3⟩, 2, 4, smallKey⟩, ⟨⟨2, 5, 3⟩, 2, 4, smallKey⟩, ⟨48, .replicate 32 0, 2⟩,
          ⟨48, .replicate 32 0, 2⟩⟩ := by
      refine ⟨1, by decide, ⟨⟨⟨4, 1, 3⟩, 4, 2, smallKey⟩, ⟨⟨4, 3, 3⟩, 2, 4, smallKey⟩,
        ⟨48, .replicate 32 0, 4⟩, ⟨48, .replicate 32 0, 2⟩⟩, ⟨_, rfl, ?_⟩, ?_⟩
      · rfl
      · rfl
    obtain ⟨hended, hsecond⟩ := hsolve _ 0 _ 0 16 _ hstate hleaves
    obtain ⟨hwork, state1, state2, hmoves, -⟩ := hsecond 0 _ rfl
    exact ⟨_, state1, state2, hended, hwork, by decide, hmoves⟩

end Sample

end TrexPow
