import TrexPow.Walk

/-!
# The cancellable solver follows the plain one

Both solvers run the same two loops. The cancellable one also counts its passes,
loads the flag when the count has reached the grain size, and loads it once more at a
distinguished point. Every pass that is not cancelled does what the plain pass does.
-/

namespace TrexPow

open Loop (Control bounded)

/-- A state of a key whose work is reduced modulo the key's modulus. -/
structure State.Reduced (key : PublicKey) (state : State ℤ) : Prop where
  pubkey_eq : state.pubkey = key
  work_bounds : 0 ≤ state.work ∧ state.work < key.p

/-- Both states of a search are reduced. -/
structure Race.Reduced (key : PublicKey) (r : Race Compute) : Prop where
  reduced1 : r.state1.Reduced key
  reduced2 : r.state2.Reduced key

theorem PublicKey.nextWork_bounds {key : PublicKey} (hp : 0 < key.p) (x y : ℤ) :
    0 ≤ key.nextWork x y ∧ key.nextWork x y < key.p := by
  have hmod (e : ℤ) : 0 ≤ e % key.p ∧ e % key.p < key.p :=
    ⟨Int.emod_nonneg _ hp.ne', Int.emod_lt_of_pos _ hp⟩
  unfold nextWork
  split
  · exact hmod _
  · exact hmod _
  · exact hmod _

/-- A step from a reduced state leads to a reduced state. -/
theorem State.Reduced.transit_ok [Deps] {key : PublicKey} {state : State ℤ} (hthree : 3 ≤ key.p)
    (hlt : key.p < 2 ^ 256) (hs : state.Reduced key) (compute : Compute) :
    ∃ next compute', state.transit compute = .ok (next, compute') ∧ next.Reduced key := by
  obtain ⟨rfl, hwork0, hworkp⟩ := hs
  refine ⟨_, _, State.transit_eq hthree ⟨hwork0, by omega⟩ compute, rfl, ?_⟩
  exact PublicKey.nextWork_bounds (by omega) _ _

/-- A random state of a key is reduced, and one stands for the nonce it does not have yet. -/
theorem State.fromPubKey_reduced [Deps] {key : PublicKey} {state : State ℤ} {seed : ℤ}
    (hp : 0 < key.p) (h : State.fromPubKey key seed = .ok state) :
    state.Reduced key ∧ state.nonce = 1 := by
  simp only [State.fromPubKey, Rust.bind_eq_ok, Rust.pure_eq_ok, Rug.divRemEuc_of_ne_zero hp.ne',
    Except.ok.injEq] at h
  obtain ⟨_, _, _, _, _, _, _, rfl, rfl⟩ := h
  exact ⟨⟨rfl, Int.emod_nonneg _ hp.ne', Int.emod_lt_of_pos _ hp⟩, rfl⟩

/-- The search was cancelled: some load of the flag has returned `true`. -/
structure DistResult.Cancelled {C : Type} (flag : ℕ → Bool) (result : DistResult C) : Prop where
  solutions_eq : result.solutions = none
  stored_eq : result.stored = false
  seen : ∃ k, flag k = true

/-- The search returns what the plain search returns, and notifies the other workers of
the solutions it has found. -/
structure DistResult.Agrees {C : Type} (plain : Option (Solutions ℤ) × C)
    (result : DistResult C) : Prop where
  solutions_eq : result.solutions = plain.1
  compute_eq : result.compute = plain.2
  stored_eq : result.stored = plain.1.isSome

/-- The two searches stand at the same states. The polling counter of the second has not
passed the grain size, so that 32 bits hold it. -/
structure InStep (key : PublicKey) (grainSize : ℕ) (r : Race Compute) (t : DistRace Compute) :
    Prop where
  same : t.toRace = r
  reduced : r.Reduced key
  counter_le : t.counter ≤ max grainSize 1

/-- A poll that does not cancel the search leaves room for the next pass in the counter. -/
theorem pollFlag_counter {flag : ℕ → Bool} {grainSize counter loads : ℕ} {polled : ℕ × ℕ}
    (hcounter : counter ≤ max grainSize 1)
    (h : pollFlag flag grainSize counter loads = some polled) :
    polled.1 + 1 ≤ max grainSize 1 := by
  unfold pollFlag at h
  split_ifs at h with hgrain hflag
  · obtain rfl := Option.some.inj h
    exact le_max_right grainSize 1
  · obtain rfl := Option.some.inj h
    dsimp only
    omega

/-- Only a load that returns `true` cancels the search. -/
theorem pollFlag_eq_none {flag : ℕ → Bool} {grainSize counter loads : ℕ}
    (h : pollFlag flag grainSize counter loads = none) : flag loads = true := by
  unfold pollFlag at h
  split_ifs at h with hgrain hflag
  exact hflag

section Passes

variable [Deps] {key : PublicKey} {grainSize : ℕ} {r : Race Compute} {t : DistRace Compute}

/-- The moves of one pass of the first loop. -/
theorem Race.Reduced.first_moves (hthree : 3 ≤ key.p) (hlt : key.p < 2 ^ 256)
    (hr : r.Reduced key) :
    ∃ state1 compute middle compute2 state2 compute2',
      r.state1.transit r.compute = .ok (state1, compute) ∧
      r.state2.transit r.compute2 = .ok (middle, compute2) ∧
      middle.transit compute2 = .ok (state2, compute2') ∧
      Race.Reduced key ⟨state1, state2, compute, compute2'⟩ := by
  obtain ⟨state1, compute, hmove1, hreduced1⟩ := hr.reduced1.transit_ok hthree hlt r.compute
  obtain ⟨middle, compute2, hmove2, hmiddle⟩ := hr.reduced2.transit_ok hthree hlt r.compute2
  obtain ⟨state2, compute2', hmove3, hreduced2⟩ := hmiddle.transit_ok hthree hlt compute2
  exact ⟨state1, compute, middle, compute2, state2, compute2', hmove1, hmove2, hmove3,
    hreduced1, hreduced2⟩

/-- The moves of one pass of the second loop. -/
theorem Race.Reduced.second_moves (hthree : 3 ≤ key.p) (hlt : key.p < 2 ^ 256)
    (hr : r.Reduced key) :
    ∃ state1 compute state2 compute2, r.state1.transit r.compute = .ok (state1, compute) ∧
      r.state2.transit r.compute2 = .ok (state2, compute2) ∧
      Race.Reduced key ⟨state1, state2, compute, compute2⟩ := by
  obtain ⟨state1, compute, hmove1, hreduced1⟩ := hr.reduced1.transit_ok hthree hlt r.compute
  obtain ⟨state2, compute2, hmove2, hreduced2⟩ := hr.reduced2.transit_ok hthree hlt r.compute2
  exact ⟨state1, compute, state2, compute2, hmove1, hmove2, hreduced1, hreduced2⟩

/-- A pass of the first loop succeeds from reduced states. -/
theorem solvePass_ok (hthree : 3 ≤ key.p) (hlt : key.p < 2 ^ 256) (hr : r.Reduced key) :
    ∃ c, solvePass r = .ok c ∧
      c.Satisfies (Race.Reduced key) (Race.Reduced key) (fun _ => True) := by
  obtain ⟨state1, compute, middle, compute2, state2, compute2', hmove1, hmove2, hmove3,
    hreduced⟩ := hr.first_moves hthree hlt
  simp only [solvePass, hmove1, hmove2, hmove3, Rust.ok_bind, Rust.pure_eq_ok]
  split_ifs
  · exact ⟨_, rfl, hreduced⟩
  · exact ⟨_, rfl, trivial⟩
  · exact ⟨_, rfl, hreduced⟩

/-- A pass of the second loop succeeds from reduced states. -/
theorem solveNoncePass_ok (hashDiff : U256) (hthree : 3 ≤ key.p) (hlt : key.p < 2 ^ 256)
    (hr : r.Reduced key) :
    ∃ c, solveNoncePass hashDiff r = .ok c ∧
      c.Satisfies (Race.Reduced key) (Race.Reduced key) (fun _ => True) := by
  obtain ⟨state1, compute, state2, compute2, hmove1, hmove2, hreduced⟩ :=
    hr.second_moves hthree hlt
  simp only [solveNoncePass, hmove1, hmove2, Rust.ok_bind, Rust.pure_eq_ok]
  split_ifs
  · exact ⟨_, rfl, trivial⟩
  · exact ⟨_, rfl, trivial⟩
  · exact ⟨_, rfl, hreduced⟩

/-- A pass of the first loop follows the plain one. -/
theorem solveDistPass_follows (flag : ℕ → Bool) (hthree : 3 ≤ key.p) (hlt : key.p < 2 ^ 256)
    (ht : InStep key grainSize r t) :
    ∃ c d, solvePass r = .ok c ∧ solveDistPass flag grainSize t = .ok d ∧
      c.Follows (InStep key grainSize) DistResult.Agrees (DistResult.Cancelled flag) d := by
  obtain ⟨rfl, hreduced, hcounter⟩ := ht
  obtain ⟨state1, compute, middle, compute2, state2, compute2', hmove1, hmove2, hmove3,
    hreduced'⟩ := hreduced.first_moves hthree hlt
  simp only [solvePass, solveDistPass, hmove1, hmove2, hmove3, Rust.ok_bind, Rust.pure_eq_ok]
  cases hpoll : pollFlag flag grainSize t.counter t.loads with
  | none =>
    have hcancelled : DistResult.Cancelled flag ⟨none, compute, false⟩ :=
      ⟨rfl, rfl, _, pollFlag_eq_none hpoll⟩
    dsimp only
    split_ifs
    · exact ⟨_, _, rfl, rfl, hcancelled⟩
    · exact ⟨_, _, rfl, rfl, Or.inr hcancelled⟩
    · exact ⟨_, _, rfl, rfl, hcancelled⟩
  | some polled =>
    have hroom := pollFlag_counter hcounter hpoll
    dsimp only
    split_ifs
    · exact ⟨_, _, rfl, rfl, rfl, hreduced', Nat.le_of_succ_le hroom⟩
    · exact ⟨_, _, rfl, rfl, Or.inl ⟨rfl, rfl, rfl⟩⟩
    · exact ⟨_, _, rfl, rfl, rfl, hreduced', hroom⟩

/-- A pass of the second loop follows the plain one. -/
theorem solveDistNoncePass_follows (flag : ℕ → Bool) (hashDiff : U256) (hthree : 3 ≤ key.p)
    (hlt : key.p < 2 ^ 256) (ht : InStep key grainSize r t) :
    ∃ c d, solveNoncePass hashDiff r = .ok c ∧
      solveDistNoncePass flag grainSize hashDiff t = .ok d ∧
      c.Follows (InStep key grainSize) DistResult.Agrees (DistResult.Cancelled flag) d := by
  obtain ⟨rfl, hreduced, hcounter⟩ := ht
  obtain ⟨state1, compute, state2, compute2, hmove1, hmove2, hreduced'⟩ :=
    hreduced.second_moves hthree hlt
  simp only [solveNoncePass, solveDistNoncePass, hmove1, hmove2, Rust.ok_bind, Rust.pure_eq_ok]
  cases hpoll : pollFlag flag grainSize t.counter t.loads with
  | none =>
    have hcancelled : DistResult.Cancelled flag ⟨none, compute, false⟩ :=
      ⟨rfl, rfl, _, pollFlag_eq_none hpoll⟩
    dsimp only
    split_ifs
    · exact ⟨_, _, rfl, rfl, Or.inr hcancelled⟩
    · exact ⟨_, _, rfl, rfl, Or.inr hcancelled⟩
    · exact ⟨_, _, rfl, rfl, hcancelled⟩
  | some polled =>
    have hroom := pollFlag_counter hcounter hpoll
    dsimp only
    -- the last load comes only at a distinguished point
    split_ifs with hpoint hmatch hflag hflag
    · exact ⟨_, _, rfl, rfl, Or.inr ⟨rfl, rfl, _, hflag⟩⟩
    · exact ⟨_, _, rfl, rfl, Or.inl ⟨rfl, rfl, rfl⟩⟩
    · exact ⟨_, _, rfl, rfl, Or.inr ⟨rfl, rfl, _, hflag⟩⟩
    · exact ⟨_, _, rfl, rfl, Or.inl ⟨rfl, rfl, rfl⟩⟩
    · exact ⟨_, _, rfl, rfl, rfl, hreduced', hroom⟩

end Passes

/-- What the plain search returns for the end of its second loop. -/
def Race.result : Race Compute ⊕ Option (Solutions ℤ) × Compute → Option (Solutions ℤ) × Compute
  | .inl r => (none, r.compute)
  | .inr plain => plain

/-- What the cancellable search returns for the end of its second loop. -/
def DistRace.result : DistRace Compute ⊕ DistResult Compute → DistResult Compute
  | .inl t => ⟨none, t.compute, false⟩
  | .inr result => result

/-- The second loops of both searches end with results that follow each other. -/
theorem nonceLoops_follow [Deps] {key : PublicKey} {grainSize : ℕ} (flag : ℕ → Bool)
    (hashDiff : U256) (hthree : 3 ≤ key.p) (hlt : key.p < 2 ^ 256) (n : ℕ) {r : Race Compute}
    {t : DistRace Compute} (ht : InStep key grainSize r t) :
    ∃ second second', bounded (solveNoncePass hashDiff) n r = .ok second ∧
      bounded (solveDistNoncePass flag grainSize hashDiff) n t = .ok second' ∧
      ((DistRace.result second').Agrees (Race.result second) ∨
        (DistRace.result second').Cancelled flag) := by
  obtain ⟨second, hsecond, -⟩ :=
    Loop.bounded_total (fun r => solveNoncePass_ok hashDiff hthree hlt) n ht.reduced
  obtain ⟨second', hsecond', hfollowed⟩ :=
    Loop.bounded_follows (fun r t => solveDistNoncePass_follows flag hashDiff hthree hlt) ht hsecond
  refine ⟨second, second', hsecond, hsecond', ?_⟩
  cases second' with
  | inl t' => cases second with
    | inl r' => exact Or.inl ⟨rfl, congrArg Race.compute hfollowed.same, rfl⟩
    | inr plain => exact hfollowed.elim
  | inr result => cases second with
    | inl r' => exact Or.inr hfollowed
    | inr plain => exact hfollowed

/-- The cancellable search runs like the plain one until it is cancelled. -/
theorem solveDist_follows [Deps] (hrand : RandomInRange) {key : PublicKey} (hthree : 3 ≤ key.p)
    (hlt : key.p < 2 ^ 256) (hbits : 18 ≤ key.bitLength.toNat) (header : Compute) (seed : ℤ)
    (grainSize : ℕ) (flag : ℕ → Bool) :
    ∃ plain result, solve key header seed = .ok plain ∧
      solveDist key header seed grainSize flag = .ok result ∧
      (result.Agrees plain ∨ result.Cancelled flag) := by
  obtain ⟨start, hstate, hpub, -, -, -, hwork⟩ := State.fromPubKey_ok hrand hthree seed
  obtain ⟨hashDiff, htester⟩ := PublicKey.hashDiff_ok hbits
  have hlen := PublicKey.searchLen_ok (by omega : 0 ≤ key.p)
  have hstart : start.Reduced key := by
    refine ⟨hpub, ?_⟩
    rw [hwork]
    exact ⟨Int.emod_nonneg _ (by omega), Int.emod_lt_of_pos _ (by omega)⟩
  have hrace : Race.Reduced key ⟨start, start, header, header⟩ := ⟨hstart, hstart⟩
  have hinStep : InStep key grainSize ⟨start, start, header, header⟩
      ⟨⟨start, start, header, header⟩, 0, 0⟩ := ⟨rfl, hrace, Nat.zero_le _⟩
  -- the plain loop runs to its end, and the cancellable one follows it
  obtain ⟨first, hfirst, hreduced⟩ :=
    Loop.bounded_total (fun r => solvePass_ok hthree hlt) (key.p.toNat.sqrt * searchLenFactor) hrace
  obtain ⟨first', hfirst', hfollowed⟩ :=
    Loop.bounded_follows (fun r t => solveDistPass_follows flag hthree hlt) hinStep hfirst
  cases first with
  | inr plain => cases first' with
    | inl t => exact hfollowed.elim
    | inr result =>
      exact ⟨plain, result, by simp [solve, hstate, hlen, hfirst],
        by simp [solveDist, hstate, hlen, hfirst'], hfollowed⟩
  | inl r =>
    -- a search that the first loop has not cancelled stands at the same states
    obtain ⟨second, hsecond, -⟩ :=
      Loop.bounded_total (fun r => solveNoncePass_ok hashDiff hthree hlt)
        (key.p.toNat.sqrt * searchLenFactor) hreduced
    have hplain (o : Race Compute ⊕ Option (Solutions ℤ) × Compute)
        (ho : bounded (solveNoncePass hashDiff) (key.p.toNat.sqrt * searchLenFactor) r = .ok o) :
        solve key header seed = .ok (Race.result o) := by
      cases o with
      | inl r' => simp [solve, hstate, hlen, hfirst, htester, ho, Race.result]
      | inr plain => simp [solve, hstate, hlen, hfirst, htester, ho, Race.result]
    cases first' with
    | inr result =>
      exact ⟨_, result, hplain second hsecond, by simp [solveDist, hstate, hlen, hfirst'],
        Or.inr hfollowed⟩
    | inl t =>
      have hagain : InStep key grainSize r { t with counter := 0 } :=
        ⟨hfollowed.same, hfollowed.reduced, Nat.zero_le _⟩
      obtain ⟨second, second', hsecond, hsecond', hfollows⟩ :=
        nonceLoops_follow flag hashDiff hthree hlt (key.p.toNat.sqrt * searchLenFactor) hagain
      refine ⟨_, DistRace.result second', hplain second hsecond, ?_, hfollows⟩
      cases second' with
      | inl t' => simp [solveDist, hstate, hlen, hfirst', htester, hsecond', DistRace.result]
      | inr result => simp [solveDist, hstate, hlen, hfirst', htester, hsecond', DistRace.result]

/-- **The cancellable solver refines the plain one.** It returns nothing or what the plain
solver returns, notifies the other workers exactly when it returns solutions, and unless
some load of the flag returns `true` it ends like the plain solver. -/
theorem solveDist_refines [Deps] (hrand : RandomInRange) {key : PublicKey}
    (hp : 3 ≤ key.p ∧ key.p < 2 ^ 256)
    (hbits : 48 ≤ key.bitLength.toNat ∧ key.bitLength.toNat ≤ 224) (header : Compute) (seed : ℤ)
    (grainSize : ℕ) (flag : ℕ → Bool) :
    ∃ plain result, solve key header seed = .ok plain ∧
      solveDist key header seed grainSize flag = .ok result ∧
      (result.solutions = none ∨ result.solutions = plain.1) ∧
      ((∀ k, flag k = false) → result.solutions = plain.1 ∧ result.compute = plain.2) ∧
      (result.stored = true ↔ result.solutions.isSome) := by
  obtain ⟨plain, result, hplain, hresult, hfollows⟩ :=
    solveDist_follows hrand hp.1 hp.2 (by omega) header seed grainSize flag
  refine ⟨plain, result, hplain, hresult, ?_⟩
  rcases hfollows with hagrees | hcancelled
  · refine ⟨Or.inr hagrees.solutions_eq, ?_, ?_⟩
    · intro _
      exact ⟨hagrees.solutions_eq, hagrees.compute_eq⟩
    · rw [hagrees.stored_eq, hagrees.solutions_eq]
  · refine ⟨Or.inl hcancelled.solutions_eq, ?_, ?_⟩
    · intro hnever
      obtain ⟨k, hseen⟩ := hcancelled.seen
      rw [hnever k] at hseen
      cases hseen
    · simp [hcancelled.stored_eq, hcancelled.solutions_eq]

section Sample

attribute [local instance] Deps.sample

/-- A flag that stays down leaves the small key's solutions. -/
theorem smallKey_refines :
    let header : Compute := ⟨48, .replicate 32 0, 0⟩
    ∃ plain result, solve smallKey header 2 = .ok plain ∧
      solveDist smallKey header 2 3 (fun _ => false) = .ok result ∧
      result.solutions = plain.1 ∧ result.compute = plain.2 := by
  intro header
  obtain ⟨plain, result, hplain, hresult, -, hsame, -⟩ :=
    solveDist_refines Deps.sample.randomInRange (by decide : 3 ≤ smallKey.p ∧ smallKey.p < 2 ^ 256)
      (by decide) header 2 3 (fun _ => false)
  exact ⟨plain, result, hplain, hresult, hsame fun _ => rfl⟩

end Sample

end TrexPow
