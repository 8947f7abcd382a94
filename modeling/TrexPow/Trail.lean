import TrexPow.Acceptance

/-!
# Walks of any length

From a random start every number of steps succeeds. The state after `k` steps is the
`k`-th iterate of the successor, and the header computer holds the work from which the
last step was made.
-/

namespace TrexPow

section Trail

variable [Deps] {key : PublicKey} {start : State ℤ}

/-- All states of the walk are on the walk. -/
theorem State.OnWalk.walkAt (hkey : key.Sound) (hstart : start.OnWalk key) (header : Compute)
    (k : ℕ) : (start.walkAt header k).OnWalk key := by
  induction k with
  | zero => exact hstart
  | succ k ih =>
    rw [State.walkAt_succ]
    exact ih.succ hkey header

/-- After a step the nonce of a state is the work before it. -/
theorem State.walkAt_succ_nonce (header : Compute) (start : State ℤ) (k : ℕ) :
    (start.walkAt header (k + 1)).nonce = (start.walkAt header k).work := by
  rw [State.walkAt_succ]
  rfl

/-- After a step the header with the nonce of the state is linked to it. -/
theorem State.OnWalk.walkAt_linked (hkey : key.Sound) (hstart : start.OnWalk key)
    (header : Compute) (k : ℕ) : (start.walkAt header (k + 1)).Linked key
      (header.at (start.walkAt header (k + 1)).nonce) := by
  rw [State.walkAt_succ_nonce, State.walkAt_succ]
  exact (hstart.walkAt hkey header k).succ_linked hkey header

/-- `k` calls of `transit`, one after the other. -/
def State.transits : ℕ → State ℤ → Compute → Rust (State ℤ × Compute)
  | 0, state, compute => .ok (state, compute)
  | k + 1, state, compute => do
    let (state, compute) ← state.transits k compute
    state.transit compute

/-- One step more goes on from the state that the steps before it reach. -/
theorem State.transits_succ {s s' : State ℤ} {c c' : Compute} {k : ℕ}
    (h : s.transits k c = .ok (s', c')) : s.transits (k + 1) c = s'.transit c' := by
  rw [State.transits, h, Rust.ok_bind]

/-- The header computer after `k` steps. -/
def State.headerAt (header : Compute) (start : State ℤ) : ℕ → Compute
  | 0 => header
  | k + 1 => header.at (start.walkAt header k).work

theorem State.headerAt_sameHeader (header : Compute) (start : State ℤ) (k : ℕ) :
    SameHeader header (start.headerAt header k) := by
  cases k <;> exact ⟨rfl, rfl⟩

/-- Every number of steps succeeds. -/
theorem State.OnWalk.transits_eq (hkey : key.Sound) (hstart : start.OnWalk key)
    (header : Compute) (k : ℕ) :
    start.transits k header = .ok (start.walkAt header k, start.headerAt header k) := by
  induction k with
  | zero => rfl
  | succ k ih =>
    have hsame := State.headerAt_sameHeader header start k
    rw [State.transits_succ ih, (hstart.walkAt hkey header k).transit_eq hkey, hsame.succ_eq,
      hsame.at_eq, State.walkAt_succ]
    rfl

/-- **The walk invariant.** Every number of steps from a random state of a sound key
succeeds. The work of the state it reaches is the product of powers that the solution
describes, the exponents are reduced, and after at least one step the work is what the
hash of the header with the state's nonce makes of that nonce. -/
theorem walk_invariant (hrand : RandomInRange) (hkey : key.Sound) (header : Compute) (seed : ℤ)
    (k : ℕ) :
    ∃ start state compute, State.fromPubKey key seed = .ok start ∧
      start.transits k header = .ok (state, compute) ∧
      state.work = key.g ^ state.solution.a.toNat * key.h ^ state.solution.b.toNat % key.p ∧
      SolutionVerifier.derive ⟨key⟩ state.solution = .ok state.work ∧
      (0 < state.work ∧ state.work < key.p) ∧
      (0 ≤ state.solution.a ∧ state.solution.a < key.p - 1) ∧
      (0 ≤ state.solution.b ∧ state.solution.b < key.p - 1) ∧
      state.solution.n = (key.p - 1) / 2 ∧
      (1 ≤ k → Hash.setNonce header state.nonce = .ok compute ∧
        u256Bigint (Hash.getNonce compute) = state.nonce ∧
        state.funcF (Hash.hashInteger compute % key.p) state.nonce = .ok state.work) := by
  obtain ⟨start, hstart, hwalk⟩ := State.fromPubKey_spec hrand hkey seed
  have hstate := hwalk.walkAt hkey header k
  have hthree := hkey.three_le
  refine ⟨start, _, _, hstart, hwalk.transits_eq hkey header k, hstate.work_eq, ?_,
    hstate.work_bounds hkey, hstate.a_bounds, hstate.b_bounds, ?_, ?_⟩
  · rw [SolutionVerifier.derive_ok hkey.ne_zero hstate.a_bounds.1 hstate.b_bounds.1,
      hstate.work_eq]
  · rw [hstate.n_eq]
    exact Int.tdiv_eq_ediv_of_nonneg (by omega)
  · intro hk
    obtain ⟨k, rfl⟩ := Nat.exists_eq_succ_of_ne_zero (by omega : k ≠ 0)
    have hlinked := hwalk.walkAt_linked hkey header k
    obtain ⟨hnonce0, hnoncep⟩ := hlinked.nonce_bounds
    have hlt := hkey.lt
    have hheader : start.headerAt header (k + 1) =
        header.at (start.walkAt header (k + 1)).nonce := by
      rw [State.walkAt_succ_nonce]
      rfl
    rw [Nat.succ_eq_add_one, hheader]
    refine ⟨setNonce_of_lt header hnonce0 (by omega), u256Bigint_ofNat hnonce0 (by omega), ?_⟩
    rw [State.funcF_ok, hlinked.work_eq, hstate.pubkey_eq]
    · rw [hstate.pubkey_eq]
      exact hkey.ne_zero
    · exact Int.emod_nonneg _ hkey.ne_zero

end Trail

section Sample

attribute [local instance] Deps.sample

/-- Three steps on the small key. -/
theorem smallKey_walk : ∃ start state compute, State.fromPubKey smallKey 0 = .ok start ∧
    start.transits 3 ⟨48, .replicate 32 0, 1⟩ = .ok (state, compute) ∧
    0 < state.work ∧ state.work < 7 := by
  obtain ⟨start, state, compute, hstart, hwalk, -, -, hwork, -⟩ :=
    walk_invariant Deps.sample.randomInRange smallKey_sound ⟨48, .replicate 32 0, 1⟩ 0 3
  exact ⟨start, state, compute, hstart, hwalk, hwork⟩

end Sample

end TrexPow
