import TrexPow.KeyExtraction
import TrexPow.Meeting

/-!
# Which reported solutions reveal the private key

Once the works of the two states of a search agree, both make the same steps. Additive
steps keep the difference of their second exponents modulo `n`, and a powering step
multiplies it by the hash. The solvers compare the solutions as triples, with exponents
modulo `2 * n`, but the key is extracted modulo `n`: a difference that vanishes there
reveals nothing.
-/

namespace TrexPow

section Difference

variable {key : PublicKey} {q : ℕ}

/-- A step with the same hash keeps the difference of the second exponents modulo a prime
divisor of `p - 1`, or multiplies it by the hash. -/
theorem PublicKey.dvd_nextSolution_iff (hq : q.Prime) (hdvd : (q : ℤ) ∣ key.p - 1) (x : ℤ)
    (s t : Solution ℤ) :
    (q : ℤ) ∣ (key.nextSolution x s).b - (key.nextSolution x t).b ↔
      (q : ℤ) ∣ s.b - t.b ∨ Rug.modU x 3 = 0 ∧ (q : ℤ) ∣ x := by
  have hmod (u v : ℤ) : (q : ℤ) ∣ u % (key.p - 1) - v % (key.p - 1) ↔ (q : ℤ) ∣ u - v := by
    rw [← Int.modEq_iff_dvd, ← Int.modEq_iff_dvd]
    have hu : u % (key.p - 1) ≡ u [ZMOD q] := (Int.mod_modEq _ _).of_dvd hdvd
    have hv : v % (key.p - 1) ≡ v [ZMOD q] := (Int.mod_modEq _ _).of_dvd hdvd
    exact ⟨fun h => hv.symm.trans (h.trans hu), fun h => hv.trans (h.trans hu.symm)⟩
  unfold nextSolution
  rcases modU_three_cases x with h | h | h
  · simp only [h, true_and]
    rw [hmod, ← sub_mul]
    exact (Nat.prime_iff_prime_int.mp hq).dvd_mul
  · simp [h]
  · simp only [h]
    rw [hmod, add_sub_add_right_eq_sub]
    simp

/-- Two states of a walk with the same work collide. -/
theorem State.OnWalk.collides {s t : State ℤ} (hs : s.OnWalk key) (ht : t.OnWalk key)
    (hwork : s.work = t.work) : key.Collides (s.solution, t.solution) := by
  rw [hs.work_eq, ht.work_eq] at hwork
  exact hwork

end Difference

section Merged

variable [Deps] {key : PublicKey} {header : Compute} {s t start : State ℤ} {q : ℕ}

/-- States with the same work make the same step. -/
theorem State.succ_work_eq (header : Compute) (hpub : s.pubkey = t.pubkey)
    (hwork : s.work = t.work) :
    s.hashAt header = t.hashAt header ∧ (s.succ header).work = (t.succ header).work := by
  have hhash : s.hashAt header = t.hashAt header := by
    rw [State.hashAt, State.hashAt, hwork, hpub]
  refine ⟨hhash, ?_⟩
  rw [State.succ, State.succ, hhash, hwork, hpub]

/-- A powering step from the state multiplies exponents by a multiple of `q`. -/
def State.Annihilates (header : Compute) (q : ℕ) (state : State ℤ) : Prop :=
  Rug.modU (state.hashAt header) 3 = 0 ∧ (q : ℤ) ∣ state.hashAt header

/-- From where the works of two walks agree on, they stay equal, and the second exponents
agree modulo `q` when they did so there or some powering step has annihilated them. -/
theorem merged_difference (hkey : key.Sound) (hstart : start.OnWalk key) (hq : q.Prime)
    (hdvd : (q : ℤ) ∣ key.p - 1) {k l m j : ℕ}
    (hwork : (start.walkAt header (k + m)).work = (start.walkAt header (l + m)).work)
    (hle : m ≤ j) :
    (start.walkAt header (k + j)).work = (start.walkAt header (l + j)).work ∧
      ((q : ℤ) ∣ (start.walkAt header (k + j)).solution.b -
          (start.walkAt header (l + j)).solution.b ↔
        (q : ℤ) ∣ (start.walkAt header (k + m)).solution.b -
            (start.walkAt header (l + m)).solution.b ∨
          ∃ i, m ≤ i ∧ i < j ∧ (start.walkAt header (k + i)).Annihilates header q) := by
  induction j, hle using Nat.le_induction with
  | base =>
    refine ⟨hwork, ?_⟩
    constructor
    · exact Or.inl
    · rintro (h | ⟨i, hmi, him, -⟩)
      · exact h
      · omega
  | succ j hle ih =>
    obtain ⟨heq, hiff⟩ := ih
    have hpub1 := (hstart.walkAt hkey header (k + j)).pubkey_eq
    have hpub2 := (hstart.walkAt hkey header (l + j)).pubkey_eq
    obtain ⟨hhash, hnext⟩ := State.succ_work_eq header (hpub1.trans hpub2.symm) heq
    rw [← Nat.add_assoc, ← Nat.add_assoc, State.walkAt_succ, State.walkAt_succ]
    refine ⟨hnext, ?_⟩
    simp only [State.succ, hpub1, hpub2, ← hhash]
    rw [PublicKey.dvd_nextSolution_iff hq hdvd, hiff, or_assoc]
    apply or_congr_right
    constructor
    · rintro (⟨i, hmi, hij, h⟩ | h)
      · exact ⟨i, hmi, by omega, h⟩
      · exact ⟨j, hle, by omega, h⟩
    · rintro ⟨i, hmi, hij, h⟩
      by_cases hi : i < j
      · exact Or.inl ⟨i, hmi, hi, h⟩
      · obtain rfl : i = j := by omega
        exact Or.inr h

/-- Pass `m` of the second loop is the first after which the works agree. Pass zero is the
end of the first loop. -/
structure MergesAt (header : Compute) (start : State ℤ) (i m : ℕ) : Prop where
  work_eq : (start.walkAt header (i + m)).work = (start.walkAt header (2 * i + m)).work
  apart : ∀ k < m, (start.walkAt header (i + k)).work ≠ (start.walkAt header (2 * i + k)).work

/-- The works of a meeting have merged before. -/
theorem Meeting.exists_mergesAt {n : ℕ} {hashDiff : U256} {i j : ℕ}
    (h : Meeting header start n hashDiff i j) : ∃ m ≤ j, MergesAt header start i m := by
  classical
  let Merged (m : ℕ) : Prop :=
    (start.walkAt header (i + m)).work = (start.walkAt header (2 * i + m)).work
  have hsome : ∃ m, Merged m := ⟨j, h.work_eq⟩
  exact ⟨Nat.find hsome, Nat.find_min' hsome h.work_eq, Nat.find_spec hsome,
    fun k hk => Nat.find_min hsome hk⟩

/-- A search meets at one place only. -/
theorem Meeting.unique {n : ℕ} {hashDiff : U256} {i j i' j' : ℕ}
    (h : Meeting header start n hashDiff i j) (h' : Meeting header start n hashDiff i' j') :
    i = i' ∧ j = j' := by
  have hle {i j i' j' : ℕ} (h : Meeting header start n hashDiff i j)
      (h' : Meeting header start n hashDiff i' j') : i' ≤ i := by
    by_contra hlt
    rcases h.ended with rfl | ⟨hpos, -, hmet⟩
    · rcases h'.ended with rfl | ⟨-, hle, -⟩ <;> omega
    · exact h'.apart i hpos (by omega) hmet
  obtain rfl : i = i' := le_antisymm (hle h' h) (hle h h')
  refine ⟨rfl, ?_⟩
  rcases Nat.lt_trichotomy j j' with hlt | heq | hlt
  · exact absurd (h'.no_point j h.second_pos hlt) (by simp [h.point])
  · exact heq
  · exact absurd (h.no_point j' h'.second_pos hlt) (by simp [h'.point])

/-- The works merge in one pass only. -/
theorem MergesAt.unique {i m m' : ℕ} (h : MergesAt header start i m)
    (h' : MergesAt header start i m') : m = m' := by
  rcases Nat.lt_trichotomy m m' with hlt | heq | hlt
  · exact absurd h.work_eq (h'.apart m hlt)
  · exact heq
  · exact absurd h'.work_eq (h.apart m' hlt)

/-- In the pass in which the works of a meeting merge, the second exponents differ modulo
`q`, and no powering step between there and the meeting annihilates the difference. -/
def PublicKey.MergesApart (key : PublicKey) (header : Compute) (seed : ℤ) (q : ℕ) : Prop :=
  ∀ start hashDiff i j m, State.fromPubKey key seed = .ok start → key.hashDiff = .ok hashDiff →
    Meeting header start key.passes hashDiff i j → MergesAt header start i m →
    ¬(q : ℤ) ∣ (start.walkAt header (i + m)).solution.b -
        (start.walkAt header (2 * i + m)).solution.b ∧
      ∀ k, m ≤ k → k < j → ¬(start.walkAt header (i + k)).Annihilates header q

/-- One of the solvers reports the solutions, whatever its flag shows. -/
def PublicKey.Reports (key : PublicKey) (header : Compute) (seed : ℤ) (solutions : Solutions ℤ) :
    Prop :=
  (∃ after, solve key header seed = .ok (some solutions, after)) ∨
    ∃ grainSize flag result, solveDist key header seed grainSize flag = .ok result ∧
      result.solutions = some solutions

/-- Reported solutions come from a meeting. -/
theorem PublicKey.Reports.exists_meeting (hrand : RandomInRange) (hkey : key.Sound)
    (hbits : 18 ≤ key.bitLength.toNat) {seed : ℤ} {solutions : Solutions ℤ}
    (h : key.Reports header seed solutions) :
    ∃ start hashDiff i j, State.fromPubKey key seed = .ok start ∧ start.OnWalk key ∧
      key.hashDiff = .ok hashDiff ∧ Meeting header start key.passes hashDiff i j ∧
      solutions = ((start.walkAt header (i + j)).solution,
        (start.walkAt header (2 * i + j)).solution) := by
  rcases h with ⟨after, hsolve⟩ | ⟨grainSize, flag, result, hsolve, hsome⟩
  · obtain ⟨start, hashDiff, result, hstart, hwalk, htester, hresult, hreports⟩ :=
      solve_meets hrand hkey hbits header seed
    obtain rfl : (some solutions, after) = result := Except.ok.inj (hsolve.symm.trans hresult)
    obtain ⟨i, j, hmeeting, hfound, -⟩ := hreports solutions rfl
    exact ⟨start, hashDiff, i, j, hstart, hwalk, htester, hmeeting, hfound⟩
  · obtain ⟨start, hashDiff, result', hstart, hwalk, htester, hresult, hreports⟩ :=
      solveDist_meets hrand hkey hbits header seed grainSize flag
    obtain rfl : result = result' := Except.ok.inj (hsolve.symm.trans hresult)
    obtain ⟨i, j, hmeeting, hfound, -⟩ := hreports solutions hsome
    exact ⟨start, hashDiff, i, j, hstart, hwalk, htester, hmeeting, hfound⟩

/-- **What an honest solver reveals.** The solutions that a solver reports reveal the
private key exactly when the walks merge with second exponents that differ modulo
`(p - 1) / 2` and no powering step before the meeting annihilates the difference. -/
theorem honest_reveals_iff (hrand : RandomInRange) {x : ℕ} (hkey : key.Puzzle q x) {seed : ℤ}
    {solutions : Solutions ℤ} (h : key.Reports header seed solutions) :
    SolutionVerifier.Reveals ⟨key⟩ solutions ↔ key.MergesApart header seed q := by
  have hsound := hkey.sound
  obtain ⟨start, hashDiff, i, j, hstart, hwalk, htester, hmeeting, rfl⟩ :=
    h.exists_meeting hrand hsound (by have := hkey.bits; omega)
  have hslow := hwalk.walkAt hsound header (i + j)
  have hfast := hwalk.walkAt hsound header (2 * i + j)
  have hdvd : (q : ℤ) ∣ key.p - 1 := ⟨2, by rw [hkey.p_eq]; push_cast; ring⟩
  obtain ⟨m, hle, hmerge⟩ := hmeeting.exists_mergesAt
  have hdifference :=
    (merged_difference hsound hwalk hkey.q_prime hdvd hmerge.work_eq hle).2
  have hreveals := hkey.safe.reveals_iff
    ⟨⟨hslow.a_bounds.1, hslow.b_bounds.1⟩, hfast.a_bounds.1, hfast.b_bounds.1⟩
    (hslow.collides hfast hmeeting.work_eq) (hfast.n_eq.trans hkey.safe.half_eq)
  rw [hreveals, hdifference, not_or]
  constructor
  · rintro ⟨hapart, hpowers⟩ start' hashDiff' i' j' m' hstart' htester' hmeeting' hmerge'
    obtain rfl : start = start' := Except.ok.inj (hstart.symm.trans hstart')
    obtain rfl : hashDiff = hashDiff' := Except.ok.inj (htester.symm.trans htester')
    obtain ⟨rfl, rfl⟩ := hmeeting.unique hmeeting'
    obtain rfl := hmerge.unique hmerge'
    exact ⟨hapart, fun k hmk hkj hk => hpowers ⟨k, hmk, hkj, hk⟩⟩
  · intro hmerges
    obtain ⟨hapart, hpowers⟩ := hmerges start hashDiff i j m hstart htester hmeeting hmerge
    exact ⟨hapart, fun ⟨k, hmk, hkj, hk⟩ => hpowers k hmk hkj hk⟩

end Merged

section Sample

attribute [local instance] Deps.sample

/-- A key with five as the prime, and two as the private key. -/
def elevenKey : PublicKey := ⟨11, 2, 4, 48⟩

theorem elevenKey_puzzle : elevenKey.Puzzle 5 2 where
  q_prime := by norm_num
  p_prime := by norm_num
  p_eq := by decide
  lt := by decide
  order := by
    right
    have hpos : 0 < 2 * 5 := by norm_num
    exact (orderOf_eq_iff hpos).mpr (by decide)
  h_eq := by decide
  bits := by decide

/-- The solver reports solutions whose second exponents differ by `n`. -/
theorem elevenKey_solve : ∃ after,
    solve elevenKey (⟨48, .replicate 32 0, 1⟩ : Compute) 2 =
      .ok (some (⟨6, 4, 5⟩, ⟨6, 9, 5⟩), after) := by
  have hany : (solve elevenKey (⟨48, .replicate 32 0, 1⟩ : Compute) 2).toOption.any
      (fun result => result.1 = some (⟨6, 4, 5⟩, ⟨6, 9, 5⟩)) = true := by decide +kernel
  obtain ⟨⟨found, after⟩, hsolve, hfound⟩ := Rust.exists_ok_of_any hany
  obtain rfl := of_decide_eq_true hfound
  exact ⟨after, hsolve⟩

/-- They do not reveal the key. -/
theorem honest_solver_reveals_nothing :
    ¬∀ (key : PublicKey) (q x : ℕ) (header : Compute) (seed : ℤ) (solutions : Solutions ℤ),
      key.Puzzle q x → key.Reports header seed solutions →
      SolutionVerifier.Reveals ⟨key⟩ solutions := by
  intro h
  have hreveals := h elevenKey 5 2 ⟨48, .replicate 32 0, 1⟩ 2 (⟨6, 4, 5⟩, ⟨6, 9, 5⟩)
    elevenKey_puzzle (Or.inl elevenKey_solve)
  exact not_reveals_of_eqsSolvers (fun k hk => by cases hk) hreveals

/-- On the small key the walks of seed zero merge apart, since what the solver reports
reveals the private key. -/
theorem smallKey_merges_apart :
    smallKey.Reports ⟨48, .replicate 32 0, 1⟩ 0 (⟨2, 3, 3⟩, ⟨0, 5, 3⟩) ∧
      smallKey.MergesApart ⟨48, .replicate 32 0, 1⟩ 0 3 := by
  have hany : (solve smallKey (⟨48, .replicate 32 0, 1⟩ : Compute) 0).toOption.any
      (fun result => result.1 = some (⟨2, 3, 3⟩, ⟨0, 5, 3⟩)) = true := by decide +kernel
  obtain ⟨⟨found, after⟩, hsolve, hfound⟩ := Rust.exists_ok_of_any hany
  obtain rfl := of_decide_eq_true hfound
  have hreports : smallKey.Reports ⟨48, .replicate 32 0, 1⟩ 0 (⟨2, 3, 3⟩, ⟨0, 5, 3⟩) :=
    Or.inl ⟨after, hsolve⟩
  have hreveals : SolutionVerifier.Reveals ⟨smallKey⟩ (⟨2, 3, 3⟩, ⟨0, 5, 3⟩) :=
    (smallKey_puzzle.safe.reveals_iff (by simp [Nonneg]) (by decide) rfl).mpr (by decide)
  exact ⟨hreports,
    (honest_reveals_iff Deps.sample.randomInRange smallKey_puzzle hreports).mp hreveals⟩

end Sample

end TrexPow
