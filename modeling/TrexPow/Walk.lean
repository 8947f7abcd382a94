import TrexPow.Algorithm
import TrexPow.Lib.ModularPower
import Mathlib.Tactic.Ring

/-!
# The walk invariant

Along every walk the work is the product of powers that the solution describes,
and after at least one step the work is what the header's hash makes of the
nonce. Exponents are reduced modulo `p - 1`, which Fermat's little theorem allows.
-/

namespace TrexPow

/-- A key whose modulus is an odd prime below `2 ^ 256` and whose group elements
are units. -/
structure PublicKey.Sound (key : PublicKey) : Prop where
  prime : key.p.toNat.Prime
  three_le : 3 ≤ key.p
  lt : key.p < 2 ^ 256
  g_unit : ¬key.p ∣ key.g
  h_unit : ¬key.p ∣ key.h

/-- The product of powers that a solution describes. -/
def PublicKey.product (key : PublicKey) (solution : Solution ℤ) : ℤ :=
  key.g ^ solution.a.toNat * key.h ^ solution.b.toNat

/-- The next work of the walk, as a total function of the reduced hash and the work. -/
def PublicKey.nextWork (key : PublicKey) (x y : ℤ) : ℤ :=
  match Rug.modU x 3 with
  | 0 => y ^ x.toNat % key.p
  | 1 => key.g ^ x.toNat % key.p * y % key.p
  | _ => key.h ^ x.toNat % key.p * y % key.p

/-- The solution after a step of the walk, for the reduced hash `x`. -/
def PublicKey.nextSolution (key : PublicKey) (x : ℤ) (solution : Solution ℤ) : Solution ℤ :=
  match Rug.modU x 3 with
  | 0 => ⟨solution.a * x % (key.p - 1), solution.b * x % (key.p - 1), solution.n⟩
  | 1 => ⟨(solution.a + x) % (key.p - 1), solution.b, solution.n⟩
  | _ => ⟨solution.a, (solution.b + x) % (key.p - 1), solution.n⟩

/-- The header computer with another nonce. -/
def Blake3Compute.at (compute : Compute) (nonce : ℤ) : Compute :=
  { compute with nonce := BitVec.ofNat 256 nonce.toNat }

/-- The header computer of a search differs from the given one in the nonce only. -/
def SameHeader (compute compute' : Compute) : Prop :=
  compute'.difficulty = compute.difficulty ∧ compute'.preHash = compute.preHash

theorem sameHeader_at (compute : Compute) (nonce : ℤ) : SameHeader compute (compute.at nonce) :=
  ⟨rfl, rfl⟩

theorem SameHeader.symm {compute compute' : Compute} (h : SameHeader compute compute') :
    SameHeader compute' compute := ⟨h.1.symm, h.2.symm⟩

theorem SameHeader.trans {c d e : Compute} (h : SameHeader c d) (h' : SameHeader d e) :
    SameHeader c e := ⟨h'.1.trans h.1, h'.2.trans h.2⟩

theorem SameHeader.at_eq {compute compute' : Compute} (h : SameHeader compute compute')
    (nonce : ℤ) : compute'.at nonce = compute.at nonce := by
  obtain ⟨hdifficulty, hpreHash⟩ := h
  simp only [Blake3Compute.at, hdifficulty, hpreHash]

section Successor

variable [Deps]

/-- The reduced hash of the step from a state. -/
def State.hashAt (header : Compute) (state : State ℤ) : ℤ :=
  Hash.hashInteger (header.at state.work) % state.pubkey.p

/-- The state after a step, as a total function. -/
def State.succ (header : Compute) (state : State ℤ) : State ℤ where
  solution := state.pubkey.nextSolution (state.hashAt header) state.solution
  nonce := state.work
  work := state.pubkey.nextWork (state.hashAt header) state.work
  pubkey := state.pubkey

/-- The state after `k` steps. -/
def State.walkAt (header : Compute) (start : State ℤ) (k : ℕ) : State ℤ :=
  (State.succ header)^[k] start

theorem State.walkAt_succ (header : Compute) (start : State ℤ) (k : ℕ) :
    start.walkAt header (k + 1) = (start.walkAt header k).succ header :=
  Function.iterate_succ_apply' ..

/-- A step does not depend on the nonce that the header computer holds before it. -/
theorem SameHeader.succ_eq {compute compute' : Compute} (h : SameHeader compute compute')
    (state : State ℤ) : state.succ compute' = state.succ compute := by
  simp only [State.succ, State.hashAt, h.at_eq]

end Successor

/-- The small key is sound. -/
theorem smallKey_sound : smallKey.Sound where
  prime := by
    have hseven : Nat.Prime 7 := by norm_num
    exact hseven
  three_le := by decide
  lt := by decide
  g_unit := by decide
  h_unit := by decide

namespace PublicKey

variable {key : PublicKey}

theorem Sound.natCast_toNat (hkey : key.Sound) : ((key.p.toNat : ℕ) : ℤ) = key.p :=
  Int.toNat_of_nonneg (by have := hkey.three_le; omega)

theorem Sound.ne_zero (hkey : key.Sound) : key.p ≠ 0 := by
  have := hkey.three_le
  omega

/-- Exponents of the group elements may be reduced modulo `p - 1`. -/
theorem Sound.pow_reduced (hkey : key.Sound) {u : ℤ} (hu : ¬key.p ∣ u) {e : ℤ} (he : 0 ≤ e) :
    u ^ (e % (key.p - 1)).toNat ≡ u ^ e.toNat [ZMOD key.p] := by
  have hthree := hkey.three_le
  have hreduced : (e % (key.p - 1)).toNat = e.toNat % (key.p.toNat - 1) := by
    rw [Int.toNat_emod he (by omega)]
    congr 1
    omega
  have hfermat := ModularPower.pow_mod_sub_one hkey.prime
    (by rwa [hkey.natCast_toNat] : ¬((key.p.toNat : ℕ) : ℤ) ∣ u) e.toNat
  rwa [hreduced, ← hkey.natCast_toNat]

/-- No product of powers of the group elements is divisible by the modulus. -/
theorem Sound.not_dvd_product (hkey : key.Sound) (solution : Solution ℤ) :
    ¬key.p ∣ key.product solution := by
  intro hdvd
  have hp := Nat.prime_iff_prime_int.mp hkey.prime
  rw [hkey.natCast_toNat] at hp
  rcases hp.dvd_or_dvd hdvd with h | h
  · exact hkey.g_unit (hp.dvd_of_dvd_pow h)
  · exact hkey.h_unit (hp.dvd_of_dvd_pow h)

/-- The work of a solution is a unit modulo the key's modulus. -/
theorem Sound.product_mod_bounds (hkey : key.Sound) (solution : Solution ℤ) :
    0 < key.product solution % key.p ∧ key.product solution % key.p < key.p := by
  have hthree := hkey.three_le
  have hnonneg := Int.emod_nonneg (key.product solution) hkey.ne_zero
  have hne : key.product solution % key.p ≠ 0 :=
    fun h => hkey.not_dvd_product solution (Int.dvd_of_emod_eq_zero h)
  exact ⟨by omega, Int.emod_lt_of_pos _ (by omega)⟩

/-- The hash tester exists for every key from 18 bits on. -/
theorem hashDiff_ok (hbits : 18 ≤ key.bitLength.toNat) :
    ∃ hashDiff, key.hashDiff = .ok hashDiff := by
  simp only [hashDiff, Build.checked_sub, checkedSub, pointDstFactor]
  rw [if_neg (by omega)]
  simp only [Rust.ok_bind]
  split_ifs with hodd hshift
  · omega
  · exact ⟨_, rfl⟩
  · exact ⟨_, rfl⟩

theorem searchLen_ok (hp : 0 ≤ key.p) :
    key.searchLen = .ok (key.p.toNat.sqrt * searchLenFactor) := by
  simp only [searchLen, Rug.sqrtRef, if_neg (not_lt.mpr hp)]
  rfl

theorem searchLen_eq (hp : 0 ≤ key.p) {n : ℕ} (hn : n = 8 * key.p.toNat.sqrt) :
    key.searchLen = .ok n := by
  rw [searchLen_ok hp, hn, Nat.mul_comm, searchLenFactor]

end PublicKey

theorem modU_three_cases (x : ℤ) : Rug.modU x 3 = 0 ∨ Rug.modU x 3 = 1 ∨ Rug.modU x 3 = 2 := by
  unfold Rug.modU
  omega

/-- The mapping of the work has a value for every nonnegative hash. -/
theorem State.funcF_ok (state : State ℤ) {x : ℤ} (y : ℤ) (hp : state.pubkey.p ≠ 0) (hx : 0 ≤ x) :
    state.funcF x y = .ok (state.pubkey.nextWork x y) := by
  unfold State.funcF PublicKey.nextWork
  rcases modU_three_cases x with h | h | h <;>
    simp [h, Rug.powModRef_of_nonneg hp hx, Rug.divRemEuc_of_ne_zero hp]

/-- A state of a walk of a key: its work is the product its solution describes,
and its exponents are reduced. -/
structure State.OnWalk (key : PublicKey) (state : State ℤ) : Prop where
  pubkey_eq : state.pubkey = key
  n_eq : state.solution.n = (key.p - 1).tdiv 2
  a_bounds : 0 ≤ state.solution.a ∧ state.solution.a < key.p - 1
  b_bounds : 0 ≤ state.solution.b ∧ state.solution.b < key.p - 1
  work_eq : state.work = key.product state.solution % key.p

/-- A state reached by at least one step: the header computer holds the nonce of
the state, and the work is what the header's hash makes of it. -/
structure State.Linked [Deps] (key : PublicKey) (compute : Compute) (state : State ℤ) : Prop where
  nonce_eq : compute.nonce = BitVec.ofNat 256 state.nonce.toNat
  nonce_bounds : 0 ≤ state.nonce ∧ state.nonce < key.p
  work_eq : state.work = key.nextWork (Hash.hashInteger compute % key.p) state.nonce

section Step

variable {key : PublicKey} {state : State ℤ}

theorem State.OnWalk.work_bounds (hkey : key.Sound) (hs : state.OnWalk key) :
    0 < state.work ∧ state.work < key.p := by
  rw [hs.work_eq]
  exact hkey.product_mod_bounds state.solution

/-- The solution of a state of a walk fits into a seal. -/
theorem State.OnWalk.inRange (hkey : key.Sound) (hs : state.OnWalk key) :
    state.solution.InRange := by
  obtain ⟨ha0, ha⟩ := hs.a_bounds
  obtain ⟨hb0, hb⟩ := hs.b_bounds
  have hn := hs.n_eq
  rw [Int.tdiv_eq_ediv_of_nonneg (by have := hkey.three_le; omega)] at hn
  have hthree := hkey.three_le
  have hlt := hkey.lt
  exact ⟨⟨ha0, by omega⟩, ⟨hb0, by omega⟩, by omega, by omega⟩

/-- The mappings of the exponents have the values of the next solution. -/
theorem State.funcG_ok (state : State ℤ) (hp1 : state.pubkey.p - 1 ≠ 0) (x : ℤ) :
    state.funcG state.solution.a x =
      .ok (state.pubkey.nextSolution x state.solution).a := by
  unfold State.funcG PublicKey.nextSolution
  rcases modU_three_cases x with h | h | h <;> simp [h, Rug.divRemEuc_of_ne_zero hp1]

theorem State.funcH_ok (state : State ℤ) (hp1 : state.pubkey.p - 1 ≠ 0) (x : ℤ) :
    state.funcH state.solution.b x =
      .ok (state.pubkey.nextSolution x state.solution).b := by
  unfold State.funcH PublicKey.nextSolution
  rcases modU_three_cases x with h | h | h <;> simp [h, Rug.divRemEuc_of_ne_zero hp1]

theorem PublicKey.nextSolution_n (key : PublicKey) (x : ℤ) (solution : Solution ℤ) :
    (key.nextSolution x solution).n = solution.n := by
  unfold nextSolution
  split <;> rfl

/-- The exponents stay reduced. -/
theorem State.OnWalk.nextSolution_bounds (hkey : key.Sound) (hs : state.OnWalk key) (x : ℤ) :
    let next := key.nextSolution x state.solution
    (0 ≤ next.a ∧ next.a < key.p - 1) ∧ 0 ≤ next.b ∧ next.b < key.p - 1 := by
  have hthree := hkey.three_le
  have hmod (e : ℤ) : 0 ≤ e % (key.p - 1) ∧ e % (key.p - 1) < key.p - 1 :=
    ⟨Int.emod_nonneg _ (by omega), Int.emod_lt_of_pos _ (by omega)⟩
  unfold PublicKey.nextSolution
  split
  · exact ⟨hmod _, hmod _⟩
  · exact ⟨hmod _, hs.b_bounds⟩
  · exact ⟨hs.a_bounds, hmod _⟩

/-- The next work is the product that the next solution describes. -/
theorem State.OnWalk.nextWork_eq (hkey : key.Sound) (hs : state.OnWalk key) {x : ℤ} (hx : 0 ≤ x) :
    key.nextWork x state.work = key.product (key.nextSolution x state.solution) % key.p := by
  obtain ⟨ha0, -⟩ := hs.a_bounds
  obtain ⟨hb0, -⟩ := hs.b_bounds
  have hwork : state.work ≡ key.product state.solution [ZMOD key.p] := by
    rw [hs.work_eq]
    exact Int.mod_modEq _ _
  rcases modU_three_cases x with h | h | h
  · -- both exponents are multiplied by the hash, the work is raised to it
    have hg := hkey.pow_reduced hkey.g_unit (mul_nonneg ha0 hx)
    have hh := hkey.pow_reduced hkey.h_unit (mul_nonneg hb0 hx)
    simp only [PublicKey.nextWork, PublicKey.nextSolution, h, PublicKey.product]
    refine (hwork.pow x.toNat).trans ?_
    rw [PublicKey.product, mul_pow, ← pow_mul, ← pow_mul, ← Int.toNat_mul ha0 hx,
      ← Int.toNat_mul hb0 hx]
    exact (hg.mul hh).symm
  · -- the hash is added to the exponent of the generator
    have hg := hkey.pow_reduced hkey.g_unit (add_nonneg ha0 hx)
    rw [Int.toNat_add ha0 hx, pow_add] at hg
    simp only [PublicKey.nextWork, PublicKey.nextSolution, h, PublicKey.product]
    calc key.g ^ x.toNat % key.p * state.work
        ≡ key.g ^ x.toNat * key.product state.solution [ZMOD key.p] :=
          (Int.mod_modEq _ _).mul hwork
      _ = key.g ^ state.solution.a.toNat * key.g ^ x.toNat * key.h ^ state.solution.b.toNat := by
          rw [PublicKey.product]
          ring
      _ ≡ _ [ZMOD key.p] := hg.symm.mul_right _
  · -- the hash is added to the exponent of the other group element
    have hh := hkey.pow_reduced hkey.h_unit (add_nonneg hb0 hx)
    rw [Int.toNat_add hb0 hx, pow_add] at hh
    simp only [PublicKey.nextWork, PublicKey.nextSolution, h, PublicKey.product]
    calc key.h ^ x.toNat % key.p * state.work
        ≡ key.h ^ x.toNat * key.product state.solution [ZMOD key.p] :=
          (Int.mod_modEq _ _).mul hwork
      _ = key.g ^ state.solution.a.toNat * (key.h ^ state.solution.b.toNat * key.h ^ x.toNat) := by
          rw [PublicKey.product]
          ring
      _ ≡ _ [ZMOD key.p] := hh.symm.mul_left _

section Transit

variable [Deps]

/-- A step of a modulus above two succeeds when the work can be set as the nonce. It reads
the header computer only after that. -/
theorem State.transit_of_setNonce (hthree : 3 ≤ state.pubkey.p) {compute compute' : Compute}
    (hset : Hash.setNonce compute state.work = .ok compute') :
    state.transit compute = .ok (⟨
      state.pubkey.nextSolution (Hash.hashInteger compute' % state.pubkey.p) state.solution,
      state.work,
      state.pubkey.nextWork (Hash.hashInteger compute' % state.pubkey.p) state.work,
      state.pubkey⟩, compute') := by
  have hp : state.pubkey.p ≠ 0 := by omega
  have hp1 : state.pubkey.p - 1 ≠ 0 := by omega
  have hhash : 0 ≤ Hash.hashInteger compute' % state.pubkey.p := Int.emod_nonneg _ hp
  unfold State.transit
  simp only [hset, Rust.ok_bind, Rug.divRemEuc_of_ne_zero hp, state.funcF_ok state.work hp hhash,
    state.funcG_ok hp1, state.funcH_ok hp1, Rust.pure_eq_ok]
  rw [← state.pubkey.nextSolution_n (Hash.hashInteger compute' % state.pubkey.p) state.solution]

/-- A step succeeds from every unit work of a modulus above two, and leaves the work
as the nonce of the header computer. -/
theorem State.transit_eq (hthree : 3 ≤ state.pubkey.p)
    (hwork : 0 ≤ state.work ∧ state.work < 2 ^ 256) (compute : Compute) :
    state.transit compute = .ok (state.succ compute, compute.at state.work) :=
  State.transit_of_setNonce hthree (setNonce_of_lt compute hwork.1 hwork.2)

theorem State.OnWalk.transit_eq (hkey : key.Sound) (hs : state.OnWalk key) (compute : Compute) :
    state.transit compute = .ok (state.succ compute, compute.at state.work) := by
  obtain ⟨hwork0, hworkp⟩ := hs.work_bounds hkey
  have hthree := hkey.three_le
  have hlt := hkey.lt
  rw [← hs.pubkey_eq] at hthree
  exact State.transit_eq hthree ⟨hwork0.le, by omega⟩ compute

/-- A step stays on the walk. -/
theorem State.OnWalk.succ (hkey : key.Sound) (hs : state.OnWalk key) (header : Compute) :
    (state.succ header).OnWalk key := by
  have hhash : 0 ≤ state.hashAt header := by
    apply Int.emod_nonneg
    rw [hs.pubkey_eq]
    exact hkey.ne_zero
  have hnext := hs.nextSolution_bounds hkey (state.hashAt header)
  constructor
  · exact hs.pubkey_eq
  · rw [State.succ, PublicKey.nextSolution_n, hs.n_eq]
  · rw [State.succ, hs.pubkey_eq]
    exact hnext.1
  · rw [State.succ, hs.pubkey_eq]
    exact hnext.2
  · rw [State.succ, hs.pubkey_eq]
    exact hs.nextWork_eq hkey hhash

/-- A step links the header computer to the new state. -/
theorem State.OnWalk.succ_linked (hkey : key.Sound) (hs : state.OnWalk key) (header : Compute) :
    (state.succ header).Linked key (header.at state.work) := by
  obtain ⟨hwork0, hworkp⟩ := hs.work_bounds hkey
  refine ⟨rfl, ⟨hwork0.le, hworkp⟩, ?_⟩
  rw [← hs.pubkey_eq]
  rfl

/-- **One step of the walk.** From a state of the walk the step succeeds, stays on
the walk, and leaves the header computer linked to the new state. -/
theorem State.transit_spec (hkey : key.Sound) (hs : state.OnWalk key) (compute : Compute) :
    ∃ next, state.transit compute = .ok (next, compute.at state.work) ∧ next.OnWalk key ∧
      next.Linked key (compute.at state.work) :=
  ⟨_, hs.transit_eq hkey compute, hs.succ hkey compute, hs.succ_linked hkey compute⟩

end Transit

end Step

/-- A random state of a key exists as soon as there are exponents to draw. -/
theorem State.fromPubKey_ok [Deps] (hrand : RandomInRange) {key : PublicKey} (hp : 3 ≤ key.p)
    (seed : ℤ) : ∃ state, State.fromPubKey key seed = .ok state ∧ state.pubkey = key ∧
      state.solution.n = (key.p - 1).tdiv 2 ∧
      (0 ≤ state.solution.a ∧ state.solution.a < (key.p - 1).tdiv 2) ∧
      (0 ≤ state.solution.b ∧ state.solution.b < (key.p - 1).tdiv 2) ∧
      state.work = key.product state.solution % key.p := by
  have hbound : 0 < (key.p - 1).tdiv 2 := by
    rw [Int.tdiv_eq_ediv_of_nonneg (by omega)]
    omega
  have hbelow (rand : Deps.RandState) :
      randomBelow rand ((key.p - 1).tdiv 2) = .ok (Deps.randomBelow rand ((key.p - 1).tdiv 2)) :=
    if_neg (by omega)
  let drawA := Deps.randomBelow (Deps.seeded seed) ((key.p - 1).tdiv 2)
  let drawB := Deps.randomBelow drawA.2 ((key.p - 1).tdiv 2)
  have ha : 0 ≤ drawA.1 ∧ drawA.1 < (key.p - 1).tdiv 2 := hrand (Deps.seeded seed) _ hbound
  have hb : 0 ≤ drawB.1 ∧ drawB.1 < (key.p - 1).tdiv 2 := hrand drawA.2 _ hbound
  have hsolution : Solution.newRandom ((key.p - 1).tdiv 2) seed =
      .ok ⟨drawA.1, drawB.1, (key.p - 1).tdiv 2⟩ := by
    simp only [Solution.newRandom, genBigintRange, sub_zero, hbelow, Rust.ok_bind, Rust.pure_eq_ok,
      zero_add]
    rfl
  have hp0 : key.p ≠ 0 := by omega
  refine ⟨⟨⟨drawA.1, drawB.1, (key.p - 1).tdiv 2⟩, 1,
    key.g ^ drawA.1.toNat % key.p * (key.h ^ drawB.1.toNat % key.p) % key.p, key⟩, ?_,
    rfl, rfl, ha, hb, (Int.mul_emod _ _ _).symm⟩
  simp only [State.fromPubKey, hsolution, Rust.ok_bind, Rug.powModRef_of_nonneg hp0 ha.1,
    Rug.powModRef_of_nonneg hp0 hb.1, unwrap_some, Rug.divRemEuc_of_ne_zero hp0]
  rfl

/-- Without exponents to draw, the random generator panics. -/
theorem State.fromPubKey_error [Deps] {key : PublicKey} (hp : key.p ≤ 2) (seed : ℤ) :
    State.fromPubKey key seed = .error .emptyRange := by
  have hbound : (key.p - 1).tdiv 2 ≤ 0 := by
    rcases le_or_gt 0 (key.p - 1) with h | h
    · rw [Int.tdiv_eq_ediv_of_nonneg h]
      omega
    · rw [← neg_sub, Int.neg_tdiv, Int.tdiv_eq_ediv_of_nonneg (by omega)]
      omega
  simp only [State.fromPubKey, Solution.newRandom, genBigintRange, sub_zero, randomBelow,
    if_pos hbound, Rust.error_bind]

/-- **The start of a walk.** A random state of a sound key is a state of its walk. -/
theorem State.fromPubKey_spec [Deps] (hrand : RandomInRange) {key : PublicKey} (hkey : key.Sound)
    (seed : ℤ) : ∃ state, State.fromPubKey key seed = .ok state ∧ state.OnWalk key := by
  obtain ⟨state, hstate, hpub, hn, ha, hb, hwork⟩ :=
    State.fromPubKey_ok hrand hkey.three_le seed
  have hthree := hkey.three_le
  have hhalf : (key.p - 1).tdiv 2 = (key.p - 1) / 2 := Int.tdiv_eq_ediv_of_nonneg (by omega)
  exact ⟨state, hstate, hpub, hn, ⟨ha.1, by omega⟩, ⟨hb.1, by omega⟩, hwork⟩

end TrexPow
