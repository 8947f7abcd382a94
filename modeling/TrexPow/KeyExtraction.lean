import Mathlib.Data.ZMod.Basic
import Mathlib.GroupTheory.OrderOfElement
import TrexPow.Acceptance
import TrexPow.Lib.ModularPower

/-!
# Which accepted solutions reveal the private key

The verifier compares the two triples of numbers and the two group elements. The
extraction divides by the difference of the exponents modulo the field `n` of the
second triple, which the verifier leaves unconstrained. This file determines the
accepted pairs from which the extraction obtains the private key.
-/

namespace TrexPow

/-- The exponent is a discrete logarithm of the key's group element. -/
def PublicKey.Opens (key : PublicKey) (e : ℤ) : Prop := key.g ^ e.toNat ≡ key.h [ZMOD key.p]

instance (key : PublicKey) (e : ℤ) : Decidable (key.Opens e) :=
  inferInstanceAs (Decidable (_ % _ = _ % _))

/-- The extraction returns a private key that opens the public key. -/
def SolutionVerifier.Reveals (v : SolutionVerifier) (solutions : Solutions ℤ) : Prop :=
  ∃ privkey, v.keyGen solutions = .ok (some privkey) ∧ 0 ≤ privkey.x ∧ v.pubkey.Opens privkey.x

section Congruence

variable {a1 b1 a2 b2 n : ℤ}

/-- The congruence modulo zero makes the extraction panic. -/
theorem eqsSolvers_zero : eqsSolvers a1 b1 a2 b2 0 = .error .divisionByZero := rfl

/-- A vanishing coefficient gives no key. -/
theorem eqsSolvers_of_dvd (hn : n ≠ 0) (hdvd : n ∣ b1 - b2) :
    eqsSolvers a1 b1 a2 b2 n = .ok none := by
  simp only [eqsSolvers, Rug.divRemEuc_of_ne_zero hn, Rust.ok_bind,
    if_pos (Int.emod_eq_zero_of_dvd hdvd)]
  rfl

/-- An invertible coefficient gives the solution of the congruence. -/
theorem eqsSolvers_of_coprime (a1 a2 : ℤ) (hn : 0 < n) (hdvd : ¬n ∣ b1 - b2)
    (hgcd : Int.gcd (b1 - b2) n = 1) :
    ∃ k, eqsSolvers a1 b1 a2 b2 n = .ok (some k) ∧ (0 ≤ k ∧ k < n) ∧
      (b1 - b2) * k ≡ a2 - a1 [ZMOD n] := by
  have hr : ¬(b1 - b2) % n = 0 := fun h => hdvd (Int.dvd_of_emod_eq_zero h)
  have hgcdr : Int.gcd ((b1 - b2) % n) n = 1 := by rwa [Int.gcd_emod]
  cases hinv : Rug.invertRef ((b1 - b2) % n) n with
  | none => exact absurd hgcdr ((Rug.invertRef_eq_none_iff hn.ne').mp hinv)
  | some inverse =>
    obtain ⟨hone, -, -⟩ := Rug.invertRef_spec hinv
    refine ⟨inverse * (a2 - a1) % n, ?_,
      ⟨Int.emod_nonneg _ hn.ne', Int.emod_lt_of_pos _ hn⟩, ?_⟩
    · simp only [eqsSolvers, Rug.divRemEuc_of_ne_zero hn.ne', Rust.ok_bind, if_neg hr, hinv]
      rfl
    · have hcoefficient : (b1 - b2) * inverse ≡ 1 [ZMOD n] :=
        ((Int.mod_modEq _ _).mul_right inverse).symm.trans hone
      exact ModularPower.mul_inverse_modEq hcoefficient

/-- Any other coefficient gives the key zero, since the right side is a difference
of a number with itself. -/
theorem eqsSolvers_of_not_coprime (hn : 0 < n) (hdvd : ¬n ∣ b1 - b2)
    (hgcd : Int.gcd (b1 - b2) n ≠ 1) : eqsSolvers a1 b1 a2 b2 n = .ok (some 0) := by
  have hr : ¬(b1 - b2) % n = 0 := fun h => hdvd (Int.dvd_of_emod_eq_zero h)
  have hnone : Rug.invertRef ((b1 - b2) % n) n = none := by
    rwa [Rug.invertRef_eq_none_iff hn.ne', Int.gcd_emod]
  have hpos : 0 < Int.gcd (b1 - b2) n := Int.gcd_pos_of_ne_zero_right _ hn.ne'
  have hdiv : ((Int.gcd (b1 - b2) n : ℕ) : ℤ) ≠ 0 := by omega
  have hp1 : n / (Int.gcd (b1 - b2) n : ℕ) ≠ 0 :=
    (Int.ediv_pos_of_pos_of_dvd hn (by omega) (Int.gcd_dvd_right ..)).ne'
  have hreduced :
      Int.gcd ((b1 - b2) / (Int.gcd (b1 - b2) n : ℕ)) (n / (Int.gcd (b1 - b2) n : ℕ)) = 1 :=
    Int.gcd_ediv_gcd_ediv_gcd hpos
  cases hinv : Rug.invertRef ((b1 - b2) / (Int.gcd (b1 - b2) n : ℕ))
      (n / (Int.gcd (b1 - b2) n : ℕ)) with
  | none => exact absurd hreduced ((Rug.invertRef_eq_none_iff hp1).mp hinv)
  | some inverse =>
    simp only [eqsSolvers, Rug.divRemEuc_of_ne_zero hn.ne', Rust.ok_bind, if_neg hr, hnone,
      Int.gcd_emod, Rug.divTrunc, if_neg hdiv, Int.tdiv_eq_ediv_of_dvd (Int.gcd_dvd_left ..),
      Int.tdiv_eq_ediv_of_dvd (Int.gcd_dvd_right ..), hinv, Rug.divRemEuc_of_ne_zero hp1, sub_self,
      Int.zero_tdiv, mul_zero, Int.zero_emod]
    rfl

/-- The solver finds a reduced solution of the congruence. -/
def EqsSolved (a1 b1 a2 b2 n : ℤ) : Prop :=
  ∃ k, eqsSolvers a1 b1 a2 b2 n = .ok (some k) ∧ (0 ≤ k ∧ k < n) ∧
    (b1 - b2) * k ≡ a2 - a1 [ZMOD n]

/-- **The congruence solver.** For a coefficient that does not vanish the solver is right
exactly when the coefficient has an inverse, or when zero solves the congruence. -/
theorem eqsSolvers_correct_iff (a1 a2 : ℤ) (hn : 1 < n) (hne : ¬b1 ≡ b2 [ZMOD n]) :
    EqsSolved a1 b1 a2 b2 n ↔ Int.gcd (b1 - b2) n = 1 ∨ a1 ≡ a2 [ZMOD n] := by
  have hpos : 0 < n := by omega
  have hdvd : ¬n ∣ b1 - b2 := by
    intro hdvd
    exact hne (Int.modEq_iff_dvd.mpr hdvd).symm
  by_cases hgcd : Int.gcd (b1 - b2) n = 1
  · exact iff_of_true (eqsSolvers_of_coprime a1 a2 hpos hdvd hgcd) (Or.inl hgcd)
  · have hzero : eqsSolvers a1 b1 a2 b2 n = .ok (some 0) :=
      eqsSolvers_of_not_coprime hpos hdvd hgcd
    constructor
    · rintro ⟨k, hk, -, hcongr⟩
      obtain rfl := Option.some.inj (Except.ok.inj (hzero.symm.trans hk))
      rw [mul_zero] at hcongr
      right
      rw [Int.modEq_iff_dvd, ← sub_zero (a2 - a1)]
      exact hcongr.dvd
    · rintro (hone | hsame)
      · exact absurd hone hgcd
      · refine ⟨0, hzero, ⟨le_rfl, hpos⟩, ?_⟩
        rw [mul_zero, Int.modEq_iff_dvd, sub_zero]
        exact hsame.dvd

/-- A coefficient with an inverse. -/
theorem eqsSolvers_invertible : EqsSolved 1 5 3 0 6 :=
  (eqsSolvers_correct_iff 1 3 (by decide) (by decide)).mpr (Or.inl (by decide))

/-- The congruence `2 * k = 2` modulo four has the solution one, but the solver finds zero. -/
theorem eqsSolvers_wrong :
    ¬∀ a1 b1 a2 b2 n : ℤ, 1 < n → ¬b1 ≡ b2 [ZMOD n] →
      (∃ k, (b1 - b2) * k ≡ a2 - a1 [ZMOD n]) → EqsSolved a1 b1 a2 b2 n := by
  intro h
  obtain ⟨k, hk, -, hcongr⟩ := h 0 2 2 0 4 (by decide) (by decide) ⟨1, by decide⟩
  have hzero : eqsSolvers 0 2 2 0 4 = .ok (some 0) :=
    eqsSolvers_of_not_coprime (by decide) (by decide) (by decide)
  obtain rfl := Option.some.inj (Except.ok.inj (hzero.symm.trans hk))
  exact absurd hcongr (by decide)

end Congruence

section Extraction

variable {key : PublicKey} {solutions : Solutions ℤ}

/-- Nothing is revealed unless the congruence is solved. -/
theorem not_reveals_of_eqsSolvers
    (h : ∀ k, eqsSolvers solutions.1.a solutions.1.b solutions.2.a solutions.2.b solutions.2.n ≠
      .ok (some k)) : ¬SolutionVerifier.Reveals ⟨key⟩ solutions := by
  rintro ⟨privkey, hkey, -⟩
  simp only [SolutionVerifier.keyGen, Rust.bind_eq_ok] at hkey
  obtain ⟨found, hfound, hkey⟩ := hkey
  cases found with
  | none => simp at hkey
  | some k => exact h k hfound

/-- A solution of the congruence is the private key when it opens the key, and otherwise
the private key is larger by `n`. -/
theorem keyGen_of_eqsSolvers (hp : key.p ≠ 0) (hh : key.h % key.p = key.h) {k : ℤ} (hk : 0 ≤ k)
    (h : eqsSolvers solutions.1.a solutions.1.b solutions.2.a solutions.2.b solutions.2.n =
      .ok (some k)) :
    SolutionVerifier.keyGen ⟨key⟩ solutions =
      .ok (some ⟨key.p, key.g, if key.Opens k then k else k + solutions.2.n, key.bitLength⟩) := by
  have hopens : key.g ^ k.toNat % key.p = key.h ↔ key.Opens k := by
    rw [PublicKey.Opens, Int.ModEq, hh]
  simp only [SolutionVerifier.keyGen, h, Rust.ok_bind, Rug.powModRef_of_nonneg hp hk, unwrap_some,
    Rust.pure_eq_ok, ne_eq, hopens, ite_not]

/-- A solution of the congruence reveals the key when it opens the key itself or
after adding `n`. -/
theorem reveals_iff_of_eqsSolvers (hp : key.p ≠ 0) (hh : key.h % key.p = key.h) {k : ℤ}
    (hk : 0 ≤ k) (hn : 0 ≤ solutions.2.n)
    (h : eqsSolvers solutions.1.a solutions.1.b solutions.2.a solutions.2.b solutions.2.n =
      .ok (some k)) :
    SolutionVerifier.Reveals ⟨key⟩ solutions ↔ key.Opens k ∨ key.Opens (k + solutions.2.n) := by
  simp only [SolutionVerifier.Reveals, keyGen_of_eqsSolvers hp hh hk h, Except.ok.injEq,
    Option.some.injEq, exists_eq_left']
  by_cases hvalid : key.Opens k
  · simp [hvalid, hk]
  · simp [hvalid, add_nonneg hk hn]

/-- With an inverse, the extraction reveals the key when some solution of the congruence
below `2 * n` opens it. -/
theorem reveals_iff_of_coprime (hp : key.p ≠ 0) (hh : key.h % key.p = key.h)
    (hn : 0 < solutions.2.n) (hdvd : ¬solutions.2.n ∣ solutions.1.b - solutions.2.b)
    (hgcd : Int.gcd (solutions.1.b - solutions.2.b) solutions.2.n = 1) :
    SolutionVerifier.Reveals ⟨key⟩ solutions ↔ ∃ e, (0 ≤ e ∧ e < 2 * solutions.2.n) ∧
      (solutions.1.b - solutions.2.b) * e ≡ solutions.2.a - solutions.1.a [ZMOD solutions.2.n] ∧
      key.Opens e := by
  obtain ⟨k, heqs, hbounds, hcongr⟩ := eqsSolvers_of_coprime solutions.1.a solutions.2.a hn
    hdvd hgcd
  rw [reveals_iff_of_eqsSolvers hp hh hbounds.1 hn.le heqs]
  constructor
  · rintro (hopen | hopen)
    · exact ⟨k, ⟨hbounds.1, by omega⟩, hcongr, hopen⟩
    · exact ⟨k + solutions.2.n, ⟨by omega, by omega⟩, ModularPower.mul_add_modEq hcongr, hopen⟩
  · rintro ⟨e, he, hsolves, hopen⟩
    have hsame := ModularPower.modEq_of_mul_modEq (Int.isCoprime_iff_gcd_eq_one.mpr hgcd) hcongr
      hsolves
    rcases ModularPower.eq_or_eq_add_of_modEq hbounds he hsame with rfl | rfl
    · exact Or.inl hopen
    · exact Or.inr hopen

/-- Nothing is revealed when `n` is zero or divides the difference of the second exponents. -/
theorem not_reveals_of_trivial (hn : 0 ≤ solutions.2.n)
    (h : solutions.2.n = 0 ∨ solutions.2.n ∣ solutions.1.b - solutions.2.b) :
    ¬SolutionVerifier.Reveals ⟨key⟩ solutions := by
  apply not_reveals_of_eqsSolvers
  intro k hk
  rcases hn.eq_or_lt with hzero | hpos
  · rw [← hzero, eqsSolvers_zero] at hk
    cases hk
  · rw [eqsSolvers_of_dvd hpos.ne' (h.resolve_left hpos.ne')] at hk
    cases hk

end Extraction

/-- A key over a safe prime: a generator of a large subgroup, and a power of it. -/
structure PublicKey.SafeKey (key : PublicKey) (q x : ℕ) : Prop where
  q_prime : q.Prime
  p_prime : (2 * q + 1).Prime
  p_eq : key.p = ((2 * q + 1 : ℕ) : ℤ)
  order : orderOf (key.g : ZMod (2 * q + 1)) = q ∨ orderOf (key.g : ZMod (2 * q + 1)) = 2 * q
  h_eq : key.h = key.g ^ x % key.p

/-- The pairs from which the extraction obtains the private key of a puzzle whose `h` has the
exponent `x`, by what they and the puzzle are. The `n` of the second solution does not divide
the difference of the second exponents. If this difference has an inverse modulo `n`, then `n`
is a multiple of `q`, so that the collision decides the key, or else the equation holds modulo
`n` by chance for one of the exponents of `h` below `2 * n`. If it has none, only zero and `n`
are tried. -/
def PublicKey.KeyExtractable (key : PublicKey) (q x : ℕ) (solutions : Solutions ℤ) : Prop :=
  let n := solutions.2.n
  let difB := solutions.1.b - solutions.2.b
  let difA := solutions.2.a - solutions.1.a
  let order := orderOf (key.g : ZMod (2 * q + 1))
  0 < n ∧ ¬n ∣ difB ∧
    ((Int.gcd difB n = 1 ∧ ((q : ℤ) ∣ n ∨
        ∃ y : ℕ, y ≡ x [MOD order] ∧ y < 2 * n ∧ difB * y ≡ difA [ZMOD n])) ∨
      (Int.gcd difB n ≠ 1 ∧ (x ≡ 0 [ZMOD order] ∨ x ≡ n [ZMOD order])))

namespace PublicKey.SafeKey

variable {key : PublicKey} {q x : ℕ}

theorem ne_zero (hkey : key.SafeKey q x) : key.p ≠ 0 := by
  have := hkey.p_eq
  omega

theorem h_reduced (hkey : key.SafeKey q x) : key.h % key.p = key.h := by
  rw [hkey.h_eq, Int.emod_emod]

/-- The generator as a unit of the field. -/
theorem exists_unit (hkey : key.SafeKey q x) : ∃ g : (ZMod (2 * q + 1))ˣ,
    (g : ZMod (2 * q + 1)) = key.g ∧ (orderOf g = q ∨ orderOf g = 2 * q) := by
  have : Fact (2 * q + 1).Prime := ⟨hkey.p_prime⟩
  have hpos := hkey.q_prime.pos
  have hg : (key.g : ZMod (2 * q + 1)) ≠ 0 := by
    intro hzero
    have horder := hkey.order
    rw [hzero, orderOf_zero] at horder
    omega
  refine ⟨Units.mk0 _ hg, rfl, ?_⟩
  rw [← orderOf_units, Units.val_mk0]
  exact hkey.order

/-- Congruence modulo the key's modulus is equality in the field. -/
theorem modEq_iff (hkey : key.SafeKey q x) {u v : ℤ} :
    u ≡ v [ZMOD key.p] ↔ (u : ZMod (2 * q + 1)) = v := by
  rw [hkey.p_eq, ZMod.intCast_eq_intCast_iff]

theorem h_cast (hkey : key.SafeKey q x) :
    (key.h : ZMod (2 * q + 1)) = (key.g : ZMod (2 * q + 1)) ^ x := by
  have hmod : key.h ≡ key.g ^ x [ZMOD key.p] := by
    rw [hkey.h_eq]
    exact Int.mod_modEq _ _
  simpa using hkey.modEq_iff.mp hmod

/-- The order of the generator is a multiple of `q`. -/
theorem dvd_orderOf (hkey : key.SafeKey q x) :
    (q : ℤ) ∣ (orderOf (key.g : ZMod (2 * q + 1)) : ℤ) := by
  rw [Int.natCast_dvd_natCast]
  rcases hkey.order with h | h
  · rw [h]
  · rw [h]
    exact dvd_mul_left q 2

/-- A collision is a congruence modulo the order of the generator between the exponents and
the logarithm. -/
theorem exponents_congr (hkey : key.SafeKey q x) {solutions : Solutions ℤ}
    (hnonneg : Nonneg solutions) (hcol : key.Collides solutions) :
    (solutions.1.b - solutions.2.b) * x ≡ solutions.2.a - solutions.1.a
      [ZMOD orderOf (key.g : ZMod (2 * q + 1))] := by
  obtain ⟨⟨ha1, hb1⟩, ha2, hb2⟩ := hnonneg
  obtain ⟨g, hg, -⟩ := hkey.exists_unit
  have hfield : g ^ solutions.1.a.toNat * (g ^ x) ^ solutions.1.b.toNat =
      g ^ solutions.2.a.toNat * (g ^ x) ^ solutions.2.b.toNat := by
    have hcast := hkey.modEq_iff.mp hcol
    simp only [PublicKey.product, Int.cast_mul, Int.cast_pow, hkey.h_cast, ← hg] at hcast
    exact_mod_cast hcast
  have hexponents := ModularPower.exponents_modEq rfl hfield
  rw [← orderOf_units, hg] at hexponents
  have hmod := Int.natCast_modEq_iff.mpr hexponents
  push_cast [Int.toNat_of_nonneg ha1, Int.toNat_of_nonneg hb1, Int.toNat_of_nonneg ha2,
    Int.toNat_of_nonneg hb2] at hmod
  refine Int.modEq_iff_dvd.mpr ?_
  convert! hmod.dvd using 1
  ring

/-- The exponents that open the key are those that are right modulo the order. -/
theorem opens_iff (hkey : key.SafeKey q x) {e : ℤ} (he : 0 ≤ e) :
    key.Opens e ↔ e ≡ x [ZMOD orderOf (key.g : ZMod (2 * q + 1))] := by
  obtain ⟨g, hg, -⟩ := hkey.exists_unit
  lift e to ℕ using he
  rw [Int.natCast_modEq_iff, ← hg, orderOf_units, ← pow_eq_pow_iff_modEq, PublicKey.Opens,
    Int.toNat_natCast, hkey.modEq_iff, hkey.h_cast, Int.cast_pow, ← hg,
    ← Units.val_pow_eq_pow_val, ← Units.val_pow_eq_pow_val, Units.val_inj]

/-- An exponent that is right modulo `q` opens the key, itself or after adding `q`. -/
theorem opens_of_modEq (hkey : key.SafeKey q x) {k : ℤ} (hk : 0 ≤ k) (hmod : k ≡ x [ZMOD q]) :
    key.Opens k ∨ key.Opens (k + q) := by
  obtain ⟨g, hg, horder⟩ := hkey.exists_unit
  have hopens (e : ℕ) : g ^ e = g ^ x → key.g ^ e ≡ key.h [ZMOD key.p] := by
    intro h
    rw [hkey.modEq_iff, hkey.h_cast, Int.cast_pow, ← hg]
    exact_mod_cast congrArg Units.val h
  have hnat : k.toNat ≡ x [MOD q] := by
    rw [← Int.natCast_modEq_iff, Int.toNat_of_nonneg hk]
    exact hmod
  have hadd : (k + q).toNat = k.toNat + q := by omega
  refine (ModularPower.pow_eq_or_pow_add_eq horder hnat).imp (hopens _) fun h => ?_
  rw [PublicKey.Opens, hadd]
  exact hopens _ h

/-- The modulus of the congruence that the solvers write into a solution. -/
theorem half_eq (hkey : key.SafeKey q x) : (key.p - 1).tdiv 2 = q := by
  rw [hkey.p_eq, Int.tdiv_eq_ediv_of_nonneg (by omega)]
  omega

/-- From a collision whose second exponents differ modulo `q` the congruence yields the
logarithm modulo `q`. -/
theorem exists_logarithm (hkey : key.SafeKey q x) {solutions : Solutions ℤ}
    (hnonneg : Nonneg solutions) (hcol : key.Collides solutions) (hn : solutions.2.n = q)
    (hdvd : ¬(q : ℤ) ∣ solutions.1.b - solutions.2.b) :
    ∃ k, eqsSolvers solutions.1.a solutions.1.b solutions.2.a solutions.2.b solutions.2.n =
        .ok (some k) ∧ (0 ≤ k ∧ k < q) ∧ (key.Opens k ∨ key.Opens (k + q)) := by
  have hpos : (0 : ℤ) < q := by exact_mod_cast hkey.q_prime.pos
  have hcop : IsCoprime (solutions.1.b - solutions.2.b) (q : ℤ) :=
    ((Nat.prime_iff_prime_int.mp hkey.q_prime).coprime_iff_not_dvd.mpr hdvd).symm
  obtain ⟨k, heqs, hk, hcongr⟩ := eqsSolvers_of_coprime solutions.1.a solutions.2.a hpos hdvd
    (Int.isCoprime_iff_gcd_eq_one.mp hcop)
  have hmod := ModularPower.modEq_of_mul_modEq hcop hcongr
    ((hkey.exponents_congr hnonneg hcol).of_dvd hkey.dvd_orderOf)
  rw [hn]
  exact ⟨k, heqs, hk, hkey.opens_of_modEq hk.1 hmod⟩

/-- A collision with the modulus of the solvers reveals the key exactly when the second
exponents differ modulo it. -/
theorem reveals_iff (hkey : key.SafeKey q x) {solutions : Solutions ℤ} (hnonneg : Nonneg solutions)
    (hcol : key.Collides solutions) (hn : solutions.2.n = q) :
    SolutionVerifier.Reveals ⟨key⟩ solutions ↔ ¬(q : ℤ) ∣ solutions.1.b - solutions.2.b := by
  have hpos : (0 : ℤ) < q := by exact_mod_cast hkey.q_prime.pos
  constructor
  · intro hreveals hdvd
    rw [← hn] at hdvd
    exact not_reveals_of_trivial (by omega) (Or.inr hdvd) hreveals
  · intro hdvd
    obtain ⟨k, heqs, hk, hopen⟩ := hkey.exists_logarithm hnonneg hcol hn hdvd
    rw [reveals_iff_of_eqsSolvers hkey.ne_zero hkey.h_reduced hk.1 (by omega) heqs, hn]
    exact hopen

/-- A collision reveals the key when its `n` is a multiple of `q`, whichever one, and the
difference of the second exponents has an inverse modulo it. -/
theorem reveals_of_dvd (hkey : key.SafeKey q x) {solutions : Solutions ℤ}
    (hnonneg : Nonneg solutions) (hcol : key.Collides solutions) (hn : 0 < solutions.2.n)
    (hq : (q : ℤ) ∣ solutions.2.n)
    (hgcd : Int.gcd (solutions.1.b - solutions.2.b) solutions.2.n = 1) :
    SolutionVerifier.Reveals ⟨key⟩ solutions := by
  have hcop := Int.isCoprime_iff_gcd_eq_one.mpr hgcd
  have hcollision := hkey.exponents_congr hnonneg hcol
  have hdvd : ¬solutions.2.n ∣ solutions.1.b - solutions.2.b := by
    intro hdvd
    have hunit : IsUnit (q : ℤ) := hcop.isUnit_of_dvd' (hq.trans hdvd) hq
    exact (Nat.prime_iff_prime_int.mp hkey.q_prime).not_isUnit hunit
  obtain ⟨k, heqs, hbounds, hcongr⟩ := eqsSolvers_of_coprime solutions.1.a solutions.2.a hn
    hdvd hgcd
  rw [reveals_iff_of_eqsSolvers hkey.ne_zero hkey.h_reduced hbounds.1 hn.le heqs]
  by_cases horder : (orderOf (key.g : ZMod (2 * q + 1)) : ℤ) ∣ solutions.2.n
  · left
    rw [hkey.opens_iff hbounds.1]
    exact ModularPower.modEq_of_mul_modEq (hcop.of_isCoprime_of_dvd_right horder)
      (hcongr.of_dvd horder) hcollision
  · -- the order is `2 * q`, and `n` is an odd multiple of `q`
    have hcopq : IsCoprime (solutions.1.b - solutions.2.b) (q : ℤ) :=
      hcop.of_isCoprime_of_dvd_right hq
    have hmod : k ≡ x [ZMOD q] := ModularPower.modEq_of_mul_modEq hcopq (hcongr.of_dvd hq)
      (hcollision.of_dvd hkey.dvd_orderOf)
    have htwice : (orderOf (key.g : ZMod (2 * q + 1)) : ℤ) = 2 * q := by
      rcases hkey.order with h | h
      · rw [h] at horder
        exact absurd hq horder
      · rw [h]
        push_cast
        rfl
    obtain ⟨m, hm⟩ := hq
    have hodd : ¬(2 : ℤ) ∣ m := by
      rintro ⟨t, rfl⟩
      exact horder ⟨t, by rw [htwice, hm]; ring⟩
    have hnext : k + solutions.2.n ≡ k + q [ZMOD 2 * q] := by
      obtain ⟨t, rfl⟩ : ∃ t, m = 2 * t + 1 := ⟨m / 2, by omega⟩
      apply Int.modEq_iff_dvd.mpr
      exact ⟨-t, by rw [hm]; ring⟩
    refine (hkey.opens_of_modEq hbounds.1 hmod).imp_right ?_
    intro hopen
    rw [hkey.opens_iff (by omega), htwice] at hopen ⊢
    exact hnext.trans hopen

/-- The extraction reveals the key exactly for the extractable pairs. -/
theorem reveals_iff_keyExtractable (hkey : key.SafeKey q x) {solutions : Solutions ℤ}
    (hnonneg : Nonneg solutions) (hcol : key.Collides solutions) (hn : 0 ≤ solutions.2.n) :
    SolutionVerifier.Reveals ⟨key⟩ solutions ↔ key.KeyExtractable q x solutions := by
  unfold PublicKey.KeyExtractable
  by_cases htrivial : solutions.2.n = 0 ∨ solutions.2.n ∣ solutions.1.b - solutions.2.b
  · refine iff_of_false (not_reveals_of_trivial hn htrivial) ?_
    rintro ⟨hpos, hdvd, -⟩
    exact htrivial.elim hpos.ne' hdvd
  rw [not_or] at htrivial
  obtain ⟨hzero, hdvd⟩ := htrivial
  have hpos : 0 < solutions.2.n := lt_of_le_of_ne hn (Ne.symm hzero)
  simp only [hpos, hdvd, not_false_eq_true, true_and]
  by_cases hgcd : Int.gcd (solutions.1.b - solutions.2.b) solutions.2.n = 1
  · simp only [hgcd, true_and, ne_eq, not_true, false_and, or_false]
    constructor
    · rw [reveals_iff_of_coprime hkey.ne_zero hkey.h_reduced hpos hdvd hgcd]
      rintro ⟨e, ⟨he, hlt⟩, hsolves, hopen⟩
      rw [hkey.opens_iff he] at hopen
      lift e to ℕ using he
      exact Or.inr ⟨e, Int.natCast_modEq_iff.mp hopen, hlt, hsolves⟩
    · rintro (hq | ⟨y, hy, hlt, hsolves⟩)
      · exact hkey.reveals_of_dvd hnonneg hcol hpos hq hgcd
      · rw [reveals_iff_of_coprime hkey.ne_zero hkey.h_reduced hpos hdvd hgcd]
        refine ⟨y, ⟨Int.natCast_nonneg y, hlt⟩, hsolves, ?_⟩
        rw [hkey.opens_iff (Int.natCast_nonneg y)]
        exact Int.natCast_modEq_iff.mpr hy
  · rw [reveals_iff_of_eqsSolvers hkey.ne_zero hkey.h_reduced le_rfl hn
      (eqsSolvers_of_not_coprime hpos hdvd hgcd), zero_add, hkey.opens_iff le_rfl,
      hkey.opens_iff hn]
    simp only [hgcd, false_and, ne_eq, not_false_eq_true, true_and, false_or]
    exact or_congr ⟨Int.ModEq.symm, Int.ModEq.symm⟩ ⟨Int.ModEq.symm, Int.ModEq.symm⟩

end PublicKey.SafeKey

/-- **Extraction from a collision.** Whenever the second exponents of a collision differ
modulo `n`, the extraction returns the key's parameters with a discrete logarithm of `h`
below `2 * n`. -/
theorem keyGen_of_collision {key : PublicKey} {n x : ℕ} (hkey : key.SafeKey n x)
    {solutions : Solutions ℤ} (hn : solutions.1.n = n ∧ solutions.2.n = n)
    (hnonneg : Nonneg solutions)
    (hcol : key.g ^ solutions.1.a.toNat * key.h ^ solutions.1.b.toNat ≡
      key.g ^ solutions.2.a.toNat * key.h ^ solutions.2.b.toNat [ZMOD key.p])
    (hne : ¬solutions.1.b ≡ solutions.2.b [ZMOD n]) :
    ∃ privkey, SolutionVerifier.keyGen ⟨key⟩ solutions = .ok (some privkey) ∧
      privkey.p = key.p ∧ privkey.g = key.g ∧ privkey.bitLength = key.bitLength ∧
      key.g ^ privkey.x.toNat % key.p = key.h ∧ 0 ≤ privkey.x ∧ privkey.x < 2 * n := by
  have hdvd : ¬(n : ℤ) ∣ solutions.1.b - solutions.2.b := by
    intro hdvd
    exact hne (Int.modEq_iff_dvd.mpr hdvd).symm
  obtain ⟨k, heqs, ⟨hk0, hkn⟩, hopen⟩ := hkey.exists_logarithm hnonneg hcol hn.2 hdvd
  have hopens (e : ℤ) (h : key.Opens e) : key.g ^ e.toNat % key.p = key.h := by
    rw [← hkey.h_reduced]
    exact h
  refine ⟨_, keyGen_of_eqsSolvers hkey.ne_zero hkey.h_reduced hk0 heqs, rfl, rfl, rfl, ?_⟩
  rw [hn.2]
  dsimp only
  split_ifs with hvalid
  · exact ⟨hopens k hvalid, hk0, by omega⟩
  · exact ⟨hopens (k + n) (hopen.resolve_left hvalid), by omega, by omega⟩

/-- A key of the time-lock puzzle: a safe prime, a generator of a large subgroup, and
a power of it. -/
structure PublicKey.Puzzle (key : PublicKey) (q x : ℕ) : Prop where
  q_prime : q.Prime
  p_prime : (2 * q + 1).Prime
  p_eq : key.p = ((2 * q + 1 : ℕ) : ℤ)
  lt : key.p < 2 ^ 256
  order : orderOf (key.g : ZMod (2 * q + 1)) = q ∨ orderOf (key.g : ZMod (2 * q + 1)) = 2 * q
  h_eq : key.h = key.g ^ x % key.p
  bits : 48 ≤ key.bitLength.toNat ∧ key.bitLength.toNat ≤ 224

theorem PublicKey.Puzzle.safe {key : PublicKey} {q x : ℕ} (hkey : key.Puzzle q x) :
    key.SafeKey q x :=
  ⟨hkey.q_prime, hkey.p_prime, hkey.p_eq, hkey.order, hkey.h_eq⟩

/-- A puzzle key is sound. -/
theorem PublicKey.Puzzle.sound {key : PublicKey} {q x : ℕ} (hkey : key.Puzzle q x) :
    key.Sound := by
  have : Fact (2 * q + 1).Prime := ⟨hkey.p_prime⟩
  obtain ⟨g, hg, -⟩ := hkey.safe.exists_unit
  have hg0 : (key.g : ZMod (2 * q + 1)) ≠ 0 := hg ▸ g.ne_zero
  have hunit (u : ℤ) (hu : (u : ZMod (2 * q + 1)) ≠ 0) : ¬key.p ∣ u := by
    intro hdvd
    apply hu
    have hzero := hkey.safe.modEq_iff.mp (Int.modEq_zero_iff_dvd.mpr hdvd)
    rwa [Int.cast_zero] at hzero
  have htwo := hkey.q_prime.two_le
  have hp := hkey.p_eq
  refine ⟨?_, by omega, hkey.lt, hunit _ hg0, hunit _ ?_⟩
  · rw [hp, Int.toNat_natCast]
    exact hkey.p_prime
  · rw [hkey.safe.h_cast]
    exact pow_ne_zero x hg0

/-- Accepted solutions collide. -/
theorem collides_of_verify [Deps] {key : PublicKey} {solutions : Solutions ℤ} {header : Compute}
    (hp : key.p ≠ 0) (hnonneg : Nonneg solutions)
    (h : SolutionVerifier.verify ⟨key⟩ solutions header = .ok true) : key.Collides solutions := by
  by_contra hcol
  by_cases hne : solutions.1 = solutions.2
  · rw [SolutionVerifier.verify_of_eq hne] at h
    cases h
  · rw [SolutionVerifier.verify_of_not_collides hp hnonneg hne hcol] at h
    cases h

/-- **Soundness of the proof of work.** An accepted pair reveals the private key when its `n` is
a positive multiple of the `q` of the puzzle and the difference of the second exponents has an
inverse modulo it. Which other pairs reveal it is up to chance: altogether these are the
extractable pairs. For the `n` that the solvers write into their solutions these are those
whose second exponents differ modulo `n`. -/
theorem accepted_reveals_iff [Deps] {key : PublicKey} {q x : ℕ} (hkey : key.Puzzle q x)
    {solutions : Solutions ℤ} (hrange : solutions.1.InRange ∧ solutions.2.InRange)
    {header : Compute} (haccept : SolutionVerifier.verify ⟨key⟩ solutions header = .ok true) :
    (0 < solutions.2.n → (q : ℤ) ∣ solutions.2.n →
      Int.gcd (solutions.1.b - solutions.2.b) solutions.2.n = 1 →
      SolutionVerifier.Reveals ⟨key⟩ solutions) ∧
    (SolutionVerifier.Reveals ⟨key⟩ solutions ↔ key.KeyExtractable q x solutions) ∧
    (solutions.2.n = (key.p - 1).tdiv 2 → (SolutionVerifier.Reveals ⟨key⟩ solutions ↔
      ¬solutions.2.n ∣ solutions.1.b - solutions.2.b)) := by
  obtain ⟨⟨ha1, hb1, -⟩, ha2, hb2, hn2⟩ := hrange
  have hnonneg : Nonneg solutions := ⟨⟨ha1.1, hb1.1⟩, ha2.1, hb2.1⟩
  have hsafe := hkey.safe
  have hcol := collides_of_verify hsafe.ne_zero hnonneg haccept
  refine ⟨?_, hsafe.reveals_iff_keyExtractable hnonneg hcol hn2.1, ?_⟩
  · intro hpos hq hgcd
    exact hsafe.reveals_of_dvd hnonneg hcol hpos hq hgcd
  · intro hn
    rw [hsafe.half_eq] at hn
    rw [hsafe.reveals_iff hnonneg hcol hn, hn]

section Sample

attribute [local instance] Deps.sample

theorem smallKey_puzzle : smallKey.Puzzle 3 4 where
  q_prime := by norm_num
  p_prime := by norm_num
  p_eq := by decide
  lt := by decide
  order := by
    right
    have hpos : 0 < 2 * 3 := by norm_num
    exact (orderOf_eq_iff hpos).mpr (by decide)
  h_eq := by decide
  bits := by decide

/-- The pair that the solver finds for the small key yields a private key below six. -/
theorem smallKey_keyGen : ∃ privkey,
    SolutionVerifier.keyGen ⟨smallKey⟩ (⟨2, 3, 3⟩, ⟨0, 5, 3⟩) = .ok (some privkey) ∧
      0 ≤ privkey.x ∧ privkey.x < 6 := by
  obtain ⟨privkey, hkey, -, -, -, -, hbounds⟩ :=
    @keyGen_of_collision smallKey 3 4 smallKey_puzzle.safe (⟨2, 3, 3⟩, ⟨0, 5, 3⟩) ⟨rfl, rfl⟩
      (by simp [Nonneg]) (by decide) (by decide)
  exact ⟨privkey, hkey, hbounds⟩

/-- Two triples that differ in `n` only are accepted and reveal nothing. -/
theorem accepted_pair_reveals_nothing :
    ¬∀ (key : PublicKey) (q x : ℕ) (solutions : Solutions ℤ) (header : Compute), key.Puzzle q x →
      solutions.1.InRange → solutions.2.InRange →
      SolutionVerifier.verify ⟨key⟩ solutions header = .ok true →
      SolutionVerifier.Reveals ⟨key⟩ solutions := by
  intro h
  have hreveals := h smallKey 3 4 (⟨0, 0, 3⟩, ⟨0, 0, 4⟩) ⟨48, .replicate 32 0, 0⟩ smallKey_puzzle
    (by simp [Solution.InRange]) (by simp [Solution.InRange]) (by decide +kernel)
  exact not_reveals_of_eqsSolvers (fun k hk => by cases hk) hreveals

/-- The pair that the solver finds for the small key reveals its private key, and so does a pair
whose `n` is twice as large. -/
theorem smallKey_revealed :
    (SolutionVerifier.verify ⟨smallKey⟩ (⟨2, 3, 3⟩, ⟨0, 5, 3⟩) ⟨48, .replicate 32 0, 4⟩ =
        .ok true ∧ SolutionVerifier.Reveals ⟨smallKey⟩ (⟨2, 3, 3⟩, ⟨0, 5, 3⟩)) ∧
      SolutionVerifier.verify ⟨smallKey⟩ (⟨4, 0, 3⟩, ⟨0, 1, 6⟩) ⟨48, .replicate 32 0, 2⟩ =
        .ok true ∧ SolutionVerifier.Reveals ⟨smallKey⟩ (⟨4, 0, 3⟩, ⟨0, 1, 6⟩) := by
  have haccept : SolutionVerifier.verify ⟨smallKey⟩ (⟨2, 3, 3⟩, ⟨0, 5, 3⟩)
      ⟨48, .replicate 32 0, 4⟩ = .ok true := by decide +kernel
  have hrange : Solution.InRange ⟨2, 3, 3⟩ ∧ Solution.InRange ⟨0, 5, 3⟩ := by
    simp [Solution.InRange]
  have hacceptTwice : SolutionVerifier.verify ⟨smallKey⟩ (⟨4, 0, 3⟩, ⟨0, 1, 6⟩)
      ⟨48, .replicate 32 0, 2⟩ = .ok true := by decide +kernel
  have hrangeTwice : Solution.InRange ⟨4, 0, 3⟩ ∧ Solution.InRange ⟨0, 1, 6⟩ := by
    simp [Solution.InRange]
  refine ⟨⟨haccept, ?_⟩, hacceptTwice, ?_⟩
  · exact ((accepted_reveals_iff smallKey_puzzle hrange haccept).2.2 rfl).mpr (by decide)
  · exact (accepted_reveals_iff smallKey_puzzle hrangeTwice hacceptTwice).1 (by decide) ⟨2, rfl⟩
      (by decide)

end Sample

end TrexPow
