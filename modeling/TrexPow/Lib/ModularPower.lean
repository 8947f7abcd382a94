import Mathlib.FieldTheory.Finite.Basic
import Mathlib.Data.Int.ModEq
import Mathlib.Data.Int.GCD

/-!
# Powers modulo a prime and discrete logarithms

Exponents of powers modulo a prime may be reduced modulo `p - 1`. When two
products `g ^ a * h ^ b` of a base and one of its powers collide, their exponents
satisfy a linear congruence whose solution is the discrete logarithm of `h`.
-/

namespace ModularPower

/-- Fermat's little theorem on exponents: they matter only modulo `p - 1`. -/
theorem pow_mod_sub_one {p : ℕ} (hp : p.Prime) {g : ℤ} (hg : ¬(p : ℤ) ∣ g) (e : ℕ) :
    g ^ (e % (p - 1)) ≡ g ^ e [ZMOD p] := by
  have hcop : IsCoprime g p := ((Nat.prime_iff_prime_int.mp hp).coprime_iff_not_dvd.mpr hg).symm
  have hone := Int.ModEq.pow_card_sub_one_eq_one hp hcop
  have hsplit : g ^ e = (g ^ (p - 1)) ^ (e / (p - 1)) * g ^ (e % (p - 1)) := by
    rw [← pow_mul, ← pow_add, Nat.div_add_mod]
  rw [hsplit]
  simpa using ((hone.pow (e / (p - 1))).mul_right (g ^ (e % (p - 1)))).symm

section Collision

variable {G : Type*} [CommGroup G] {g h : G} {x a₁ b₁ a₂ b₂ : ℕ}

/-- A collision of two products of powers is a linear congruence between their
exponents, modulo the order of the base. -/
theorem exponents_modEq (hx : h = g ^ x) (hcol : g ^ a₁ * h ^ b₁ = g ^ a₂ * h ^ b₂) :
    a₁ + x * b₁ ≡ a₂ + x * b₂ [MOD orderOf g] := by
  rw [hx, ← pow_mul, ← pow_mul, ← pow_add, ← pow_add] at hcol
  exact pow_eq_pow_iff_modEq.mp hcol

/-- When the order of the base is `q` or `2 * q`, an exponent that is right
modulo `q` is right itself or after adding `q`. -/
theorem pow_eq_or_pow_add_eq {q k : ℕ} (hord : orderOf g = q ∨ orderOf g = 2 * q)
    (hk : k ≡ x [MOD q]) : g ^ k = g ^ x ∨ g ^ (k + q) = g ^ x := by
  simp only [pow_eq_pow_iff_modEq]
  rcases hord with hord | hord
  · exact Or.inl (hord ▸ hk)
  · rw [hord]
    obtain ⟨t, ht⟩ := hk.dvd
    rcases Int.even_or_odd' t with ⟨u, rfl | rfl⟩
    · left
      apply Nat.modEq_iff_dvd.mpr
      exact ⟨u, by push_cast; rw [ht]; ring⟩
    · right
      apply Nat.modEq_iff_dvd.mpr
      exact ⟨u, by push_cast; rw [← sub_sub, ht]; ring⟩

end Collision

section Congruence

variable {r c n k l : ℤ}

/-- An invertible coefficient determines the solution of a linear congruence. -/
theorem modEq_of_mul_modEq (hcop : IsCoprime r n) (hk : r * k ≡ c [ZMOD n])
    (hl : r * l ≡ c [ZMOD n]) : k ≡ l [ZMOD n] := by
  have hdvd : n ∣ r * (l - k) := by
    rw [mul_sub]
    exact (hk.trans hl.symm).dvd
  exact Int.modEq_iff_dvd.mpr (hcop.symm.dvd_of_dvd_mul_left hdvd)

/-- Multiplying the right side by an inverse of the coefficient solves the congruence. -/
theorem mul_inverse_modEq {y : ℤ} (hy : r * y ≡ 1 [ZMOD n]) : r * (y * c % n) ≡ c [ZMOD n] := by
  have hmod : r * (y * c % n) ≡ r * (y * c) [ZMOD n] := (Int.mod_modEq _ _).mul_left r
  refine hmod.trans ?_
  simpa [mul_assoc] using hy.mul_right c

/-- The next number in its residue class solves the congruence too. -/
theorem mul_add_modEq (hk : r * k ≡ c [ZMOD n]) : r * (k + n) ≡ c [ZMOD n] := by
  have hmultiple : r * n ≡ 0 [ZMOD n] := Int.modEq_zero_iff_dvd.mpr (dvd_mul_left n r)
  simpa [mul_add] using hk.add hmultiple

/-- Two numbers below the double of the modulus that agree modulo it differ by
nothing or by the modulus, when one of them is below it. -/
theorem eq_or_eq_add_of_modEq (hk : 0 ≤ k ∧ k < n) (hl : 0 ≤ l ∧ l < 2 * n)
    (h : k ≡ l [ZMOD n]) : l = k ∨ l = k + n := by
  have hkmod := Int.emod_eq_of_lt hk.1 hk.2
  have hlk : l % n = k := by rw [← h, hkmod]
  by_cases hlt : l < n
  · left
    rwa [Int.emod_eq_of_lt hl.1 hlt] at hlk
  · right
    rw [← Int.sub_emod_right, Int.emod_eq_of_lt (by omega) (by omega)] at hlk
    omega

end Congruence

end ModularPower
