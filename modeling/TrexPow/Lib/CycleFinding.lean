import Mathlib.Dynamics.PeriodicPts.Lemmas
import Mathlib.Order.Bounds.Basic

/-!
# Finding a cycle with two walkers

A sequence that a function generates and that repeats a value consists of a tail and a
cycle. Two walkers of which one is twice as fast stand at the same value exactly at the
positive multiples of the cycle length that lie behind the tail.
-/

namespace CycleFinding

variable {α : Type} {f : α → α} {x : α} {w : ℕ → α} {mu lam : ℕ}

/-- The shape of a sequence that closes up: `mu` is the first index whose value comes back,
and `lam` the number of steps after which it does for the first time. -/
structure Rho (w : ℕ → α) (mu lam : ℕ) : Prop where
  lam_pos : 0 < lam
  closes : w (mu + lam) = w mu
  tail_least : ∀ m l, 0 < l → w (m + l) = w m → mu ≤ m
  cycle_least : ∀ l, 0 < l → w (mu + l) = w mu → lam ≤ l

/-- A sequence with finitely many values closes up. -/
theorem exists_rho (hfinite : (Set.range w).Finite) : ∃ mu lam, Rho w mu lam := by
  classical
  have hnot : ¬Function.Injective w := by
    intro hinjective
    exact Set.infinite_range_of_injective hinjective hfinite
  have hback : ∃ m l, 0 < l ∧ w (m + l) = w m := by
    simp only [Function.Injective, not_forall] at hnot
    obtain ⟨i, j, heq, hne⟩ := hnot
    rcases lt_or_gt_of_ne hne with hlt | hlt
    · refine ⟨i, j - i, by omega, ?_⟩
      rw [Nat.add_sub_cancel' hlt.le, heq]
    · refine ⟨j, i - j, by omega, ?_⟩
      rw [Nat.add_sub_cancel' hlt.le, heq]
  have hcycle := Nat.find_spec hback
  obtain ⟨hpos, hcloses⟩ := Nat.find_spec hcycle
  refine ⟨Nat.find hback, Nat.find hcycle, hpos, hcloses, ?_, ?_⟩
  · intro m l hl hm
    exact Nat.find_min' hback ⟨l, hl, hm⟩
  · intro l hl hm
    exact Nat.find_min' hcycle ⟨hl, hm⟩

/-- The cycle length is the least period of the first value that comes back. -/
theorem Rho.minimalPeriod_eq (h : Rho (fun k => f^[k] x) mu lam) :
    Function.minimalPeriod f (f^[mu] x) = lam := by
  have hback (l : ℕ) : f^[mu + l] x = f^[mu] x ↔ Function.IsPeriodicPt f l (f^[mu] x) := by
    rw [add_comm, Function.iterate_add_apply]
    exact Iff.rfl
  have hperiodic : Function.IsPeriodicPt f lam (f^[mu] x) := (hback lam).mp h.closes
  apply le_antisymm (hperiodic.minimalPeriod_le h.lam_pos)
  exact h.cycle_least _ (hperiodic.minimalPeriod_pos h.lam_pos)
    ((hback _).mpr (Function.isPeriodicPt_minimalPeriod f _))

/-- The values that come back are those behind the tail, after full turns of the cycle. -/
theorem Rho.iterate_eq_iff (h : Rho (fun k => f^[k] x) mu lam) {i d : ℕ} (hd : 0 < d) :
    f^[i + d] x = f^[i] x ↔ mu ≤ i ∧ lam ∣ d := by
  by_cases hi : mu ≤ i
  · obtain ⟨k, rfl⟩ := Nat.exists_eq_add_of_le hi
    have hon : f^[mu] x ∈ Function.periodicPts f := by
      rw [← Function.minimalPeriod_pos_iff_mem_periodicPts, h.minimalPeriod_eq]
      exact h.lam_pos
    have hperiod : Function.minimalPeriod f (f^[mu + k] x) = lam := by
      rw [add_comm, Function.iterate_add_apply, Function.minimalPeriod_apply_iterate hon,
        h.minimalPeriod_eq]
    rw [add_comm (mu + k) d, Function.iterate_add_apply, ← hperiod,
      ← Function.isPeriodicPt_iff_minimalPeriod_dvd]
    simp only [hi, true_and]
    exact Iff.rfl
  · refine iff_of_false ?_ fun hboth => hi hboth.1
    intro heq
    exact hi (h.tail_least i d hd heq)

/-- The two walkers stand at the same value exactly at multiples of the cycle length
behind the tail. -/
theorem Rho.meet_iff (h : Rho (fun k => f^[k] x) mu lam) {i : ℕ} (hi : 0 < i) :
    f^[i] x = f^[2 * i] x ↔ lam ∣ i ∧ mu ≤ i := by
  rw [eq_comm, two_mul, h.iterate_eq_iff hi, and_comm]

/-- The positive multiples of the cycle length behind the tail. -/
def meetings (mu lam : ℕ) : Set ℕ := {i | 0 < i ∧ lam ∣ i ∧ mu ≤ i}

/-- There is a first of them, and it lies within one turn behind the tail. -/
theorem exists_isLeast (mu : ℕ) (hlam : 0 < lam) :
    ∃ i, IsLeast (meetings mu lam) i ∧ i ≤ mu + lam := by
  classical
  have hmod := Nat.mod_lt mu hlam
  have hdiv := Nat.div_add_mod mu lam
  have hturn : lam * (mu / lam + 1) ∈ meetings mu lam := by
    refine ⟨Nat.mul_pos hlam (Nat.succ_pos _), dvd_mul_right lam _, ?_⟩
    rw [mul_add]
    omega
  have hmeets : ∃ i, i ∈ meetings mu lam := ⟨_, hturn⟩
  refine ⟨Nat.find hmeets, ⟨Nat.find_spec hmeets, fun i hi => Nat.find_min' hmeets hi⟩, ?_⟩
  have hle := Nat.find_min' hmeets hturn
  rw [mul_add] at hle
  omega

end CycleFinding
