import Mathlib.Data.Int.Interval
import TrexPow.Lib.CycleFinding
import TrexPow.Meeting

/-!
# The first loop finds the cycle of the walk

The works of a walk are the iterates of one function, since a step overwrites the
nonce of the header computer. The first loop of `solve` walks along them at two
speeds, so that it ends in the first pass which is a multiple of the cycle length
behind the tail, if the bound of the loop leaves room for it.
-/

namespace TrexPow

open CycleFinding (Rho meetings)
open Loop (Control Reaches bounded)

section Pass

variable {C : Type} [Hash C]

/-- The moves of a pass of the first loop, after which the works are compared. -/
def Race.advance (r : Race C) : Rust (Race C) := do
  let (state1, compute) ← r.state1.transit r.compute
  let (state2, compute2) ← r.state2.transit r.compute2
  let (state2, compute2) ← state2.transit compute2
  return ⟨state1, state2, compute, compute2⟩

/-- A pass of the first loop moves and compares. -/
theorem solvePass_of_advance {r r' : Race C} (h : r.advance = .ok r') :
    solvePass r =
      if r'.state1.work = r'.state2.work then
        if r'.state1.solution ≠ r'.state2.solution then .ok (.leave r')
        else .ok (.ret (none, r'.compute))
      else .ok (.next r') := by
  simp only [Race.advance, Rust.bind_eq_ok] at h
  obtain ⟨⟨state1, compute⟩, hmove1, ⟨middle, compute2⟩, hmove2, ⟨state2, compute2'⟩, hmove3,
    h⟩ := h
  obtain rfl := Except.ok.inj h
  simp only [solvePass, hmove1, hmove2, hmove3, Rust.ok_bind, Rust.pure_eq_ok]

end Pass

section Search

variable [Deps] {key : PublicKey} {header : Compute} {start : State ℤ}

/-- The first loop of `solve` ends with a match in pass `i`: the passes before it go on,
and its moves lead to states of the same work. -/
def MatchesAt (header : Compute) (start : State ℤ) (i : ℕ) (r : Race Compute) : Prop :=
  ∃ k t, i = k + 1 ∧ Reaches solvePass k ⟨start, start, header, header⟩ t ∧ t.advance = .ok r ∧
    r.state1.work = r.state2.work

/-- The first loop of `solve` ends after `i` passes, with a match or at its bound. -/
def EndsAt (header : Compute) (start : State ℤ) (n i : ℕ) (r : Race Compute) : Prop :=
  (i ≤ n ∧ MatchesAt header start i r) ∨
    (i = n ∧ Reaches solvePass n ⟨start, start, header, header⟩ r)

/-- A match in a pass within the bound is what ends the loop. -/
theorem MatchesAt.bounded_eq {n i : ℕ} {r : Race Compute} (h : MatchesAt header start i r)
    (hle : i ≤ n) :
    bounded solvePass n ⟨start, start, header, header⟩ =
      if r.state1.solution ≠ r.state2.solution then .ok (.inl r)
      else .ok (.inr (none, r.compute)) := by
  obtain ⟨k, t, rfl, hreach, hadvance, hwork⟩ := h
  obtain ⟨m, rfl⟩ := Nat.exists_eq_add_of_le hle
  have hpass := solvePass_of_advance hadvance
  rw [if_pos hwork] at hpass
  rw [Nat.add_assoc, hreach.bounded_add, Nat.add_comm 1 m, bounded, hpass]
  split_ifs
  · rfl
  · rfl

/-- The work after a step, as a function of the work. -/
def PublicKey.stepWork (key : PublicKey) (header : Compute) (y : ℤ) : ℤ :=
  key.nextWork (Hash.hashInteger (header.at y) % key.p) y

/-- The works of a walk. -/
def worksOf (header : Compute) (start : State ℤ) (k : ℕ) : ℤ := (start.walkAt header k).work

/-- The works of a walk are iterates of one function. -/
theorem worksOf_eq (hkey : key.Sound) (hstart : start.OnWalk key) :
    worksOf header start = fun k => (key.stepWork header)^[k] start.work := by
  funext k
  induction k with
  | zero => rfl
  | succ k ih =>
    have hpub := (hstart.walkAt hkey header k).pubkey_eq
    rw [Function.iterate_succ_apply', ← ih, worksOf, State.walkAt_succ, State.succ,
      State.hashAt, hpub]
    rfl

/-- The works of a walk close up, because they are reduced modulo the key's modulus. -/
theorem exists_rho_worksOf (hkey : key.Sound) (hstart : start.OnWalk key) :
    ∃ mu lam, Rho (worksOf header start) mu lam := by
  apply CycleFinding.exists_rho
  refine (Set.finite_Ico 0 key.p).subset ?_
  rintro y ⟨k, rfl⟩
  have hbounds := (hstart.walkAt hkey header k).work_bounds hkey
  exact ⟨hbounds.1.le, hbounds.2⟩

/-- The moves of pass `i + 1` lead along the walk. -/
theorem Race.At.advance_at (hkey : key.Sound) (hstart : start.OnWalk key) {i : ℕ} {r : Race Compute}
    (hr : r.At header start i (2 * i)) :
    ∃ r', r.advance = .ok r' ∧ r'.At header start (i + 1) (2 * (i + 1)) := by
  obtain ⟨compute, compute2, compute2', hmove1, hmove2, hmove3, hheader1, hheader2⟩ :=
    hr.first_moves hkey hstart
  refine ⟨⟨start.walkAt header (i + 1), start.walkAt header (2 * (i + 1)), compute, compute2'⟩, ?_,
    rfl, rfl, hheader1, hheader2⟩
  simp only [Race.advance, hmove1, hmove2, hmove3, Rust.ok_bind, Rust.pure_eq_ok]

/-- After passes that go on, the states have moved along the walk at their speeds. -/
theorem at_of_reaches (hkey : key.Sound) (hstart : start.OnWalk key) {i : ℕ} {r : Race Compute}
    (h : Reaches solvePass i ⟨start, start, header, header⟩ r) : r.At header start i (2 * i) := by
  refine Reaches.invariant (I := fun i r => r.At header start i (2 * i)) ?_
    (firstLoop_start header start).at_pass h
  intro k s t hs hnext
  obtain ⟨t', hadvance, ht'⟩ := hs.advance_at hkey hstart
  rw [solvePass_of_advance hadvance] at hnext
  split_ifs at hnext
  · cases hnext
  · cases hnext
  · cases hnext
    exact ht'

/-- Wherever the first loop ends, the states have moved along the walk at their speeds. -/
theorem EndsAt.states_eq (hkey : key.Sound) (hstart : start.OnWalk key) {n i : ℕ}
    {r : Race Compute} (h : EndsAt header start n i r) :
    r.state1 = start.walkAt header i ∧ r.state2 = start.walkAt header (2 * i) := by
  rcases h with ⟨-, k, t, rfl, hreach, hadvance, -⟩ | ⟨rfl, hreach⟩
  · obtain ⟨r', hadvance', hr'⟩ := (at_of_reaches hkey hstart hreach).advance_at hkey hstart
    obtain rfl := Except.ok.inj (hadvance.symm.trans hadvance')
    exact ⟨hr'.state1_eq, hr'.state2_eq⟩
  · have hr := at_of_reaches hkey hstart hreach
    exact ⟨hr.state1_eq, hr.state2_eq⟩

/-- The first loop matches in the first pass that is a multiple of the cycle length behind
the tail. -/
theorem exists_matchesAt (hkey : key.Sound) (hstart : start.OnWalk key) {mu lam i : ℕ}
    (hrho : Rho (worksOf header start) mu lam) (hi : IsLeast (meetings mu lam) i) :
    ∃ r, MatchesAt header start i r := by
  have hmeet (j : ℕ) (hj : 0 < j) :
      worksOf header start j = worksOf header start (2 * j) ↔ lam ∣ j ∧ mu ≤ j := by
    rw [worksOf_eq hkey hstart] at hrho ⊢
    exact hrho.meet_iff hj
  obtain ⟨⟨hpos, hcycle⟩, hleast⟩ := hi
  obtain ⟨k, rfl⟩ := Nat.exists_eq_succ_of_ne_zero hpos.ne'
  have hgoes : ∀ j < k, ∀ s : Race Compute, s.At header start j (2 * j) →
      ∃ t, solvePass s = .ok (.next t) ∧ t.At header start (j + 1) (2 * (j + 1)) := by
    intro j hj s hs
    obtain ⟨t, hadvance, ht⟩ := hs.advance_at hkey hstart
    refine ⟨t, ?_, ht⟩
    -- an earlier match would be an earlier multiple of the cycle length
    rw [solvePass_of_advance hadvance, if_neg]
    rw [ht.state1_eq, ht.state2_eq]
    intro hwork
    have hle := hleast ⟨Nat.succ_pos j, (hmeet (j + 1) (Nat.succ_pos j)).mp hwork⟩
    omega
  obtain ⟨t, hreach, ht⟩ := Loop.exists_reaches hgoes (firstLoop_start header start).at_pass
  obtain ⟨r, hadvance, hr⟩ := ht.advance_at hkey hstart
  refine ⟨r, k, t, rfl, hreach, hadvance, ?_⟩
  rw [hr.state1_eq, hr.state2_eq]
  exact (hmeet (k + 1) hpos).mpr hcycle

end Search

section Sample

attribute [local instance] Deps.sample

end Sample

end TrexPow
