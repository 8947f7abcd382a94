import TrexPow.Lib.Loop

/-!
# What loops and runs cost

A loop that counts does what the plain loop does and carries a counter along. The counter
is bounded by what one pass may add, times the number of passes. In a run over a list of
inputs a potential pays for the steps that are counted: each of them takes one unit from
it, and no other step adds to it.
-/

namespace Loop

variable {σ ρ ε : Type}

/-- The end of a pass together with a counter. -/
def Control.withCount (count : ℕ) : Control σ ρ → Control (σ × ℕ) (ρ × ℕ)
  | .next s => .next (s, count)
  | .leave s => .leave (s, count)
  | .ret r => .ret (r, count)

/-- A body that counts does what the plain body does and adds at most the cost of a pass. -/
def Counts (body : σ → Except ε (Control σ ρ))
    (counted : σ × ℕ → Except ε (Control (σ × ℕ) (ρ × ℕ))) (cost : ℕ) : Prop :=
  ∀ s count, ∃ k ≤ cost, counted (s, count) = (body s).map (Control.withCount (count + k))

/-- A loop that counts ends as the plain loop does, and adds at most the cost of all passes. -/
theorem Counts.bounded {body : σ → Except ε (Control σ ρ)}
    {counted : σ × ℕ → Except ε (Control (σ × ℕ) (ρ × ℕ))} {cost : ℕ}
    (h : Counts body counted cost) (n : ℕ) (s : σ) (count : ℕ) :
    ∃ k ≤ n * cost, bounded counted n (s, count) =
      (bounded body n s).map (Sum.map (·, count + k) (·, count + k)) := by
  induction n generalizing s count with
  | zero => exact ⟨0, Nat.zero_le _, rfl⟩
  | succ n ih =>
    obtain ⟨k, hk, hpass⟩ := h s count
    rw [Nat.succ_mul]
    simp only [Loop.bounded, hpass]
    cases body s with
    | error e => exact ⟨0, Nat.zero_le _, rfl⟩
    | ok c =>
      cases c with
      | next s' =>
        obtain ⟨l, hl, hrest⟩ := ih s' (count + k)
        refine ⟨k + l, by omega, ?_⟩
        rw [← Nat.add_assoc]
        exact hrest
      | leave s' => exact ⟨k, by omega, rfl⟩
      | ret r => exact ⟨k, by omega, rfl⟩

section Potential

variable {α : Type} {step : σ → α → Except ε σ} {potential : σ → ℕ}

/-- The potential rule: a potential that pays for each step to be counted, and to which no
step adds, bounds their number. -/
theorem countP_steps_le {P : σ → α → Bool}
    (hstep : ∀ s a s', step s a = .ok s' →
      (if P s a then 1 else 0) + potential s' ≤ potential s) (inputs : List α) (s : σ) :
    (steps step inputs s).countP (fun st => P st.before st.input) ≤ potential s := by
  induction inputs generalizing s with
  | nil => exact Nat.zero_le _
  | cons a inputs ih =>
    cases hmove : step s a with
    | error e =>
      simp only [steps, hmove]
      exact Nat.zero_le _
    | ok middle =>
      have hpays := hstep s a middle hmove
      have hrest := ih middle
      simp only [steps, hmove, List.countP_cons]
      omega

/-- As long as a run has not become final, each counted input takes from the potential. -/
theorem countP_add_potential_le {T : α → Bool} {F : σ → Prop}
    (hfinal : ∀ s a s', F s → step s a = .ok s' → F s')
    (hstep : ∀ s a s', step s a = .ok s' → ¬F s' →
      (if T a then 1 else 0) + potential s' ≤ potential s)
    {inputs : List α} {s s' : σ} (hrun : inputs.foldlM step s = .ok s') (hend : ¬F s') :
    ¬F s ∧ inputs.countP T + potential s' ≤ potential s := by
  induction inputs generalizing s with
  | nil =>
    obtain rfl := Except.ok.inj hrun
    exact ⟨hend, (Nat.zero_add _).le⟩
  | cons a inputs ih =>
    obtain ⟨middle, hmove, hrest⟩ := foldlM_cons_eq_ok.mp hrun
    obtain ⟨hmiddle, hle⟩ := ih hrest
    have hpays := hstep s a middle hmove hmiddle
    refine ⟨fun hs => hmiddle (hfinal s a middle hs hmove), ?_⟩
    rw [List.countP_cons]
    omega

/-- The termination rule: a run with as many counted inputs as the potential at its start
has become final. -/
theorem final_of_potential_le {T : α → Bool} {F : σ → Prop}
    (hfinal : ∀ s a s', F s → step s a = .ok s' → F s')
    (hstep : ∀ s a s', step s a = .ok s' → ¬F s' →
      (if T a then 1 else 0) + potential s' ≤ potential s)
    (hpos : ∀ s, ¬F s → 0 < potential s) {inputs : List α} {s s' : σ}
    (hrun : inputs.foldlM step s = .ok s') (hmany : potential s ≤ inputs.countP T) : F s' := by
  by_contra hend
  obtain ⟨-, hle⟩ := countP_add_potential_le hfinal hstep hrun hend
  have hleft := hpos s' hend
  omega

/-- The draining rule for several parties: where every step from a state of the invariant
succeeds, keeps it, and takes from the potentials of the parties it counts for, a run
takes from each of them as often as it counts, until nothing is left. -/
theorem foldlM_drains {ι : Type} {potential : ι → σ → ℕ} {T : ι → α → Bool} {I : σ → Prop}
    (hstep : ∀ s a, I s → ∃ s', step s a = .ok s' ∧ I s' ∧
      ∀ i, potential i s' ≤ potential i s - if T i a then 1 else 0)
    (inputs : List α) {s : σ} (hs : I s) :
    ∃ s', inputs.foldlM step s = .ok s' ∧ I s' ∧
      ∀ i, potential i s' ≤ potential i s - inputs.countP (T i) := by
  induction inputs generalizing s with
  | nil => exact ⟨s, rfl, hs, fun i => le_rfl⟩
  | cons a inputs ih =>
    obtain ⟨middle, hmove, hmiddle, hpays⟩ := hstep s a hs
    obtain ⟨s', hrun, hs', hleft⟩ := ih hmiddle
    refine ⟨s', foldlM_cons_eq_ok.mpr ⟨middle, hmove, hrun⟩, hs', ?_⟩
    intro i
    have hfirst := hpays i
    have hrest := hleft i
    rw [List.countP_cons]
    omega

end Potential

end Loop
