import Mathlib.Data.Vector.Basic
import Mathlib.Order.Basic

/-!
# Bounded loops that may fail

A loop whose counter runs up to a fixed bound executes its body at most that
often. One pass of the body either starts the next pass, leaves the loop, or
returns from the surrounding function; it may also fail, which ends everything.
Runs over a list of inputs and arrays filled entry by entry have the same rules.
-/

namespace Loop

/-- How one pass of a loop body ends. -/
inductive Control (σ ρ : Type)
  /-- The pass is over and the counter advances. -/
  | next (s : σ)
  /-- The loop is left early. -/
  | leave (s : σ)
  /-- The surrounding function returns. -/
  | ret (r : ρ)

variable {σ ρ ε : Type}

/-- Run the body for at most `n` passes. The result is the state in which the
loop was left, or the value the surrounding function returns. -/
def bounded (body : σ → Except ε (Control σ ρ)) : ℕ → σ → Except ε (σ ⊕ ρ)
  | 0, s => .ok (.inl s)
  | n + 1, s =>
    match body s with
    | .error e => .error e
    | .ok (.next s') => bounded body n s'
    | .ok (.leave s') => .ok (.inl s')
    | .ok (.ret r) => .ok (.inr r)

/-- What one pass establishes: the invariant `I` when the loop goes on, `L` when
it is left, `R` when the function returns. -/
def Control.Satisfies (I L : σ → Prop) (R : ρ → Prop) : Control σ ρ → Prop
  | .next s => I s
  | .leave s => L s
  | .ret r => R r

/-- The invariant rule with a pass counter. A body that succeeds from every state of the
invariant and leads to the invariant of the next pass makes the whole loop succeed, and
the loop ends in a state of the invariant after all passes, in a state in which one of
the passes left it, or with a returned value. -/
theorem bounded_counted {body : σ → Except ε (Control σ ρ)} {I L : ℕ → σ → Prop} {R : ρ → Prop}
    {n : ℕ} (hbody : ∀ k < n, ∀ s, I k s →
      ∃ c, body s = .ok c ∧ c.Satisfies (I (k + 1)) (L (k + 1)) R) {s : σ} (hs : I 0 s) :
    ∃ o, bounded body n s = .ok o ∧
      Sum.elim (fun s' => I n s' ∨ ∃ k, 0 < k ∧ k ≤ n ∧ L k s') R o := by
  -- the last `m` passes, from the state before pass `k`
  have hlast : ∀ m k s, k + m = n → I k s → ∃ o, bounded body m s = .ok o ∧
      Sum.elim (fun s' => I n s' ∨ ∃ k, 0 < k ∧ k ≤ n ∧ L k s') R o := by
    intro m
    induction m with
    | zero =>
      rintro k s rfl hs
      exact ⟨.inl s, rfl, Or.inl hs⟩
    | succ m ih =>
      intro k s hsum hs
      obtain ⟨c, hc, hsat⟩ := hbody k (by omega) s hs
      cases c with
      | next s' =>
        obtain ⟨o, ho, hpost⟩ := ih (k + 1) s' (by omega) hsat
        exact ⟨o, by simp only [bounded, hc, ho], hpost⟩
      | leave s' =>
        refine ⟨.inl s', by simp only [bounded, hc], Or.inr ⟨k + 1, ?_, ?_, hsat⟩⟩
        · omega
        · omega
      | ret r => exact ⟨.inr r, by simp only [bounded, hc], hsat⟩
  exact hlast n 0 s (Nat.zero_add n) hs

/-- The invariant rule without a counter: a body that keeps an invariant makes the loop succeed,
and where the loop ends the invariant holds. -/
theorem bounded_total {body : σ → Except ε (Control σ ρ)} {I : σ → Prop}
    (hbody : ∀ s, I s → ∃ c, body s = .ok c ∧ c.Satisfies I I (fun _ => True)) (n : ℕ) {s : σ}
    (hs : I s) : ∃ o, bounded body n s = .ok o ∧ Sum.elim I (fun _ => True) o := by
  obtain ⟨o, ho, hpost⟩ := bounded_counted (I := fun _ => I) (L := fun _ => I)
    (fun _ (_ : _ < n) s hs => hbody s hs) hs
  refine ⟨o, ho, ?_⟩
  cases o with
  | inl s' => exact hpost.elim id fun ⟨_, _, _, hleft⟩ => hleft
  | inr r => trivial

/-- The invariant rule for a loop that may fail: if it ends, it ends in a state of the
invariant, in a state in which a pass left it, or with a returned value. -/
theorem bounded_establishes {body : σ → Except ε (Control σ ρ)} {I L : σ → Prop} {R : ρ → Prop}
    (hbody : ∀ s c, I s → body s = .ok c → c.Satisfies I L R) {n : ℕ} {s : σ} {o : σ ⊕ ρ}
    (hs : I s) (h : bounded body n s = .ok o) : Sum.elim (fun s' => I s' ∨ L s') R o := by
  induction n generalizing s with
  | zero =>
    obtain rfl := Except.ok.inj h
    exact Or.inl hs
  | succ n ih =>
    cases hpass : body s with
    | error e =>
      simp only [bounded, hpass] at h
      cases h
    | ok c =>
      have hsat := hbody s c hs hpass
      simp only [bounded, hpass] at h
      cases c with
      | next s' => exact ih hsat h
      | leave s' =>
        obtain rfl := Except.ok.inj h
        exact Or.inr hsat
      | ret r =>
        obtain rfl := Except.ok.inj h
        exact hsat

/-- The rule for two loops one after the other. The second starts from what `enter` makes
of the state in which the first ends, and its invariant may depend on the number of
passes that the first has made. -/
theorem bounded_seq_counted {body₁ body₂ : σ → Except ε (Control σ ρ)} {n : ℕ}
    {I L : ℕ → σ → Prop} {J : ℕ → ℕ → σ → Prop} {R : ρ → Prop} {enter : σ → σ}
    (hbody₁ : ∀ i < n, ∀ s, I i s →
      ∃ c, body₁ s = .ok c ∧ c.Satisfies (I (i + 1)) (L (i + 1)) R)
    (hend : ∀ s, I n s → J n 0 (enter s))
    (hleave : ∀ i s, 0 < i → i ≤ n → L i s → J i 0 (enter s))
    (hbody₂ : ∀ i j, j < n → ∀ s, J i j s →
      ∃ c, body₂ s = .ok c ∧ c.Satisfies (J i (j + 1)) (fun _ => True) R)
    {s : σ} (hs : I 0 s) :
    (∃ r, bounded body₁ n s = .ok (.inr r) ∧ R r) ∨
      ∃ s', bounded body₁ n s = .ok (.inl s') ∧
        ((∃ r, bounded body₂ n (enter s') = .ok (.inr r) ∧ R r) ∨
          ∃ s'', bounded body₂ n (enter s') = .ok (.inl s'')) := by
  obtain ⟨first, hfirst, hpost⟩ := bounded_counted hbody₁ hs
  cases first with
  | inr r => exact Or.inl ⟨r, hfirst, hpost⟩
  | inl s' =>
    right
    have hstart : ∃ i, J i 0 (enter s') := by
      rcases hpost with hall | ⟨i, hpos, hle, hleft⟩
      · exact ⟨n, hend s' hall⟩
      · exact ⟨i, hleave i s' hpos hle hleft⟩
    obtain ⟨i, hstart⟩ := hstart
    obtain ⟨second, hsecond, hreturned⟩ := bounded_counted (L := fun _ _ => True) (hbody₂ i) hstart
    cases second with
    | inr r => exact ⟨s', hfirst, Or.inl ⟨r, hsecond, hreturned⟩⟩
    | inl s'' => exact ⟨s', hfirst, Or.inr ⟨s'', hsecond⟩⟩

/-- So many passes in a row go on and lead from the first state to the second. -/
def Reaches (body : σ → Except ε (Control σ ρ)) : ℕ → σ → σ → Prop
  | 0, s, t => s = t
  | k + 1, s, t => ∃ middle, Reaches body k s middle ∧ body middle = .ok (.next t)

/-- After passes that go on, the loop runs as from the state reached. -/
theorem Reaches.bounded_add {body : σ → Except ε (Control σ ρ)} {k : ℕ} {s t : σ}
    (h : Reaches body k s t) (n : ℕ) : bounded body (k + n) s = bounded body n t := by
  induction k generalizing n t with
  | zero =>
    obtain rfl : s = t := h
    rw [Nat.zero_add]
  | succ k ih =>
    obtain ⟨middle, hreach, hnext⟩ := h
    rw [Nat.add_right_comm, Nat.add_assoc, ih hreach, bounded, hnext]

/-- What every pass that goes on keeps, a row of such passes keeps. -/
theorem Reaches.invariant {body : σ → Except ε (Control σ ρ)} {I : ℕ → σ → Prop}
    (hbody : ∀ k s t, I k s → body s = .ok (.next t) → I (k + 1) t) {k : ℕ} {s t : σ} (hs : I 0 s)
    (h : Reaches body k s t) : I k t := by
  induction k generalizing t with
  | zero =>
    obtain rfl : s = t := h
    exact hs
  | succ k ih =>
    obtain ⟨middle, hreach, hnext⟩ := h
    exact hbody k middle t (ih hreach) hnext

/-- Passes that go on and keep an invariant reach a state of the invariant. -/
theorem exists_reaches {body : σ → Except ε (Control σ ρ)} {I : ℕ → σ → Prop} {n : ℕ}
    (hbody : ∀ k < n, ∀ s, I k s → ∃ t, body s = .ok (.next t) ∧ I (k + 1) t) {s : σ} (hs : I 0 s) :
    ∃ t, Reaches body n s t ∧ I n t := by
  induction n with
  | zero => exact ⟨s, rfl, hs⟩
  | succ n ih =>
    obtain ⟨middle, hreach, hmiddle⟩ := ih fun k hk => hbody k (by omega)
    obtain ⟨t, hnext, ht⟩ := hbody n (by omega) middle hmiddle
    exact ⟨t, ⟨middle, hreach, hnext⟩, ht⟩

/-- One of the first `n` passes leaves the loop early, in the second state. -/
def Leaves (body : σ → Except ε (Control σ ρ)) (n : ℕ) (s t : σ) : Prop :=
  ∃ i < n, ∃ middle, Reaches body i s middle ∧ body middle = .ok (.leave t)

/-- A loop that is left early ends where it is left. -/
theorem Leaves.bounded_eq {body : σ → Except ε (Control σ ρ)} {n : ℕ} {s t : σ}
    (h : Leaves body n s t) : bounded body n s = .ok (.inl t) := by
  obtain ⟨i, hi, middle, hreach, hleave⟩ := h
  obtain ⟨m, rfl⟩ := Nat.exists_eq_add_of_lt hi
  rw [Nat.add_assoc, hreach.bounded_add, bounded, hleave]

/-- A loop whose passes keep an invariant is left in a state that the pass which leaves it
establishes. -/
theorem Leaves.establishes {body : σ → Except ε (Control σ ρ)} {I L : σ → Prop}
    (hbody : ∀ s c, I s → body s = .ok c → c.Satisfies I L (fun _ => True)) {n : ℕ} {s t : σ}
    (hs : I s) (h : Leaves body n s t) : L t := by
  obtain ⟨i, -, middle, hreach, hleave⟩ := h
  have hmiddle : I middle := Reaches.invariant (I := fun _ => I)
    (fun _ s t hs hnext => hbody s (.next t) hs hnext) hs hreach
  exact hbody middle (.leave t) hmiddle hleave

/-- How a pass of a second loop follows a pass of a first: it goes on, leaves or returns as
the first does, or it returns on its own with a value of `Q`. -/
def Control.Follows {τ υ : Type} (I : σ → τ → Prop) (R : ρ → υ → Prop) (Q : υ → Prop) :
    Control σ ρ → Control τ υ → Prop
  | .next s, .next t => I s t
  | .leave s, .leave t => I s t
  | .ret r, .ret q => R r q ∨ Q q
  | _, .ret q => Q q
  | _, _ => False

/-- How a second loop ends compared with a first. -/
def Followed {τ υ : Type} (I : σ → τ → Prop) (R : ρ → υ → Prop) (Q : υ → Prop) :
    σ ⊕ ρ → τ ⊕ υ → Prop
  | .inl s, .inl t => I s t
  | .inr r, .inr q => R r q ∨ Q q
  | .inl _, .inr q => Q q
  | .inr _, .inl _ => False

/-- The simulation rule. When each pass of a second loop follows the pass of a first from
related states, the whole second loop follows the first. -/
theorem bounded_follows {τ υ : Type} {body₁ : σ → Except ε (Control σ ρ)}
    {body₂ : τ → Except ε (Control τ υ)} {I : σ → τ → Prop} {R : ρ → υ → Prop} {Q : υ → Prop}
    (hbody : ∀ s t, I s t → ∃ c d, body₁ s = .ok c ∧ body₂ t = .ok d ∧ c.Follows I R Q d)
    {n : ℕ} {s : σ} {t : τ} (hst : I s t) {o₁ : σ ⊕ ρ} (h : bounded body₁ n s = .ok o₁) :
    ∃ o₂, bounded body₂ n t = .ok o₂ ∧ Followed I R Q o₁ o₂ := by
  induction n generalizing s t with
  | zero =>
    obtain rfl := Except.ok.inj h
    exact ⟨.inl t, rfl, hst⟩
  | succ n ih =>
    obtain ⟨c, d, hc, hd, hfollows⟩ := hbody s t hst
    simp only [bounded, hc] at h
    simp only [bounded, hd]
    cases d with
    | next t' =>
      cases c with
      | next s' => exact ih hfollows h
      | leave s' => exact hfollows.elim
      | ret r => exact hfollows.elim
    | leave t' =>
      cases c with
      | next s' => exact hfollows.elim
      | leave s' =>
        obtain rfl := Except.ok.inj h
        exact ⟨.inl t', rfl, hfollows⟩
      | ret r => exact hfollows.elim
    | ret q =>
      refine ⟨.inr q, rfl, ?_⟩
      -- whatever the first loop does from here on, the second has returned on its own
      cases c with
      | next s' => cases o₁ with
        | inl s'' => exact hfollows
        | inr r => exact Or.inr hfollows
      | leave s' =>
        obtain rfl := Except.ok.inj h
        exact hfollows
      | ret r =>
        obtain rfl := Except.ok.inj h
        exact hfollows

/-- Every step of a run over a list of inputs meets a condition on the state it
starts from and on its input. -/
def AllSteps {α : Type} (step : σ → α → Except ε σ) (P : σ → α → Prop) : List α → σ → Prop
  | [], _ => True
  | a :: inputs, s =>
    P s a ∧
      match step s a with
      | .error _ => True
      | .ok s' => AllSteps step P inputs s'

instance AllSteps.decidable {α : Type} {step : σ → α → Except ε σ} {P : σ → α → Prop}
    [∀ s a, Decidable (P s a)] : ∀ inputs s, Decidable (AllSteps step P inputs s)
  | [], _ => .isTrue trivial
  | a :: inputs, s =>
    have : Decidable (match step s a with
        | .error _ => True
        | .ok s' => AllSteps step P inputs s') :=
      match step s a with
      | .error _ => .isTrue trivial
      | .ok s' => AllSteps.decidable inputs s'
    inferInstanceAs (Decidable (_ ∧ _))

/-- A run meets a condition at every step when its first step does and, if that step
succeeds, the rest of the run does. -/
theorem allSteps_cons {α : Type} {step : σ → α → Except ε σ} {P : σ → α → Prop} {a : α}
    {inputs : List α} {s : σ} : AllSteps step P (a :: inputs) s ↔
      P s a ∧ ∀ s', step s a = .ok s' → AllSteps step P inputs s' := by
  rw [AllSteps]
  apply and_congr_right
  intro _
  cases step s a with
  | error e => exact iff_of_true trivial fun s' h => nomatch h
  | ok s' =>
    constructor
    · intro h t ht
      obtain rfl := Except.ok.inj ht
      exact h
    · intro h
      exact h s' rfl

/-- Conditions that agree on every step hold on the same runs. -/
theorem allSteps_congr {α : Type} {step : σ → α → Except ε σ} {P Q : σ → α → Prop}
    (h : ∀ s a, P s a ↔ Q s a) {inputs : List α} {s : σ} :
    AllSteps step P inputs s ↔ AllSteps step Q inputs s := by
  induction inputs generalizing s with
  | nil => exact Iff.rfl
  | cons a inputs ih =>
    simp only [allSteps_cons, h s a, ih]

/-- A run succeeds when its first step and the rest of it do. -/
theorem foldlM_cons_eq_ok {α : Type} {step : σ → α → Except ε σ} {a : α} {inputs : List α}
    {s s' : σ} : (a :: inputs).foldlM step s = .ok s' ↔
      ∃ middle, step s a = .ok middle ∧ inputs.foldlM step middle = .ok s' := by
  rw [List.foldlM_cons]
  cases step s a with
  | error e => exact iff_of_false (fun h => nomatch h) fun ⟨_, h, _⟩ => nomatch h
  | ok middle => exact ⟨fun h => ⟨middle, rfl, h⟩, fun ⟨_, hmove, h⟩ => Except.ok.inj hmove ▸ h⟩

/-- A run succeeds when its beginning and its last step do. -/
theorem foldlM_concat_eq_ok {α : Type} {step : σ → α → Except ε σ} {a : α} {inputs : List α}
    {s s' : σ} : (inputs ++ [a]).foldlM step s = .ok s' ↔
      ∃ middle, inputs.foldlM step s = .ok middle ∧ step middle a = .ok s' := by
  induction inputs generalizing s with
  | nil =>
    rw [List.nil_append, foldlM_cons_eq_ok]
    constructor
    · rintro ⟨middle, hmove, h⟩
      obtain rfl := Except.ok.inj h
      exact ⟨s, rfl, hmove⟩
    · rintro ⟨middle, h, hmove⟩
      obtain rfl := Except.ok.inj h
      exact ⟨s', hmove, rfl⟩
  | cons b inputs ih =>
    simp only [List.cons_append, foldlM_cons_eq_ok, ih]
    constructor
    · rintro ⟨first, hfirst, middle, hrun, hmove⟩
      exact ⟨middle, ⟨first, hfirst, hrun⟩, hmove⟩
    · rintro ⟨middle, ⟨first, hfirst, hrun⟩, hmove⟩
      exact ⟨first, hfirst, middle, hrun, hmove⟩

/-- The invariant rule for guarded runs: what every successful step that meets the
condition keeps, every successful run of such steps keeps. -/
theorem AllSteps.invariant {α : Type} {step : σ → α → Except ε σ} {P : σ → α → Prop}
    {I : σ → Prop} (hstep : ∀ s a s', I s → P s a → step s a = .ok s' → I s') {inputs : List α}
    {s s' : σ} (hall : AllSteps step P inputs s) (hs : I s)
    (h : inputs.foldlM step s = .ok s') : I s' := by
  induction inputs generalizing s with
  | nil =>
    obtain rfl := Except.ok.inj h
    exact hs
  | cons a inputs ih =>
    obtain ⟨hfirst, hrest⟩ := allSteps_cons.mp hall
    obtain ⟨middle, hmove, hrun⟩ := foldlM_cons_eq_ok.mp h
    exact ih (hrest middle hmove) (hstep s a middle hs hfirst hmove) hrun

/-- Every run meets the condition that always holds. -/
theorem allSteps_true {α : Type} (step : σ → α → Except ε σ) (inputs : List α) (s : σ) :
    AllSteps step (fun _ _ => True) inputs s := by
  induction inputs generalizing s with
  | nil => trivial
  | cons a inputs ih => exact allSteps_cons.mpr ⟨trivial, fun s' _ => ih s'⟩

/-- The invariant rule for a run over a list of inputs: what every successful step
keeps, every successful run keeps. -/
theorem foldlM_invariant {α : Type} {step : σ → α → Except ε σ} {I : σ → Prop}
    (hstep : ∀ s a s', I s → step s a = .ok s' → I s') {inputs : List α} {s s' : σ} (hs : I s)
    (h : inputs.foldlM step s = .ok s') : I s' :=
  (allSteps_true step inputs s).invariant (fun s a s' hI _ => hstep s a s' hI) hs h

/-- A successful step of a run. -/
structure Step (σ α : Type) where
  before : σ
  input : α
  after : σ

/-- The steps of a run over a list of inputs, up to the first that fails. -/
def steps {α : Type} (step : σ → α → Except ε σ) : List α → σ → List (Step σ α)
  | [], _ => []
  | a :: inputs, s =>
    match step s a with
    | .ok s' => ⟨s, a, s'⟩ :: steps step inputs s'
    | .error _ => []

/-- The total rule with history: when every step succeeds and keeps an invariant of the
steps so far and the state, the run succeeds and keeps it. -/
theorem steps_total {α : Type} {step : σ → α → Except ε σ} {I : List (Step σ α) → σ → Prop}
    (hstep : ∀ history s a, I history s → ∃ s', step s a = .ok s' ∧ I (history ++ [⟨s, a, s'⟩]) s')
    (inputs : List α) {history : List (Step σ α)} {s : σ} (hs : I history s) :
    ∃ s', inputs.foldlM step s = .ok s' ∧ I (history ++ steps step inputs s) s' ∧
      (steps step inputs s).map Step.input = inputs := by
  induction inputs generalizing history s with
  | nil => exact ⟨s, rfl, by rwa [steps, List.append_nil], rfl⟩
  | cons a inputs ih =>
    obtain ⟨middle, hmove, hmiddle⟩ := hstep history s a hs
    obtain ⟨s', hrun, hs', hinputs⟩ := ih hmiddle
    simp only [steps, hmove, List.foldlM_cons]
    refine ⟨s', hrun, ?_, ?_⟩
    · rwa [List.append_cons]
    · rw [List.map_cons, hinputs]

/-- The invariant rule with history for guarded runs: what every successful step that meets
the condition keeps of the steps so far and the state, a run of such steps keeps as far
as it succeeds. -/
theorem AllSteps.steps_invariant {α : Type} {step : σ → α → Except ε σ} {P : σ → α → Prop}
    {I : List (Step σ α) → σ → Prop}
    (hstep : ∀ history s a s', I history s → P s a → step s a = .ok s' →
      I (history ++ [⟨s, a, s'⟩]) s')
    {inputs : List α} {history : List (Step σ α)} {s : σ} (hall : AllSteps step P inputs s)
    (hs : I history s) :
    ∃ s', I (history ++ steps step inputs s) s' ∧ ∀ t, inputs.foldlM step s = .ok t → t = s' := by
  induction inputs generalizing history s with
  | nil =>
    refine ⟨s, by rwa [steps, List.append_nil], ?_⟩
    intro t ht
    exact (Except.ok.inj ht).symm
  | cons a inputs ih =>
    obtain ⟨hfirst, hrest⟩ := allSteps_cons.mp hall
    cases hmove : step s a with
    | error e =>
      refine ⟨s, by rwa [steps, hmove, List.append_nil], ?_⟩
      intro t ht
      obtain ⟨middle, hmove', -⟩ := foldlM_cons_eq_ok.mp ht
      cases hmove.symm.trans hmove'
    | ok middle =>
      obtain ⟨s', hs', hend⟩ := ih (hrest middle hmove) (hstep history s a middle hs hfirst hmove)
      refine ⟨s', ?_, ?_⟩
      · simp only [steps, hmove]
        rwa [List.append_cons]
      · intro t ht
        obtain ⟨middle', hmove', hrun⟩ := foldlM_cons_eq_ok.mp ht
        obtain rfl := Except.ok.inj (hmove.symm.trans hmove')
        exact hend t hrun

/-- The invariant rule with history: what every successful step keeps of the steps so far
and the state, every successful run keeps. -/
theorem steps_invariant {α : Type} {step : σ → α → Except ε σ} {I : List (Step σ α) → σ → Prop}
    (hstep : ∀ history s a s', I history s → step s a = .ok s' → I (history ++ [⟨s, a, s'⟩]) s')
    {inputs : List α} {history : List (Step σ α)} {s s' : σ} (hs : I history s)
    (h : inputs.foldlM step s = .ok s') : I (history ++ steps step inputs s) s' := by
  obtain ⟨t, ht, hend⟩ := (allSteps_true step inputs s).steps_invariant
    (fun history s a s' hI _ => hstep history s a s' hI) hs
  rwa [hend s' h]

/-- A step of a run is its first step, if that succeeds, or a step of the rest. -/
theorem mem_steps_cons {α : Type} {step : σ → α → Except ε σ} {a : α} {inputs : List α} {s : σ}
    {st : Step σ α} : st ∈ steps step (a :: inputs) s ↔
      ∃ s', step s a = .ok s' ∧ (st = ⟨s, a, s'⟩ ∨ st ∈ steps step inputs s') := by
  rw [steps]
  cases step s a with
  | error e => exact iff_of_false List.not_mem_nil fun ⟨_, h, _⟩ => nomatch h
  | ok s' =>
    rw [List.mem_cons]
    constructor
    · intro h
      exact ⟨s', rfl, h⟩
    · rintro ⟨t, ht, h⟩
      obtain rfl := Except.ok.inj ht
      exact h

/-- Every step of a run is one that succeeds. -/
theorem step_of_mem_steps {α : Type} {step : σ → α → Except ε σ} {inputs : List α} {s : σ}
    {st : Step σ α} (h : st ∈ steps step inputs s) : step st.before st.input = .ok st.after := by
  induction inputs generalizing s with
  | nil => cases h
  | cons a inputs ih =>
    obtain ⟨s', hmove, rfl | hrest⟩ := mem_steps_cons.mp h
    · exact hmove
    · exact ih hrest

/-- What every successful step keeps holds before every step of a run. -/
theorem invariant_before {α : Type} {step : σ → α → Except ε σ} {I : σ → Prop}
    (hstep : ∀ s a s', I s → step s a = .ok s' → I s') {inputs : List α} {s : σ} (hs : I s)
    {st : Step σ α} (h : st ∈ steps step inputs s) : I st.before := by
  induction inputs generalizing s with
  | nil => cases h
  | cons a inputs ih =>
    obtain ⟨s', hmove, rfl | hrest⟩ := mem_steps_cons.mp h
    · exact hs
    · exact ih (hstep s a s' hs hmove) hrest

/-- The steps that succeed meet the condition that every step meets. -/
theorem AllSteps.of_mem {α : Type} {step : σ → α → Except ε σ} {P : σ → α → Prop}
    {inputs : List α} {s : σ} (hall : AllSteps step P inputs s) {st : Step σ α}
    (h : st ∈ steps step inputs s) : P st.before st.input := by
  induction inputs generalizing s with
  | nil => cases h
  | cons a inputs ih =>
    obtain ⟨hfirst, hrest⟩ := allSteps_cons.mp hall
    obtain ⟨s', hmove, rfl | hmem⟩ := mem_steps_cons.mp h
    · exact hfirst
    · exact ih (hrest s' hmove) hmem

/-- A run meets a condition at every step when it does so at every step that succeeds, and
no other step can violate it. -/
theorem allSteps_of_mem {α : Type} {step : σ → α → Except ε σ} {P : σ → α → Prop}
    (hok : ∀ s a, ¬P s a → ∃ s', step s a = .ok s') {inputs : List α} {s : σ}
    (h : ∀ st ∈ steps step inputs s, P st.before st.input) : AllSteps step P inputs s := by
  induction inputs generalizing s with
  | nil => trivial
  | cons a inputs ih =>
    refine allSteps_cons.mpr ⟨?_, ?_⟩
    · by_contra hnot
      obtain ⟨s', hmove⟩ := hok s a hnot
      exact hnot (h ⟨s, a, s'⟩ (mem_steps_cons.mpr ⟨s', hmove, Or.inl rfl⟩))
    · intro s' hmove
      apply ih
      intro st hst
      exact h st (mem_steps_cons.mpr ⟨s', hmove, Or.inr hst⟩)

/-- A successful run has one step for each input. -/
theorem steps_input {α : Type} {step : σ → α → Except ε σ} {inputs : List α} {s s' : σ}
    (h : inputs.foldlM step s = .ok s') : (steps step inputs s).map Step.input = inputs := by
  induction inputs generalizing s with
  | nil => rfl
  | cons a inputs ih =>
    obtain ⟨middle, hmove, hrun⟩ := foldlM_cons_eq_ok.mp h
    simp only [steps, hmove, List.map_cons, ih hrun]

/-- A step of a successful run starts from the state that the inputs before it lead to. -/
theorem steps_before {α : Type} {step : σ → α → Except ε σ} {inputs : List α} {s s' : σ}
    (h : inputs.foldlM step s = .ok s') {k : ℕ} (hk : k < inputs.length) :
    ∃ before after, (inputs.take k).foldlM step s = .ok before ∧
      (steps step inputs s)[k]? = some ⟨before, inputs[k], after⟩ := by
  induction inputs generalizing s k with
  | nil => exact absurd hk (Nat.not_lt_zero k)
  | cons a inputs ih =>
    obtain ⟨middle, hmove, hrest⟩ := foldlM_cons_eq_ok.mp h
    cases k with
    | zero => exact ⟨s, middle, rfl, by simp only [steps, hmove]; rfl⟩
    | succ k =>
      obtain ⟨before, after, hrun, hstep⟩ := ih hrest (Nat.lt_of_succ_lt_succ hk)
      refine ⟨before, after, ?_, ?_⟩
      · rw [List.take_succ_cons, foldlM_cons_eq_ok]
        exact ⟨middle, hmove, hrun⟩
      · simp only [steps, hmove, List.getElem?_cons_succ, hstep, List.getElem_cons_succ]

/-- The total rule for a run over a list of inputs: when every step succeeds and keeps
the invariant, the run succeeds and keeps it. -/
theorem foldlM_total {α : Type} {step : σ → α → Except ε σ} {I : σ → Prop}
    (hstep : ∀ s a, I s → ∃ s', step s a = .ok s' ∧ I s') (inputs : List α) {s : σ} (hs : I s) :
    ∃ s', inputs.foldlM step s = .ok s' ∧ I s' := by
  obtain ⟨s', hrun, hs', -⟩ :=
    @steps_total _ _ α step (fun _ => I) (fun _ s a hs => hstep s a hs) inputs [] s hs
  exact ⟨s', hrun, hs'⟩

/-- Filling an array entry by entry succeeds when every entry does. -/
theorem mOfFn_eq_ok {α : Type} {n : ℕ} {f : Fin n → Except ε α} {v : List.Vector α n} :
    List.Vector.mOfFn f = .ok v ↔ ∀ i, f i = .ok (v.get i) := by
  induction n with
  | zero =>
    have hnil : List.Vector.mOfFn f = .ok .nil := rfl
    rw [hnil, List.Vector.eq_nil v]
    exact iff_of_true rfl fun i => i.elim0
  | succ n ih =>
    have htail := ih (f := fun i => f i.succ) (v := v.tail)
    simp only [List.Vector.get_tail_succ] at htail
    rw [Fin.forall_fin_succ, ← htail, List.Vector.get_zero, List.Vector.mOfFn]
    cases f 0 with
    | error e => exact iff_of_false (fun h => nomatch h) fun h => nomatch h.1
    | ok a =>
      cases List.Vector.mOfFn fun i => f i.succ with
      | error e => exact iff_of_false (fun h => nomatch h) fun h => nomatch h.2
      | ok w =>
        simp only [Bind.bind, Except.bind, Pure.pure, Except.pure, Except.ok.injEq]
        rw [eq_comm, List.Vector.eq_cons_iff]
        exact and_congr eq_comm eq_comm

end Loop
