import TrexPow.Lib.Loop

/-!
# Event logs

A component deposits events as it runs. Where every step changes a part of the state as its
new events say, that part is the replay of the log after every run.
-/

namespace EventLog

variable {σ ε ν α δ : Type}

/-- The later state has deposited further events, and its part is their replay. -/
def Replays (events : σ → List ε) (part : σ → ν) (apply : ν → ε → ν) (s s' : σ) : Prop :=
  ∃ new, events s' = events s ++ new ∧ part s' = new.foldl apply (part s)

variable {events : σ → List ε} {part : σ → ν} {apply : ν → ε → ν}

/-- Nothing has happened. -/
theorem Replays.refl (s : σ) : Replays events part apply s s := ⟨[], by simp, rfl⟩

theorem Replays.trans {s t u : σ} (h : Replays events part apply s t)
    (h' : Replays events part apply t u) : Replays events part apply s u := by
  obtain ⟨new, hevents, hpart⟩ := h
  obtain ⟨new', hevents', hpart'⟩ := h'
  refine ⟨new ++ new', ?_, ?_⟩
  · rw [hevents', hevents, List.append_assoc]
  · rw [hpart', hpart, List.foldl_append]

/-- If every step replays its events, every run does. -/
theorem Replays.run {step : σ → α → Except δ σ}
    (hstep : ∀ s a s', step s a = .ok s' → Replays events part apply s s') {inputs : List α}
    {s s' : σ} (hrun : inputs.foldlM step s = .ok s') : Replays events part apply s s' :=
  Loop.foldlM_invariant (I := Replays events part apply s)
    (fun t a t' ht h => ht.trans (hstep t a t' h)) (Replays.refl s) hrun

/-- The same for steps that always succeed. -/
theorem Replays.foldl {step : σ → α → σ} (hstep : ∀ s a, Replays events part apply s (step s a))
    (inputs : List α) (s : σ) : Replays events part apply s (inputs.foldl step s) := by
  induction inputs generalizing s with
  | nil => exact .refl s
  | cons a inputs ih => exact (hstep s a).trans (ih (step s a))

/-- From a state without events, the part is the replay of the whole log. -/
theorem Replays.part_eq {s s' : σ} (h : Replays events part apply s s') (hstart : events s = []) :
    part s' = (events s').foldl apply (part s) := by
  obtain ⟨new, hevents, hpart⟩ := h
  rw [hpart, hevents, hstart, List.nil_append]

/-- The replay of a value that events set: the last one counts. -/
def keepLast (value : ε → Option ν) (old : Option ν) (event : ε) : Option ν := (value event).or old

theorem foldl_keepLast (value : ε → Option ν) (old : Option ν) (log : List ε) :
    log.foldl (keepLast value) old = (log.filterMap value).getLast?.or old := by
  induction log generalizing old with
  | nil => rfl
  | cons event log ih =>
    rw [List.foldl_cons, ih, keepLast]
    cases hvalue : value event with
    | none => rw [List.filterMap_cons_none hvalue, Option.none_or]
    | some v =>
      rw [List.filterMap_cons_some hvalue, List.getLast?_cons, Option.some_or]
      cases (log.filterMap value).getLast? <;> rfl

end EventLog
