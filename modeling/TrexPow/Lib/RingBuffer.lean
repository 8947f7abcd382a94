import Mathlib.Data.Vector.Basic

/-!
# Ring buffers

A ring of `n` slots records a growing list of entries, each in the slot that its
position leaves modulo `n`. A slot then holds the latest entry that falls on it. After
at least `n` entries the ring holds the last `n` of them, split at the next slot to be
written: the slots before it hold the newest entries and the others the oldest.
-/

namespace RingBuffer

variable {α : Type} {n : ℕ}

/-- The latest of the first `length` positions that fall on the slot. -/
structure Latest (n length slot k : ℕ) : Prop where
  lt : k < length
  falls : k % n = slot
  latest : ∀ j < length, j % n = slot → j ≤ k

/-- Every slot holds the latest entry that falls on it, if there is one. -/
structure Holds (slots : List.Vector (Option α) n) (entries : List α) : Prop where
  filled : ∀ (i : Fin n) (k : ℕ), Latest n entries.length i k → slots.get i = entries[k]?
  empty : ∀ i : Fin n, (∀ k < entries.length, k % n ≠ i) → slots.get i = none

/-- The entries have been written over old contents: every slot holds the latest entry
that falls on it, and what it held before if there is none. -/
structure Overwrites (old slots : List.Vector (Option α) n) (entries : List α) : Prop where
  filled : ∀ (i : Fin n) (k : ℕ), Latest n entries.length i k → slots.get i = entries[k]?
  kept : ∀ i : Fin n, (∀ k < entries.length, k % n ≠ i) → slots.get i = old.get i

/-- A ring that was empty holds what has been written. -/
theorem holds_iff {slots : List.Vector (Option α) n} {entries : List α} :
    Holds slots entries ↔ Overwrites (List.Vector.replicate n none) slots entries := by
  constructor
  · rintro ⟨hfilled, hempty⟩
    refine ⟨hfilled, ?_⟩
    intro i hnone
    rw [hempty i hnone, List.Vector.get_replicate]
  · rintro ⟨hfilled, hkept⟩
    refine ⟨hfilled, ?_⟩
    intro i hnone
    rw [hkept i hnone, List.Vector.get_replicate]

/-- Nothing has been written yet. -/
theorem overwrites_nil (old : List.Vector (Option α) n) : Overwrites old old [] := by
  constructor
  · intro i k hlatest
    exact absurd hlatest.lt (Nat.not_lt_zero k)
  · intro i _
    rfl

/-- Writing the next entry into its slot keeps the correspondence. -/
theorem Overwrites.write {old slots : List.Vector (Option α) n} {entries : List α}
    (h : Overwrites old slots entries) {i : Fin n} (hi : entries.length % n = i) (x : α) :
    Overwrites old (slots.set i (some x)) (entries ++ [x]) := by
  have hlength : (entries ++ [x]).length = entries.length + 1 := by simp
  constructor
  · intro j k hlatest
    rw [hlength] at hlatest
    by_cases hij : i = j
    · subst hij
      -- the new entry is the latest one on its slot
      have hk : k = entries.length := by
        have hle := hlatest.latest entries.length (by omega) hi
        have hlt := hlatest.lt
        omega
      rw [List.Vector.get_set_same, hk]
      simp
    · have hk : k ≠ entries.length := by
        rintro rfl
        exact hij (Fin.ext (hi.symm.trans hlatest.falls))
      have hlt : k < entries.length := by
        have hlt := hlatest.lt
        omega
      rw [List.Vector.get_set_of_ne hij, List.getElem?_append_left hlt]
      apply h.filled j k
      refine ⟨hlt, hlatest.falls, ?_⟩
      intro l hl hslot
      exact hlatest.latest l (by omega) hslot
  · intro j hnone
    rw [hlength] at hnone
    have hij : i ≠ j := by
      rintro rfl
      exact hnone entries.length (by omega) hi
    rw [List.Vector.get_set_of_ne hij]
    apply h.kept j
    intro k hk
    exact hnone k (by omega)

/-- Empty slots hold the empty list. -/
theorem holds_nil : Holds (List.Vector.replicate n (none : Option α)) [] :=
  holds_iff.mpr (overwrites_nil _)

/-- Writing the next entry into its slot keeps the correspondence of a ring that was empty. -/
theorem Holds.write {slots : List.Vector (Option α) n} {entries : List α}
    (h : Holds slots entries) {i : Fin n} (hi : entries.length % n = i) (x : α) :
    Holds (slots.set i (some x)) (entries ++ [x]) :=
  holds_iff.mpr ((holds_iff.mp h).write hi x)

/-- The latest position on a slot before the next one to be written lies in the round
that is not complete. -/
theorem latest_of_lt {q p i : ℕ} (hi : i < p) (hp : p < n) :
    Latest n (n * q + p) i (n * q + i) := by
  refine ⟨by omega, ?_, ?_⟩
  · rw [Nat.mul_add_mod, Nat.mod_eq_of_lt (by omega)]
  · intro j hj hslot
    have hround : j / n < q + 1 := by
      apply Nat.div_lt_of_lt_mul
      rw [Nat.mul_add, Nat.mul_one]
      omega
    have hle : n * (j / n) ≤ n * q := Nat.mul_le_mul_left n (by omega)
    have hsplit := Nat.div_add_mod j n
    omega

/-- The latest position on another slot lies in the last complete round. -/
theorem latest_of_le {q p i : ℕ} (hi : p ≤ i) (hn : i < n) :
    Latest n (n * (q + 1) + p) i (n * q + i) := by
  have hnext : n * (q + 1) = n * q + n := Nat.mul_succ n q
  refine ⟨by omega, ?_, ?_⟩
  · rw [Nat.mul_add_mod, Nat.mod_eq_of_lt hn]
  · intro j hj hslot
    have hsplit := Nat.div_add_mod j n
    have hround : j / n < q + 1 := by
      by_contra hlate
      have hle : n * (q + 1) ≤ n * (j / n) := Nat.mul_le_mul_left n (by omega)
      omega
    have hle : n * (j / n) ≤ n * q := Nat.mul_le_mul_left n (by omega)
    omega

/-- Once every slot has been written, the slots before the next one to be written hold the
newest entries and the others the oldest of the last `n`. -/
theorem Overwrites.toList_eq {old slots : List.Vector (Option α) n} {entries : List α}
    (h : Overwrites old slots entries) {q p : ℕ} (hp : p < n)
    (hlength : entries.length = n * (q + 1) + p) :
    slots.toList = (entries.drop (n * (q + 1)) ++
      (entries.drop (n * q + p)).take (n - p)).map some := by
  have hnext : n * (q + 1) = n * q + n := Nat.mul_succ n q
  apply List.ext_getElem
  · simp only [List.Vector.toList_length, List.length_map, List.length_append, List.length_drop,
      List.length_take]
    omega
  · intro i hi _
    rw [List.Vector.toList_length] at hi
    change slots.get ⟨i, hi⟩ = _
    rw [List.getElem_map]
    by_cases hip : i < p
    · have hfilled := h.filled ⟨i, hi⟩ _ (hlength ▸ latest_of_lt (q := q + 1) hip hp)
      have hlt : n * (q + 1) + i < entries.length := by omega
      rw [hfilled, List.getElem?_eq_getElem hlt, List.getElem_append_left, List.getElem_drop]
      rw [List.length_drop]
      omega
    · have hfilled := h.filled ⟨i, hi⟩ _ (hlength ▸ latest_of_le (q := q) (not_lt.mp hip) hi)
      have hlt : n * q + i < entries.length := by omega
      have hdrop : (entries.drop (n * (q + 1))).length = p := by
        rw [List.length_drop]
        omega
      rw [hfilled, List.getElem?_eq_getElem hlt, List.getElem_append_right (by omega),
        List.getElem_take, List.getElem_drop]
      congr 2
      omega

/-- After whole rounds the ring holds the last round in order. -/
theorem Overwrites.toList_of_rounds {old slots : List.Vector (Option α) n} {entries : List α}
    (h : Overwrites old slots entries) {m : ℕ} (hrounds : entries.length = n * m + n) :
    slots.toList = (entries.drop (n * m)).map some := by
  rcases Nat.eq_zero_or_pos n with rfl | hn
  · have hnil : entries = [] := List.eq_nil_of_length_eq_zero (by omega)
    rw [hnil, List.drop_nil, List.map_nil, ← List.length_eq_zero_iff, List.Vector.toList_length]
  · have hnext : n * (m + 1) = n * m + n := Nat.mul_succ n m
    have hsplit := h.toList_eq hn (by omega : entries.length = n * (m + 1) + 0)
    have hall : (entries.drop (n * m)).length = n := by
      rw [List.length_drop]
      omega
    rw [hsplit, List.drop_eq_nil_of_le (by omega), List.nil_append, Nat.add_zero, Nat.sub_zero,
      List.take_of_length_le hall.le]

/-- After whole rounds a ring that was empty holds the last round in order. -/
theorem Holds.toList_eq {slots : List.Vector (Option α) n} {entries : List α}
    (h : Holds slots entries) {m : ℕ} (hrounds : entries.length = n * m + n) :
    slots.toList = (entries.drop (n * m)).map some :=
  (holds_iff.mp h).toList_of_rounds hrounds

end RingBuffer
