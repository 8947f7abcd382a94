import Mathlib.Data.Vector.Basic
import Mathlib.Order.Compare

/-!
# Timetables

A timetable is an ordered map from times to values. It is built from a list of
changes in any order, where a later change replaces an earlier one of the same
time. Replaying a timetable up to some time runs through the entries that are due
in ascending order, so the last of them decides.
-/

namespace Timetable

open Std (TreeMap)

variable {α β : Type} [LinearOrder α]

/-- The last change given for a time. -/
def LastGiven (changes : List (α × β)) (time : α) (value : β) : Prop :=
  ∃ earlier later, changes = earlier ++ (time, value) :: later ∧
    ∀ entry ∈ later, entry.1 ≠ time

/-- A timetable holds for each time the last change given for it. -/
theorem getElem?_ofList_eq_some {changes : List (α × β)} {time : α} {value : β} :
    (TreeMap.ofList changes compare)[time]? = some value ↔ LastGiven changes time value := by
  rw [TreeMap.ofList_eq_insertMany_empty, TreeMap.getElem?_insertMany_list,
    TreeMap.getElem?_emptyc, Option.or_none, List.findSomeRev?_eq_findSome?_reverse,
    List.findSome?_eq_some_iff]
  simp only [compare_eq_iff_eq, Option.ite_none_right_eq_some, Option.some.injEq,
    ite_eq_right_iff, reduceCtorEq, imp_false]
  constructor
  · rintro ⟨later, ⟨_, _⟩, earlier, hreverse, ⟨rfl, rfl⟩, hlater⟩
    refine ⟨earlier.reverse, later.reverse, ?_, ?_⟩
    · have h := congrArg List.reverse hreverse
      simpa using h
    · intro entry hentry
      exact hlater entry (List.mem_reverse.mp hentry)
  · rintro ⟨earlier, later, rfl, hlater⟩
    refine ⟨later.reverse, (time, value), earlier.reverse, by simp, ⟨rfl, rfl⟩, ?_⟩
    intro entry hentry
    exact hlater entry (List.mem_reverse.mp hentry)

/-- A timetable has an entry for a time when a change was given for it. -/
theorem mem_ofList_iff {changes : List (α × β)} {time : α} :
    time ∈ TreeMap.ofList changes compare ↔ ∃ value, LastGiven changes time value := by
  rw [TreeMap.mem_iff_isSome_getElem?, Option.isSome_iff_exists]
  simp only [getElem?_ofList_eq_some]

variable (table : TreeMap α β) (now : α)

/-- The entries that are due, in ascending order. -/
def due : List (α × β) := table.toList.filter fun entry => entry.1 ≤ now

variable {table now}

@[simp] theorem mem_due {time : α} {value : β} :
    (time, value) ∈ due table now ↔ table[time]? = some value ∧ time ≤ now := by
  simp [due]

theorem due_pairwise (table : TreeMap α β) (now : α) :
    (due table now).Pairwise fun a b => a.1 < b.1 := by
  have hordered := TreeMap.ordered_keys_toList (t := table)
  simp only [compare_lt_iff_lt] at hordered
  exact hordered.filter _

/-- Nothing is due before the first time of the table. -/
theorem due_eq_nil_iff : due table now = [] ↔ ∀ time ∈ table, now < time := by
  constructor
  · intro hnil time htime
    by_contra hle
    have hmem : (time, table[time]) ∈ due table now :=
      mem_due.mpr ⟨TreeMap.getElem?_eq_some_getElem htime, not_lt.mp hle⟩
    rw [hnil] at hmem
    exact absurd hmem List.not_mem_nil
  · intro hlater
    apply List.eq_nil_iff_forall_not_mem.mpr
    rintro ⟨time, value⟩ hmem
    obtain ⟨hentry, hle⟩ := mem_due.mp hmem
    have htime : time ∈ table := TreeMap.mem_iff_isSome_getElem?.mpr (by rw [hentry]; rfl)
    exact absurd hle (not_le.mpr (hlater time htime))

/-- The latest entry that is due comes last. -/
theorem getLast?_due {time : α} {value : β} (hentry : table[time]? = some value)
    (hdue : time ≤ now) (hlatest : ∀ other ∈ table, other ≤ now → other ≤ time) :
    (due table now).getLast? = some (time, value) := by
  have hmem : (time, value) ∈ due table now := mem_due.mpr ⟨hentry, hdue⟩
  obtain ⟨earlier, later, hsplit⟩ := List.append_of_mem hmem
  cases later with
  | nil => rw [hsplit, List.getLast?_append_cons, List.getLast?_singleton]
  | cons next later =>
    -- an entry behind it would be due and later
    have hpairwise := due_pairwise table now
    rw [hsplit] at hpairwise
    have hlt : time < next.1 :=
      (List.pairwise_cons.mp (List.pairwise_append.mp hpairwise).2.1).1 next List.mem_cons_self
    have hnext : next ∈ due table now := by
      rw [hsplit]
      simp
    obtain ⟨hother, hle⟩ := mem_due.mp (show (next.1, next.2) ∈ due table now from hnext)
    have hkey : next.1 ∈ table := TreeMap.mem_iff_isSome_getElem?.mpr (by rw [hother]; rfl)
    exact absurd (hlatest next.1 hkey hle) (not_le.mpr hlt)

end Timetable
