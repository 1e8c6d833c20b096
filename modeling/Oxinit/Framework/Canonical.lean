import Mathlib.Data.List.Destutter
import Mathlib.Data.List.Sort

/-!
# Sets as increasing lists

A list that is sorted and then rid of repetitions has its elements once each, in
increasing order, and is the only such list (`canonical_eq_iff`).
-/

namespace Framework

variable {α : Type*} [LinearOrder α] {a : α} {l l' : List α}

/-- Sorted, without repetitions. -/
def canonical (l : List α) : List α := (l.insertionSort (· ≤ ·)).destutter (· ≠ ·)

theorem mem_destutter' {b : α} : a ∈ l.destutter' (· ≠ ·) b ↔ a = b ∨ a ∈ l := by
  induction l generalizing b with
  | nil => simp
  | cons c l ih =>
    rw [List.destutter'_cons, List.mem_cons]
    split
    · rw [List.mem_cons, ih]
    · rename_i h
      rw [ih, not_not.mp h]
      tauto

@[simp] theorem mem_canonical : a ∈ canonical l ↔ a ∈ l := by
  rw [← List.mem_insertionSort (· ≤ ·) (l := l), canonical]
  cases l.insertionSort (· ≤ ·) with
  | nil => rfl
  | cons b l => rw [List.destutter_cons', mem_destutter', List.mem_cons]

/-- The result is in order, and without repetitions. -/
theorem pairwise_canonical (l : List α) : (canonical l).Pairwise (· < ·) := by
  have hle : (canonical l).Pairwise (· ≤ ·) :=
    (List.pairwise_insertionSort (· ≤ ·) l).sublist (List.destutter_sublist _ _)
  have hne : (canonical l).IsChain (· ≠ ·) := List.isChain_destutter _ _
  refine List.isChain_iff_pairwise.mp (List.isChain_iff_getElem.mpr fun i hi => ?_)
  exact lt_of_le_of_ne (List.isChain_iff_getElem.mp hle.isChain i hi) (List.isChain_iff_getElem.mp hne i hi)

/-- An increasing list is known by its elements. -/
theorem canonical_eq_iff : canonical l = l' ↔ l'.Pairwise (· < ·) ∧ ∀ a, a ∈ l' ↔ a ∈ l := by
  constructor
  · rintro rfl
    exact ⟨pairwise_canonical l, fun _ => mem_canonical⟩
  · rintro ⟨hl', h⟩
    exact (pairwise_canonical l).eq_of_mem_iff hl' fun a => mem_canonical.trans (h a).symm

end Framework
