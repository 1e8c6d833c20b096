import Mathlib.Logic.Function.Basic
import Mathlib.Data.List.Basic

/-!
# Parallel moves, one after the other

A list of moves, each from a place to another, is carried out in order. Where
no move overwrites what a later one reads or has been written before, each
destination ends up with what was at its source at the start, and everything
else stays (`moves_of_mem`, `moves_of_notMem`).
-/

namespace Framework

variable {κ β : Type*} [DecidableEq κ] {f : β → β} {t : κ → β} {l : List (κ × κ)} {k source target : κ}

/-- Each move puts what is at its source, by way of `f`, at its target. -/
def moves (f : β → β) (t : κ → β) (l : List (κ × κ)) : κ → β :=
  l.foldl (fun t m => Function.update t m.2 (f (t m.1))) t

/-- No move overwrites the source or the target of a later one. -/
def Orderly (l : List (κ × κ)) : Prop := l.Pairwise fun m m' => m.2 ≠ m'.1 ∧ m.2 ≠ m'.2

theorem moves_cons {m : κ × κ} : moves f t (m :: l) = moves f (Function.update t m.2 (f (t m.1))) l := rfl

theorem moves_of_notMem (h : k ∉ l.map (·.2)) : moves f t l k = t k := by
  induction l generalizing t with
  | nil => rfl
  | cons m l ih =>
    rw [List.map_cons, List.mem_cons, not_or] at h
    rw [moves_cons, ih h.2, Function.update_of_ne h.1]

/-- In an orderly list of moves, each moves what was there at first. -/
theorem moves_of_mem (h : Orderly l) (hm : (source, target) ∈ l) : moves f t l target = f (t source) := by
  induction l generalizing t with
  | nil => exact absurd hm List.not_mem_nil
  | cons m l ih =>
    obtain ⟨hm', hl⟩ := List.pairwise_cons.mp h
    rw [moves_cons]
    rcases List.mem_cons.mp hm with rfl | hm
    · have hlater : target ∉ l.map (·.2) := by
        intro hmem
        obtain ⟨m', hm'', rfl⟩ := List.mem_map.mp hmem
        exact (hm' m' hm'').2 rfl
      rw [moves_of_notMem hlater, Function.update_self]
    · -- what the first move overwrites is not the source of this one
      rw [ih hl hm, Function.update_of_ne (hm' _ hm).1.symm]

end Framework
