import Mathlib.Algebra.BigOperators.Group.List.Basic
import Mathlib.Algebra.GroupWithZero.Nat
import Mathlib.Data.List.Induction

/-!
# A bounded log in generations

A sequence of items is kept in chunks, the newest chunk first and each chunk
in the order in which its items came. An item goes into the newest chunk if it
still fits there, else it starts a chunk of its own, and the chunks beyond the
first `keep` older ones are dropped. What is kept is the end of the sequence.
-/

namespace Framework.Generations

variable {α : Type*} {weight : α → Nat} {bound keep : Nat}

def size (weight : α → Nat) (chunk : List α) : Nat := (chunk.map weight).sum

theorem size_append_singleton {chunk : List α} {a : α} :
    size weight (chunk ++ [a]) = size weight chunk + weight a := by
  simp [size]

/-- One more item. -/
def push (weight : α → Nat) (bound keep : Nat) (gens : List (List α)) (a : α) : List (List α) :=
  match gens with
  | [] => [[a]]
  | live :: older =>
    if size weight live + weight a ≤ bound then (live ++ [a]) :: older else [a] :: (live :: older).take keep

/-- What is kept, oldest first. -/
def held (gens : List (List α)) : List α := gens.reverse.flatten

@[simp] theorem held_cons {chunk : List α} {gens : List (List α)} : held (chunk :: gens) = held gens ++ chunk := by
  simp [held]

/-- To drop the oldest generations is to drop the oldest items. -/
theorem held_take (gens : List (List α)) (n : Nat) : held (gens.take n) <:+ held gens := by
  refine ⟨held (gens.drop n), ?_⟩
  unfold held
  rw [← List.flatten_append, ← List.reverse_append, List.take_append_drop]

/-- The chunks hold the end of a sequence. -/
structure Keeps (weight : α → Nat) (bound keep : Nat) (gens : List (List α)) (items : List α) : Prop where
  suffix : held gens <:+ items
  last : items ≠ [] → held gens ≠ []
  ne_nil : ∀ chunk ∈ gens, chunk ≠ []
  bounded : ∀ chunk ∈ gens, size weight chunk ≤ bound ∨ chunk.length = 1
  length : gens.length ≤ keep + 1

theorem Keeps.nil : Keeps weight bound keep [] ([] : List α) where
  suffix := List.suffix_rfl
  last h := absurd rfl h
  ne_nil _ h := absurd h List.not_mem_nil
  bounded _ h := absurd h List.not_mem_nil
  length := Nat.zero_le _

theorem Keeps.push {gens : List (List α)} {items : List α} (h : Keeps weight bound keep gens items) (a : α) :
    Keeps weight bound keep (push weight bound keep gens a) (items ++ [a]) := by
  cases gens with
  | nil =>
    refine ⟨List.suffix_append items [a], fun _ => by simp [Generations.push, held], ?_, ?_, ?_⟩
    · simp [Generations.push]
    · simp [Generations.push]
    · simp [Generations.push]
  | cons live older =>
    unfold Generations.push
    dsimp only
    split
    · -- it fits
      rename_i hfit
      refine ⟨?_, fun _ => by simp, ?_, ?_, h.length⟩
      · rw [held_cons, ← List.append_assoc, ← held_cons]
        exact List.suffix_append_self_iff.mpr h.suffix
      · rintro chunk (_ | ⟨_, hc⟩)
        · simp
        · exact h.ne_nil chunk (List.mem_cons_of_mem _ hc)
      · rintro chunk (_ | ⟨_, hc⟩)
        · exact .inl (by rwa [size_append_singleton])
        · exact h.bounded chunk (List.mem_cons_of_mem _ hc)
    · -- it starts a chunk
      refine ⟨?_, fun _ => by simp, ?_, ?_, ?_⟩
      · rw [held_cons]
        exact List.suffix_append_self_iff.mpr ((held_take _ _).trans h.suffix)
      · rintro chunk (_ | ⟨_, hc⟩)
        · simp
        · exact h.ne_nil chunk (List.mem_of_mem_take hc)
      · rintro chunk (_ | ⟨_, hc⟩)
        · exact .inr rfl
        · exact h.bounded chunk (List.mem_of_mem_take hc)
      · simp only [List.length_cons, List.length_take]
        omega

/-- Every sequence of items is kept so. -/
theorem keeps_foldl (weight : α → Nat) (bound keep : Nat) (items : List α) :
    Keeps weight bound keep (items.foldl (push weight bound keep) []) items := by
  induction items using List.reverseRecOn with
  | nil => exact .nil
  | append_singleton items a ih =>
    rw [List.foldl_append]
    exact ih.push a

/-- What is kept is all but the first so many, and never without the last. -/
theorem Keeps.exists_drop {gens : List (List α)} {items : List α} (h : Keeps weight bound keep gens items) :
    ∃ n, held gens = items.drop n ∧ (items ≠ [] → n < items.length) := by
  refine ⟨items.length - (held gens).length, List.suffix_iff_eq_drop.mp h.suffix, fun hne => ?_⟩
  have := List.length_pos_iff.mpr hne
  have := List.length_pos_iff.mpr (h.last hne)
  omega

end Framework.Generations
