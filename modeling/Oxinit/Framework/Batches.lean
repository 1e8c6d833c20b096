import Mathlib.Data.List.Basic

/-!
# A queue that is read in batches

What arrives joins the end of a queue. A read takes from the front of it, until
the queue is empty or an item stops the read, which is taken too. However
arrivals and reads interleave, nothing is lost, taken twice or taken out of turn
(`batches_flatten`), and it takes no more reads after an item has joined than
there are items ahead of it that stop one, and another (`prefix_taken`).
-/

namespace Framework.Batches

variable {α : Type*} (stops : α → Bool)

/-- What one read takes, and what it leaves. -/
def batch : List α → List α × List α
  | [] => ([], [])
  | x :: xs => if stops x then ([x], xs) else (x :: (batch xs).1, (batch xs).2)

inductive Step (α : Type*)
  | arrive (x : α)
  | read

/-- What has arrived. -/
def arrived : List (Step α) → List α := List.filterMap fun
  | .arrive x => some x
  | .read => none

/-- How many reads there are. -/
def reads : List (Step α) → Nat
  | [] => 0
  | .arrive _ :: steps => reads steps
  | .read :: steps => reads steps + 1

/-- What each read takes from a queue, and what is left in the end. -/
def batches (queue : List α) : List (Step α) → List (List α) × List α
  | [] => ([], queue)
  | .arrive x :: steps => batches (queue ++ [x]) steps
  | .read :: steps =>
    ((batch stops queue).1 :: (batches (batch stops queue).2 steps).1, (batches (batch stops queue).2 steps).2)

variable {stops} {queue : List α} {x : α}

theorem batch_cons_of_stops (h : stops x = true) (xs : List α) : batch stops (x :: xs) = ([x], xs) := if_pos h

theorem batch_cons (h : stops x = false) (xs : List α) :
    batch stops (x :: xs) = (x :: (batch stops xs).1, (batch stops xs).2) := if_neg (by simp [h])

/-- A batch and what it leaves are the queue. -/
theorem batch_append (queue : List α) : (batch stops queue).1 ++ (batch stops queue).2 = queue := by
  induction queue with
  | nil => rfl
  | cons x xs ih =>
    cases h : stops x
    · rw [batch_cons h, List.cons_append, ih]
    · rw [batch_cons_of_stops h, List.singleton_append]

/-- A read that is stopped does not see what is behind. -/
theorem batch_of_any (h : queue.any stops = true) (more : List α) :
    batch stops (queue ++ more) = ((batch stops queue).1, (batch stops queue).2 ++ more) := by
  induction queue with
  | nil => cases h
  | cons x xs ih =>
    rw [List.cons_append]
    cases hx : stops x
    · rw [List.any_cons, hx, Bool.false_or] at h
      rw [batch_cons hx, batch_cons hx, ih h]
    · rw [batch_cons_of_stops hx, batch_cons_of_stops hx]

theorem batch_of_none (h : queue.any stops = false) (more : List α) :
    batch stops (queue ++ more) = (queue ++ (batch stops more).1, (batch stops more).2) := by
  induction queue with
  | nil => rfl
  | cons x xs ih =>
    obtain ⟨hx, hxs⟩ := Bool.or_eq_false_iff.mp h
    rw [List.cons_append, batch_cons hx, ih hxs, List.cons_append]

/-- A read that is stopped leaves one item less that would stop it. -/
theorem countP_batch (h : queue.any stops = true) : (batch stops queue).2.countP stops + 1 = queue.countP stops := by
  induction queue with
  | nil => cases h
  | cons x xs ih =>
    cases hx : stops x
    · rw [List.any_cons, hx, Bool.false_or] at h
      rw [batch_cons hx, List.countP_cons_of_neg (by simp [hx]), ih h]
    · rw [batch_cons_of_stops hx, List.countP_cons_of_pos hx]

/-- What has arrived has been taken, in order, or waits. -/
theorem batches_flatten (queue : List α) (steps : List (Step α)) :
    (batches stops queue steps).1.flatten ++ (batches stops queue steps).2 = queue ++ arrived steps := by
  induction steps generalizing queue with
  | nil => simp [batches, arrived]
  | cons step steps ih =>
    cases step with
    | arrive x =>
      show (batches stops (queue ++ [x]) steps).1.flatten ++ (batches stops (queue ++ [x]) steps).2 =
        queue ++ x :: arrived steps
      rw [ih, List.append_assoc, List.singleton_append]
    | read =>
      show ((batch stops queue).1 ++ (batches stops (batch stops queue).2 steps).1.flatten) ++
        (batches stops (batch stops queue).2 steps).2 = queue ++ arrived steps
      rw [List.append_assoc, ih, ← List.append_assoc, batch_append]

/-- An item waits for a read for each item ahead of it that stops one, and another. -/
theorem prefix_batches {ahead behind : List α} {steps : List (Step α)} (h : ahead.countP stops < reads steps) :
    ahead ++ [x] <+: (batches stops (ahead ++ x :: behind) steps).1.flatten := by
  induction steps generalizing ahead behind with
  | nil => exact absurd h (Nat.not_lt_zero _)
  | cons step steps ih =>
    cases step with
    | arrive y =>
      have harrived : ahead ++ [x] <+: (batches stops (ahead ++ x :: (behind ++ [y])) steps).1.flatten := ih h
      rwa [← List.cons_append, ← List.append_assoc] at harrived
    | read =>
      show ahead ++ [x] <+: (batch stops (ahead ++ x :: behind)).1 ++
        (batches stops (batch stops (ahead ++ x :: behind)).2 steps).1.flatten
      cases hs : ahead.any stops
      · rw [batch_of_none hs, List.append_assoc]
        refine (List.prefix_append_right_inj ahead).mpr ?_
        have hx : [x] <+: (batch stops (x :: behind)).1 := by
          cases hx : stops x
          · exact ⟨(batch stops behind).1, (congrArg Prod.fst (batch_cons hx behind)).symm⟩
          · exact ⟨[], (congrArg Prod.fst (batch_cons_of_stops hx behind)).symm⟩
        exact hx.trans (List.prefix_append ..)
      · -- this read is stopped ahead of `x`, and the rest of them are one fewer
        have hcount := countP_batch hs
        have hrest : (batch stops ahead).2 ++ [x] <+:
            (batches stops ((batch stops ahead).2 ++ x :: behind) steps).1.flatten :=
          ih (by rw [reads] at h; omega)
        have htaken : ahead ++ [x] = (batch stops ahead).1 ++ ((batch stops ahead).2 ++ [x]) := by
          rw [← List.append_assoc, batch_append]
        rw [batch_of_any hs, htaken]
        exact (List.prefix_append_right_inj _).mpr hrest

/-- The batches of two runs of steps, one after the other. -/
theorem batches_append (queue : List α) (steps more : List (Step α)) : batches stops queue (steps ++ more) =
    ((batches stops queue steps).1 ++ (batches stops (batches stops queue steps).2 more).1,
      (batches stops (batches stops queue steps).2 more).2) := by
  induction steps generalizing queue with
  | nil => rfl
  | cons step steps ih =>
    cases step with
    | arrive x => exact ih _
    | read => simp only [List.cons_append, batches, ih]

/-- What has arrived is taken with what arrived before it. -/
theorem prefix_taken {before after : List (Step α)} (h : (batches stops [] before).2.countP stops < reads after) :
    arrived before ++ [x] <+: (batches stops [] (before ++ .arrive x :: after)).1.flatten := by
  have hbefore : _ ++ (batches stops [] before).2 = [] ++ arrived before := batches_flatten [] before
  have hafter : (batches stops [] before).2 ++ [x] <+:
      (batches stops ((batches stops [] before).2 ++ [x]) after).1.flatten :=
    prefix_batches h
  rw [List.nil_append] at hbefore
  rw [batches_append, List.flatten_append, ← hbefore, List.append_assoc]
  exact (List.prefix_append_right_inj _).mpr hafter

end Framework.Batches
