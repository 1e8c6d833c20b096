import Mathlib.Data.List.TakeWhile
import Mathlib.Order.Lattice

/-!
# Deadline queues

A priority queue of alarms, each due at a moment of some linear order, as
the list of its entries in the order they will be taken. Entries due at one
moment may be taken in any order: `insert` is told how many of them the new
entry goes behind.
-/

namespace Framework

/-- An alarm and the moment it is due. -/
structure Deadline (τ α : Type) where
  due : τ
  alarm : α
  deriving DecidableEq

namespace Deadline

variable {τ α : Type} [LinearOrder τ]

/-- Add an entry, behind `tie` of those due at the same moment. -/
def insert (tie : Nat) (e : Deadline τ α) : List (Deadline τ α) → List (Deadline τ α)
  | [] => [e]
  | x :: q =>
    if x.due < e.due then x :: insert tie e q
    else if x.due = e.due then
      match tie with
      | 0 => e :: x :: q
      | tie + 1 => x :: insert tie e q
    else e :: x :: q

/-- The entries that are due at `now`, from the front. -/
def expired (now : τ) (q : List (Deadline τ α)) : List (Deadline τ α) := q.takeWhile (·.due ≤ now)

/-- What is left once they are taken. -/
def later (now : τ) (q : List (Deadline τ α)) : List (Deadline τ α) := q.dropWhile (·.due ≤ now)

theorem insert_perm (tie : Nat) (e : Deadline τ α) (q : List (Deadline τ α)) :
    (insert tie e q).Perm (e :: q) := by
  induction q generalizing tie with
  | nil => exact .refl _
  | cons x q ih =>
    simp only [insert]
    split
    · exact ((ih tie).cons x).trans (.swap e x q)
    · split
      · cases tie with
        | zero => exact .refl _
        | succ tie => exact ((ih tie).cons x).trans (.swap e x q)
      · exact .refl _

theorem mem_insert {tie : Nat} {e x : Deadline τ α} {q : List (Deadline τ α)} :
    x ∈ insert tie e q ↔ x = e ∨ x ∈ q := by
  rw [(insert_perm tie e q).mem_iff, List.mem_cons]

theorem countP_insert (p : Deadline τ α → Bool) (tie : Nat) (e : Deadline τ α)
    (q : List (Deadline τ α)) : (insert tie e q).countP p = (e :: q).countP p :=
  (insert_perm tie e q).countP_eq p

theorem length_insert (tie : Nat) (e : Deadline τ α) (q : List (Deadline τ α)) :
    (insert tie e q).length = q.length + 1 :=
  (insert_perm tie e q).length_eq

theorem insert_inj {tie tie' : Nat} {e e' : Deadline τ α} {q : List (Deadline τ α)}
    (h : insert tie e q = insert tie' e' q) : e = e' := by
  have hp := (insert_perm tie e q).symm.trans ((h ▸ .refl _ : (insert tie e q).Perm (insert tie' e' q)).trans
    (insert_perm tie' e' q))
  by_contra hne
  classical
  have := hp.count_eq e
  rw [List.count_cons_self, List.count_cons_of_ne (Ne.symm hne)] at this
  omega

/-- The entries stand in the order they are due. -/
theorem insert_sorted {tie : Nat} {e : Deadline τ α} {q : List (Deadline τ α)} (h : q.Pairwise (·.due ≤ ·.due)) :
    (insert tie e q).Pairwise (·.due ≤ ·.due) := by
  induction q generalizing tie with
  | nil => exact List.pairwise_singleton ..
  | cons x q ih =>
    obtain ⟨hx, hq⟩ := List.pairwise_cons.mp h
    have hbehind : x.due ≤ e.due → ∀ tie, (x :: insert tie e q).Pairwise (·.due ≤ ·.due) := by
      refine fun hle tie => List.pairwise_cons.mpr ⟨fun y hy => ?_, ih hq⟩
      rcases mem_insert.mp hy with rfl | hy
      · exact hle
      · exact hx y hy
    have hfront : e.due ≤ x.due → (e :: x :: q).Pairwise (·.due ≤ ·.due) := by
      refine fun hle => List.pairwise_cons.mpr ⟨fun y hy => ?_, h⟩
      rcases List.mem_cons.mp hy with rfl | hy
      · exact hle
      · exact hle.trans (hx y hy)
    simp only [insert]
    split
    · exact hbehind (le_of_lt ‹_›) tie
    · split
      · rename_i heq
        cases tie with
        | zero => exact hfront heq.ge
        | succ tie => exact hbehind heq.le tie
      · exact hfront (le_of_not_gt ‹_›)

theorem later_sorted {now : τ} {q : List (Deadline τ α)} (h : q.Pairwise (·.due ≤ ·.due)) :
    (later now q).Pairwise (·.due ≤ ·.due) :=
  h.sublist (List.dropWhile_sublist _)

/-- Of a queue in order, nothing is left that is due. -/
theorem lt_due_of_mem_later {now : τ} {q : List (Deadline τ α)} {e : Deadline τ α}
    (h : q.Pairwise (·.due ≤ ·.due)) (he : e ∈ later now q) : now < e.due := by
  induction q with
  | nil => cases he
  | cons x q ih =>
    obtain ⟨hx, hq⟩ := List.pairwise_cons.mp h
    by_cases hd : x.due ≤ now
    · rw [later, List.dropWhile_cons_of_pos (by simpa using hd)] at he
      exact ih hq he
    · rw [later, List.dropWhile_cons_of_neg (by simpa using hd)] at he
      rcases List.mem_cons.mp he with rfl | he
      · exact lt_of_not_ge hd
      · exact (lt_of_not_ge hd).trans_le (hx e he)

/-- A queue is what is due and then what is not. -/
theorem expired_append_later (now : τ) (q : List (Deadline τ α)) : expired now q ++ later now q = q :=
  List.takeWhile_append_dropWhile

theorem due_of_mem_expired {now : τ} {q : List (Deadline τ α)} {e : Deadline τ α}
    (h : e ∈ expired now q) : e.due ≤ now := by
  simpa using List.mem_takeWhile_imp h

theorem mem_expired_or_later {now : τ} {q : List (Deadline τ α)} {e : Deadline τ α} :
    e ∈ expired now q ∨ e ∈ later now q ↔ e ∈ q := by
  rw [← List.mem_append, expired_append_later]

theorem countP_expired_add_later (p : Deadline τ α → Bool) (now : τ) (q : List (Deadline τ α)) :
    (expired now q).countP p + (later now q).countP p = q.countP p := by
  rw [← List.countP_append, expired_append_later]

end Deadline

end Framework
