import Mathlib.Data.Finset.Card
import Mathlib.Data.List.Chain
import Mathlib.Data.List.Nodup
import Mathlib.Logic.Relation

/-!
# Walks

`follow` goes from each element to the one that `next` names, until it comes
to one that it has passed, or to one that has no next. What it has passed since
then is a cycle in the first case and no cycle in the second, so it finds one if
and only if nothing it comes to is without a next (`follow_isCycle_iff`).
-/

namespace Framework

open Relation (ReflTransGen)

variable {α : Type*} {E : α → α → Prop} {path : List α} {a b : α}

/-- A path along `E` that ends where it began and passes nothing else twice. -/
structure IsCycle (E : α → α → Prop) (path : List α) : Prop where
  length : 2 ≤ path.length
  closed : path.head? = path.getLast?
  nodup : path.dropLast.Nodup
  edges : path.IsChain E

theorem IsCycle.mono {F : α → α → Prop} (hEF : ∀ a b, E a b → F a b) (h : IsCycle E path) : IsCycle F path :=
  ⟨h.length, h.closed, h.nodup, h.edges.imp hEF⟩

/-- A cycle passes its first element twice. -/
theorem IsCycle.not_nodup (h : IsCycle E path) : ¬path.Nodup := by
  intro hn
  match path, h.length with
  | a :: b :: l, _ =>
    have hlast : (b :: l).getLast? = some a := by
      have := h.closed
      rw [List.getLast?_cons_cons] at this
      exact this.symm
    exact (List.nodup_cons.mp hn).1 (List.mem_of_getLast? hlast)

/-- What is not last in a chain has a successor in it. -/
theorem exists_of_isChain (h : (path ++ [b]).IsChain E) (ha : a ∈ path) : ∃ c ∈ path ++ [b], E a c := by
  obtain ⟨l₁, l₂, rfl⟩ := List.append_of_mem ha
  rw [List.append_assoc, List.cons_append] at h
  have h' := List.isChain_append.mp h
  cases l₂ with
  | nil => exact ⟨b, by simp, (List.isChain_cons_cons.mp h'.2.1).1⟩
  | cons c l₂ => exact ⟨c, by simp, (List.isChain_cons_cons.mp h'.2.1).1⟩

variable [DecidableEq α]

/-- Go from `current` on; `path` is what has been passed. -/
def follow (next : α → Option α) : ℕ → List α → α → List α
  | 0, path, _ => path
  | fuel + 1, path, current =>
    if path.contains current then path.dropWhile (· ≠ current) ++ [current]
    else
      match next current with
      | some b => follow next fuel (path ++ [current]) b
      | none => path ++ [current]

variable {next : α → Option α} {S : Finset α}

/-- What comes back to `a` has closed a cycle, and there is a next to everything
that `a` leads to. -/
theorem follow_closed (hn : path.Nodup) (hch : (path ++ [a]).IsChain fun a b => next a = some b) (ha : a ∈ path) :
    IsCycle (fun a b => next a = some b) (path.dropWhile (· ≠ a) ++ [a]) ∧
      ∀ b, ReflTransGen (fun a b => next a = some b) a b → (next b).isSome = true := by
  obtain ⟨l₁, l₂, rfl, hl₁⟩ := List.eq_append_cons_of_mem ha
  have hdrop : (l₁ ++ a :: l₂).dropWhile (· ≠ a) = a :: l₂ := by
    have hne : ∀ x ∈ l₁, decide (x ≠ a) = true := fun x hx => decide_eq_true (ne_of_mem_of_not_mem hx hl₁)
    rw [List.dropWhile_append_of_pos hne]
    simp
  have hsub : (a :: l₂).Sublist (l₁ ++ a :: l₂) := List.sublist_append_right ..
  rw [List.append_assoc] at hch
  have hch := (List.isChain_append.mp hch).2.1
  rw [hdrop]
  refine ⟨⟨by simp, by rw [List.getLast?_concat]; rfl, ?_, hch⟩, ?_⟩
  · rw [List.dropLast_concat]
    exact hn.sublist hsub
  · have hstep : ∀ b ∈ a :: l₂, ∃ c ∈ a :: l₂, next b = some c := by
      intro b hb
      obtain ⟨c, hc, hbc⟩ := exists_of_isChain hch hb
      rcases List.mem_append.mp hc with hc | hc
      · exact ⟨c, hc, hbc⟩
      · exact ⟨a, List.mem_cons_self .., List.mem_singleton.mp hc ▸ hbc⟩
    intro b hb
    have hmem : b ∈ a :: l₂ := by
      induction hb with
      | refl => exact List.mem_cons_self ..
      | tail _ hbc ih =>
        obtain ⟨c, hc, he⟩ := hstep _ ih
        rw [hbc] at he
        exact Option.some.inj he ▸ hc
    obtain ⟨c, -, hc⟩ := hstep b hmem
    rw [hc]
    rfl

/-- A walk that stays among finitely many nodes either stops or comes round. -/
theorem follow_spec (hS : ∀ a ∈ S, ∀ b, next a = some b → b ∈ S) (fuel : ℕ) {current : α} (hn : path.Nodup)
    (hp : ∀ a ∈ path, a ∈ S) (hc : current ∈ S) (hch : (path ++ [current]).IsChain fun a b => next a = some b)
    (hf : S.card < path.length + fuel) :
    (IsCycle (fun a b => next a = some b) (follow next fuel path current) ∧
        ∀ a, ReflTransGen (fun a b => next a = some b) current a → (next a).isSome = true) ∨
      (follow next fuel path current).Nodup ∧
        ∃ a, ReflTransGen (fun a b => next a = some b) current a ∧ next a = none := by
  induction fuel generalizing path current with
  | zero =>
    have : path.toFinset.card ≤ S.card := Finset.card_le_card fun a ha => hp a (List.mem_toFinset.mp ha)
    rw [List.toFinset_card_of_nodup hn] at this
    omega
  | succ fuel ih =>
    rw [follow]
    split
    · rename_i hmem
      exact .inl (follow_closed hn hch (List.contains_iff_mem.mp hmem))
    · rename_i hmem
      have hn' : (path ++ [current]).Nodup := by
        rw [← List.concat_eq_append, List.nodup_concat]
        exact ⟨fun h => hmem (List.contains_iff_mem.mpr h), hn⟩
      split
      · rename_i b hb
        have hp' : ∀ a ∈ path ++ [current], a ∈ S := by
          intro a ha
          rcases List.mem_append.mp ha with ha | ha
          · exact hp a ha
          · exact List.mem_singleton.mp ha ▸ hc
        have hch' : (path ++ [current] ++ [b]).IsChain fun a b => next a = some b :=
          List.isChain_append.mpr ⟨hch, by simp, by simp [hb]⟩
        have hf' : S.card < (path ++ [current]).length + fuel := by
          rw [List.length_append, List.length_singleton]
          omega
        rcases ih hn' hp' (hS current hc b hb) hch' hf' with ⟨hcyc, hall⟩ | ⟨hnd, a, ha, hnone⟩
        · refine .inl ⟨hcyc, fun a ha => ?_⟩
          rcases Relation.ReflTransGen.cases_head ha with rfl | ⟨c, hc', ha⟩
          · rw [hb]
            rfl
          · rw [hb] at hc'
            exact hall a (Option.some.inj hc' ▸ ha)
        · exact .inr ⟨hnd, a, .head hb ha, hnone⟩
      · rename_i hnone
        exact .inr ⟨hn', current, .refl, hnone⟩

/-- A walk finds a cycle if and only if it comes to nothing that has no next. -/
theorem follow_isCycle_iff (hS : ∀ a ∈ S, ∀ b, next a = some b → b ∈ S) (hE : ∀ a b, next a = some b → E a b)
    {fuel : ℕ} (ha : a ∈ S) (hf : S.card < fuel) : IsCycle E (follow next fuel [] a) ↔
      ∀ b, ReflTransGen (fun a b => next a = some b) a b → (next b).isSome = true := by
  have hspec := follow_spec hS fuel .nil (by simp) ha (by simp) (by simpa using hf)
  rcases hspec with ⟨hcyc, hall⟩ | ⟨hnd, b, hb, hnone⟩
  · exact ⟨fun _ => hall, fun _ => hcyc.mono hE⟩
  · refine ⟨fun hcyc => absurd hnd hcyc.not_nodup, fun hall => ?_⟩
    have := hall b hb
    rw [hnone] at this
    cases this

end Framework
