import Mathlib.Logic.Relation

/-!
# Searches

A search along a relation with a worklist: what has been seen, and a queue of
what is to be visited. `visit` takes one element from the queue, marks it as
seen and adds its successors; an element that has been seen already is
skipped. When the queue is empty exactly what the root leads to has been seen.
-/

namespace Framework

open Relation (ReflTransGen)

variable {α : Type*} {R : α → α → Prop} {root a : α} {seen : α → Prop} {queue : List α}

structure Search (R : α → α → Prop) (root : α) (seen : α → Prop) (queue : List α) : Prop where
  sound : ∀ a, seen a ∨ a ∈ queue → ReflTransGen R root a
  root : seen root ∨ root ∈ queue
  closed : ∀ a b, seen a → R a b → seen b ∨ b ∈ queue

namespace Search

/-- The search begins at its root. -/
theorem start (R : α → α → Prop) (root : α) : Search R root (fun _ => False) [root] :=
  ⟨fun a h => by simp at h; rw [h], .inr (List.mem_singleton_self root), fun _ _ h => h.elim⟩

theorem skip (h : Search R root seen (a :: queue)) (ha : seen a) : Search R root seen queue := by
  have hq : ∀ b, seen b ∨ b ∈ a :: queue → seen b ∨ b ∈ queue := by
    intro b hb
    rcases hb with hb | hb
    · exact .inl hb
    · rcases List.mem_cons.mp hb with rfl | hb
      · exact .inl ha
      · exact .inr hb
  exact ⟨fun b hb => h.sound b (hb.imp_right (List.mem_cons_of_mem a)), hq _ h.root,
    fun b b' hb hr => hq _ (h.closed b b' hb hr)⟩

theorem visit {next : List α} (h : Search R root seen (a :: queue)) (hn : ∀ b, R a b ↔ b ∈ next) :
    Search R root (fun b => b = a ∨ seen b) (queue ++ next) := by
  have ha : ReflTransGen R root a := h.sound a (.inr (List.mem_cons_self ..))
  have hq : ∀ b, seen b ∨ b ∈ a :: queue → (b = a ∨ seen b) ∨ b ∈ queue ++ next := by
    intro b hb
    rcases hb with hb | hb
    · exact .inl (.inr hb)
    · rcases List.mem_cons.mp hb with rfl | hb
      · exact .inl (.inl rfl)
      · exact .inr (List.mem_append_left _ hb)
  refine ⟨fun b hb => ?_, hq _ h.root, fun b b' hb hr => ?_⟩
  · rcases hb with (rfl | hb) | hb
    · exact ha
    · exact h.sound b (.inl hb)
    · rcases List.mem_append.mp hb with hb | hb
      · exact h.sound b (.inr (List.mem_cons_of_mem a hb))
      · exact ha.tail ((hn b).mpr hb)
  · rcases hb with rfl | hb
    · exact .inr (List.mem_append_right _ ((hn b').mp hr))
    · exact hq _ (h.closed b b' hb hr)

/-- Everything that is seen at the end is what the root leads to. -/
theorem done (h : Search R root seen []) : seen a ↔ ReflTransGen R root a := by
  refine ⟨fun ha => h.sound a (.inl ha), fun ha => ?_⟩
  induction ha with
  | refl => exact h.root.resolve_right (List.not_mem_nil)
  | tail _ hr ih => exact (h.closed _ _ ih hr).resolve_right List.not_mem_nil

end Search

end Framework
