import Mathlib.Data.Finset.Card
import Mathlib.Data.List.Nodup
import Mathlib.Logic.Relation
import Mathlib.Data.Fintype.EquivFin
import Mathlib.Data.Fintype.Sets
import Mathlib.Order.WellFounded

/-!
# Topological orders

A list is `Ordered` by a relation `E` when whatever comes before an element
of it stands before it in the list. `Kahn` is the invariant of Kahn's
algorithm on a finite set of nodes: what is in the order, what is ready, and
how many predecessors of each node are left. `step` puts the first node that
is ready in the order; when none is ready, the order is complete if and only
if the graph has no cycle (`complete_iff`). `exists_end` follows a relation
down a rank; `idxOf_reverse_lt` and `idxOf_lt_of_sorted` compare positions.
-/

namespace Framework

open Relation (ReflTransGen TransGen)

variable {α : Type*} {E : α → α → Prop} {l : List α} {a b : α}

/-- What comes before an element of `l` stands before it. -/
def Ordered (E : α → α → Prop) (l : List α) : Prop := ∀ l₁ b l₂, l = l₁ ++ b :: l₂ → ∀ a, E a b → a ∈ l₁

namespace Ordered

theorem nil : Ordered E ([] : List α) := fun l₁ b l₂ h => by simp at h

theorem concat (h : Ordered E l) (hb : ∀ a, E a b → a ∈ l) : Ordered E (l ++ [b]) := by
  intro l₁ c l₂ e a ha
  rcases List.eq_nil_or_concat l₂ with rfl | ⟨l₂, d, rfl⟩
  · obtain ⟨rfl, hc⟩ := List.append_inj' e rfl
    cases hc
    exact hb a ha
  · rw [List.concat_eq_append, ← List.cons_append, ← List.append_assoc] at e
    obtain ⟨rfl, -⟩ := List.append_inj' e rfl
    exact h l₁ c l₂ rfl a ha

/-- What comes before a member is a member. -/
theorem closed (h : Ordered E l) (hab : E a b) (hb : b ∈ l) : a ∈ l := by
  obtain ⟨l₁, l₂, rfl⟩ := List.append_of_mem hb
  exact List.mem_append_left _ (h l₁ b l₂ rfl a hab)

theorem closed_of_trans (h : Ordered E l) (hab : ReflTransGen E a b) (hb : b ∈ l) : a ∈ l := by
  induction hab using Relation.ReflTransGen.head_induction_on with
  | refl => exact hb
  | head hac _ ih => exact h.closed hac ih

/-- What comes before another has a lower index. -/
theorem idxOf_lt [DecidableEq α] (h : Ordered E l) (hn : l.Nodup) (hab : E a b) (hb : b ∈ l) :
    l.idxOf a < l.idxOf b := by
  obtain ⟨l₁, l₂, rfl⟩ := List.append_of_mem hb
  have ha : a ∈ l₁ := h l₁ b l₂ rfl a hab
  have hb₁ : b ∉ l₁ := fun hb₁ => (List.disjoint_of_nodup_append hn) hb₁ (List.mem_cons_self ..)
  rw [List.idxOf_append_of_mem ha, List.idxOf_append_of_notMem hb₁]
  have := List.idxOf_lt_length_iff.mpr ha
  omega

theorem idxOf_lt_of_trans [DecidableEq α] (h : Ordered E l) (hn : l.Nodup) (hab : TransGen E a b) (hb : b ∈ l) :
    l.idxOf a < l.idxOf b := by
  induction hab with
  | single hab => exact h.idxOf_lt hn hab hb
  | tail _ hbc ih => exact (ih (h.closed hbc hb)).trans (h.idxOf_lt hn hbc hb)

/-- There is no cycle through an ordered list. -/
theorem acyclic (h : Ordered E l) (hn : l.Nodup) (ha : a ∈ l) : ¬TransGen E a a := by
  classical
  exact fun hc => Nat.lt_irrefl _ (h.idxOf_lt_of_trans hn hc ha)

end Ordered

/-- In a finite set in which everything has a predecessor there is a cycle. -/
theorem exists_cycle {U : Finset α} (hne : U.Nonempty) (h : ∀ b ∈ U, ∃ a ∈ U, E a b) : ∃ a ∈ U, TransGen E a a := by
  by_contra hno
  have hno : ∀ a ∈ U, ¬TransGen E a a := fun a ha hc => hno ⟨a, ha, hc⟩
  have : IsTrans U fun a b => TransGen E a.1 b.1 := ⟨fun _ _ _ h₁ h₂ => h₁.trans h₂⟩
  have : Std.Irrefl fun a b : U => TransGen E a.1 b.1 := ⟨fun a => hno a.1 a.2⟩
  have hwf : WellFounded fun a b : U => TransGen E a.1 b.1 := Finite.wellFounded_of_trans_of_irrefl _
  obtain ⟨b, hb⟩ := hne
  obtain ⟨m, -, hm⟩ := hwf.has_min Set.univ ⟨⟨b, hb⟩, trivial⟩
  obtain ⟨a, ha, ham⟩ := h m.1 m.2
  exact hm ⟨a, ha⟩ trivial (.single ham)

/-- `b` is on a cycle, or comes after one. -/
def Blocked (E : α → α → Prop) (b : α) : Prop := ∃ a, TransGen E a a ∧ ReflTransGen E a b

/-- What comes after something blocked is blocked. -/
theorem Blocked.tail (h : Blocked E a) (hab : E a b) : Blocked E b := by
  obtain ⟨c, hc, hca⟩ := h
  exact ⟨c, hc, hca.tail hab⟩

/-- In such a set everything is blocked. -/
theorem blocked_of_mem {U : Finset α} (h : ∀ b ∈ U, ∃ a ∈ U, E a b) (hb : b ∈ U) : Blocked E b := by
  classical
  obtain ⟨a, ha, hc⟩ := exists_cycle (U := U.filter fun a => ReflTransGen E a b) (E := E)
    ⟨b, Finset.mem_filter.mpr ⟨hb, .refl⟩⟩ fun c hc => by
      obtain ⟨hcU, hcb⟩ := Finset.mem_filter.mp hc
      obtain ⟨a, ha, hac⟩ := h c hcU
      exact ⟨a, Finset.mem_filter.mpr ⟨ha, .head hac hcb⟩, hac⟩
  exact ⟨a, hc, (Finset.mem_filter.mp ha).2⟩

/-- Where each step goes down in rank, what is passed ends in `Q`. -/
theorem exists_end {P Q : α → Prop} (rank : α → ℕ) (h : ∀ a, P a → Q a ∨ ∃ b, E a b ∧ P b ∧ rank b < rank a)
    (ha : P a) : ∃ b, ReflTransGen E a b ∧ Q b := by
  induction hn : rank a using Nat.strong_induction_on generalizing a with
  | _ n ih =>
    rcases h a ha with hq | ⟨b, hab, hb, hlt⟩
    · exact ⟨a, .refl, hq⟩
    · obtain ⟨c, hbc, hc⟩ := ih (rank b) (hn ▸ hlt) hb rfl
      exact ⟨c, .head hab hbc, hc⟩

/-! ## Positions -/

theorem idxOf_reverse_lt [DecidableEq α] (hn : l.Nodup) (ha : a ∈ l) (hb : b ∈ l) :
    l.reverse.idxOf a < l.reverse.idxOf b ↔ l.idxOf b < l.idxOf a := by
  have hrev : ∀ {c}, c ∈ l → l.reverse.idxOf c = l.length - 1 - l.idxOf c := by
    intro c hc
    have hlt := List.idxOf_lt_length_iff.mpr hc
    have hlt' : l.length - 1 - l.idxOf c < l.reverse.length := by
      rw [List.length_reverse]
      omega
    have hget : l.reverse[l.length - 1 - l.idxOf c] = c := by
      rw [List.getElem_reverse]
      simp only [show l.length - 1 - (l.length - 1 - l.idxOf c) = l.idxOf c by omega]
      exact List.getElem_idxOf hlt
    have := (List.nodup_reverse.mpr hn).idxOf_getElem _ hlt'
    rwa [hget] at this
  have hla := List.idxOf_lt_length_iff.mpr ha
  have hlb := List.idxOf_lt_length_iff.mpr hb
  rw [hrev ha, hrev hb]
  omega

/-- In a sorted list what is smaller stands first. -/
theorem idxOf_lt_of_sorted [DecidableEq α] {r : α → α → Prop} (hs : l.Pairwise r) (hr : ∀ x y, r x y → ¬r y x)
    (ha : a ∈ l) (hb : b ∈ l) : l.idxOf a < l.idxOf b ↔ r a b := by
  have hlt : ∀ {x y}, x ∈ l → y ∈ l → l.idxOf x < l.idxOf y → r x y := by
    intro x y hx hy h
    have := List.pairwise_iff_getElem.mp hs _ _ (List.idxOf_lt_length_iff.mpr hx) (List.idxOf_lt_length_iff.mpr hy) h
    rwa [List.getElem_idxOf, List.getElem_idxOf] at this
  refine ⟨hlt ha hb, fun h => ?_⟩
  rcases Nat.lt_trichotomy (l.idxOf a) (l.idxOf b) with h' | h' | h'
  · exact h'
  · have : a = b := by
      have ea := List.getElem_idxOf (List.idxOf_lt_length_iff.mpr ha)
      have eb := List.getElem_idxOf (List.idxOf_lt_length_iff.mpr hb)
      simp only [h'] at ea
      exact ea.symm.trans eb
    subst this
    exact absurd h (hr a a h)
  · exact absurd h (hr b a (hlt hb ha h'))

/-! ## Kahn's algorithm -/

variable [DecidableEq α] {S : Finset α} [DecidableRel E] {order ready : List α} {left : α → Nat}

/-- `left b` predecessors of `b` are not in the order. -/
structure Kahn (S : Finset α) (E : α → α → Prop) [DecidableRel E] (order ready : List α) (left : α → Nat) :
    Prop where
  edge : ∀ a b, E a b → a ∈ S ∧ b ∈ S
  nodup : (order ++ ready).Nodup
  mem : ∀ b, b ∈ order ++ ready ↔ b ∈ S ∧ left b = 0
  left : ∀ b ∈ S, left b = (S.filter fun a => E a b ∧ a ∉ order).card
  ordered : Ordered E order

namespace Kahn

/-- The loop is entered with what nothing comes before. -/
theorem start (edge : ∀ a b, E a b → a ∈ S ∧ b ∈ S) (hn : ready.Nodup) (hr : ∀ b, b ∈ ready ↔ b ∈ S ∧ left b = 0)
    (hl : ∀ b ∈ S, left b = (S.filter fun a => E a b).card) : Kahn S E [] ready left :=
  ⟨edge, hn, hr, fun b hb => by simpa using hl b hb, .nil⟩

theorem step {left' : α → Nat} {new : List α} (h : Kahn S E order (a :: ready) left)
    (hl : ∀ b ∈ S, left' b = if E a b then left b - 1 else left b) (hn : new.Nodup)
    (hnew : ∀ b, b ∈ new ↔ E a b ∧ left' b = 0) : Kahn S E (order ++ [a]) (ready ++ new) left' := by
  have haS : a ∈ S := ((h.mem a).mp (by simp)).1
  have hao : a ∉ order := fun ha => List.disjoint_of_nodup_append h.nodup ha (List.mem_cons_self ..)
  have hpred : ∀ b, E a b → 0 < left b := by
    intro b hab
    rw [h.left b (h.edge a b hab).2]
    exact Finset.card_pos.mpr ⟨a, Finset.mem_filter.mpr ⟨haS, hab, hao⟩⟩
  have hold : ∀ b, E a b → b ∉ order ++ a :: ready := by
    intro b hab hb
    have := ((h.mem b).mp hb).2
    have := hpred b hab
    omega
  have hperm : (order ++ [a]) ++ (ready ++ new) = (order ++ a :: ready) ++ new := by simp
  refine ⟨h.edge, ?_, fun b => ?_, fun b hb => ?_, h.ordered.concat fun c hc => ?_⟩
  · rw [hperm]
    exact h.nodup.append hn fun b hb hb' => hold b ((hnew b).mp hb').1 hb
  · rw [hperm, List.mem_append, hnew, h.mem]
    by_cases hab : E a b
    · have hbS := (h.edge a b hab).2
      have := hpred b hab
      constructor
      · rintro (⟨-, h0⟩ | ⟨-, h0⟩)
        · omega
        · exact ⟨hbS, h0⟩
      · exact fun h0 => .inr ⟨hab, h0.2⟩
    · constructor
      · rintro (⟨hbS, h0⟩ | ⟨h', -⟩)
        · exact ⟨hbS, by rw [hl b hbS, if_neg hab, h0]⟩
        · exact absurd h' hab
      · rintro ⟨hbS, h0⟩
        rw [hl b hbS, if_neg hab] at h0
        exact .inl ⟨hbS, h0⟩
  · have he : (S.filter fun c => E c b ∧ c ∉ order ++ [a]) = (S.filter fun c => E c b ∧ c ∉ order).erase a := by
      ext c
      simp only [Finset.mem_filter, Finset.mem_erase, List.mem_append, List.mem_singleton]
      tauto
    rw [hl b hb, he, Finset.card_erase_eq_ite, h.left b hb]
    simp [haS, hao]
  · by_contra hco
    have := ((h.mem a).mp (by simp)).2
    rw [h.left a haS] at this
    exact absurd this (Finset.card_ne_zero.mpr ⟨c, Finset.mem_filter.mpr ⟨(h.edge c a hc).1, hc, hco⟩⟩)

theorem order_subset (h : Kahn S E order ready left) : (order ++ ready).toFinset ⊆ S := fun b hb =>
  ((h.mem b).mp (List.mem_toFinset.mp hb)).1

theorem length_le (h : Kahn S E order ready left) : order.length + ready.length ≤ S.card := by
  rw [← List.length_append, ← List.toFinset_card_of_nodup h.nodup]
  exact Finset.card_le_card h.order_subset

/-- A loop that orders as many as there are orders all. -/
theorem complete (h : Kahn S E order [] left) (hl : order.length = S.card) (b : α) : b ∈ order ↔ b ∈ S := by
  have hn : order.Nodup := by simpa using h.nodup
  have hsub : order.toFinset ⊆ S := by simpa using h.order_subset
  have := Finset.eq_of_subset_of_card_le hsub (by rw [List.toFinset_card_of_nodup hn, hl])
  rw [← this, List.mem_toFinset]

/-- Exactly what is blocked is not in the order. -/
theorem pos_iff (h : Kahn S E order [] left) (hb : b ∈ S) : 0 < left b ↔ Blocked E b := by
  have hn : order.Nodup := by simpa using h.nodup
  have hmem : ∀ b ∈ S, left b = 0 → b ∈ order := fun b hb h0 => by simpa using (h.mem b).mpr ⟨hb, h0⟩
  constructor
  · intro hpos
    refine blocked_of_mem (U := S.filter fun b => left b ≠ 0) (fun b hb => ?_)
      (Finset.mem_filter.mpr ⟨hb, hpos.ne'⟩)
    obtain ⟨hbS, h0⟩ := Finset.mem_filter.mp hb
    rw [h.left b hbS, Finset.card_ne_zero] at h0
    obtain ⟨a, ha⟩ := h0
    obtain ⟨haS, hab, hao⟩ := Finset.mem_filter.mp ha
    exact ⟨a, Finset.mem_filter.mpr ⟨haS, fun h0 => hao (hmem a haS h0)⟩, hab⟩
  · rintro ⟨a, hc, hab⟩
    by_contra h0
    have hbo : b ∈ order := hmem b hb (Nat.eq_zero_of_not_pos h0)
    exact h.ordered.acyclic hn (h.ordered.closed_of_trans hab hbo) hc

/-- The order is complete if and only if there is no cycle. -/
theorem complete_iff (h : Kahn S E order [] left) : order.length = S.card ↔ ∀ a, ¬TransGen E a a := by
  have hn : order.Nodup := by simpa using h.nodup
  have hsub : order.toFinset ⊆ S := by simpa using h.order_subset
  constructor
  · intro hl a hc
    have haS : a ∈ S := by
      obtain ⟨b, hab, -⟩ := Relation.TransGen.head'_iff.mp hc
      exact (h.edge a b hab).1
    exact h.ordered.acyclic hn ((h.complete hl a).mpr haS) hc
  · intro hno
    have hall : ∀ b ∈ S, b ∈ order := by
      intro b hb
      have h0 : left b = 0 := Nat.eq_zero_of_not_pos fun hpos => by
        obtain ⟨a, hc, -⟩ := (h.pos_iff hb).mp hpos
        exact hno a hc
      simpa using (h.mem b).mpr ⟨hb, h0⟩
    rw [← List.toFinset_card_of_nodup hn]
    exact congrArg Finset.card (Finset.Subset.antisymm hsub fun b hb => List.mem_toFinset.mpr (hall b hb))

end Kahn

end Framework
