import Mathlib.Data.List.Induction
import Mathlib.Logic.Relation

/-!
# Runs and logs

A run of a transition system is a path `ReflTransGen R s s'`. `invariant` is
the induction over a run. A system may keep a log that its steps only add to
(`Grows`); `Grows.invariant` is the induction over a run all of whose entries
satisfy a condition, which is then known at every step. `monitor` is an
automaton that reads a log. `Each` is the condition for a machine that is
driven by a list of inputs, and `Since` what some input has done there and none
has undone.
-/

namespace Framework

open Relation (ReflTransGen)

variable {σ β ε : Type*} {R S : σ → σ → Prop} {log : σ → List ε} {s s' : σ}

/-- What every step keeps, a run keeps. -/
theorem invariant {I : σ → Prop} (step : ∀ {s s'}, I s → R s s' → I s') (h : ReflTransGen R s s')
    (hs : I s) : I s' := by
  induction h with
  | refl => exact hs
  | tail _ hr ih => exact step ih hr

/-- A loop over a list is a run if each turn of its body is. -/
theorem foldl_run {f : σ → β → σ} (h : ∀ s b, ReflTransGen R s (f s b)) (l : List β) (s : σ) :
    ReflTransGen R s (l.foldl f s) := by
  induction l generalizing s with
  | nil => exact .refl
  | cons b l ih => exact (h s b).trans (ih _)

/-- A finer system refines every run of a coarser one. -/
theorem refine_run (h : ∀ {s s'}, R s s' → ReflTransGen S s s') (hr : ReflTransGen R s s') :
    ReflTransGen S s s' :=
  Relation.reflTransGen_closed (fun _ _ => h) _ _ hr

/-! ## Logs -/

/-- Steps only add to the log, at its front. -/
def Grows (log : σ → List ε) (R : σ → σ → Prop) : Prop := ∀ {s s'}, R s s' → log s <:+ log s'

/-- A log that every step extends is extended by a run. -/
theorem Grows.run (h : Grows log R) (hr : ReflTransGen R s s') : log s <:+ log s' := by
  induction hr with
  | refl => exact List.suffix_rfl
  | tail _ hr ih => exact ih.trans (h hr)

/-- What precedes an entry of a log that has grown. -/
theorem cons_suffix_append {e : ε} {t n l : List ε} (h : e :: t <:+ n ++ l) :
    e :: t <:+ l ∨ ∃ k, t = k ++ l ∧ e :: k <:+ n := by
  rcases List.suffix_or_suffix_of_suffix h (List.suffix_append n l) with h' | ⟨k, hk⟩
  · exact .inl h'
  · cases k with
    | nil => exact .inl (hk ▸ List.suffix_rfl)
    | cons x k =>
      obtain ⟨rfl, rfl⟩ : x = e ∧ k ++ l = t := by simpa using hk
      exact .inr ⟨k, rfl, List.suffix_append_self_iff.mp h⟩

/-- An invariant of the runs whose log satisfies `ok`. -/
theorem Grows.invariant (hg : Grows log R) {ok : ε → Prop} {I : σ → Prop}
    (step : ∀ {s s'}, (∀ e ∈ log s', ok e) → I s → R s s' → I s') (h : ReflTransGen R s s')
    (hok : ∀ e ∈ log s', ok e) (hs : I s) : I s' := by
  induction h with
  | refl => exact hs
  | tail _ hr ih => exact step hok (ih fun e he => hok e ((hg hr).mem he)) hr

/-! ## Monitors -/

/-- Where an automaton is that has read the log, from its oldest entry on, and
has rejected none of it. -/
def monitor {α : Type*} (next : α → ε → Option α) (a : α) : List ε → Option α
  | [] => some a
  | e :: l => (monitor next a l).bind (next · e)

theorem monitor_cons {α : Type*} {next : α → ε → Option α} {a b : α} {e : ε} {l : List ε}
    (h : monitor next a l = some b) : monitor next a (e :: l) = next b e := by
  rw [monitor, h, Option.bind_some]

/-- What does not move the automaton may be added. -/
theorem monitor_append {α : Type*} {next : α → ε → Option α} {a b : α} {new l : List ε}
    (h : monitor next a l = some b) (hn : ∀ e ∈ new, next b e = some b) : monitor next a (new ++ l) = some b := by
  induction new with
  | nil => exact h
  | cons e new ih =>
    rw [List.cons_append, monitor_cons (ih fun e he => hn e (List.mem_cons_of_mem _ he))]
    exact hn e (List.mem_cons_self ..)

/-! ## Inputs that meet a condition -/

/-- Every input meets `ok` in the state that it finds. -/
def Each (step : σ → ε → σ) (ok : σ → ε → Prop) : σ → List ε → Prop
  | _, [] => True
  | s, e :: l => ok s e ∧ Each step ok (step s e) l

instance decidableEach {step : σ → ε → σ} {ok : σ → ε → Prop} [∀ s e, Decidable (ok s e)] :
    ∀ s l, Decidable (Each step ok s l)
  | _, [] => inferInstanceAs (Decidable True)
  | s, e :: l =>
    have : Decidable (Each step ok (step s e) l) := decidableEach (step s e) l
    inferInstanceAs (Decidable (ok s e ∧ Each step ok (step s e) l))

theorem Each.and {step : σ → ε → σ} {ok ok' : σ → ε → Prop} {s : σ} {l : List ε} (h : Each step ok s l)
    (h' : Each step ok' s l) : Each step (fun s e => ok s e ∧ ok' s e) s l := by
  induction l generalizing s with
  | nil => trivial
  | cons e l ih => exact ⟨⟨h.1, h'.1⟩, ih h.2 h'.2⟩

theorem Each.mono {step : σ → ε → σ} {ok ok' : σ → ε → Prop} {s : σ} {l : List ε} (h : ∀ {s e}, ok s e → ok' s e)
    (hl : Each step ok s l) : Each step ok' s l := by
  induction l generalizing s with
  | nil => trivial
  | cons e l ih => exact ⟨h hl.1, ih hl.2⟩

/-- What every admitted step keeps, a run of such steps keeps. -/
theorem Each.invariant {step : σ → ε → σ} {ok : σ → ε → Prop} {I : σ → Prop}
    (h : ∀ {s e}, I s → ok s e → I (step s e)) {s : σ} {l : List ε} (hl : Each step ok s l) (hs : I s) :
    I (l.foldl step s) := by
  induction l generalizing s with
  | nil => exact hs
  | cons e l ih => exact ih hl.2 (h hs hl.1)

/-- Where the inputs meet `ok`, and the states an invariant, two conditions may be the same. -/
theorem Each.congr {step : σ → ε → σ} {ok p q : σ → ε → Prop} {I : σ → Prop} (hI : ∀ {s} e, I s → I (step s e))
    (h : ∀ {s e}, I s → ok s e → (p s e ↔ q s e)) {s : σ} {l : List ε} (hl : Each step ok s l) (hs : I s) :
    Each step p s l ↔ Each step q s l := by
  induction l generalizing s with
  | nil => exact Iff.rfl
  | cons e l ih => exact and_congr (h hs hl.1) (ih hl.2 (hI e hs))

/-- No step loses `P` exactly if it is never lost again. -/
theorem Each.lasting {step : σ → ε → σ} {P : σ → Prop} {s : σ} {l : List ε} :
    (∀ l₁ l₂, l₁ ++ l₂ <+: l → P (l₁.foldl step s) → P ((l₁ ++ l₂).foldl step s)) ↔
      Each step (fun s e => P s → P (step s e)) s l := by
  refine ⟨fun h => ?_, fun h l₁ l₂ hl hP => ?_⟩
  · induction l generalizing s with
    | nil => trivial
    | cons e l ih =>
      refine ⟨h [] [e] ⟨l, rfl⟩, ih fun l₁ l₂ hl => ?_⟩
      exact h (e :: l₁) l₂ (List.cons_prefix_cons.mpr ⟨rfl, hl⟩)
  · induction l generalizing s l₁ l₂ with
    | nil =>
      obtain ⟨rfl, rfl⟩ := List.append_eq_nil_iff.mp (List.prefix_nil.mp hl)
      exact hP
    | cons e l ih =>
      cases l₁ with
      | cons e' l₁ =>
        obtain ⟨rfl, hl'⟩ := List.cons_prefix_cons.mp hl
        exact ih h.2 l₁ l₂ hl' hP
      | nil =>
        cases l₂ with
        | nil => exact hP
        | cons e' l₂ =>
          obtain ⟨rfl, hl'⟩ := List.cons_prefix_cons.mp hl
          exact ih h.2 [] l₂ hl' (h.1 hP)

/-! ## What has happened and was not undone -/

/-- Some input met `p` in the state that it found, and none since has been one of `q`. -/
def Since (step : σ → ε → σ) (p : σ → ε → Prop) (q : ε → Prop) (s : σ) (l : List ε) : Prop :=
  ∃ l₁ e l₂, l = l₁ ++ e :: l₂ ∧ p (l₁.foldl step s) e ∧ ∀ e' ∈ l₂, ¬ q e'

theorem since_concat {step : σ → ε → σ} {p : σ → ε → Prop} {q : ε → Prop} {l : List ε} {e : ε} :
    Since step p q s (l ++ [e]) ↔ p (l.foldl step s) e ∨ Since step p q s l ∧ ¬ q e := by
  constructor
  · rintro ⟨l₁, e₁, l₂, hl, hp, hq⟩
    rcases List.eq_nil_or_concat l₂ with rfl | ⟨l₂, e₂, rfl⟩
    · obtain ⟨rfl, rfl⟩ := List.append_inj' hl rfl |>.imp id (by simpa using ·)
      exact .inl hp
    · rw [List.concat_eq_append, ← List.cons_append, ← List.append_assoc] at hl
      obtain ⟨rfl, he⟩ := List.append_inj' hl rfl
      obtain rfl : e = e₂ := by simpa using he
      refine .inr ⟨⟨l₁, e₁, l₂, rfl, hp, fun e' he' => hq e' ?_⟩, hq e ?_⟩ <;> simp [*]
  · rintro (hp | ⟨⟨l₁, e₁, l₂, rfl, hp, hq⟩, he⟩)
    · exact ⟨l, e, [], rfl, hp, by simp⟩
    · refine ⟨l₁, e₁, l₂ ++ [e], by simp, hp, fun e' he' => ?_⟩
      rcases List.mem_append.mp he' with he' | he'
      · exact hq e' he'
      · exact List.mem_singleton.mp he' ▸ he

/-- What each input either brings about or leaves, unless it undoes it. -/
theorem since_iff {step : σ → ε → σ} {p : σ → ε → Prop} {q : ε → Prop} {P : σ → Prop} (hs : ¬ P s)
    (h : ∀ s e, P (step s e) ↔ p s e ∨ P s ∧ ¬ q e) (l : List ε) :
    P (l.foldl step s) ↔ Since step p q s l := by
  induction l using List.reverseRecOn with
  | nil => exact iff_of_false hs fun ⟨l₁, e, l₂, hl, _⟩ => by simp at hl
  | append_singleton l e ih => rw [List.foldl_append, List.foldl_cons, List.foldl_nil, h, ih, since_concat]

end Framework
