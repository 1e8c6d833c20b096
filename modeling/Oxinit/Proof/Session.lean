import Oxinit.Framework.Runs
import Oxinit.Model.Session

/-!
# A user has one manager

Sessions that do not start one while another is between asking and listening
leave no more than one (`Alone`); and one that listens, with nobody in between,
goes on to be the one, whoever starts and in whatever order (`step_up`).
-/

namespace Oxinit.Session

variable {s : State} {p q : Nat} {e : Step}

/-- A manager, or about to be one. -/
def Phase.busy (phase : Phase) : Bool := phase.starting || phase = .running

namespace State

/-- Who answers: whose socket is at the path, if it runs. -/
theorem answering_eq_some_iff : s.answering = some p ↔ s.file = some p ∧ s.phase p = .running := by
  rw [answering, Option.filter_eq_some_iff, decide_eq_true_eq]

/-- What a step does to the process whose step it is, and to the file. -/
inductive Stepped (s : State) : Step → State → Prop
  | idle (e : Step) : Stepped s e s
  | told (p : Nat) (h : s.phase p = .absent) (ha : s.answering.isSome = true) : Stepped s (.ask p) (s.move p .succeeded)
  | asked (p : Nat) (h : s.phase p = .absent) (ha : s.answering = none) : Stepped s (.ask p) (s.move p .asked)
  | removed (p : Nat) (h : s.phase p = .asked) : Stepped s (.remove p) { s.move p .removed with file := none }
  | failed (p : Nat) (h : s.phase p = .removed) : Stepped s (.bind p) (s.move p .failed)
  | bound (p : Nat) (h : s.phase p = .removed) : Stepped s (.bind p) { s.move p .bound with file := some p }
  | listening (p : Nat) (h : s.phase p = .bound) : Stepped s (.listen p) (s.move p .running)
  | died (p : Nat) (h : (s.phase p).busy = true) : Stepped s (.die p) (s.move p .dead)

theorem step_stepped (s : State) (e : Step) : Stepped s e (s.step e) := by
  cases e with
  | ask p =>
    rw [step]
    split
    · next h =>
      cases ha : s.answering with
      | none => exact .asked p h ha
      | some q => exact .told p h (by rw [ha]; rfl)
    · exact .idle _
  | remove p =>
    rw [step]
    split
    · next h => exact .removed p h
    · exact .idle _
  | bind p =>
    rw [step]
    split
    · next h =>
      split
      · exact .failed p h
      · exact .bound p h
    · exact .idle _
  | listen p =>
    rw [step]
    split
    · next h => exact .listening p h
    · exact .idle _
  | die p =>
    rw [step]
    split
    · next h => exact .died p h
    · exact .idle _

@[simp] theorem move_phase (s : State) (p q : Nat) (phase : Phase) :
    (s.move p phase).phase q = if q = p then phase else s.phase q := Function.update_apply ..

/-! ## One at a time -/

/-- One manager at most, or one that is about to be; and the file is its own from when it is bound. -/
structure Alone (s : State) : Prop where
  one : ∀ {p q}, (s.phase p).busy = true → (s.phase q).busy = true → p = q
  file : ∀ {p}, s.phase p = .bound ∨ s.phase p = .running → s.file = some p

theorem Alone.answering (h : s.Alone) : s.answering = some p ↔ s.phase p = .running := by
  rw [answering_eq_some_iff]
  exact and_iff_right_of_imp fun hp => h.file (.inr hp)

/-- Who is neither does not matter. -/
theorem Alone.leave (h : s.Alone) {phase : Phase} (hp : phase.busy = false) : (s.move p phase).Alone := by
  have hphase : ∀ {q}, ((s.move p phase).phase q).busy = true → (s.move p phase).phase q = s.phase q := by
    intro q hq
    rw [move_phase] at hq ⊢
    split at hq
    · rw [hp] at hq
      cases hq
    · rw [if_neg ‹_›]
  constructor
  · intro q q' hq hq'
    exact h.one (hphase hq ▸ hq) (hphase hq' ▸ hq')
  · intro q hq
    have hbusy : ((s.move p phase).phase q).busy = true := by rcases hq with hq | hq <;> rw [hq] <;> rfl
    exact h.file (hphase hbusy ▸ hq)

theorem alone_of {phase : Phase} {file : Option Nat} (h : ∀ q ≠ p, (s.phase q).busy = false)
    (hf : phase = .bound ∨ phase = .running → file = some p) : Alone { s.move p phase with file } := by
  have hmine : ∀ {q}, ((s.move p phase).phase q).busy = true → q = p := by
    intro q hq
    by_contra hne
    rw [move_phase, if_neg hne, h q hne] at hq
    cases hq
  constructor
  · intro q q' hq hq'
    exact (hmine hq).trans (hmine hq').symm
  · intro q hq
    have hbusy : ((s.move p phase).phase q).busy = true := by
      show (({ s.move p phase with file } : State).phase q).busy = true
      rcases hq with hq | hq <;> rw [hq] <;> rfl
    obtain rfl := hmine hbusy
    have hq : (s.move q phase).phase q = .bound ∨ (s.move q phase).phase q = .running := hq
    rw [move_phase, if_pos rfl] at hq
    exact hf hq

/-- Who is busy is alone in that. -/
theorem Alone.others (h : s.Alone) (hp : (s.phase p).busy = true) : ∀ q ≠ p, (s.phase q).busy = false := by
  intro q hne
  by_contra hq
  exact hne (h.one (by simpa using hq) hp)

/-- Nobody begins to start while another is starting, unless a manager answers. -/
def Orderly (s : State) : Step → Prop
  | .ask _ => s.answering.isSome = true ∨ ∀ q, (s.phase q).starting = false
  | _ => True

/-- An orderly step leaves one manager alone. -/
theorem Alone.step (h : s.Alone) (he : s.Orderly e) : (s.step e).Alone := by
  have ht := step_stepped s e
  generalize s.step e = s' at ht
  cases ht with
  | idle => exact h
  | told p => exact h.leave rfl
  | asked p hp ha =>
    have hfree : ∀ q, (s.phase q).busy = false := by
      intro q
      have hrunning : s.phase q ≠ .running := fun hq => by
        rw [← h.answering, ha] at hq
        cases hq
      have hstarting : (s.phase q).starting = false := by
        rcases he with he | he
        · rw [ha] at he
          cases he
        · exact he q
      simp [Phase.busy, hstarting, hrunning]
    exact alone_of (fun q _ => hfree q) (by simp)
  | removed p hp => exact alone_of (h.others (by rw [hp]; rfl)) (by simp)
  | failed p => exact h.leave rfl
  | bound p hp => exact alone_of (h.others (by rw [hp]; rfl)) fun _ => rfl
  | listening p hp => exact alone_of (h.others (by rw [hp]; rfl)) fun _ => h.file (.inl hp)
  | died p => exact h.leave rfl

/-! ## The one that is up -/

/-- This manager answers, and nobody is between asking and listening. -/
structure Up (p : Nat) (s : State) : Prop where
  answers : s.answering = some p
  quiet : ∀ q, (s.phase q).starting = false

theorem Alone.up (h : s.Alone) (hp : s.answering = some p) : s.Up p := by
  refine ⟨hp, fun q => ?_⟩
  have hrunning := h.answering.mp hp
  by_cases hq : q = p
  · rw [hq, hrunning]
    rfl
  · exact (Bool.or_eq_false_iff.mp (h.others (by rw [hrunning]; rfl) q hq)).1

/-- Who is up stays so until it dies. -/
theorem Up.step (h : s.Up p) (he : e ≠ .die p) : (s.step e).Up p := by
  have ht := step_stepped s e
  generalize s.step e = s' at ht
  have hrunning := (answering_eq_some_iff.mp h.answers).2
  -- whoever leaves is another
  have hleave : ∀ {q phase}, q ≠ p → phase.starting = false → (s.move q phase).Up p := by
    intro q phase hq hphase
    refine ⟨?_, fun r => ?_⟩
    · rw [answering_eq_some_iff, move_phase, if_neg hq.symm]
      exact answering_eq_some_iff.mp h.answers
    · rw [move_phase]
      split
      · exact hphase
      · exact h.quiet r
  have hquiet : ∀ {q}, (s.phase q).starting ≠ true := fun hq => by
    rw [h.quiet] at hq
    cases hq
  cases ht with
  | idle => exact h
  | told q hq =>
    refine hleave ?_ rfl
    rintro rfl
    cases hq.symm.trans hrunning
  | asked q _ ha => cases ha.symm.trans h.answers
  | removed q hq => exact absurd (by rw [hq]; rfl) (hquiet (q := q))
  | failed q hq => exact absurd (by rw [hq]; rfl) (hquiet (q := q))
  | bound q hq => exact absurd (by rw [hq]; rfl) (hquiet (q := q))
  | listening q hq => exact absurd (by rw [hq]; rfl) (hquiet (q := q))
  | died q =>
    refine hleave ?_ rfl
    rintro rfl
    exact he rfl

/-- Only who asks, or is busy, gets any further. -/
theorem phase_step (s : State) (e : Step) (q : Nat) :
    (s.step e).phase q = s.phase q ∨ (s.phase q).busy = true ∨ e = .ask q ∧ s.phase q = .absent := by
  have ht := step_stepped s e
  generalize s.step e = s' at ht
  have hother : ∀ {p phase}, q ≠ p → (s.move p phase).phase q = s.phase q := fun hne => (move_phase ..).trans (if_neg hne)
  cases ht with
  | idle => exact .inl rfl
  | told p hp | asked p hp =>
    by_cases hq : q = p
    · subst hq
      exact .inr (.inr ⟨rfl, hp⟩)
    · exact .inl (hother hq)
  | removed p hp | failed p hp | bound p hp | listening p hp =>
    by_cases hq : q = p
    · subst hq
      exact .inr (.inl (by rw [hp]; rfl))
    · exact .inl (hother hq)
  | died p hp =>
    by_cases hq : q = p
    · subst hq
      exact .inr (.inl hp)
    · exact .inl (hother hq)

/-- Who has been told stays told. -/
theorem succeeded_step (h : s.phase q = .succeeded) (e : Step) : (s.step e).phase q = .succeeded := by
  have hp := phase_step s e q
  rw [h] at hp
  rcases hp with hp | hp | ⟨-, hp⟩
  · exact hp
  · cases hp
  · cases hp

/-- Whoever asks is told. -/
theorem Up.run {more : List Step} (h : s.Up p) (hd : .die p ∉ more) :
    (s.run more).Up p ∧ ∀ q, s.phase q = .absent → .ask q ∈ more → (s.run more).phase q = .succeeded := by
  have hlast : ∀ (more : List Step) (s : State) (q : Nat), s.phase q = .succeeded → (s.run more).phase q = .succeeded :=
    fun more s q hq => List.foldlRecOn (motive := fun (s : State) => s.phase q = .succeeded) more _ hq
      fun _ h e _ => succeeded_step h e
  induction more generalizing s with
  | nil => exact ⟨h, fun q _ hq => (by cases hq)⟩
  | cons e more ih =>
    rw [List.mem_cons, not_or] at hd
    have hup := h.step (Ne.symm hd.1)
    refine ⟨(ih hup hd.2).1, fun q hq hm => ?_⟩
    show ((s.step e).run more).phase q = .succeeded
    by_cases he : e = .ask q
    · -- a manager answers
      subst he
      refine hlast more _ q ?_
      rw [State.step, if_pos hq, h.answers]
      exact (move_phase ..).trans (if_pos rfl)
    · have habsent : (s.step e).phase q = .absent := by
        have hp := phase_step s e q
        rw [hq] at hp
        rcases hp with hp | hp | ⟨hp, -⟩
        · exact hp
        · cases hp
        · exact absurd hp he
      exact (ih hup hd.2).2 q habsent ((List.mem_cons.mp hm).resolve_left (Ne.symm he))

end State

variable {more : List Step}

/-- Where sessions do not start managers while another one is starting, one runs
at most, and it answers. However they start them after that, it goes on to, and
each of them finds that it is running. -/
theorem one_manager_for_a_user (steps : List Step) (h : Framework.Each State.step State.Orderly {} steps) :
    let s := State.run {} steps
    (∀ p, s.phase p = .running ↔ s.answering = some p) ∧
      ∀ p more, s.answering = some p → .die p ∉ more → (s.run more).answering = some p ∧
        ∀ q, s.phase q = .absent → .ask q ∈ more → (s.run more).phase q = .succeeded := by
  intro s
  have hnobody : ({} : State).Alone := ⟨fun hp => (by cases hp), fun hp => (by rcases hp with hp | hp <;> cases hp)⟩
  have halone : s.Alone := h.invariant State.Alone.step hnobody
  refine ⟨fun p => halone.answering.symm, fun p more hp hd => ?_⟩
  obtain ⟨hup, htold⟩ := (halone.up hp).run hd
  exact ⟨hup.answers, htold⟩

/-- The manager of an earlier session has died and left its file behind. -/
theorem one_manager_for_a_user_sample :
    let s := State.run {} [.ask 1, .remove 1, .bind 1, .listen 1, .die 1, .ask 2, .remove 2, .bind 2, .listen 2]
    (∀ p, s.phase p = .running ↔ s.answering = some p) ∧
      ∀ p more, s.answering = some p → .die p ∉ more → (s.run more).answering = some p ∧
        ∀ q, s.phase q = .absent → .ask q ∈ more → (s.run more).phase q = .succeeded :=
  one_manager_for_a_user [.ask 1, .remove 1, .bind 1, .listen 1, .die 1, .ask 2, .remove 2, .bind 2, .listen 2]
    ⟨.inr fun _ => rfl, trivial, trivial, trivial, trivial, .inr fun q => by
      by_cases hq : q = 1 <;> simp [State.step, State.move, State.answering, Phase.starting, hq],
      trivial, trivial, trivial, trivial⟩

end Oxinit.Session
