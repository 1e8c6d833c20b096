import Oxinit.Proof.Admission

/-!
# Failed requirements

Only the queue asks whether a requirement of a unit has failed. Where no other
path that starts a unit comes upon a failed requirement, none comes up with one.
-/

namespace Oxinit

/-- `start` is not called for a unit with a failed requirement. The queue sees to
that, so this is about the other paths. -/
def unblocked (e : Call × Machine) : Bool :=
  match e.1 with
  | .start u => e.2.shuttingDown || (e.2.failedRequirement u).isNone
  | _ => true

def Unblocked (l : List (Call × Machine)) : Prop := ∀ e ∈ l, unblocked e = true

instance (l : List (Call × Machine)) : Decidable (Unblocked l) :=
  inferInstanceAs (Decidable (∀ e ∈ l, unblocked e = true))

/-- What comes up has no failed requirement. -/
def heeds (e : Call × Machine) : Bool :=
  (Call.raised (some e.1)).all fun u => (e.2.failedRequirement u).isNone

/-- No unit came up, and no process was forked, with a failed requirement. -/
def Heeded (l : List (Call × Machine)) : Prop := ∀ e ∈ l, heeds e = true

instance (l : List (Call × Machine)) : Decidable (Heeded l) := inferInstanceAs (Decidable (∀ e ∈ l, heeds e = true))

/-- From `s` to `s'`, `u` is refused: it is `Failed`, and nothing has come up. -/
structure Refused (u : Name) (s s' : Supervisor) : Prop where
  failed : s'.stateOf u = some .failed
  log : ∃ new, s'.history = new ++ s.history ∧ ∀ e ∈ new, Call.raised (some e.1) = none

/-- What the queue answers when it comes to `u`: it refuses a unit with a failed
requirement, and starts any other as the other paths do. -/
structure Answers (w : World) (u : Name) (s : Supervisor) : Prop where
  refused : (s.failedRequirement u).isSome = true → Refused u s (Supervisor.pumpTurn w u s)
  started : s.failedRequirement u = none →
    Supervisor.pumpTurn w u s = Supervisor.start w u ((s.note (.pump u)).update (·.dequeue u))

variable {w : World} {s s' : Supervisor} {u v : Name}

theorem Manager.failedRequirement_eq_none {m : Manager} : m.failedRequirement u = none ↔
    ∀ unit, m.unitOf u = some unit → ∀ dep ∈ unit.deps.requires, m.stateOf dep ≠ some .failed := by
  simp only [failedRequirement, unitOf]
  cases m.instances[u]? <;> simp

/-! ## What is stopped does not fail -/

namespace Supervisor

/-- A stop makes no unit fail. -/
theorem stop_not_failed (h : s.stateOf v ≠ some .failed) : (stop w u .requested s).stateOf v ≠ some .failed := by
  by_cases e : u = v
  · subst e
    cases hi : s.instances[u]? with
    | none => simp [Manager.stateOf, stop_get_none hi]
    | some i =>
      obtain ⟨i', hi', h'⟩ := stop_get_self (w := w) (c := .requested) hi
      rw [Manager.stateOf, hi, Option.map_some] at h
      rw [Manager.stateOf, hi', Option.map_some]
      cases h' with
      | cancelled hs => simp [Instance.cancelRestart_state hs]
      | instant t hs hsv => simp [Instance.enteredDeactivating, Instance.deactivated]
      | already hsv hs => exact h
      | terminated hsv hs => simp [Instance.enteredDeactivating]
  · rwa [Manager.stateOf, stop_get_ne e]

theorem exclude_not_failed (h : s.stateOf v ≠ some .failed) : (exclude w u s).stateOf v ≠ some .failed := by
  simp only [exclude]
  generalize s.conflictingWith u = l
  induction l generalizing s with
  | nil => exact h
  | cons n l ih =>
    rw [List.foldl_cons]
    split
    · exact ih (stop_not_failed h)
    · exact ih h

/-- To stop rivals makes no requirement fail. -/
theorem exclude_failedRequirement (h : s.failedRequirement u = none) : (exclude w u s).failedRequirement u = none := by
  rw [Manager.failedRequirement_eq_none] at h ⊢
  intro unit hu dep hdep
  rw [(exclude_chores w u s).kept.units] at hu
  exact exclude_not_failed (h unit hu dep hdep)

/-- The queue refuses a unit with a failed requirement and starts any other. -/
theorem pumpTurn_answers (w : World) (u : Name) (s : Supervisor) : Answers w u s := by
  have hq : ((s.note (.pump u)).update (·.dequeue u)).failedRequirement u = s.failedRequirement u := rfl
  constructor
  · intro hf
    obtain ⟨dep, hf⟩ := Option.isSome_iff_exists.mp hf
    simp only [pumpTurn, hq, hf]
    refine ⟨?_, [(.fail u, _), (.pump u, _)], rfl, by simp [Call.raised]⟩
    simp only [Manager.failedRequirement, Option.bind_eq_some_iff] at hf
    obtain ⟨i, hi, -⟩ := hf
    have hi' := Manager.get_modify_self (m := s.dequeue u) (f := Instance.failedToStart) hi
    exact congrArg (Option.map (·.state)) hi'
  · intro hf
    simp only [pumpTurn, hq, hf]

end Supervisor

/-! ## Runs -/

theorem heeded_admits (w : World) : Admits w (unblocked · = true) (fun u m => m.failedRequirement u = none)
    fun s => Heeded s.history where
  queued hierarchy kernel e he := by
    have := Supervisor.queued_moves w hierarchy kernel e he
    cases hc : e.1 <;> simp [hc, Call.isMove] at this
    simp [heeds, hc, Call.raised]
  act h hs hq := by
    refine h.log hs (fun e he => ?_) fun c m hc hm => ?_
    · cases hc : e.1 <;> simp [hc, Call.isWorld] at he <;> simp [heeds, hc, Call.raised]
    · cases hr : Call.raised (some c) with
      | none => simp [heeds, hr]
      | some u => simp [heeds, hr, hm, hq u (hc ▸ hr)]
  start {s u} _ hd hok := by
    simp only [unblocked, hd, Bool.false_or, Option.isNone_iff_eq_none] at hok
    exact Supervisor.exclude_failedRequirement (s := s.note (.start u)) hok
  update hs _ := hs
  insert hs _ := hs
  keep hs := hs

namespace Supervisor

/-- A failed requirement blocks: in a run in which no path but the queue starts a
unit with a failed requirement, no unit comes up with one, and the queue refuses
such a unit and starts any other like the other paths. -/
theorem failed_requirement_blocks (hr : Reachable w s) (hok : Unblocked s.history) :
    Heeded s.history ∧ ∀ u s', Answers w u s' :=
  ⟨(heeded_admits w).reachable hr hok, fun u s' => pumpTurn_answers w u s'⟩

/-- `a` requires a service that exits with status 1 before it is up. -/
def dependent : List Unit :=
  [bootTarget ["a"], serviceUnit "a" { requires := ["b"], after := ["b"] } .simple .no, serviceUnit "b" {} .notify .no]

/-- The script of a world in which the first process fails. -/
def failing : World := scripted [(8, [.exit 2 { exitStatus := some 1 }])]

theorem failed_requirement_blocks_sample :
    Heeded (run failing (booted failing dependent) [.sigchld, .pump]).history ∧ ∀ u s', Answers failing u s' :=
  failed_requirement_blocks (run_reachable _ _ _) (by decide +kernel)

/-- A request starts a unit with a failed requirement. -/
theorem request_starts_in_spite_of_a_failed_requirement :
    let s := run failing (booted failing dependent) [.sigchld, .pump, .request (.start "a")]
    Reachable failing s ∧ ¬Heeded s.history :=
  ⟨run_reachable _ _ _, by decide +kernel⟩

end Supervisor

end Oxinit
