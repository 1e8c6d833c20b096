import Oxinit.Model.Instance

/-!
# One unit's state machine

What the transitions of an `Instance` do to its unit, its state and its
child.
-/

namespace Oxinit

/-- Neither up nor on the way up or down. -/
def State.down : State → Bool
  | .inactive | .failed | .restarting => true
  | _ => false

theorem State.down_of_idle {s : State} (h : isIdle s = true) : s.down = true := by
  cases s <;> first | rfl | cases h

namespace Instance

variable {now : Nat} {exit : Exit} {cause : StopCause} {i : Instance}

/-! ## The unit -/

@[simp] theorem forget_unit (now : Nat) (i : Instance) : (i.forget now).unit = i.unit := by
  simp only [forget]
  repeat' split
  all_goals rfl

@[simp] theorem scheduleRestart_unit (now : Nat) (exit : Exit) (i : Instance) :
    (i.scheduleRestart now exit).2.unit = i.unit := by
  simp only [scheduleRestart]
  split <;> exact forget_unit now i

@[simp] theorem deactivated_unit (now : Nat) (i : Instance) : (i.deactivated now).2.unit = i.unit := by
  simp only [deactivated]
  split <;> simp

@[simp] theorem onExit_unit (now : Nat) (exit : Exit) (i : Instance) : (i.onExit now exit).2.unit = i.unit := by
  simp only [onExit]
  repeat' split
  all_goals simp

@[simp] theorem cancelRestart_unit (i : Instance) : i.cancelRestart.unit = i.unit := by
  simp only [cancelRestart]
  split <;> rfl

/-! ## The state -/

theorem cancelRestart_state (h : i.state = .restarting) : i.cancelRestart.state = .inactive := by
  rw [cancelRestart, if_pos h]

/-- Without a restart the unit is idle, with one it is `Restarting`. -/
theorem scheduleRestart_state (now : Nat) (exit : Exit) (i : Instance) :
    ((i.scheduleRestart now exit).1 = none ∧ isIdle (i.scheduleRestart now exit).2.state = true) ∨
      ((i.scheduleRestart now exit).1 ≠ none ∧ (i.scheduleRestart now exit).2.state = .restarting) := by
  simp only [scheduleRestart]
  split
  · left
    split <;> exact ⟨rfl, rfl⟩
  · exact .inr ⟨by simp, rfl⟩

/-- The end of a stop leaves a unit idle, or waiting for its restart. -/
theorem deactivated_state (now : Nat) (i : Instance) :
    ((i.deactivated now).1 = none ∧ isIdle (i.deactivated now).2.state = true) ∨
      ((i.deactivated now).1 ≠ none ∧ (i.deactivated now).2.state = .restarting) := by
  simp only [deactivated]
  split
  · exact scheduleRestart_state ..
  all_goals
    left
    split <;> exact ⟨rfl, rfl⟩

/-- The end of the main process does not end a stop. -/
theorem onExit_deactivating (now : Nat) (exit : Exit) (h : i.state = .deactivating) :
    i.onExit now exit = (none, { i with child := none }) := by
  simp [onExit, h]

theorem onExit_state (now : Nat) (exit : Exit) (h : i.state ≠ .deactivating) :
    ((i.onExit now exit).1 = none ∧ isIdle (i.onExit now exit).2.state = true) ∨
      ((i.onExit now exit).1 ≠ none ∧ (i.onExit now exit).2.state = .restarting) := by
  simp only [onExit, h, ↓reduceIte]
  split
  · exact scheduleRestart_state ..
  · exact scheduleRestart_state ..

theorem onExit_idle {now : Nat} {exit : Exit} (h : i.state ≠ .deactivating) (hn : (i.onExit now exit).1 = none) :
    isIdle (i.onExit now exit).2.state = true :=
  ((onExit_state now exit h).resolve_right fun h => h.1 hn).2

theorem onExit_restarting {now : Nat} {exit : Exit} (h : i.state ≠ .deactivating)
    (hn : (i.onExit now exit).1 ≠ none) : (i.onExit now exit).2.state = .restarting :=
  ((onExit_state now exit h).resolve_left fun h => hn h.1).2

/-- To forget the past is not to change the policy. -/
@[simp] theorem forget_policy (now : Nat) (i : Instance) : (i.forget now).policy = i.policy := by
  simp only [policy, forget_unit]

/-- What has no restart policy is not restarted. -/
theorem onExit_no {now : Nat} {exit : Exit} (h : i.policy = .no) (hs : i.state ≠ .deactivating) :
    (i.onExit now exit).1 = none := by
  have hp : ∀ j : Instance, j.policy = .no → (j.scheduleRestart now exit).1 = none := by
    intro j hj
    rw [← forget_policy now] at hj
    have hn : shouldRestart ({ j.forget now with activeSince := none } : Instance).policy exit = false :=
      congrArg (shouldRestart · exit) hj
    simp only [scheduleRestart]
    rw [if_pos hn]
  simp only [onExit, hs, ↓reduceIte]
  split
  · exact hp _ h
  · exact hp _ h

theorem deactivated_idle_of_none {now : Nat} (hn : (i.deactivated now).1 = none) :
    isIdle (i.deactivated now).2.state = true :=
  ((deactivated_state now i).resolve_right fun h => h.1 hn).2

theorem deactivated_restarting {now : Nat} (hn : (i.deactivated now).1 ≠ none) :
    (i.deactivated now).2.state = .restarting :=
  ((deactivated_state now i).resolve_left fun h => hn h.1).2

/-- What is not a service has no restart policy. -/
theorem deactivated_idle (now : Nat) (h : i.unit.service = none) : isIdle (i.deactivated now).2.state = true := by
  rcases deactivated_state now i with h' | ⟨h', -⟩
  · exact h'.2
  · refine absurd ?_ h'
    simp only [deactivated]
    split
    · simp [scheduleRestart, policy, h, shouldRestart]
    all_goals rfl

/-- A unit that runs no process is down at once. -/
theorem instant_idle (cause : StopCause) (now : Nat) (h : i.unit.service = none) :
    isIdle ((i.enteredDeactivating cause).deactivated now).2.state = true :=
  deactivated_idle (i := i.enteredDeactivating cause) now h

theorem deactivated_down (now : Nat) (i : Instance) : (i.deactivated now).2.state.down = true := by
  rcases deactivated_state now i with ⟨-, h⟩ | ⟨-, h⟩
  · exact State.down_of_idle h
  · rw [h]
    rfl

theorem onExit_down (now : Nat) (exit : Exit) (h : i.state ≠ .deactivating) :
    (i.onExit now exit).2.state.down = true := by
  rcases onExit_state now exit h with ⟨-, h⟩ | ⟨-, h⟩
  · exact State.down_of_idle h
  · rw [h]
    rfl

theorem cancelRestart_down (h : i.state.down = true) : i.cancelRestart.state.down = true := by
  simp only [cancelRestart]
  split
  · rfl
  · exact h

/-! ## The child -/

theorem deactivated_child (now : Nat) (i : Instance) : (i.deactivated now).2.child = none := by
  simp only [deactivated]
  split
  · simp only [scheduleRestart, forget]
    repeat' split
    all_goals rfl
  all_goals rfl

theorem onExit_child (now : Nat) (exit : Exit) (i : Instance) : (i.onExit now exit).2.child = none := by
  simp only [onExit, scheduleRestart, forget]
  repeat' split
  all_goals rfl

theorem cancelRestart_child (h : i.child = none) : i.cancelRestart.child = none := by
  simp only [cancelRestart]
  split
  · rfl
  · exact h

end Instance

end Oxinit
