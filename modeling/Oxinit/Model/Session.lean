import Mathlib.Logic.Function.Basic

/-!
# One manager for a user

How `user.rs` starts: whether a manager answers on the control socket, and the
steps of `Control::bind` if none does. Any number of sessions start one, and
their steps interleave.
-/

namespace Oxinit.Session

/-- How far a process is that was started as a user's manager. -/
inductive Phase
  | absent
  /-- Nobody answered. -/
  | asked
  /-- The file at the path has been removed. -/
  | removed
  /-- Bound, and not yet listening. -/
  | bound
  /-- In the loop. -/
  | running
  /-- Left with success: there is a manager. -/
  | succeeded
  | failed
  /-- Gone, in whatever way, with its socket's file left behind. -/
  | dead
  deriving DecidableEq

/-- Between having asked and listening. -/
def Phase.starting : Phase → Bool
  | .asked | .removed | .bound => true
  | _ => false

/-- The processes, and the file of the control socket. -/
structure State where
  phase : Nat → Phase := fun _ => .absent
  /-- Whose socket the file at the path is. -/
  file : Option Nat := none

/-- What one of the processes does. -/
inductive Step
  | ask (p : Nat)
  | remove (p : Nat)
  | bind (p : Nat)
  | listen (p : Nat)
  | die (p : Nat)
  deriving DecidableEq

namespace State

variable (s : State)

/-- A process gets on. -/
def move (p : Nat) (phase : Phase) : State := { s with phase := Function.update s.phase p phase }

/-- Whether a manager is listening on the control socket, and which. That a
process can make the socket it asks with is taken for granted: one that cannot
takes it that nobody is listening. -/
def answering : Option Nat := s.file.filter fun p => s.phase p = .running

/-- A step of a process. To bind an address that is in use is an error. -/
def step : Step → State
  | .ask p =>
    if s.phase p = .absent then s.move p (if s.answering.isSome then .succeeded else .asked) else s
  | .remove p => if s.phase p = .asked then { s.move p .removed with file := none } else s
  | .bind p =>
    if s.phase p = .removed then
      if s.file.isSome then s.move p .failed else { s.move p .bound with file := some p }
    else s
  | .listen p => if s.phase p = .bound then s.move p .running else s
  | .die p => if (s.phase p).starting || s.phase p = .running then s.move p .dead else s

/-- Any sequence of steps. -/
def run (steps : List Step) : State := steps.foldl step s

end State

end Oxinit.Session
