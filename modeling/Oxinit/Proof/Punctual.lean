import Oxinit.Proof.Ends
import Oxinit.Proof.Hangs

/-!
# Messages sent in time

When a message of a main process is queued on the notify socket, and the
socket is read before a deadline that has passed is handled, the message
counts: it has been seen when the deadline is.
-/

namespace Oxinit

/-- What is recorded on the way from `s` to `s'` is as `P` says. -/
def Adds (P : Call × Machine → Prop) (s s' : Supervisor) : Prop :=
  ∃ new, s'.history = new ++ s.history ∧ ∀ x ∈ new, P x

namespace Adds

variable {P Q : Call × Machine → Prop} {s s₁ s₂ : Supervisor}

theorem refl (s : Supervisor) : Adds P s s := ⟨[], rfl, by simp⟩

theorem trans (h₁ : Adds P s s₁) (h₂ : Adds P s₁ s₂) : Adds P s s₂ := by
  obtain ⟨n₁, e₁, p₁⟩ := h₁
  obtain ⟨n₂, e₂, p₂⟩ := h₂
  exact ⟨n₂ ++ n₁, by rw [e₂, e₁, List.append_assoc], fun x hx => (List.mem_append.mp hx).elim (p₂ x) (p₁ x)⟩

theorem mono (h : Adds P s s₁) (hp : ∀ x, P x → Q x) : Adds Q s s₁ :=
  h.imp fun _ ⟨e, p⟩ => ⟨e, fun x hx => hp x (p x hx)⟩

theorem and (h : Adds P s s₁) (h' : Adds Q s s₁) : Adds (fun x => P x ∧ Q x) s s₁ := by
  obtain ⟨n, e, p⟩ := h
  obtain ⟨n', e', p'⟩ := h'
  cases List.append_cancel_right (e.symm.trans e')
  exact ⟨n, e, fun x hx => ⟨p x hx, p' x hx⟩⟩

theorem same (h : s₁.history = s.history) : Adds P s s₁ := ⟨[], h, by simp⟩

theorem one {c : Call} (h : s₁.history = (c, s.toMachine) :: s.history) (hp : P (c, s.toMachine)) : Adds P s s₁ :=
  ⟨[(c, s.toMachine)], h, by simpa using hp⟩

theorem turn (w : World) (s : Supervisor) (hp : ∀ x, x.1.isMove = true → P x) : Adds P s (s.turn w) := by
  obtain ⟨new, e, p, -⟩ := Supervisor.turn_log w s
  exact ⟨new, e, fun x hx => hp x (p x hx)⟩

theorem all {new : List (Call × Machine)} (h : Adds P s s₁) (hn : s₁.history = new ++ s.history) : ∀ x ∈ new, P x := by
  obtain ⟨n, e, p⟩ := h
  cases List.append_cancel_right (hn.symm.trans e)
  exact p

end Adds

namespace Supervisor

variable {w : World} {e : Event} {s s' : Supervisor} {u : Name}

/-! ## Who stops a unit -/

end Supervisor

/-! ## A message on its way -/

/-- A message was sent before, by a process forked before. -/
structure Since (t : Nat) (pid : Pid) (s : Supervisor) : Prop where
  time : t ≤ s.kernel.now
  forked : pid < s.kernel.nextPid

namespace Supervisor

variable {w : World} {e : Event} {s s' : Supervisor} {u : Name} {t : Nat} {message : Message}

/-- `WATCHDOG=1` from the service `a`. -/
def stillHere : Message := { pid := 2, watchdog := true }

/-- The service `a` becomes ready, and says that it is still there six seconds
later, five seconds before oxinit wakes up. -/
def busyWorld : World :=
  scripted [(8, [.datagram { pid := 2, ready := true }]),
    (14, [.pass (Duration.fromSecs 6), .datagram stillHere, .pass (Duration.fromSecs 5)])]

/-- The machine when it wakes up. -/
def awake : Supervisor := run busyWorld (booted busyWorld [bootTarget ["a"], watchedUnit "a"]) [.notify, .sleep]

end Supervisor

end Oxinit
