import Oxinit.Proof.Effect

/-!
# What an effect does to one unit

`Change now v c i i'`: an effect with call `c` takes the instance `i` of `v`
to `i'`. `Effect.change` says that nothing else happens to an instance, so
what holds of each unit by itself follows from its changes.
-/

namespace Oxinit

inductive Change (now : Nat) (v : Name) : Option Call → Instance → Instance → Prop
  | cancel {i} (hs : i.state = .restarting) : Change now v none i i.cancelRestart
  | instant {i cause t} (hsv : i.unit.service = none) (hs : i.state ≠ .restarting) (ht : now ≤ t) :
      Change now v (some (.down v)) i ((i.enteredDeactivating cause).deactivated t).2
  | terminate {i service cause} (hsv : i.unit.service = some service)
      (hs : i.state = .activating ∨ i.state = .active) :
      Change now v (some (.terminate v)) i (i.enteredDeactivating cause)
  | kill {i} (hs : i.state = .deactivating) : Change now v (some (.kill v)) i i.stopTimedOut
  | up {i since ping} (hsv : i.unit.service = none) (htm : i.unit.timer = none) :
      Change now v (some (.up v)) i (i.enteredActive since ping)
  | arm {i timer since ping} (htm : i.unit.timer = some timer) :
      Change now v (some (.arm v)) i (i.enteredActive since ping)
  | fail {i} : Change now v (some (.fail v)) i i.failedToStart
  | spawnSimple {i service pid since ping} (hsv : i.unit.service = some service) (hty : service.ty = .simple) :
      Change now v (some (.spawn v)) i ((i.enteredActivating pid).enteredActive since ping)
  | spawn {i service pid} (hsv : i.unit.service = some service) (hty : service.ty ≠ .simple) :
      Change now v (some (.spawn v)) i (i.enteredActivating pid)
  | finished {i t} (hs : i.state = .deactivating) (ht : now ≤ t) :
      Change now v (some (.finished v)) i (i.deactivated t).2
  | finishedDown {i t} (hs : i.state = .deactivating) (hr : (i.deactivated t).1 ≠ none) :
      Change now v (some (.finished v)) i (i.deactivated t).2.cancelRestart
  | exited {exit i pid t} (hc : i.child = some pid)
      (hf : ¬((i.unit.service.any fun sv => sv.ty = .forking) ∧ i.state = .activating)) (ht : now ≤ t) :
      Change now v (some (.exited v exit)) i (i.onExit t exit).2
  | exitedDown {exit i pid t} (hc : i.child = some pid)
      (hf : ¬((i.unit.service.any fun sv => sv.ty = .forking) ∧ i.state = .activating))
      (hr : (i.onExit t exit).1 ≠ none) :
      Change now v (some (.exited v exit)) i (i.onExit t exit).2.cancelRestart
  | vanished {i t} (hs : i.state = .active) (hc : i.child = none) :
      Change now v (some (.vanished v)) i (i.onExit t .abnormal).2
  | forkedAway {i service since ping} (hsv : i.unit.service = some service) (hty : service.ty = .forking)
      (hs : i.state = .activating) : Change now v none i (i.forkedAway since ping)
  | said {i status} : Change now v none i (i.said status)
  | pinged {i t} : Change now v none i (i.pinged t)
  | ready {i since ping} (hs : i.state = .activating) : Change now v none i (i.enteredActive since ping)

/-- The instance of a unit is as it was, or has changed. -/
def Changes (now : Nat) (c : Option Call) (m m' : Manager) : Prop :=
  ∀ v, m'.instances[v]? = m.instances[v]? ∨
    ∃ i i', m.instances[v]? = some i ∧ m'.instances[v]? = some i' ∧ Change now v c i i'

namespace Changes

variable {now : Nat} {c : Option Call} {m m' : Manager} {name : Name}

theorem same (h : m'.instances = m.instances) : Changes now c m m' := fun v => .inl (by rw [h])

theorem one {i i' : Instance} (hne : ∀ v, name ≠ v → m'.instances[v]? = m.instances[v]?)
    (hi : m.instances[name]? = some i) (hi' : m'.instances[name]? = some i') (h : Change now name c i i') :
    Changes now c m m' := by
  intro v
  by_cases e : name = v
  · exact .inr (e ▸ ⟨i, i', hi, hi', h⟩)
  · exact .inl (hne v e)

/-- An instance has changed, if there is one. -/
theorem modify {f : Instance → Instance} (he : m'.instances = (m.modify name f).instances)
    (h : ∀ i, m.instances[name]? = some i → Change now name c i (f i)) : Changes now c m m' := by
  intro v
  rw [he, Manager.get_modify]
  split
  · rename_i e
    subst e
    cases hi : m.instances[name]? with
    | none => exact .inl rfl
    | some i => exact .inr ⟨i, f i, rfl, rfl, h i hi⟩
  · exact .inl rfl

theorem set {i : Instance} {f : Instance → Instance} (he : m'.instances = (m.modify name f).instances)
    (hi : m.instances[name]? = some i) (h : Change now name c i (f i)) : Changes now c m m' :=
  modify he fun j hj => by
    rw [hi] at hj
    cases hj
    exact h

end Changes

theorem Restarts.changes {now t : Nat} {name : Name} {c : Option Call} {m m' : Manager} {f : Instance → Instance}
    {r : Option Nat} {i : Instance} (h : Restarts t name (m.modify name f) r m') (hi : m.instances[name]? = some i)
    (hf : Change now name c i (f i)) (hr : r ≠ none → Change now name c i (f i).cancelRestart) :
    Changes now c m m' := by
  cases h with
  | no => exact .set rfl hi hf
  | scheduled => exact .set rfl hi hf
  | cancelled =>
    have hj := Manager.get_modify_self (f := f) hi
    exact .one (fun v e => (Manager.get_modify_ne e).trans (Manager.get_modify_ne e)) hi
      (Manager.get_modify_self hj) (hr (by simp))

/-- Every call changes instances only in the ways of `Change`. -/
theorem Effect.change {now : Nat} {c : Option Call} {m m' : Manager} (h : Effect now c m m') : Changes now c m m' := by
  cases h with
  | turn | mark | armed | fd | wallFd | clear | pump | stop | watched | awaitRestart | takeRestart | reaping =>
    exact .same rfl
  | cancel hi hs => exact .set rfl hi (.cancel hs)
  | instant hi hsv hs ht => exact .set rfl hi (.instant hsv hs ht)
  | terminate hi hsv hs => exact .set rfl hi (.terminate hsv hs)
  | kill hi hs => exact .set rfl hi (.kill hs)
  | up hi _ hsv htm => exact .set rfl hi (.up hsv htm)
  | arm hi _ htm _ _ h => exact .set h.frame.1 hi (.arm htm)
  | elapsed _ _ h => exact .same h.frame.1
  | fail => exact .modify rfl fun _ _ => .fail
  | spawnSimple hi _ hsv hty =>
    exact .one (fun v e => (Manager.get_modify_ne e).trans (Manager.get_modify_ne e)) hi
      (Manager.get_modify_self (Manager.get_modify_self hi)) (.spawnSimple hsv hty)
  | spawn hi _ hsv hty => exact .set rfl hi (.spawn hsv hty)
  | finished hi hs ht h => exact h.changes hi (.finished hs ht) fun hr => .finishedDown hs hr
  | exited hi hc hf ht h => exact h.changes hi (.exited hc hf ht) fun hr => .exitedDown hc hf hr
  | vanished hi hs hc => exact .set rfl hi (.vanished hs hc)
  | vanishedRestart hi hs hc => exact .set rfl hi (.vanished hs hc)
  | forkedAway hi hsv hty hs => exact .set rfl hi (.forkedAway hsv hty hs)
  | said => exact .modify rfl fun _ _ => .said
  | pinged => exact .modify rfl fun _ _ => .pinged
  | ready hi hs => exact .set rfl hi (.ready hs)
  | readyWatched hi hs => exact .set rfl hi (.ready hs)

end Oxinit
