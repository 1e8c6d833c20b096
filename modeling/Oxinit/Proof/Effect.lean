import Oxinit.Proof.Frame

/-!
# Effects

An abstract model of oxinit: what one call may do to what PID 1 holds, as a
relation on `Manager`s, with the state that each call relies on as its guard.
`Act` is one such effect performed by the code: between the two states the
world made moves, and at most the one call of the effect was recorded. What
reads the deadline heaps, begins a shutdown or changes the set of units is
not an effect.
-/

namespace Oxinit

open Framework (Deadline)

/-- Calls that only say where oxinit is. -/
def Call.isMark : Call → Bool
  | .request _ | .shutdown _ | .connection _ | .start _ | .exited .. | .again _ | .backoff _ | .late _
  | .hung _ | .message .. | .wallTimer => true
  | _ => false

/-- The world moves, an alarm is scheduled, or a stop is carried out. -/
def Call.isStop : Call → Bool
  | .world _ | .schedule .. | .scheduleAt .. | .stop .. | .down _ | .terminate _ => true
  | _ => false

def Call.isMove : Call → Bool
  | .world _ => true
  | _ => false

/-- The world moves, or an alarm is scheduled. -/
def Call.isWorld : Call → Bool
  | .world _ | .schedule .. | .scheduleAt .. => true
  | _ => false

theorem Call.isWorld_of_isMove {c : Call} (h : c.isMove = true) : c.isWorld = true := by
  cases c <;> first | rfl | cases h

theorem Call.isStop_of_isWorld {c : Call} (h : c.isWorld = true) : c.isStop = true := by
  cases c <;> first | rfl | cases h

/-- A timer unit is armed for `next`. -/
inductive Armed (now : Nat) (name : Name) (m : Manager) : Option Next → Manager → Prop
  | none : Armed now name m none (m.clearNext name)
  | after {delay tie due fd m'} (hdue : now + delay ≤ due)
      (h : m' = (m.push tie { due, alarm := .timerElapsed name }).setFd fd) :
      Armed now name m (some (.after delay)) (m'.setNext name (.after delay))
  | afterFailed {delay tie due fd m'} (hdue : now + delay ≤ due)
      (h : m' = (m.push tie { due, alarm := .timerElapsed name }).setFd fd) :
      Armed now name m (some (.after delay)) m'
  | at {moment tie fd m'} (h : m' = (m.pushWall tie { due := moment, alarm := .timerElapsed name }).setWallFd fd) :
      Armed now name m (some (.at moment)) (m'.setNext name (.at moment))
  | atFailed {moment tie fd m'}
      (h : m' = (m.pushWall tie { due := moment, alarm := .timerElapsed name }).setWallFd fd) :
      Armed now name m (some (.at moment)) m'

theorem Armed.mono {n n' : Nat} {name : Name} {m m' : Manager} {next : Option Next} (hn : n ≤ n')
    (h : Armed n' name m next m') : Armed n name m next m' := by
  cases h with
  | none => exact .none
  | after hdue h => exact .after ((Nat.add_le_add_right hn _).trans hdue) h
  | afterFailed hdue h => exact .afterFailed ((Nat.add_le_add_right hn _).trans hdue) h
  | «at» h => exact .at h
  | atFailed h => exact .atFailed h

/-- Arming touches the heaps and nothing else. -/
theorem Armed.frame {now : Nat} {name : Name} {m m' : Manager} {next : Option Next}
    (h : Armed now name m next m') :
    m'.instances = m.instances ∧ m'.pending = m.pending ∧ m'.pendingRestart = m.pendingRestart := by
  cases h with
  | none => exact ⟨rfl, rfl, rfl⟩
  | after hdue h => subst h; exact ⟨rfl, rfl, rfl⟩
  | afterFailed hdue h => subst h; exact ⟨rfl, rfl, rfl⟩
  | «at» h => subst h; exact ⟨rfl, rfl, rfl⟩
  | atFailed h => subst h; exact ⟨rfl, rfl, rfl⟩

/-- What comes of the backoff delay a policy has announced, if it has. -/
inductive Restarts (now : Nat) (name : Name) (m : Manager) : Option Nat → Manager → Prop
  | no : Restarts now name m none m
  | scheduled {delay tie due fd} (hd : m.shuttingDown = false) (hdue : now + delay ≤ due) :
      Restarts now name m (some delay) ((m.push tie { due, alarm := .restart name }).setFd fd)
  | cancelled {delay} (hd : m.shuttingDown = true) :
      Restarts now name m (some delay) (m.modify name Instance.cancelRestart)

/-- What a call made at `now` may do. -/
inductive Effect (now : Nat) : Option Call → Manager → Manager → Prop
  | turn {m} : Effect now none m m
  | mark {m c} (h : c.isMark = true) : Effect now (some c) m m
  | armed {m id bound b} (hb : m.sockets[id]? = some bound) : Effect now none m (m.setArmed id bound b)
  | fd {m fd} : Effect now none m (m.setFd fd)
  | wallFd {m fd} : Effect now none m (m.setWallFd fd)
  | clear {m} (h : m.shuttingDown = true) : Effect now none m (m.setPending [])
  -- The queue.
  | pump {m name} (hd : m.shuttingDown = false) (h : m.nextStartable = some name) :
      Effect now (some (.pump name)) m (m.dequeue name)
  -- Stopping.
  | stop {m name cause} : Effect now (some (.stop name cause)) m (m.dequeue name)
  | cancel {m name i} (hi : m.instances[name]? = some i) (hs : i.state = .restarting) :
      Effect now none m (m.modify name Instance.cancelRestart)
  | instant {m name i cause t} (hi : m.instances[name]? = some i) (hsv : i.unit.service = none)
      (hs : i.state ≠ .restarting) (ht : now ≤ t) :
      Effect now (some (.down name)) m (m.modify name fun i => ((i.enteredDeactivating cause).deactivated t).2)
  | terminate {m name i service cause tie due fd} (hi : m.instances[name]? = some i)
      (hsv : i.unit.service = some service) (hs : i.state = .activating ∨ i.state = .active)
      (hdue : now + service.stopSec ≤ due) :
      Effect now (some (.terminate name)) m
        (((m.modify name (Instance.enteredDeactivating cause)).push tie
          { due, alarm := .stopTimeout name }).setFd fd)
  | kill {m name i} (hi : m.instances[name]? = some i) (hs : i.state = .deactivating) :
      Effect now (some (.kill name)) m (m.modify name Instance.stopTimedOut)
  -- Starting.
  | up {m name i since ping} (hi : m.instances[name]? = some i) (hd : m.shuttingDown = false)
      (hsv : i.unit.service = none) (htm : i.unit.timer = none) (ht : now ≤ since) (hp : since ≤ ping) :
      Effect now (some (.up name)) m (m.modify name (Instance.enteredActive since ping))
  | arm {m m' name i timer since ping wall} (hi : m.instances[name]? = some i)
      (hd : m.shuttingDown = false) (htm : i.unit.timer = some timer) (ht : now ≤ since) (hp : since ≤ ping)
      (h : Armed ping name (m.modify name (Instance.enteredActive since ping)) (timer.schedule.first wall) m') :
      Effect now (some (.arm name)) m m'
  | elapsed {m m' name timer wall} (htm : m.timerOf name = some timer) (hd : m.shuttingDown = false)
      (h : Armed now name m (timer.schedule.next wall) m') : Effect now (some (.elapsed name)) m m'
  | fail {m name} : Effect now (some (.fail name)) m (m.modify name Instance.failedToStart)
  | spawnSimple {m name i service pid since ping} (hi : m.instances[name]? = some i)
      (hd : m.shuttingDown = false) (hsv : i.unit.service = some service) (hty : service.ty = .simple)
      (ht : now ≤ since) (hp : since ≤ ping) :
      Effect now (some (.spawn name)) m
        ((m.modify name (Instance.enteredActivating pid)).modify name (Instance.enteredActive since ping))
  | spawn {m name i service pid tie due fd} (hi : m.instances[name]? = some i)
      (hd : m.shuttingDown = false) (hsv : i.unit.service = some service) (hty : service.ty ≠ .simple)
      (hdue : now + service.startSec ≤ due) :
      Effect now (some (.spawn name)) m
        (((m.modify name (Instance.enteredActivating pid)).push tie
          { due, alarm := .startTimeout name }).setFd fd)
  -- Ends.
  | finished {m m' name i t} (hi : m.instances[name]? = some i) (hs : i.state = .deactivating)
      (ht : now ≤ t)
      (h : Restarts t name (m.modify name fun i => (i.deactivated t).2) (i.deactivated t).1 m') :
      Effect now (some (.finished name)) m m'
  | exited {m m' name exit i pid t} (hi : m.instances[name]? = some i) (hc : i.child = some pid)
      (hf : ¬((i.unit.service.any fun sv => sv.ty = .forking) ∧ i.state = .activating)) (ht : now ≤ t)
      (h : Restarts t name (m.modify name fun i => (i.onExit t exit).2) (i.onExit t exit).1 m') :
      Effect now (some (.exited name exit)) m m'
  | vanished {m name i t} (hi : m.instances[name]? = some i) (hs : i.state = .active)
      (hc : i.child = none) (ht : now ≤ t) (h : (i.onExit t .abnormal).1 = none) :
      Effect now (some (.vanished name)) m (m.modify name fun i => (i.onExit t .abnormal).2)
  | vanishedRestart {m name i t delay tie due fd} (hi : m.instances[name]? = some i)
      (hs : i.state = .active) (hc : i.child = none) (ht : now ≤ t)
      (h : (i.onExit t .abnormal).1 = some delay) (hdue : t + delay ≤ due) :
      Effect now (some (.vanished name)) m
        (((m.modify name fun i => (i.onExit t .abnormal).2).push tie { due, alarm := .restart name }).setFd fd)
  | forkedAway {m name i service since ping} (hi : m.instances[name]? = some i)
      (hsv : i.unit.service = some service) (hty : service.ty = .forking) (hs : i.state = .activating)
      (ht : now ≤ since) (hp : since ≤ ping) :
      Effect now none m (m.modify name (Instance.forkedAway since ping))
  -- Messages and watchdogs.
  | said {m name status} : Effect now none m (m.modify name (Instance.said status))
  | pinged {m name t} (ht : now ≤ t) : Effect now none m (m.modify name (Instance.pinged t))
  | ready {m name i since ping} (hi : m.instances[name]? = some i) (hs : i.state = .activating)
      (hw : i.unit.service.bind (·.watchdogSec) = none) (ht : now ≤ since) (hp : since ≤ ping) :
      Effect now none m (m.modify name (Instance.enteredActive since ping))
  | readyWatched {m name i since ping interval tie due fd} (hi : m.instances[name]? = some i)
      (hs : i.state = .activating) (hw : i.unit.service.bind (·.watchdogSec) = some interval)
      (ht : now ≤ since) (hp : since ≤ ping) (hdue : ping + interval ≤ due) :
      Effect now none m
        (((m.modify name (Instance.enteredActive since ping)).push tie
          { due, alarm := .watchdogCheck name }).setFd fd)
  | watched {m name i interval tie due fd} (hi : m.instances[name]? = some i)
      (hw : i.unit.service.bind (·.watchdogSec) = some interval) (hs : i.state = .active)
      (hdue : now + interval ≤ due) :
      Effect now none m ((m.push tie { due, alarm := .watchdogCheck name }).setFd fd)
  -- Requested restarts.
  | awaitRestart {m name i} (hi : m.instances[name]? = some i) (hs : isIdle i.state = false) :
      Effect now (some (.await name)) m (m.awaitRestart name)
  | takeRestart {m name} (h : name ∈ m.pendingRestart) (hs : m.stateOf name ≠ some .deactivating) :
      Effect now none m (m.takeRestart name)
  -- Children.
  | reaping {m l} : Effect now none m (m.setReaping l)

theorem Restarts.pendingRestart {now : Nat} {name : Name} {m m' : Manager} {r : Option Nat}
    (h : Restarts now name m r m') : m'.pendingRestart = m.pendingRestart := by
  cases h <;> rfl

theorem Effect.finished_pendingRestart {now : Nat} {u : Name} {m m' : Manager}
    (h : Effect now (some (.finished u)) m m') : m'.pendingRestart = m.pendingRestart := by
  cases h with
  | mark h => cases h
  | finished _ _ _ h => exact h.pendingRestart

/-- Neither a move of the world nor the scheduling of an alarm is an effect's call. -/
theorem Effect.call_not_world {now : Nat} {c : Call} {m m' : Manager} (h : Effect now (some c) m m') :
    c.isWorld = false := by
  cases h with
  | mark h => cases c <;> first | rfl | cases h
  | _ => rfl

/-- A process is forked for a service. -/
theorem Effect.spawn_get {now : Nat} {u : Name} {m m' : Manager} (h : Effect now (some (.spawn u)) m m') :
    ∃ i, m.instances[u]? = some i ∧ i.unit.service ≠ none := by
  cases h with
  | mark h => cases h
  | spawnSimple hi _ hsv | spawn hi _ hsv => exact ⟨_, hi, by simp [hsv]⟩

/-! ## What no effect changes -/

/-- On the wall clock there are only timers. -/
def Manager.WallTimers (m : Manager) : Prop := ∀ e ∈ m.timers.wallHeap, ∃ u, e.alarm = .timerElapsed u

/-- The units, the order, the cgroups, the shutdown and the alarms to handle
are the same, the queue has only lost units, and on the wall clock there are
still only timers. -/
structure Kept (m m' : Manager) : Prop where
  units : ∀ v, m'.unitOf v = m.unitOf v
  order : m'.order = m.order
  cgroups : m'.cgroups = m.cgroups
  shutdown : m'.shutdown = m.shutdown
  fired : m'.fired = m.fired
  pending : m'.pending.Sublist m.pending
  wall : m.WallTimers → m'.WallTimers

namespace Kept

variable {m m₁ m₂ : Manager}

theorem refl (m : Manager) : Kept m m := ⟨fun _ => rfl, rfl, rfl, rfl, rfl, .refl _, id⟩

theorem trans (h₁ : Kept m m₁) (h₂ : Kept m₁ m₂) : Kept m m₂ :=
  ⟨fun v => (h₂.units v).trans (h₁.units v), h₂.order.trans h₁.order, h₂.cgroups.trans h₁.cgroups,
    h₂.shutdown.trans h₁.shutdown, h₂.fired.trans h₁.fired, h₂.pending.trans h₁.pending, h₂.wall ∘ h₁.wall⟩

theorem shuttingDown (h : Kept m m₁) : m₁.shuttingDown = m.shuttingDown := by
  rw [Manager.shuttingDown, h.shutdown]
  rfl

/-- A unit keeps its definition. -/
theorem unit_eq {v : Name} {i i' : Instance} (h : Kept m m₁) (hi : m.instances[v]? = some i)
    (hi' : m₁.instances[v]? = some i') : i'.unit = i.unit := by
  have := h.units v
  rw [Manager.unitOf, Manager.unitOf, hi, hi'] at this
  exact Option.some.inj this

theorem modify {name : Name} {f : Instance → Instance} (hf : ∀ i, (f i).unit = i.unit) (m : Manager) :
    Kept m (m.modify name f) := by
  refine ⟨fun v => ?_, rfl, rfl, rfl, rfl, .refl _, id⟩
  rw [Manager.unitOf, Manager.unitOf, Manager.get_modify]
  split
  · rw [Option.map_map]
    exact congrArg (Option.map · _) (funext hf)
  · rfl

end Kept

theorem Manager.WallTimers.pushWall {m : Manager} {tie moment : Nat} {name : Name} (h : m.WallTimers) :
    (m.pushWall tie { due := moment, alarm := .timerElapsed name }).WallTimers := by
  intro e he
  rcases Deadline.mem_insert.mp he with rfl | he
  · exact ⟨name, rfl⟩
  · exact h e he

theorem Armed.kept {now : Nat} {name : Name} {m m' : Manager} {next : Option Next} (h : Armed now name m next m') :
    Kept m m' := by
  cases h with
  | none => exact ⟨fun _ => rfl, rfl, rfl, rfl, rfl, .refl _, id⟩
  | after hdue h => subst h; exact ⟨fun _ => rfl, rfl, rfl, rfl, rfl, .refl _, id⟩
  | afterFailed hdue h => subst h; exact ⟨fun _ => rfl, rfl, rfl, rfl, rfl, .refl _, id⟩
  | «at» h => subst h; exact ⟨fun _ => rfl, rfl, rfl, rfl, rfl, .refl _, .pushWall⟩
  | atFailed h => subst h; exact ⟨fun _ => rfl, rfl, rfl, rfl, rfl, .refl _, .pushWall⟩

theorem Restarts.kept {now : Nat} {name : Name} {m m' : Manager} {r : Option Nat} (h : Restarts now name m r m') :
    Kept m m' := by
  cases h with
  | no => exact .refl m
  | scheduled => exact ⟨fun _ => rfl, rfl, rfl, rfl, rfl, .refl _, id⟩
  | cancelled => exact .modify Instance.cancelRestart_unit m

/-- Adding to a heap and setting a timerfd change nothing of this. -/
theorem Kept.pushed {m m' : Manager} (h : Kept m m') (tie : Nat) (e : Entry) (fd : Option Nat) :
    Kept m ((m'.push tie e).setFd fd) :=
  h.trans ⟨fun _ => rfl, rfl, rfl, rfl, rfl, .refl _, id⟩

/-- No call changes the definition of a unit, or forgets a shutdown. -/
theorem Effect.kept {now : Nat} {c : Option Call} {m m' : Manager} (h : Effect now c m m') : Kept m m' := by
  cases h with
  | turn | mark => exact .refl m
  | armed | fd | wallFd | awaitRestart | takeRestart | reaping => exact ⟨fun _ => rfl, rfl, rfl, rfl, rfl, .refl _, id⟩
  | clear => exact ⟨fun _ => rfl, rfl, rfl, rfl, rfl, List.nil_sublist _, id⟩
  | pump | stop => exact ⟨fun _ => rfl, rfl, rfl, rfl, rfl, List.filter_sublist, id⟩
  | cancel => exact .modify Instance.cancelRestart_unit m
  | instant => exact .modify (by simp [Instance.enteredDeactivating]) m
  | terminate => exact (Kept.modify (by intro _; rfl) m).pushed ..
  | kill | up | fail | said | pinged | ready | forkedAway => exact .modify (by intro _; rfl) m
  | arm _ _ _ _ _ h => exact (Kept.modify (by intro _; rfl) m).trans h.kept
  | elapsed _ _ h => exact h.kept
  | spawnSimple => exact (Kept.modify (by intro _; rfl) m).trans (.modify (by intro _; rfl) _)
  | spawn => exact (Kept.modify (by intro _; rfl) m).pushed ..
  | finished _ _ _ h => exact (Kept.modify (by simp) m).trans h.kept
  | exited _ _ _ _ h => exact (Kept.modify (by simp) m).trans h.kept
  | vanished => exact .modify (by simp) m
  | vanishedRestart => exact (Kept.modify (by simp) m).pushed ..
  | readyWatched => exact (Kept.modify (by intro _; rfl) m).pushed ..
  | watched => exact (Kept.refl m).pushed ..

end Oxinit
