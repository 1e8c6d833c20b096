import Mathlib.Data.Finset.Basic
import Oxinit.Framework.Deadlines
import Oxinit.Model.Graph
import Oxinit.Model.Instance
import Oxinit.Model.Schedule

/-!
# The supervisor's state

`Manager` is what PID 1 holds (the source's `Supervisor`, `Timers`, `Cgroups`
and `Sockets`), with the questions asked of it that change nothing; `Machine`
adds the kernel it runs on, and `Supervisor` the history: every call that the
results here speak of, with the machine it found.
-/

namespace Oxinit

open Framework (Deadline)

/-- What a deadline means when it fires. -/
inductive Alarm
  | restart (unit : Name)
  | watchdogCheck (unit : Name)
  | stopTimeout (unit : Name)
  | timerElapsed (unit : Name)
  | startTimeout (unit : Name)
  deriving DecidableEq

/-- A deadline, and what is due at it. -/
abbrev Entry := Deadline Nat Alarm

/-- The two deadline heaps, and when each one's timerfd fires. -/
structure Timers where
  heap : List Entry := []
  fd : Option Nat := none
  wallHeap : List Entry := []
  wallFd : Option Nat := none

/-- The service cgroups. A handle's id is its index; nothing is ever removed. -/
structure Cgroups where
  /-- Whether there is a hierarchy to create them in. -/
  hierarchy : Bool := true
  handles : List Name := []

/-- Create `unit`'s cgroup and open its `cgroup.events`, if there is a
hierarchy to create it in and that succeeds. -/
def Cgroups.add (c : Cgroups) (unit : Name) (ok : Bool) : Cgroups :=
  if c.hierarchy && ok then { c with handles := c.handles ++ [unit] } else c

/-- The cgroup of a unit, if there is one. -/
def Cgroups.get (c : Cgroups) (unit : Name) : Option Name := c.handles.find? (· = unit)

/-- One bound descriptor. Its id is its index. -/
structure Bound where
  unit : Name
  service : Name
  address : Listen
  /-- Whether it is registered with epoll. -/
  armed : Bool := false
  deriving DecidableEq

/-- What a machine goes down for. -/
inductive Action
  | powerOff
  | reboot
  | halt
  deriving DecidableEq

/-- A shutdown in progress. -/
structure Shutdown where
  action : Action
  started : Nat
  deriving DecidableEq

namespace Shutdown

/-- How long the whole shutdown may take. -/
def deadline : Nat := Duration.fromSecs 90

/-- Whether the units are waited for no longer. -/
def overdue (now : Nat) (s : Shutdown) : Bool := deadline < now - s.started

/-- Until `overdue` turns true, and a moment past it. -/
def remaining (now : Nat) (s : Shutdown) : Nat :=
  (deadline - (now - s.started)) + Duration.fromMillis 10

end Shutdown

/-- What the supervisor keeps in memory. -/
structure Manager where
  instances : Std.TreeMap Name Instance := ∅
  /-- Resolved start order. -/
  order : List Name := []
  timers : Timers := {}
  cgroups : Cgroups := {}
  sockets : List Bound := []
  /-- Queued to start, in resolved order, and not started yet. -/
  pending : List Name := []
  /-- Units an `oxctl restart` is waiting to start again. -/
  pendingRestart : Finset Name := ∅
  /-- When each armed timer unit next fires. -/
  nextElapse : Std.TreeMap Name Next := ∅
  shutdown : Option Shutdown := none
  /-- The alarms `on_timer` or `on_wall_timer` has taken from its heap and not
  come to. -/
  fired : List Entry := []
  /-- The children `on_sigchld` has reaped and not come to. -/
  reaping : List (Pid × WaitStatus) := []

namespace Manager

variable (m : Manager)

/-- The state of a unit. -/
def stateOf (name : Name) : Option State := m.instances[name]?.map (·.state)

/-- The definition of a unit. -/
def unitOf (name : Name) : Option Unit := m.instances[name]?.map (·.unit)

/-- The service of a unit, if it is one. -/
def serviceOf (name : Name) : Option Service := (m.unitOf name).bind Unit.service

/-- The timer of a unit, if it is one. -/
def timerOf (name : Name) : Option Timer := (m.unitOf name).bind Unit.timer

/-- Whether a unit by this name was loaded. -/
def knows (name : Name) : Bool := m.instances.contains name

/-- Whether a unit has ever come up. -/
def reached (name : Name) : Bool := m.instances[name]?.any (·.reached)

/-- Whether a unit is known and not idle. -/
def busy (name : Name) : Bool := m.instances[name]?.any fun i => !isIdle i.state

/-- Whether a unit is known and idle. -/
def idle (name : Name) : Bool := m.instances[name]?.any fun i => isIdle i.state

/-- Whether a shutdown has begun. -/
def shuttingDown : Bool := m.shutdown.isSome

/-- Whether every unit this one is `after` has finished activating. -/
def orderingSatisfied (name : Name) : Bool :=
  match m.instances[name]? with
  | none => false
  | some i =>
    i.unit.deps.after.all fun dep =>
      if m.pending.any (· = dep) then false
      else
        match m.instances[dep]? with
        | none => true
        | some dep => dep.state ≠ .activating

/-- The first queued unit with nothing left to wait for. -/
def nextStartable : Option Name := m.pending.find? m.orderingSatisfied

/-- A requirement that has already failed, if there is one. -/
def failedRequirement (name : Name) : Option Name :=
  m.instances[name]?.bind fun i =>
    i.unit.deps.requires.find? fun dep => m.stateOf dep = some .failed

/-- Units that cannot run at the same time as this one. -/
def conflictingWith (name : Name) : List Name :=
  m.instances.toList.foldl
    (fun names other =>
      if other.2.unit.deps.conflicts.any (· = name) && !names.contains other.1 then names ++ [other.1]
      else names)
    (match m.instances[name]? with
      | some i => i.unit.deps.conflicts
      | none => [])

/-- Every unit, in the reverse of the order they started. -/
def stopOrder : List Name :=
  m.instances.keys.foldl (fun names name => if names.contains name then names else names ++ [name])
    m.order.reverse

/-- The unit whose main process it is. -/
def unitForPid (pid : Pid) : Option Name :=
  (m.instances.toList.find? fun p => p.2.child = some pid).map (·.1)

/-- The service a socket descriptor activates. -/
def socketService (id : Nat) : Option Name := m.sockets[id]?.map (·.service)

/-! ## Updates -/

/-- `instances.get_mut(name)`, and then `f` if there is one. -/
def modify (name : Name) (f : Instance → Instance) : Manager :=
  { m with instances := m.instances.modify name f }

/-- Take a unit from the boot queue. -/
def dequeue (name : Name) : Manager := { m with pending := m.pending.filter (· ≠ name) }

/-- Add to the monotonic heap. -/
def push (tie : Nat) (e : Entry) : Manager :=
  { m with timers := { m.timers with heap := Deadline.insert tie e m.timers.heap } }

/-- Add to the wall-clock heap. -/
def pushWall (tie : Nat) (e : Entry) : Manager :=
  { m with timers := { m.timers with wallHeap := Deadline.insert tie e m.timers.wallHeap } }

/-- What the timerfd of the deadlines is set to. -/
def setFd (fd : Option Nat) : Manager := { m with timers := { m.timers with fd } }

/-- What the timerfd of the calendar is set to. -/
def setWallFd (wallFd : Option Nat) : Manager := { m with timers := { m.timers with wallFd } }

/-- Take what is due from the monotonic heap. -/
def takeExpired (now : Nat) : Manager :=
  { m with
    timers := { m.timers with heap := Deadline.later now m.timers.heap }
    fired := Deadline.expired now m.timers.heap }

/-- Take what is due from the wall-clock heap. -/
def takeWallExpired (now : Nat) : Manager :=
  { m with
    timers := { m.timers with wallHeap := Deadline.later now m.timers.wallHeap }
    fired := Deadline.expired now m.timers.wallHeap }

/-- The alarms that fired and are still to be handled. -/
def setFired (fired : List Entry) : Manager := { m with fired }

/-- The reaped children that are still to be handled. -/
def setReaping (reaping : List (Pid × WaitStatus)) : Manager := { m with reaping }

/-- When a timer elapses next. -/
def setNext (name : Name) (next : Next) : Manager := { m with nextElapse := m.nextElapse.insert name next }

/-- A timer elapses no more. -/
def clearNext (name : Name) : Manager := { m with nextElapse := m.nextElapse.erase name }

/-- A unit is to start again once it has stopped. -/
def awaitRestart (name : Name) : Manager := { m with pendingRestart := insert name m.pendingRestart }

/-- It need not any longer. -/
def takeRestart (name : Name) : Manager := { m with pendingRestart := m.pendingRestart.erase name }

/-- What is in the boot queue. -/
def setPending (pending : List Name) : Manager := { m with pending }

/-- The order in which the units are started. -/
def setOrder (order : List Name) : Manager := { m with order }

/-- A unit as it is loaded. -/
def insertUnit (name : Name) (unit : Unit) : Manager :=
  { m with instances := m.instances.insert name (Instance.new unit) }

/-- `instances.retain`. -/
def keep (p : Name → Instance → Bool) : Manager := { m with instances := m.instances.filter p }

/-- A cgroup has been made for a unit, or could not be. -/
def addHandle (name : Name) (ok : Bool) : Manager := { m with cgroups := m.cgroups.add name ok }

/-- A socket has been bound. -/
def bind (bound : Bound) : Manager := { m with sockets := m.sockets ++ [bound] }

/-- Whether epoll watches a socket. -/
def setArmed (id : Nat) (bound : Bound) (armed : Bool) : Manager :=
  { m with sockets := m.sockets.set id { bound with armed } }

/-- A shutdown begins. -/
def goDown (shutdown : Shutdown) : Manager := { m with shutdown := some shutdown }

end Manager

/-- The supervisor and the machine that it runs on. -/
structure Machine extends Manager where
  kernel : Kernel := {}
  /-- How many turns the world has had. -/
  ticks : Nat := 0

/-! ## Control requests -/

/-- What a control client asks for. -/
inductive Request
  | list
  | status (unit : Name)
  | start (unit : Name)
  | stop (unit : Name)
  | restart (unit : Name)
  | reload
  deriving DecidableEq

/-- What oxinit knows about one unit. -/
structure UnitStatus where
  name : Name
  kind : String
  description : String
  state : String
  pid : Option Pid
  restarts : Nat
  status : Option String
  nextElapse : Option Nat
  memory : Option Nat
  tasks : Option Nat
  deriving DecidableEq

/-- What a control client is answered. -/
inductive Response
  | units (units : List UnitStatus)
  | accepted (message : String)
  | error (message : String)
  deriving DecidableEq

/-! ## History -/

/-- The calls a history records, each as it is made. -/
inductive Call
  /-- The world makes a move. -/
  | world (move : Move)
  | request (request : Request)
  | shutdown (action : Action)
  /-- A connection on a socket of the service `unit`. -/
  | connection (unit : Name)
  /-- The timer unit `unit` elapsed. -/
  | elapsed (unit : Name)
  /-- `pump` comes to the queued `unit`. -/
  | pump (unit : Name)
  | start (unit : Name)
  /-- `start` forks the main process of `unit`. -/
  | spawn (unit : Name)
  /-- `start` arms the timer unit `unit`. -/
  | arm (unit : Name)
  /-- `start` reaches `unit`, which runs no process. -/
  | up (unit : Name)
  /-- `unit` is marked `Failed` without a process having ended. -/
  | fail (unit : Name)
  | stop (unit : Name) (cause : StopCause)
  /-- `stop` takes down `unit`, which runs no process. -/
  | down (unit : Name)
  /-- `stop` begins to take down the service `unit`. -/
  | terminate (unit : Name)
  /-- `stop_timed_out` kills what is left of `unit`. -/
  | kill (unit : Name)
  /-- The main process of `unit` was reaped. -/
  | exited (unit : Name) (exit : Exit)
  /-- `unit` is taken to be gone, its cgroup being empty. -/
  | vanished (unit : Name)
  /-- The stop of `unit` is taken to be over. -/
  | finished (unit : Name)
  /-- A restart was asked for: `unit` is to be started once it has stopped. -/
  | await (unit : Name)
  /-- It has stopped and is started. -/
  | again (unit : Name)
  /-- The backoff of `unit` is over and it is started. -/
  | backoff (unit : Name)
  /-- `unit` is stopped for not having started in time. -/
  | late (unit : Name)
  /-- `unit` is stopped for a missed watchdog. -/
  | hung (unit : Name)
  /-- A message from the main process of `unit`. -/
  | message (unit : Name) (message : Message)
  /-- `alarm` is scheduled for `delay` from now. -/
  | schedule (alarm : Alarm) (delay : Nat)
  /-- `alarm` is scheduled for a moment on the wall clock. -/
  | scheduleAt (alarm : Alarm) (moment : Nat)
  /-- What is due on the wall clock is to be handled, by what it shows. -/
  | wallTimer

/-- A machine, and what has been called on the way to it. -/
structure Supervisor extends Machine where
  /-- Newest first. -/
  history : List (Call × Machine) := []

namespace Supervisor

/-- A call is made. -/
def note (s : Supervisor) (call : Call) : Supervisor :=
  { s with history := (call, s.toMachine) :: s.history }

/-- The supervisor changes what it keeps. -/
def update (s : Supervisor) (f : Manager → Manager) : Supervisor := { s with toManager := f s.toManager }

/-- The supervisor makes a system call. -/
def onKernel (s : Supervisor) (f : Kernel → Kernel) : Supervisor := { s with kernel := f s.kernel }

/-- The world makes a move. -/
def world (s : Supervisor) (mv : Move) : Supervisor := (s.note (.world mv)).onKernel (·.move mv)

/-- The world makes its moves. -/
def moves (s : Supervisor) (mvs : List Move) : Supervisor := mvs.foldl world s

/-- The world takes its turn before oxinit asks it something. -/
def turn (w : World) (s : Supervisor) : Supervisor :=
  let s' := s.moves (w s.ticks).moves
  { s' with ticks := s.ticks + 1 }

/-- An instance changes. -/
def modify (s : Supervisor) (name : Name) (f : Instance → Instance) : Supervisor :=
  s.update (·.modify name f)

end Supervisor

end Oxinit
