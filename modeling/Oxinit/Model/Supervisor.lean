import Oxinit.Model.Timers

/-!
# Loading units, starting them in order, and keeping them running

The supervisor's operations, one definition for each function of
`supervisor.rs`. Each takes the world and the state, and gives the state it
leaves. What is only printed is left out.
-/

namespace Oxinit

open Framework (Deadline)

namespace Supervisor

/-! ## Stopping -/

/-- `left_its_cgroup`, of a process that has left unless its path passes for one
that has not. -/
def leftItsCgroup (t : Turn) (k : Kernel) (cgroup : Name) (pid : Pid) : Bool :=
  k.leftItsCgroup cgroup pid && !t.lookalikes.contains pid

/-- `SIGTERM` to every process in the cgroup, and to the process oxinit
forked if it is no longer there; without a cgroup, to that process alone. -/
def sigterm (w : World) (name : Name) (child : Option Pid) (s : Supervisor) : Supervisor :=
  let ok := (w s.ticks).ok
  let s := s.turn w
  match s.cgroups.get name with
  | some cgroup =>
    let s := if ok then s.onKernel (·.signal (s.kernel.pids cgroup) .term) else s
    let t := w s.ticks
    let s := s.turn w
    match child.filter (leftItsCgroup t s.kernel cgroup) with
    | some pid => s.onKernel (·.signal [pid] .term)
    | none => s
  | none =>
    match child with
    | some pid => s.onKernel (·.signal [pid] .term)
    | none => s

/-- Stop a unit: `SIGTERM` now, `cgroup.kill` after `stop-sec`. Of a unit that is no
service there is nothing to signal and nothing to wait for. -/
def stop (w : World) (name : Name) (cause : StopCause) (s : Supervisor) : Supervisor :=
  let s := (s.note (.stop name cause)).update (·.dequeue name)
  match s.instances[name]? with
  | none => s
  | some i =>
    if i.state = .restarting then s.modify name Instance.cancelRestart
    else
      match i.unit.service with
      | none =>
        let s := s.turn w
        (s.note (.down name)).modify name fun i => ((i.enteredDeactivating cause).deactivated s.kernel.now).2
      | some service =>
        if i.state = .inactive ∨ i.state = .failed ∨ i.state = .deactivating then s
        else
          let s := s.note (.terminate name)
          let s := s.modify name (Instance.enteredDeactivating cause)
          let s := sigterm w name i.pid s
          (schedule w service.stopSec (.stopTimeout name) s).2

/-! ## Starting -/

/-- `entered_active`, which reads the clock twice. -/
def enterActive (w : World) (name : Name) (s : Supervisor) : Supervisor :=
  let s := s.turn w
  let since := s.kernel.now
  let s := s.turn w
  s.modify name (Instance.enteredActive since s.kernel.now)

/-- What a unit excludes is stopped before it is up. -/
def exclude (w : World) (name : Name) (s : Supervisor) : Supervisor :=
  (s.conflictingWith name).foldl
    (fun s other => if s.busy other then stop w other .requested s else s) s

/-- `failed_to_start`. -/
def fail (name : Name) (s : Supervisor) : Supervisor :=
  (s.note (.fail name)).modify name Instance.failedToStart

/-- Schedule a timer unit's next firing. -/
def arm (w : World) (name : Name) (next : Option Next) (s : Supervisor) : Supervisor :=
  match next with
  | none => s.update (·.clearNext name)
  | some next =>
    let r := match next with
      | .after delay => schedule w delay (.timerElapsed name) s
      | .at moment => scheduleAt w moment (.timerElapsed name) s
    if r.1 then r.2.update (·.setNext name next) else r.2

/-- Write a unit's `[resources]` into its cgroup; whether that succeeds. -/
def applyResources (w : World) (name : Name) (resources : Resources) (s : Supervisor) :
    Bool × Supervisor :=
  if resources = {} then (true, s)
  else
    match s.cgroups.get name with
    | none => (false, s)
    | some _ => ((w s.ticks).ok, s.turn w)

/-- Open where a unit's output goes; whether that succeeds. -/
def outputFor (w : World) (output : Output) (s : Supervisor) : Bool × Supervisor :=
  match output with
  | .console => (true, s)
  | .log | .null => ((w s.ticks).ok, s.turn w)

/-- Fork one service's main process, into its cgroup if it has one; its pid,
if that succeeds. -/
def fork (w : World) (name : Name) (service : Service) (s : Supervisor) : Option Pid × Supervisor :=
  let ok := (w s.ticks).ok
  let s := s.turn w
  if ok ∧ service.exec ≠ [] then
    let s := s.note (.spawn name)
    let placed := (s.cgroups.get name).isSome
    (some s.kernel.nextPid, s.onKernel (·.spawn name placed))
  else (none, s)

/-- `bringUp` for a service. A `simple` one is ready when its process exists. -/
def launch (w : World) (name : Name) (service : Service) (s : Supervisor) : Supervisor :=
  let r := applyResources w name service.resources s
  if r.1 then
    let r := outputFor w service.output r.2
    if r.1 then
      match fork w name service r.2 with
      | (some pid, s) =>
        let s := s.modify name (Instance.enteredActivating pid)
        match service.ty with
        | .simple => enterActive w name s
        | .oneshot | .notify | .forking => (schedule w service.startSec (.startTimeout name) s).2
      | (none, s) => fail name s
    else fail name r.2
  else fail name r.2

/-- What `start` does once nothing the unit excludes is in the way. The descriptors
of a socket were bound before anything started. -/
def bringUp (w : World) (name : Name) (i : Instance) (s : Supervisor) : Supervisor :=
  match i.unit.kind with
  | .target => enterActive w name (s.note (.up name))
  | .timer timer =>
    let s := enterActive w name (s.note (.arm name))
    let s := s.turn w
    arm w name (timer.schedule.first s.kernel.wall) s
  | .socket _ => enterActive w name (s.note (.up name))
  | .service service => launch w name service s

/-- Start a unit, and stop what it conflicts with. While the machine goes down
nothing is started. -/
def start (w : World) (name : Name) (s : Supervisor) : Supervisor :=
  let s := s.note (.start name)
  if s.shuttingDown then s
  else
    let s := exclude w name s
    match s.instances[name]? with
    | none => s
    | some i => bringUp w name i s

/-! ## The start queue -/

/-- One unit's turn in the queue. -/
def pumpTurn (w : World) (name : Name) (s : Supervisor) : Supervisor :=
  let s := (s.note (.pump name)).update (·.dequeue name)
  match s.failedRequirement name with
  | some _ => fail name s
  | none => start w name s

/-- The loop of `pump`; each turn takes a unit out of the queue. -/
def pumpLoop (w : World) : Nat → Supervisor → Supervisor
  | 0, s => s
  | fuel + 1, s =>
    match s.nextStartable with
    | none => s
    | some name => pumpLoop w fuel (pumpTurn w name s)

/-- Start every queued unit whose ordering is satisfied, until none is. -/
def pump (w : World) (s : Supervisor) : Supervisor :=
  if s.shuttingDown then s.update (·.setPending []) else pumpLoop w s.pending.length s

/-- Queue every unit in the resolved order, then start whatever is ready. -/
def startAll (w : World) (s : Supervisor) : Supervisor := pump w (s.update (·.setPending s.order))

/-! ## Shutting down -/

/-- Begin an ordered shutdown. -/
def beginShutdown (w : World) (action : Action) (s : Supervisor) : Supervisor :=
  let s := s.note (.shutdown action)
  if s.shuttingDown then s
  else
    let s := s.turn w
    let s := s.update (·.goDown { action, started := s.kernel.now })
    s.stopOrder.foldl (fun s name => stop w name .requested s) s

/-- How long the loop may sleep before `settled` has to be asked again. -/
def waitBound (w : World) (s : Supervisor) : Option Nat × Supervisor :=
  match s.shutdown with
  | none => (none, s)
  | some shutdown =>
    let s := s.turn w
    (some (shutdown.remaining s.kernel.now), s)

/-- What to do now, if anything: the action once every unit has stopped, or
once waiting for the stragglers has gone on long enough. -/
def settled (w : World) (s : Supervisor) : Option Action × Supervisor :=
  match s.shutdown with
  | none => (none, s)
  | some shutdown =>
    if s.instances.toList.all fun p => isIdle p.2.state then (some shutdown.action, s)
    else
      let s := s.turn w
      (if shutdown.overdue s.kernel.now then some shutdown.action else none, s)

/-! ## Ends -/

/-- Schedule the restart a policy has announced. -/
def restartIn (w : World) (name : Name) (delay : Nat) (s : Supervisor) : Supervisor :=
  (schedule w delay (.restart name) s).2

/-- The same, or nothing if the machine is going down: nothing comes back on
the way down. -/
def restartUnlessGoingDown (w : World) (name : Name) (delay : Nat) (s : Supervisor) : Supervisor :=
  if s.shuttingDown then s.modify name Instance.cancelRestart else restartIn w name delay s

/-- A stop is over: what its cause asks for. -/
def endStop (w : World) (name : Name) (i : Instance) (s : Supervisor) : Supervisor :=
  let s := s.turn w
  let now := s.kernel.now
  let s := (s.note (.finished name)).modify name fun i => (i.deactivated now).2
  match (i.deactivated now).1 with
  | some delay => restartUnlessGoingDown w name delay s
  | none => s

/-- The cgroup emptied while the unit was stopping. That ends the stop, which may be
the first half of a restart. -/
def finishDeactivation (w : World) (name : Name) (s : Supervisor) : Supervisor :=
  match s.instances[name]? with
  | none => s
  | some i =>
    if i.state ≠ .deactivating then s
    else
      let s := endStop w name i s
      if name ∈ s.pendingRestart then
        start w name ((s.update (·.takeRestart name)).note (.again name))
      else s

/-- A unit oxinit could only see through its cgroup is gone. -/
def unitVanished (w : World) (name : Name) (s : Supervisor) : Supervisor :=
  match s.instances[name]? with
  | none => s
  | some i =>
    let s := s.turn w
    let now := s.kernel.now
    let s := (s.note (.vanished name)).modify name fun i => (i.onExit now .abnormal).2
    match (i.onExit now .abnormal).1 with
    | some delay => restartIn w name delay s
    | none => s

/-- Whether a unit's cgroup is populated; `false` if that cannot be read. -/
def readPopulated (w : World) (name : Name) (s : Supervisor) : Bool × Supervisor :=
  let ok := (w s.ticks).ok
  let s := s.turn w
  (ok && s.kernel.populated name, s)

/-- A `forking` unit's initial process exited while it was activating. -/
def forkingParentExited (w : World) (name : Name) (exit : Exit) (s : Supervisor) : Supervisor :=
  match s.cgroups.get name with
  | none => fail name s
  | some cgroup =>
    let r := readPopulated w cgroup s
    if exit = .clean ∧ r.1 then
      let s := r.2.turn w
      let since := s.kernel.now
      let s := s.turn w
      s.modify name (Instance.forkedAway since s.kernel.now)
    else fail name r.2

/-- One child that was reaped: apply its unit's restart policy. The machine reparents
orphans here, and the initial process of a forking service is expected to exit. A
stop ends when the cgroup empties, unless there is none or it emptied long ago. -/
def onReaped (w : World) (child : Pid × WaitStatus) (s : Supervisor) : Supervisor :=
  let exit := Exit.fromStatus child.2.exitStatus child.2.terminatingSignal
  match s.unitForPid child.1 with
  | none => s
  | some name =>
    match s.instances[name]? with
    | none => s
    | some i =>
      if (i.unit.service.any fun sv => sv.ty = .forking) ∧ i.state = .activating then
        forkingParentExited w name exit (s.note (.exited name exit))
      else
        let s := s.turn w
        let now := s.kernel.now
        let s := (s.note (.exited name exit)).modify name fun i => (i.onExit now exit).2
        match (i.onExit now exit).1 with
        | some delay => restartUnlessGoingDown w name delay s
        | none =>
          if i.state = .deactivating then
            match s.cgroups.get name with
            | none => finishDeactivation w name s
            | some cgroup =>
              let r := readPopulated w cgroup s
              if r.1 then r.2 else finishDeactivation w name r.2
          else s

/-- The loop over the children that were reaped. -/
def onChildren (w : World) : List (Pid × WaitStatus) → Supervisor → Supervisor
  | [], s => s
  | child :: rest, s => onChildren w rest (onReaped w child (s.update (·.setReaping rest)))

/-- Reap everything that exited and apply each unit's restart policy. -/
def onSigchld (w : World) (s : Supervisor) : Supervisor :=
  let s := s.turn w
  let reaped := s.kernel.zombies
  onChildren w reaped ((s.onKernel (·.reaped)).update (·.setReaping reaped))

/-- A service cgroup's `populated` key changed. Reading it is also what clears the
notification. A unit without a main process is tracked by its cgroup alone. -/
def onCgroup (w : World) (id : Nat) (s : Supervisor) : Supervisor :=
  match s.cgroups.handles[id]? with
  | none => s
  | some name =>
    let ok := (w s.ticks).ok
    let s := s.turn w
    let s := if ok then s.onKernel (·.read id name) else s
    if ¬ok ∨ s.kernel.populated name then s
    else
      match s.instances[name]? with
      | none => s
      | some i =>
        if i.state = .deactivating then finishDeactivation w name s
        else if i.state = .active ∧ i.pid = none then unitVanished w name s
        else s

/-! ## Deadlines -/

/-- `start-sec` elapsed and the unit is still `Activating`. -/
def startTimedOut (w : World) (name : Name) (s : Supervisor) : Supervisor :=
  match s.instances[name]? with
  | none => s
  | some i => if i.state ≠ .activating then s else stop w name .watchdog (s.note (.late name))

/-- `SIGKILL` to the cgroup, and to the process oxinit forked if that cannot
have reached it. -/
def sigkill (w : World) (name : Name) (child : Option Pid) (s : Supervisor) : Supervisor :=
  let ok := (w s.ticks).ok
  let s := s.turn w
  match s.cgroups.get name with
  | some cgroup =>
    let s := if ok then s.onKernel (·.signal (s.kernel.pids cgroup) .kill) else s
    let t := w s.ticks
    let s := s.turn w
    match child.filter fun pid => !ok || leftItsCgroup t s.kernel cgroup pid with
    | some pid => s.onKernel (·.signal [pid] .kill)
    | none => s
  | none =>
    match child with
    | some pid => s.onKernel (·.signal [pid] .kill)
    | none => s

/-- `stop-sec` elapsed and the unit is still there. -/
def stopTimedOut (w : World) (name : Name) (s : Supervisor) : Supervisor :=
  match s.instances[name]? with
  | none => s
  | some i =>
    if i.state ≠ .deactivating then s
    else sigkill w name i.pid ((s.note (.kill name)).modify name Instance.stopTimedOut)

/-- Schedule the next watchdog check for a unit. -/
def armWatchdog (w : World) (unit : Name) (interval : Nat) (s : Supervisor) : Supervisor :=
  (schedule w interval (.watchdogCheck unit) s).2

/-- A missed watchdog deadline is a failure, not a warning. -/
def checkWatchdog (w : World) (name : Name) (s : Supervisor) : Supervisor :=
  match s.instances[name]? with
  | none => s
  | some i =>
    match i.unit.service.bind (·.watchdogSec) with
    | none => s
    | some interval =>
      if i.state ≠ .active then s
      else
        let s := s.turn w
        if i.watchdogExpired s.kernel.now interval then stop w name .watchdog (s.note (.hung name))
        else armWatchdog w name interval s

/-- Arm a timer unit that has elapsed for its next firing. -/
def rearm (w : World) (name : Name) (timer : Timer) (s : Supervisor) : Supervisor :=
  let s := (s.note (.elapsed name)).turn w
  arm w name (timer.schedule.next s.kernel.wall) s

/-- A timer elapsed: start what it names, once it is armed again. -/
def timerElapsed (w : World) (name : Name) (s : Supervisor) : Supervisor :=
  match s.timerOf name with
  | none => s
  | some timer =>
    if s.shuttingDown then s
    else
      let s := rearm w name timer s
      if s.idle timer.service then start w timer.service s else s

/-- What one alarm asks for. -/
def onAlarm (w : World) (alarm : Alarm) (s : Supervisor) : Supervisor :=
  match alarm with
  | .restart unit => if s.stateOf unit = some .restarting then start w unit (s.note (.backoff unit)) else s
  | .watchdogCheck unit => checkWatchdog w unit s
  | .stopTimeout unit => stopTimedOut w unit s
  | .timerElapsed unit => timerElapsed w unit s
  | .startTimeout unit => startTimedOut w unit s

/-- The loop over the alarms that fired. -/
def dispatch (w : World) : List Entry → Supervisor → Supervisor
  | [], s => s
  | e :: rest, s => dispatch w rest (onAlarm w e.alarm (s.update (·.setFired rest)))

/-- The timerfd of the deadlines fired. -/
def onTimer (w : World) (s : Supervisor) : Supervisor :=
  let s := expired w s
  dispatch w s.fired s

/-- On the wall clock, only timers fire. -/
def onWallAlarm (w : World) (alarm : Alarm) (s : Supervisor) : Supervisor :=
  match alarm with
  | .timerElapsed unit => timerElapsed w unit s
  | _ => s

/-- Each calendar alarm that was taken from the heap. -/
def dispatchWall (w : World) : List Entry → Supervisor → Supervisor
  | [], s => s
  | e :: rest, s => dispatchWall w rest (onWallAlarm w e.alarm (s.update (·.setFired rest)))

/-- The wall clock reached a calendar deadline, or was stepped. -/
def onWallTimer (w : World) (s : Supervisor) : Supervisor :=
  let s := (s.turn w).note .wallTimer
  let s := wallExpired w s.kernel.wall s
  dispatchWall w s.fired s

/-! ## Messages and connections -/

/-- `READY=1` from a unit that is activating. -/
def ready (w : World) (name : Name) (s : Supervisor) : Supervisor :=
  let s := enterActive w name s
  match (s.serviceOf name).bind (·.watchdogSec) with
  | some interval => armWatchdog w name interval s
  | none => s

/-- `WATCHDOG=1`. -/
def ping (w : World) (name : Name) (s : Supervisor) : Supervisor :=
  let s := s.turn w
  s.modify name (Instance.pinged s.kernel.now)

/-- Apply one message from the notify socket. -/
def onMessage (w : World) (message : Message) (s : Supervisor) : Supervisor :=
  match s.unitForPid message.pid with
  | none => s
  | some name =>
    let s := s.note (.message name message)
    let s := match message.status with
      | some status => s.modify name (Instance.said status)
      | none => s
    let s := if message.watchdog then ping w name s else s
    if message.ready ∧ s.stateOf name = some .activating then ready w name s else s

/-- Apply readiness, status, and watchdog pings from the notify socket. -/
def onNotify (w : World) (s : Supervisor) : Supervisor :=
  let s := s.turn w
  let messages := s.kernel.inbox
  messages.foldl (fun s message => onMessage w message s) (s.onKernel (·.drained))

/-- A connection arrived on a socket unit's descriptor. -/
def onSocket (w : World) (id : Nat) (s : Supervisor) : Supervisor :=
  match s.socketService id with
  | none => s
  | some service =>
    let s := s.note (.connection service)
    if s.idle service then start w service s else s

/-- One descriptor: watched exactly when its service is down. -/
def syncSocket (w : World) (id : Nat) (s : Supervisor) : Supervisor :=
  match s.sockets[id]? with
  | none => s
  | some bound =>
    let want := s.idle bound.service
    if want = bound.armed then s
    else
      let ok := (w s.ticks).ok
      let s := s.turn w
      if ok then s.update (·.setArmed id bound want) else s

/-- Bring every socket into step with its unit. -/
def syncSockets (w : World) (s : Supervisor) : Supervisor :=
  (List.range s.sockets.length).foldl (fun s id => syncSocket w id s) s

end Supervisor

end Oxinit
