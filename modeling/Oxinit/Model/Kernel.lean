import Mathlib.Data.Finset.Union
import Oxinit.Model.Load

/-!
# The kernel

What oxinit asks the kernel about, as a state of its own: the clocks, the
processes alive in each service's cgroup, the children that have exited and
are not reaped, the datagrams queued on the notify socket, the cgroups that
epoll watches, and the unit directories. Between two things oxinit does the
world makes any number of `Move`s: time passes, a process forks, moves itself
to another cgroup or exits.

A forked process stays in its parent's cgroup unless it moves itself, and a
pid is never used twice. A cgroup is named by the unit it belongs to. A change
of its `populated` key is notified until `cgroup.events` is read through the
descriptor that epoll watches.
-/

namespace Oxinit

/-- The handle of a process. No two processes have the same. -/
abbrev Pid := Nat

/-- The signals that oxinit sends. -/
inductive Signal
  | term
  | kill
  deriving DecidableEq

/-- How `wait` says a child ended. -/
structure WaitStatus where
  exitStatus : Option Int := none
  terminatingSignal : Option Int := none
  deriving DecidableEq

/-- One message from a service; `pid` is the sender's, from `SCM_CREDENTIALS`. -/
structure Message where
  pid : Pid
  ready : Bool := false
  watchdog : Bool := false
  status : Option String := none
  deriving DecidableEq

/-- A process that is alive. -/
structure Process where
  pid : Pid
  /-- The unit in whose cgroup, or below it, the process is. -/
  cgroup : Option Name
  /-- The unit oxinit forked it for: its main process. -/
  main : Option Name
  deriving DecidableEq

/-- The machine that oxinit runs on. -/
structure Kernel where
  /-- `CLOCK_MONOTONIC`. -/
  now : Nat := 0
  /-- `CLOCK_REALTIME`, in seconds. -/
  wall : Nat := 0
  nextPid : Pid := 2
  live : List Process := []
  /-- Exited and not reaped. -/
  zombies : List (Pid × WaitStatus) := []
  inbox : List Message := []
  /-- The signals oxinit has sent. -/
  sent : List (Pid × Signal) := []
  /-- The unit directories, lowest precedence first. -/
  disk : List Directory := []
  /-- The ids of the cgroups whose `cgroup.events` is registered with epoll. -/
  watched : List Nat := []
  /-- The cgroups with a notification pending. -/
  notices : Finset Name := ∅

/-- What the world does by itself. -/
inductive Move
  | pass (d : Nat)
  | setWall (t : Nat)
  | fork (parent : Pid)
  | migrate (pid : Pid) (cgroup : Option Name)
  | exit (pid : Pid) (status : WaitStatus)
  | datagram (message : Message)
  | edit (disk : List Directory)

namespace Kernel

/-- Whether a process is there. -/
def alive (k : Kernel) (pid : Pid) : Bool := k.live.any (·.pid = pid)

/-- The `populated` key of a unit's `cgroup.events`. -/
def populated (k : Kernel) (unit : Name) : Bool := k.live.any (·.cgroup = some unit)

/-- Raise a notification for every cgroup that has gained its first process or
lost its last one since `k`. -/
def notify (k k' : Kernel) : Kernel :=
  { k' with
    notices := k'.notices ∪
      ((k.live ++ k'.live).filterMap (·.cgroup)).toFinset.filter fun u => k.populated u ≠ k'.populated u }

/-- What a move does to the processes and the rest. -/
def next (k : Kernel) : Move → Kernel
  | .pass d => { k with now := k.now + d }
  | .setWall t => { k with wall := t }
  | .fork parent =>
    match k.live.find? (·.pid = parent) with
    | none => k
    | some p =>
      { k with live := { pid := k.nextPid, cgroup := p.cgroup, main := none } :: k.live,
               nextPid := k.nextPid + 1 }
  | .migrate pid cgroup => { k with live := k.live.map fun p => if p.pid = pid then { p with cgroup } else p }
  | .exit pid status =>
    if k.alive pid then
      { k with live := k.live.filter (·.pid ≠ pid), zombies := k.zombies ++ [(pid, status)] }
    else k
  | .datagram message => { k with inbox := k.inbox ++ [message] }
  | .edit disk => { k with disk }

/-- A move, and what epoll is told of it. -/
def move (k : Kernel) (mv : Move) : Kernel := k.notify (k.next mv)

/-- Fork the main process of `unit`, into its cgroup if it has one. -/
def spawn (k : Kernel) (unit : Name) (placed : Bool) : Kernel :=
  k.notify
    { k with
      live := { pid := k.nextPid, cgroup := if placed then some unit else none, main := some unit } :: k.live
      nextPid := k.nextPid + 1 }

/-- Every exited child has been waited for. -/
def reaped (k : Kernel) : Kernel := { k with zombies := [] }

/-- Every datagram has been read. -/
def drained (k : Kernel) : Kernel := { k with inbox := [] }

/-- Register descriptors of `cgroup.events` with epoll. -/
def watch (k : Kernel) (ids : List Nat) : Kernel := { k with watched := k.watched ++ ids }

/-- Read `unit`'s `cgroup.events` through the descriptor with this id. -/
def read (k : Kernel) (id : Nat) (unit : Name) : Kernel :=
  if k.watched.contains id then { k with notices := k.notices.erase unit } else k

/-- Send a signal to each of `pids`. -/
def signal (k : Kernel) (pids : List Pid) (sig : Signal) : Kernel :=
  { k with sent := k.sent ++ pids.map (·, sig) }

/-- `cgroup.procs`. -/
def pids (k : Kernel) (unit : Name) : List Pid :=
  (k.live.filter (·.cgroup = some unit)).map (·.pid)

/-- Whether `pid` is outside the unit's cgroup. `false` when it is gone. -/
def leftItsCgroup (k : Kernel) (unit : Name) (pid : Pid) : Bool :=
  match k.live.find? (·.pid = pid) with
  | none => false
  | some p => p.cgroup ≠ some unit

end Kernel

/-- What the world does before, and answers to, one thing oxinit asks. -/
structure Turn where
  moves : List Move := []
  /-- Whether what is asked for succeeds. -/
  ok : Bool := true
  /-- Whether `timerfd_settime` succeeds. -/
  timerfd : Bool := true
  /-- Whether the wall clock's timerfd reports that the clock was set. -/
  cancelled : Bool := false
  /-- Behind how many alarms due at the same moment a new one goes. -/
  tie : Nat := 0
  /-- The descriptors that cannot be registered with epoll. -/
  unwatched : List Nat := []
  /-- The processes outside a unit's cgroup whose path passes for one inside. -/
  lookalikes : List Pid := []
  /-- `memory.current` and `pids.current`. -/
  stats : Option Nat × Option Nat := (none, none)

/-- The environment: its `n`-th turn. -/
abbrev World := Nat → Turn

end Oxinit
