import Oxinit.Model.Handle

/-!
# The event loop

One `Event` for each thing the loop of PID 1 does when it wakes up. The loop
handles the sources that are ready, in any order, and then runs `pump` and
`sync_sockets`; a run here is any sequence of events. A user manager runs the
same handlers.
-/

namespace Oxinit

/-- What is handled. -/
inductive Event
  | sigchld
  | timer
  | wallTimer
  | notify
  | cgroup (id : Nat)
  | socket (id : Nat)
  | request (request : Request)
  /-- A signal, or a request, to go down. -/
  | shutdown (action : Action)
  | pump
  | syncSockets
  /-- The loop sleeps. -/
  | sleep

namespace Supervisor

/-- The handler of an event. -/
def step (w : World) (s : Supervisor) : Event → Supervisor
  | .sigchld => onSigchld w s
  | .timer => onTimer w s
  | .wallTimer => onWallTimer w s
  | .notify => onNotify w s
  | .cgroup id => onCgroup w id s
  | .socket id => onSocket w id s
  | .request request => (handle w request s).2
  | .shutdown action => beginShutdown w action s
  | .pump => pump w s
  | .syncSockets => syncSockets w s
  | .sleep => s.turn w

/-- A sequence of events, each handled in turn. -/
def run (w : World) (s : Supervisor) (events : List Event) : Supervisor := events.foldl (step w) s

/-- Register every service cgroup with epoll, in one pass, past what cannot be. -/
def wire (w : World) (s : Supervisor) : Supervisor :=
  let unwatched := (w s.ticks).unwatched
  s.onKernel (·.watch ((List.range s.cgroups.handles.length).filter fun id => !unwatched.contains id))

/-- The machine after boot: the units are loaded, their cgroups are registered,
and those in the order are queued, and started as far as they can be. -/
def boot (w : World) (hierarchy : Bool) (kernel : Kernel) : Supervisor :=
  startAll w (wire w (load w hierarchy kernel))

/-- `s` is the state between two handler calls of some run. -/
def Reachable (w : World) (s : Supervisor) : Prop :=
  ∃ hierarchy kernel events, s = run w (boot w hierarchy kernel) events

end Supervisor

end Oxinit
