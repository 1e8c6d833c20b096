import Oxinit.Model.Clients
import Oxinit.Model.EventLoop
import Oxinit.Model.Hardware
import Oxinit.Model.Loop

/-!
# PID 1

`main.rs` and the end of a shutdown, `shutdown.rs`: the event loop itself,
from `epoll_wait` to `reboot(2)`. The shell of a machine with nothing to
start, and what `oxlogd` does to the log socket, are left out.
-/

namespace Oxinit

open Log (Bytes)

/-! ## The end of a shutdown -/

/-- What a container manager reads out of PID 1's exit status. -/
def Action.status : Action → Int
  | .powerOff | .halt => 0
  | .reboot => 133

/-- How the loop ends. -/
inductive Outcome
  /-- `reboot(2)`. -/
  | down (action : Action)
  | exit (status : Int)
  /-- A console shell, for as long as the machine is up. -/
  | fallback
  deriving DecidableEq

/-! ## Signals -/

/-- The signals that are handled, by number. -/
def sighup : Nat := 1
def sigint : Nat := 2
def sigusr1 : Nat := 10
def sigusr2 : Nat := 12
def sigterm : Nat := 15
def sigchld : Nat := 17
def sigpwr : Nat := 30

/-- What one turn of the loop finds. -/
structure Wake where
  /-- Whether `epoll_wait` succeeds. -/
  waits : Bool := true
  /-- The registrations that are ready. -/
  ready : List EventLoop.Source := []
  /-- What is read from the signalfd, if it can be. -/
  signals : Option (List Nat) := none
  /-- The descriptor of a pending connection to the control socket. -/
  connection : Option Nat := none
  /-- Whether epoll takes it. -/
  registers : Bool := true
  /-- What `recv(2)` finds on the descriptor of a client. -/
  messages : Nat → Option Bytes := fun _ => none
  /-- What the watchdog's device answers. -/
  device : Hardware.Answer := {}
  /-- Whether the kernel does what `reboot(2)` asks. -/
  reboots : Bool := true

/-- What `run` holds. -/
structure Main where
  supervisor : Supervisor
  control : Option (Clients Nat)
  environment : Environment
  watchdog : Option Hardware.Watchdog
  outcome : Option Outcome := none

namespace Main

variable (w : World) (j : Json) (k : Wake) (m : Main)

/-- The supervisor handles something. -/
def supervise (f : Supervisor → Supervisor) : Main := { m with supervisor := f m.supervisor }

/-- One signal. A user manager has nothing to power off, reboot or halt. `SIGUSR2`
only reports, and every other signal is read and dropped. -/
def onSignal (m : Main) (signal : Nat) : Main :=
  if signal = sigchld then m.supervise (Supervisor.onSigchld w)
  else if m.environment.isUser ∧ signal ∈ [sigterm, sigint, sigpwr, sigusr1, sighup] then
    m.supervise (Supervisor.beginShutdown w .powerOff)
  else if signal = sigterm ∨ signal = sigpwr then m.supervise (Supervisor.beginShutdown w .powerOff)
  else if signal = sigint then m.supervise (Supervisor.beginShutdown w .reboot)
  else if signal = sigusr1 then m.supervise (Supervisor.beginShutdown w .halt)
  else m

/-- Every signal that is pending. -/
def onSignals : Main :=
  match k.signals with
  | none => m
  | some pending => pending.foldl (onSignal w) m

/-- Someone connected to the control socket. -/
def onConnect : Main :=
  { m with control := m.control.map (Clients.onConnect (fun _ => k.registers) k.connection) }

/-- A control client sent a request, or hung up. -/
def onRequest (id : UInt32) : Main :=
  match m.control with
  | none => m
  | some control =>
    let (_, control, supervisor) := control.onRequest j w k.messages id.toNat m.supervisor
    { m with control := some control, supervisor }

/-- The handler of a source. The log socket is no part of this state. -/
def dispatch (m : Main) : EventLoop.Source → Main
  | .signals => onSignals w k m
  | .timer => m.supervise (Supervisor.onTimer w)
  | .wallTimer => m.supervise (Supervisor.onWallTimer w)
  | .notify => m.supervise (Supervisor.onNotify w)
  | .cgroup id => m.supervise (Supervisor.onCgroup w id.toNat)
  | .socket id => m.supervise (Supervisor.onSocket w id.toNat)
  | .control => onConnect k m
  | .client id => onRequest w j k m id
  | .logSocket | .logShipper => m

/-- How long the loop may sleep: the sooner of what the watchdog and a
shutdown need. -/
def waitBound : Option Nat × Main :=
  let (feeding, m) := match m.watchdog with
    | none => (none, m)
    | some wd =>
      let s := m.supervisor.turn w
      (wd.waitBound s.kernel.now, { m with supervisor := s })
  let (ending, supervisor) := m.supervisor.waitBound w
  ((feeding.toList ++ ending.toList).min?, { m with supervisor })

/-- The watchdog's turn, after everything else. -/
def feed : Main :=
  match m.watchdog with
  | none => m
  | some wd =>
    let booted := wd.awaiting.any m.supervisor.reached
    let s := m.supervisor.turn w
    { m with supervisor := s, watchdog := some (wd.tick k.device s.kernel.now booted s.shuttingDown) }

/-- The loop cannot go on. -/
def cannotContinue : Main := { m with outcome := some (if m.environment.isUser then .exit 1 else .fallback) }

/-- `exit`, the end of a shutdown in a container or of a user manager. -/
def exit (action : Action) : Main :=
  { m with outcome := some (.exit (if m.environment.isUser then 0 else action.status)) }

/-- Flush, seal, and go down. The kernel may refuse, and PID 1 stays up. -/
def finalize (action : Action) : Main :=
  if m.environment.exits then m.exit action
  else
    let m := { m with watchdog := m.watchdog.map (Hardware.Watchdog.release action k.device m.supervisor.kernel.now) }
    if k.reboots then { m with outcome := some (.down action) } else m.cannotContinue

/-- The loop sleeps until something is ready, or its bound has passed. -/
def sleep : Main := ((m.waitBound w).2).supervise (·.turn w)

/-- What a wake-up handles: the sources, the start queue, the socket units. -/
def serve : Main :=
  (((EventLoop.wait (k.ready.map EventLoop.Source.token)).foldl (dispatch w j k) m).supervise
    (Supervisor.pump w)).supervise (Supervisor.syncSockets w)

/-- One turn of the loop. -/
def turn : Main :=
  if m.outcome.isSome then m
  else
    let m := m.sleep w
    if !k.waits then m.cannotContinue
    else
      let m := feed w k (serve w j k m)
      match m.supervisor.settled w with
      | (none, supervisor) => { m with supervisor }
      | (some action, supervisor) => finalize k { m with supervisor } action

/-- The turns of the loop, one after another. -/
def run (m : Main) (ks : List Wake) : Main := ks.foldl (fun m k => turn w j k m) m

/-- The loop is about to be entered. A user manager has no watchdog. -/
def boot (environment : Environment) (config : Option Watchdog.Config) (control hierarchy : Bool) (kernel : Kernel) :
    Main :=
  let s := (Supervisor.syncSockets w (Supervisor.boot w hierarchy kernel)).turn w
  { supervisor := s
    control := if control then some {} else none
    environment
    watchdog := if environment.isUser then none else Hardware.configure config environment s.kernel.now }

end Main

end Oxinit
