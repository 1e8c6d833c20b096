import Oxinit.Model.Kernel

/-!
# The service state machine and restart policy

One unit's runtime state (`oxinit-service`). Where the source reads the
clock, the function takes the time it reads.
-/

namespace Oxinit

/-- Backoff never grows past this. -/
def maxBackoff : Nat := Duration.fromSecs 300

/-- `Duration::MAX`. -/
def Duration.max : Nat := (2 ^ 64 - 1) * 1000000000 + 999999999

/-- The state of a unit. -/
inductive State
  | inactive
  | activating
  | active
  | deactivating
  | failed
  | restarting
  deriving DecidableEq

/-- What a client is told of it. -/
def State.toString : State → String
  | .inactive => "inactive"
  | .activating => "activating"
  | .active => "active"
  | .deactivating => "deactivating"
  | .failed => "failed"
  | .restarting => "restarting"

/-- How a service's main process ended. -/
inductive Exit
  | clean
  | code (status : Int)
  | abnormal
  deriving DecidableEq

/-- How a process ended, by what `waitpid` says of it. -/
def Exit.fromStatus (code signal : Option Int) : Exit :=
  match code, signal with
  | some 0, _ => .clean
  | some code, _ => .code code
  | none, some _ => .abnormal
  | none, none => .abnormal

/-- Why a unit is being stopped. -/
inductive StopCause
  | requested
  | watchdog
  deriving DecidableEq

/-- A unit as it runs. -/
structure Instance where
  unit : Unit
  state : State
  /-- The handle of the process oxinit forked, while it is tracked. -/
  child : Option Pid
  restarts : Nat
  backoff : Nat
  activeSince : Option Nat
  status : Option String
  lastPing : Option Nat
  stopCause : Option StopCause
  killed : Bool
  reached : Bool
  deriving DecidableEq

/-- Whether `policy` restarts after `exit`. -/
def shouldRestart (policy : Restart) (exit : Exit) : Bool :=
  match policy with
  | .no => false
  | .always => true
  | .onFailure => exit ≠ .clean
  | .onAbnormal => exit = .abnormal

/-- A unit that is not running. -/
def isIdle : State → Bool
  | .inactive | .failed => true
  | _ => false

namespace Instance

/-- The base delay, from the unit's `restart-sec`. -/
def baseBackoff (u : Unit) : Nat :=
  match u.service with
  | some service => service.restartSec
  | none => Duration.fromMillis 100

/-- A unit that has not been started. -/
def new (unit : Unit) : Instance where
  unit := unit
  state := .inactive
  child := none
  restarts := 0
  backoff := baseBackoff unit
  activeSince := none
  status := none
  lastPing := none
  stopCause := none
  killed := false
  reached := false

/-- The main process, if there is one. -/
def pid (i : Instance) : Option Pid := i.child

/-- A process has been forked. -/
def enteredActivating (child : Pid) (i : Instance) : Instance :=
  { i with child := some child, state := .activating }

/-- exec or fork failed. -/
def failedToStart (i : Instance) : Instance :=
  { i with child := none, activeSince := none, state := .failed }

/-- The unit is up. -/
def enteredActive (since ping : Nat) (i : Instance) : Instance :=
  { i with reached := true, state := .active, activeSince := some since, lastPing := some ping }

/-- A `forking` service's initial process exited and left its cgroup populated. -/
def forkedAway (since ping : Nat) (i : Instance) : Instance :=
  enteredActive since ping { i with child := none }

/-- `STATUS=`. -/
def said (status : String) (i : Instance) : Instance := { i with status := some status }

/-- A keep-alive has come. -/
def pinged (now : Nat) (i : Instance) : Instance := { i with lastPing := some now }

/-- Whether the service has missed its watchdog deadline. -/
def watchdogExpired (now : Nat) (interval : Nat) (i : Instance) : Bool :=
  i.state = .active && i.lastPing.any fun last => interval < now - last

/-- A stop begins. -/
def enteredDeactivating (cause : StopCause) (i : Instance) : Instance :=
  { i with stopCause := some cause, killed := false, state := .deactivating }

/-- The stop timeout expired and `cgroup.kill` was used. -/
def stopTimedOut (i : Instance) : Instance := { i with killed := true }

/-- Abandon a pending restart. -/
def cancelRestart (i : Instance) : Instance :=
  if i.state = .restarting then { i with child := none, activeSince := none, state := .inactive } else i

/-- The restart policy of the unit; `no` for what is not a service. -/
def policy (i : Instance) : Restart :=
  match i.unit.service with
  | some service => service.restart
  | none => .no

/-- Forget the failure history of a service that stayed up longer than its
own backoff. -/
def forget (now : Nat) (i : Instance) : Instance :=
  match i.activeSince with
  | some since =>
    if i.backoff < now - since then { i with restarts := 0, backoff := baseBackoff i.unit } else i
  | none => i

/-- Apply the restart policy to a unit that has stopped running. -/
def scheduleRestart (now : Nat) (exit : Exit) (i : Instance) : Option Nat × Instance :=
  let i := { i.forget now with activeSince := none }
  if shouldRestart i.policy exit = false then
    (none, { i with state := if exit = .clean then .inactive else .failed })
  else
    (some i.backoff,
      { i with
        restarts := min (i.restarts + 1) (2 ^ 32 - 1)
        backoff := min (min (i.backoff * 2) Duration.max) maxBackoff
        state := .restarting })

/-- The cgroup emptied, which ends a stop. The backoff delay when a restart
applies. -/
def deactivated (now : Nat) (i : Instance) : Option Nat × Instance :=
  let killed := i.killed
  let cause := i.stopCause
  let i := { i with child := none, killed := false, stopCause := none }
  match cause with
  | some .watchdog => i.scheduleRestart now .abnormal
  | some .requested | none =>
    (none, { i with activeSince := none, status := none, state := if killed then .failed else .inactive })

/-- Whether the unit is a `oneshot` service. -/
def isOneshot (i : Instance) : Bool :=
  i.unit.service.any fun s => s.ty = .oneshot

/-- Decide what happens after the main process exits. The backoff delay when
a restart applies. -/
def onExit (now : Nat) (exit : Exit) (i : Instance) : Option Nat × Instance :=
  let i := { i with child := none }
  if i.state = .deactivating then (none, i)
  else
    let i := if i.isOneshot && i.state = .activating && exit = .clean then { i with reached := true } else i
    i.scheduleRestart now exit

end Instance

end Oxinit
