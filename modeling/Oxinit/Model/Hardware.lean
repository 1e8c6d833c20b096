import Oxinit.Model.Container
import Oxinit.Model.Machine
import Oxinit.Model.Watchdog

/-!
# The watchdog's device

`watchdog.rs` of `oxinit`: the policy, and the device that it decides about.
What is done to the device is kept in the order in which it is done.
-/

namespace Oxinit.Hardware

open Watchdog (Config Policy)

/-- What reaches the device. -/
inductive Touch
  | opened
  | petted
  /-- The magic `V`, and the close. -/
  | stopped
  /-- The close alone. -/
  | closed
  deriving DecidableEq

/-- What the device answers. -/
structure Answer where
  opens : Bool := true
  /-- The timeout the driver settles on when it is asked for one. -/
  setTimeout : Option Int := none
  getTimeout : Option Int := none
  writes : Bool := true
  deriving DecidableEq

/-- The watchdog, its device and its policy. -/
structure Watchdog where
  policy : Policy
  /-- Whether the device is held. -/
  device : Bool := false
  /-- What every decision is measured from. -/
  started : Nat
  reportedMissing : Bool := false
  /-- Newest first, with the time since `started`. -/
  touches : List (Touch × Nat) := []
  deriving DecidableEq

/-- The watchdog the configuration asks for. A container leaves the host's alone. -/
def configure (config : Option Config) (environment : Environment) (now : Nat) : Option Watchdog :=
  match config with
  | none => none
  | some config => if environment.isContainer then none else some { policy := .new config, started := now }

namespace Watchdog

variable (wd : Watchdog)

/-- The unit whose coming up confirms the boot, while that is awaited. -/
def awaiting : Option Name := wd.policy.awaiting

/-- Something is done to the device. -/
def touch (touch : Touch) (now : Nat) : Watchdog := { wd with touches := (touch, now) :: wd.touches }

/-- How long the loop may sleep before there is something to do here. -/
def waitBound (now : Nat) : Option Nat := wd.policy.nextWake (now - wd.started)

/-- The timeout that the driver has, as far as it says. -/
def applied (a : Answer) : Option Nat :=
  (a.setTimeout <|> a.getTimeout).bind fun secs => if 0 ≤ secs then some secs.toNat else none

/-- Open the device, and ask the driver for its timeout. -/
def «open» (a : Answer) (now : Nat) : Watchdog :=
  if a.opens then { wd.touch .opened now with policy := wd.policy.opened now (applied a), device := true }
  else { wd with policy := wd.policy.openFailed now, reportedMissing := true }

/-- Write to the device, if it is held. -/
def pet (a : Answer) (now : Nat) : Watchdog := if wd.device && a.writes then wd.touch .petted now else wd

/-- Called once per wake-up of the loop, after everything else. -/
def tick (a : Answer) (clock : Nat) (booted shuttingDown : Bool) : Watchdog :=
  let policy := if shuttingDown then wd.policy.beginShutdown else wd.policy
  let now := clock - wd.started
  let (tick, policy) := policy.tick now booted
  let wd := { wd with policy }
  match tick.action with
  | .open => wd.open a now
  | .pet => wd.pet a now
  | .nothing => wd

end Watchdog

/-- What to do with the device at the end of a shutdown. -/
inductive Release
  | disarm
  | keepRunning
  deriving DecidableEq

/-- What is done with the device, by whether the machine comes up again. -/
def release (reboot : Bool) : Release := if reboot then .keepRunning else .disarm

/-- The end of a shutdown, just before `reboot(2)`. -/
def Watchdog.release (action : Action) (a : Answer) (clock : Nat) (wd : Watchdog) : Watchdog :=
  let now := clock - wd.started
  match Hardware.release (action = .reboot) with
  | .disarm =>
    if wd.device then { wd.touch (if a.writes then .stopped else .closed) now with device := false } else wd
  | .keepRunning => wd.pet a now

end Oxinit.Hardware
