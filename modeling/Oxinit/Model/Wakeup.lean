import Oxinit.Model.Loop
import Oxinit.Model.Watchdog

/-!
# Wake-ups

The loop of PID 1 as the policy of a hardware watchdog sees it, whatever the
order in which the events of a wake-up are handled. The watchdog is ticked last,
so that it finds the boot unit as the wake-up leaves it. `Main` is the loop
itself.
-/

namespace Oxinit

namespace Watchdog

/-- What the loop does with the watchdog, once per wake-up. `device` is what
comes of opening the device, if that is to be done: nothing, or the timeout it
says it has. -/
def tick (now : Nat) (booted shuttingDown : Bool) (device : Option (Option Nat)) (p : Policy) : Tick × Policy :=
  let p := if shuttingDown then p.beginShutdown else p
  let (answer, p) := p.tick now booted
  match answer.action, device with
  | .open, some applied => (answer, p.opened now applied)
  | .open, none => (answer, p.openFailed now)
  | _, _ => (answer, p)

end Watchdog

/-- PID 1, and what there is of its watchdog but the device. -/
structure Pid1 where
  supervisor : Supervisor
  watchdog : Watchdog.Policy
  /-- When the watchdog was configured. -/
  started : Nat

/-- What one wake-up finds. -/
structure Wakeup where
  /-- What is ready, in the order it is handled. -/
  sources : List Event
  device : Option (Option Nat)

/-- What the supervisor does in a wake-up. -/
def Wakeup.events (k : Wakeup) : List Event := .sleep :: k.sources ++ [.pump, .syncSockets]

namespace Pid1

/-- The loop is about to be entered. -/
def init (w : World) (hierarchy : Bool) (kernel : Kernel) (config : Watchdog.Config) : Pid1 :=
  let s := (Supervisor.syncSockets w (Supervisor.boot w hierarchy kernel)).turn w
  { supervisor := s, watchdog := .new config, started := s.kernel.now }

/-- One turn of the loop, and what the watchdog says in it. -/
def wakeUp (w : World) (p : Pid1) (k : Wakeup) : Watchdog.Tick × Pid1 :=
  let s := (Supervisor.run w p.supervisor k.events).turn w
  let booted := p.watchdog.awaiting.any s.reached
  let (answer, watchdog) := Watchdog.tick (s.kernel.now - p.started) booted s.shuttingDown k.device p.watchdog
  (answer, { p with supervisor := s, watchdog })

/-- The turns of the loop, one after another. -/
def run (w : World) (p : Pid1) (ks : List Wakeup) : Pid1 := ks.foldl (fun p k => (wakeUp w p k).2) p

end Pid1

end Oxinit
