import Oxinit.Model.Unit

/-!
# The hardware watchdog

The policy of `oxinit-watchdog`: when to write to the device, and when to
stop. Every decision takes the time since oxinit started; a `Duration` is a
number of nanoseconds and a `u32` of seconds a number.
-/

namespace Oxinit.Watchdog

/-- How long a boot has to confirm itself, and the unit that confirms it. -/
structure Boot where
  unit : Name
  within : Nat
  deriving DecidableEq

/-- A watchdog to feed; the timeout is in seconds. -/
structure Config where
  device : String
  timeout : Nat
  boot : Option Boot
  deriving DecidableEq

/-- Twice per timeout. -/
def petInterval (timeoutSecs : Nat) : Nat := Duration.fromSecs timeoutSecs / 2

/-- The interval when the driver would neither take a timeout nor say what its
own is. -/
def unknownTimeoutInterval : Nat := Duration.fromSecs 1

/-- Where the boot deadline stands. -/
inductive BootState
  | confirmed
  | pending
  | overdue
  deriving DecidableEq

/-- What the loop should do with the device. -/
inductive Action
  | nothing
  | open
  | pet
  deriving DecidableEq

/-- What there is to report. -/
inductive Event
  | bootConfirmed
  | bootOverdue
  deriving DecidableEq

/-- What a tick says is to be done, and to be reported. -/
structure Tick where
  action : Action
  event : Option Event
  deriving DecidableEq

/-- The policy, and what it remembers. -/
structure Policy where
  config : Config
  boot : BootState
  /-- Whether the device is held. -/
  isOpen : Bool
  interval : Nat
  lastPet : Option Nat
  lastTry : Option Nat
  shuttingDown : Bool
  deriving DecidableEq

namespace Policy

/-- The policy as the loop is entered. -/
def new (config : Config) : Policy where
  config := config
  boot := if config.boot.isSome then .pending else .confirmed
  isOpen := false
  interval := petInterval config.timeout
  lastPet := none
  lastTry := none
  shuttingDown := false

/-- The unit whose coming up confirms the boot, while that is waited for. -/
def awaiting (p : Policy) : Option Name :=
  match p.boot, p.config.boot with
  | .pending, some boot => some boot.unit
  | _, _ => none

/-- The device is open. Opening it pings it. `applied` is the timeout the
driver settled on. -/
def opened (now : Nat) (applied : Option Nat) (p : Policy) : Policy :=
  { p with
    isOpen := true
    lastPet := some now
    interval := match applied with
      | some secs => if 0 < secs then petInterval secs else unknownTimeoutInterval
      | none => unknownTimeoutInterval }

/-- The device could not be opened. -/
def openFailed (now : Nat) (p : Policy) : Policy := { p with lastTry := some now }

/-- The boot deadline stops applying. -/
def beginShutdown (p : Policy) : Policy := { p with shuttingDown := true }

/-- Whether an interval has passed since `last`, if there was one. -/
def due (last : Option Nat) (now : Nat) (p : Policy) : Bool := last.all fun last => p.interval ≤ now - last

/-- Judge the boot. Whether the unit came up is asked first: in the same wake-up
as the deadline, it came up in time. -/
def updateBoot (now : Nat) (booted : Bool) (p : Policy) : Option Event × Policy :=
  if p.boot ≠ .pending then (none, p)
  else if booted then (some .bootConfirmed, { p with boot := .confirmed })
  else
    match p.config.boot with
    | none => (none, p)
    | some boot =>
      if !p.shuttingDown ∧ boot.within ≤ now then (some .bootOverdue, { p with boot := .overdue }) else (none, p)

/-- Decide, and record the decision as done. A device whose boot is overdue is
starved on purpose. -/
def tick (now : Nat) (booted : Bool) (p : Policy) : Tick × Policy :=
  let (event, p) := p.updateBoot now booted
  if !p.isOpen then
    if p.due p.lastTry now then ({ action := .open, event }, { p with lastTry := some now })
    else ({ action := .nothing, event }, p)
  else if p.boot = .overdue then ({ action := .nothing, event }, p)
  else if p.due p.lastPet now then ({ action := .pet, event }, { p with lastPet := some now })
  else ({ action := .nothing, event }, p)

/-- The sooner of what has been considered and `moment`. -/
def consider (now : Nat) (soonest : Option Nat) (moment : Nat) : Option Nat :=
  some (soonest.elim (moment - now) (min · (moment - now)))

/-- How long the loop may sleep before `tick` has something to do. -/
def nextWake (now : Nat) (p : Policy) : Option Nat :=
  let soonest :=
    if !p.isOpen then consider now none (p.lastTry.elim now (· + p.interval))
    else if p.boot ≠ .overdue then consider now none (p.lastPet.elim now (· + p.interval))
    else none
  match p.boot, p.shuttingDown, p.config.boot with
  | .pending, false, some boot => consider now soonest boot.within
  | _, _, _ => soonest

end Policy

/-! ## Runs -/

/-- What is done to a policy, and when. -/
inductive Op
  | opened (now : Nat) (applied : Option Nat)
  | openFailed (now : Nat)
  | beginShutdown
  | tick (now : Nat) (booted : Bool)
  deriving DecidableEq

/-- A tick that was made, with what it found and what it answered. -/
structure Entry where
  now : Nat
  booted : Bool
  shuttingDown : Bool
  answer : Tick
  deriving DecidableEq

/-- A write to the device, and the interval in force from it on. -/
structure Write where
  now : Nat
  interval : Nat
  deriving DecidableEq

/-- A policy, and what has been done to it. -/
structure Course where
  policy : Policy
  /-- The time of the last operation. -/
  now : Nat := 0
  /-- The last tick, or the opening of the device if that was later. -/
  woken : Option Nat := none
  /-- When the device was written to, newest first; opening it writes. -/
  writes : List Write := []
  /-- Newest first. -/
  ticks : List Entry := []
  deriving DecidableEq

namespace Course

/-- When an operation is carried out; to begin a shutdown reads no clock. -/
def timeOf (c : Course) : Op → Nat
  | .opened now _ | .openFailed now | .tick now _ => now
  | .beginShutdown => c.now

/-- One of them. -/
def step (c : Course) (op : Op) : Course :=
  match op with
  | .opened now applied =>
    let policy := c.policy.opened now applied
    { c with policy, now, woken := some now, writes := ⟨now, policy.interval⟩ :: c.writes }
  | .openFailed now => { c with policy := c.policy.openFailed now, now }
  | .beginShutdown => { c with policy := c.policy.beginShutdown }
  | .tick now booted =>
    let (answer, policy) := c.policy.tick now booted
    { policy, now
      woken := some now
      writes := if answer.action = .pet then ⟨now, policy.interval⟩ :: c.writes else c.writes
      ticks := { now, booted, shuttingDown := c.policy.shuttingDown, answer } :: c.ticks }

/-- Any sequence of them. -/
def run (c : Course) (ops : List Op) : Course := ops.foldl step c

end Course

/-- A policy that nothing has been done to. -/
def course (config : Config) : Course := { policy := .new config }

end Oxinit.Watchdog
