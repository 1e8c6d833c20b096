import Mathlib.Algebra.GroupWithZero.Nat
import Mathlib.Logic.Relation
import Oxinit.Model.Exec

/-!
# Units

The unit model of `oxinit-unit`: what a unit file says once it has been
parsed and validated, the errors a file that does not validate is reported
with, and what loading the unit directories gives (`Loaded`).

A `Duration` and an `Instant` are numbers of nanoseconds, a `Unix` time a
number of seconds.
-/

namespace Oxinit

/-- The name of a unit: the stem of the name of its file. -/
abbrev Name := String

/-- `u64::saturating_add`. -/
def saturatingAdd (a b : Nat) : Nat := min (a + b) (2 ^ 64 - 1)

namespace Duration

/-- So many milliseconds. -/
def fromMillis (n : Nat) : Nat := n * 1000000

/-- So many seconds. -/
def fromSecs (n : Nat) : Nat := n * 1000000000

/-- The whole seconds of a duration. -/
def asSecs (d : Nat) : Nat := d / 1000000000

end Duration

/-- Requirement and ordering are separate axes: `requires` implies no
ordering, `after` creates no dependency. -/
structure Deps where
  requires : List Name := []
  wants : List Name := []
  after : List Name := []
  before : List Name := []
  conflicts : List Name := []
  deriving DecidableEq

/-- When a service is up. -/
inductive ServiceType
  | simple
  | forking
  | oneshot
  | notify
  deriving DecidableEq

/-- Where the output of a service goes. -/
inductive Output
  | console
  | log
  | null
  deriving DecidableEq

/-- After which ends a service is restarted. -/
inductive Restart
  | no
  | always
  | onFailure
  | onAbnormal
  deriving DecidableEq

/-- A limit of memory. -/
inductive SizeValue
  | bytes (n : Nat)
  | max
  deriving DecidableEq

/-- An absent limit is the kernel default, which is unlimited. -/
structure Resources where
  memoryMax : Option SizeValue := none
  tasksMax : Option Nat := none
  deriving DecidableEq

/-- The `[service]` section. -/
structure Service where
  ty : ServiceType := .simple
  exec : List String
  restart : Restart := .no
  restartSec : Nat := Duration.fromMillis 100
  startSec : Nat := Duration.fromSecs 90
  stopSec : Nat := Duration.fromSecs 30
  watchdogSec : Option Nat := none
  user : String := "root"
  tty : Bool := false
  output : Output := .console
  resources : Resources := {}
  deriving DecidableEq

/-- One address to bind: a literal IP and port, or an absolute path. -/
inductive Listen
  | inet (addr : String)
  | unix (path : String)
  deriving DecidableEq

/-- The type of a socket. -/
inductive SocketType
  | stream
  | datagram
  | seqpacket
  deriving DecidableEq

/-- The `[socket]` section. -/
structure Socket where
  listen : List Listen
  service : Name
  ty : SocketType := .stream
  backlog : Nat := 128
  deriving DecidableEq

/-- A wall-clock schedule. -/
inductive Calendar
  | hourly
  | daily
  | weekly
  | at (hour minute second : Nat)
  deriving DecidableEq

/-- When a timer elapses. -/
structure Schedule where
  onBoot : Option Nat := none
  interval : Option Nat := none
  calendar : Option Calendar := none
  deriving DecidableEq

/-- The `[timer]` section. -/
structure Timer where
  schedule : Schedule
  service : Name
  deriving DecidableEq

/-- What a unit is. -/
inductive Kind
  | service (service : Service)
  | target
  | socket (socket : Socket)
  | timer (timer : Timer)
  deriving DecidableEq

/-- A parsed, validated unit. -/
structure Unit where
  name : Name
  description : String
  deps : Deps := {}
  kind : Kind
  deriving DecidableEq

namespace Unit

/-- The name with the kind for its suffix. -/
def fullName (u : Unit) : String :=
  u.name ++ "." ++ match u.kind with
    | .service _ => "service"
    | .target => "target"
    | .socket _ => "socket"
    | .timer _ => "timer"

/-- The timer, if it is one. -/
def timer (u : Unit) : Option Timer :=
  match u.kind with
  | .timer timer => some timer
  | _ => none

/-- The service, if it is one. -/
def service (u : Unit) : Option Service :=
  match u.kind with
  | .service service => some service
  | _ => none

/-- The socket, if it is one. -/
def socket (u : Unit) : Option Socket :=
  match u.kind with
  | .socket socket => some socket
  | _ => none

theorem kind_of_timer {u : Unit} {tm : Timer} (h : u.timer = some tm) : u.kind = .timer tm := by
  simp only [timer] at h
  split at h <;> cases h
  assumption

theorem service_of_timer {u : Unit} {tm : Timer} (h : u.timer = some tm) : u.service = none := by
  rw [service, kind_of_timer h]

end Unit

/-! ## Loading -/

/-- A malformed `on-calendar` expression. -/
structure CalendarError where
  expression : String
  deriving DecidableEq

/-- What is reported of it. -/
def CalendarError.toString (e : CalendarError) : String :=
  "`" ++ e.expression ++ "` is not a schedule: expected hourly, daily, weekly, HH:MM or HH:MM:SS"

/-- A unit file that does not parse or does not validate. -/
inductive UnitError
  | toml (unit : Name) (message : String)
  | exec (unit : Name) (source : Exec.ExecError)
  | noKind (unit : Name)
  | multipleKinds (unit : Name)
  | emptyListen (unit : Name)
  | emptySchedule (unit : Name)
  | calendar (unit : Name) (source : CalendarError)
  | listenAddress (unit : Name) (address : String)
  | backlogOnDatagram (unit : Name)
  | watchdogWithoutNotify (unit : Name)
  | resourcesOnNonService (unit : Name)
  | requiresAndConflicts (unit other : Name)
  | name (unit : Name)
  | userInUserUnit (unit : Name)
  | ttyInUserUnit (unit : Name)
  | read (path message : String)
  | directory (path message : String)
  deriving DecidableEq

/-- What is reported of it. -/
def UnitError.toString : UnitError → String
  | .toml unit message => "unit `" ++ unit ++ "`: " ++ message
  | .exec unit source => "unit `" ++ unit ++ "`: exec: " ++ source.toString
  | .noKind unit => "unit `" ++ unit ++ "` has no [service], [target], or [socket] section; " ++
      "every unit needs exactly one kind"
  | .multipleKinds unit => "unit `" ++ unit ++ "` has more than one kind section; " ++
      "use exactly one of [service], [target], [socket], [timer]"
  | .emptyListen unit =>
    "unit `" ++ unit ++ "`: listen is empty; a socket that listens on nothing does nothing"
  | .emptySchedule unit => "unit `" ++ unit ++ "`: a timer needs one of on-boot, interval or " ++
      "on-calendar; without them it would sit armed and never fire"
  | .calendar unit source => "unit `" ++ unit ++ "`: " ++ source.toString
  | .listenAddress unit address => "unit `" ++ unit ++ "`: cannot listen on `" ++ address ++
      "`: expected `address:port` with a literal IP, or an absolute path for a unix socket"
  | .backlogOnDatagram unit =>
    "unit `" ++ unit ++ "`: backlog has no meaning for type = \"datagram\""
  | .watchdogWithoutNotify unit =>
    "unit `" ++ unit ++ "`: watchdog-sec needs type = \"notify\"; nothing else can ping"
  | .resourcesOnNonService unit => "unit `" ++ unit ++ "`: [resources] applies to services only"
  | .requiresAndConflicts unit other =>
    "unit `" ++ unit ++ "` both requires and conflicts with `" ++ other ++ "`"
  | .name unit =>
    "invalid unit name `" ++ unit ++ "`: expected only letters, digits, `_`, `.`, and `-`"
  | .userInUserUnit unit => "user unit `" ++ unit ++ "`: `user` is for system units; a user manager " ++
      "runs every service as its own user"
  | .ttyInUserUnit unit => "user unit `" ++ unit ++ "`: `tty` is for system units; the terminal " ++
      "belongs to the user's session"
  | .read path message => "read " ++ path ++ ": " ++ message
  | .directory path message => "read directory " ++ path ++ ": " ++ message

/-- Units found on disk, plus whatever went wrong finding them. -/
structure Loaded where
  units : Std.TreeMap Name Unit := ∅
  errors : List UnitError := []

end Oxinit
