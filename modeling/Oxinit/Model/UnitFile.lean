import Mathlib.Algebra.GroupWithZero.Nat
import Oxinit.Model.Calendar
import Oxinit.Model.Exec
import Oxinit.Model.Load

/-!
# Unit files

`parse_in`, which makes a unit of the text of its file, and `parse_size`. What
the TOML parser makes of a text (`toml`) and which texts are a literal address
and port (`inet`, with the address as it is printed) are parameters.
-/

namespace Oxinit

/-! ## Sizes -/

/-- The errors of `ValueError` that a size can have. -/
inductive SizeError
  | emptySize
  | sizeSyntax (input : List Char)
  | sizeUnit (unit : List Char)
  | sizeOverflow
  deriving DecidableEq

/-- The binary multiples, by their suffix. -/
def bytesPer : List (List Char × Nat) :=
  [([], 1), (['K'], 2 ^ 10), (['M'], 2 ^ 20), (['G'], 2 ^ 30), (['T'], 2 ^ 40)]

/-- Multiples are binary: `1K` is 1024. A suffix is case-sensitive: `256m` might mean
mega or milli. -/
def parseSize (input : List Char) : Except SizeError SizeValue :=
  let text := Text.trim input
  if text = "max".toList then .ok .max
  else if text = [] then .error .emptySize
  else
    let digits := text.takeWhile Char.isDigit
    if digits = [] then .error (.sizeSyntax input)
    else
      match bytesPer.find? (·.1 = text.drop digits.length) with
      | none => .error (.sizeUnit (text.drop digits.length))
      | some (_, multiplier) =>
        match Text.fromStr 64 digits with
        | none => .error .sizeOverflow
        | some value =>
          match checkedMul value multiplier with
          | none => .error .sizeOverflow
          | some bytes => .ok (.bytes bytes)

/-- What is written to a cgroup's file. -/
def SizeValue.toText : SizeValue → List Char
  | .bytes n => Nat.toDigits 10 n
  | .max => "max".toList

/-! ## The shape of a file -/

/-- A duration of a unit file. -/
structure DurationValue where
  duration : Nat
  written : ∃ input, parseDuration input = .ok duration

/-- A size of a unit file. -/
structure Size where
  size : SizeValue
  written : ∃ input, parseSize input = .ok size

/-- The `[unit]` section, as it is written. -/
structure RawUnit where
  description : Option String := none
  requires : List Name := []
  wants : List Name := []
  after : List Name := []
  before : List Name := []
  conflicts : List Name := []

/-- The `[service]` section, as it is written. -/
structure RawService where
  ty : Option ServiceType := none
  exec : String
  restart : Option Restart := none
  restartSec : Option DurationValue := none
  startSec : Option DurationValue := none
  stopSec : Option DurationValue := none
  watchdogSec : Option DurationValue := none
  user : Option String := none
  tty : Option Bool := none
  output : Option Output := none

/-- The `[socket]` section, as it is written. -/
structure RawSocket where
  listen : List String
  service : Name
  ty : Option SocketType := none
  backlog : Option UInt32 := none

/-- The `[timer]` section, as it is written. -/
structure RawTimer where
  service : Name
  onBoot : Option DurationValue := none
  interval : Option DurationValue := none
  onCalendar : Option String := none

/-- The `[resources]` section, as it is written. -/
structure RawResources where
  memoryMax : Option Size := none
  tasksMax : Option UInt64 := none

/-- A unit file, as `serde` reads it. -/
structure RawFile where
  unit : Option RawUnit := none
  service : Option RawService := none
  /-- Targets take no keys. -/
  target : Bool := false
  socket : Option RawSocket := none
  timer : Option RawTimer := none
  resources : Option RawResources := none

/-- Which manager a unit is loaded by. -/
inductive Scope
  | system
  /-- `oxinit --user`, running as the user named here. -/
  | user (name : String)
  deriving DecidableEq

/-! ## Validation -/

/-- Usable as a filename component and as a cgroup path segment. -/
def nameChar (c : Char) : Bool := c.isAlphanum || c = '_' || c = '.' || c = '-'

/-- Refuse a name that is no filename component. -/
def validateName (name : Name) : Except UnitError PUnit :=
  if !name.isEmpty && name.toList.all nameChar then .ok ⟨⟩ else .error (.name name)

/-- Who a service runs as. A user manager has nobody else it could run one as,
and no terminal of its own. -/
def runsAs (scope : Scope) (name : Name) (service : RawService) : Except UnitError String :=
  match scope with
  | .system => .ok (service.user.getD "root")
  | .user owner =>
    if service.user.isSome then .error (.userInUserUnit name)
    else if service.tty = some true then .error (.ttyInUserUnit name)
    else .ok owner

/-- The argv of a service. -/
def parseExec (name : Name) (hostname user exec : String) : Except UnitError (List String) :=
  match Exec.parse exec.toList
      { name := name.toList, fullName := (name ++ ".service").toList, hostname := hostname.toList,
        user := user.toList } with
  | .ok argv => .ok (argv.map .ofList)
  | .error e => .error (.exec name e)

/-- What becomes of a `[service]` section. -/
def parseService (scope : Scope) (hostname : String) (name : Name) (resources : Option RawResources)
    (service : RawService) : Except UnitError Service := do
  let user ← runsAs scope name service
  let ty := service.ty.getD .simple
  let exec ← parseExec name hostname user service.exec
  if service.watchdogSec.isSome ∧ ty ≠ .notify then .error (.watchdogWithoutNotify name)
  else
    .ok {
      ty
      exec
      restart := service.restart.getD .no
      restartSec := service.restartSec.elim (Duration.fromMillis 100) (·.duration)
      startSec := service.startSec.elim (Duration.fromSecs 90) (·.duration)
      stopSec := service.stopSec.elim (Duration.fromSecs 30) (·.duration)
      watchdogSec := service.watchdogSec.map (·.duration)
      user
      tty := service.tty.getD false
      output := service.output.getD .console
      resources := resources.elim {} fun res =>
        { memoryMax := res.memoryMax.map (·.size), tasksMax := res.tasksMax.map (·.toNat) } }

/-- One `listen` entry: an absolute path, or a literal address and port. -/
def parseListen (inet : String → Option String) (address : String) : Option Listen :=
  if address.toList.head? = some '/' then some (.unix address) else (inet address).map .inet

/-- The first address that is none is the error. -/
def parseListens (inet : String → Option String) (name : Name) : List String → Except UnitError (List Listen)
  | [] => .ok []
  | address :: rest =>
    match parseListen inet address with
    | none => .error (.listenAddress name address)
    | some listen => do return listen :: (← parseListens inet name rest)

/-- What becomes of a `[socket]` section. A datagram socket is never `listen`ed on. -/
def parseSocket (inet : String → Option String) (name : Name) (socket : RawSocket) : Except UnitError Socket := do
  let ty := socket.ty.getD .stream
  if socket.listen = [] then .error (.emptyListen name)
  else if socket.backlog.isSome ∧ ty = .datagram then .error (.backlogOnDatagram name)
  else
    let listen ← parseListens inet name socket.listen
    .ok { listen, service := socket.service, ty, backlog := socket.backlog.elim 128 (·.toNat) }

/-- The calendar of a timer. -/
def parseCalendar (name : Name) (onCalendar : Option String) : Except UnitError (Option Calendar) :=
  match onCalendar with
  | none => .ok none
  | some text =>
    match Calendar.parse text with
    | .ok calendar => .ok (some calendar)
    | .error e => .error (.calendar name e)

/-- What becomes of a `[timer]` section. -/
def parseTimer (name : Name) (timer : RawTimer) : Except UnitError Timer := do
  let calendar ← parseCalendar name timer.onCalendar
  let schedule : Schedule :=
    { onBoot := timer.onBoot.map (·.duration), interval := timer.interval.map (·.duration), calendar }
  if schedule.isEmpty then .error (.emptySchedule name) else .ok { schedule, service := timer.service }

/-- How many kinds of section a file has. -/
def RawFile.sections (raw : RawFile) : Nat :=
  raw.service.isSome.toNat + raw.target.toNat + raw.socket.isSome.toNat + raw.timer.isSome.toNat

/-- What becomes of the one section that there is. -/
def parseKind (inet : String → Option String) (scope : Scope) (hostname : String) (name : Name) (raw : RawFile) :
    Except UnitError Kind :=
  match raw.service, raw.socket, raw.timer with
  | some service, none, none => (parseService scope hostname name raw.resources service).map .service
  | none, some socket, none => (parseSocket inet name socket).map .socket
  | none, none, some timer => (parseTimer name timer).map .timer
  | _, _, _ => .ok .target

/-- What `parse_in` does with the shape of a file. Only a service has a process to
limit. -/
def parseRaw (inet : String → Option String) (scope : Scope) (hostname : String) (name : Name) (raw : RawFile) :
    Except UnitError Unit := do
  let unit := raw.unit.getD {}
  let deps : Deps :=
    { requires := unit.requires, wants := unit.wants, after := unit.after, before := unit.before,
      conflicts := unit.conflicts }
  match deps.requires.find? (deps.conflicts.contains ·) with
  | some other => .error (.requiresAndConflicts name other)
  | none =>
    if raw.sections = 0 then .error (.noKind name)
    else if 1 < raw.sections then .error (.multipleKinds name)
    else if raw.service.isNone ∧ raw.resources.isSome then .error (.resourcesOnNonService name)
    else
      let kind ← parseKind inet scope hostname name raw
      .ok { name, description := unit.description.getD name, deps, kind }

/-- Parse one unit file, for the manager `scope` says. -/
def parseIn (toml : String → Except String RawFile) (inet : String → Option String) (scope : Scope)
    (hostname : String) (name : Name) (text : String) : Except UnitError Unit := do
  validateName name
  match toml text with
  | .error message => .error (.toml name message)
  | .ok raw => parseRaw inet scope hostname name raw

/-- Parse one unit file, for the system manager. -/
def Unit.parse (toml : String → Except String RawFile) (inet : String → Option String) (hostname : String)
    (name : Name) (text : String) : Except UnitError Unit := parseIn toml inet .system hostname name text

/-- `contents` is what comes of reading the file. -/
def readAndParse (toml : String → Except String RawFile) (inet : String → Option String) (scope : Scope)
    (hostname : String) (name : Name) (path : String) (contents : Except String String) : Except UnitError Unit :=
  match contents with
  | .error message => .error (.read path message)
  | .ok text => parseIn toml inet scope hostname name text

end Oxinit
