import Mathlib.Algebra.GroupWithZero.Nat
import Oxinit.Model.Hardware
import Oxinit.Model.UnitFile

/-!
# The watchdog's configuration

`Settings` of `oxinit-watchdog`: what a file or the command line says, key by
key, and what the machine is to run with.
-/

namespace Oxinit.Watchdog

/-- The device when the configuration names none. -/
def defaultDevice : String := "/dev/watchdog0"

/-- Kernel command line keys are this, followed by a key from the file. -/
def cmdlinePrefix : List Char := "oxinit.watchdog.".toList

/-- The largest timeout the ioctl can carry. -/
def maxTimeoutSecs : Nat := 2 ^ 31 - 1

/-- A setting of the watchdog that is refused. -/
inductive WatchdogError
  | toml (origin message : String)
  | unknownKey (origin : String) (key : List Char)
  | value (origin : String) (key : List Char) (message : String)
  | timeout
  | bootWithoutUnit
  | unitWithoutBoot
  deriving DecidableEq

/-- What is reported of it. -/
def WatchdogError.toString : WatchdogError → String
  | .toml origin message => origin ++ ": " ++ message
  | .unknownKey origin key => origin ++ ": `" ++ .ofList key ++ "` is not a key oxinit knows"
  | .value origin key message => origin ++ ": " ++ .ofList key ++ ": " ++ message
  | .timeout =>
    "timeout-sec must be whole seconds, between 1s and " ++ ToString.toString maxTimeoutSecs ++
      "s, or 0s for no watchdog; the hardware counts seconds"
  | .bootWithoutUnit =>
    "boot-sec needs boot-unit: a boot deadline is a deadline for something, and boot-unit names what"
  | .unitWithoutBoot =>
    "boot-unit needs boot-sec: naming the unit that confirms a boot means nothing without a deadline for it"

/-- What a file or the command line said. -/
structure Settings where
  device : Option String := none
  timeout : Option Nat := none
  bootUnit : Option Name := none
  boot : Option Nat := none
  deriving DecidableEq

/-- `watchdog.toml`, as `serde` reads it. -/
structure RawFile where
  device : Option String := none
  timeoutSec : Option DurationValue := none
  bootUnit : Option String := none
  bootSec : Option DurationValue := none

namespace Settings

/-- A `watchdog.toml`. `toml` is what the parser makes of a text. -/
def parse (toml : String → Except String RawFile) (origin text : String) : Except WatchdogError Settings :=
  match toml text with
  | .error e => .error (.toml origin e)
  | .ok raw =>
    .ok {
      device := raw.device
      timeout := raw.timeoutSec.map (·.duration)
      bootUnit := raw.bootUnit
      boot := raw.bootSec.map (·.duration) }

/-- What the origin of a word of the command line is called. -/
def kernelCommandLine : String := "kernel command line"

/-- A duration on the command line. -/
def duration (key value : List Char) : Except WatchdogError Nat :=
  match parseDuration value with
  | .ok d => .ok d
  | .error e => .error (.value kernelCommandLine (cmdlinePrefix ++ key) e.toString)

/-- One word of the command line. -/
def readWord (settings : Settings) (word : List Char) : Except WatchdogError Settings :=
  match cmdlinePrefix.isPrefixOf? word with
  | none => .ok settings
  | some rest =>
    let (key, value) := (Text.splitOnce '=' rest).getD (rest, [])
    if key = "device".toList then .ok { settings with device := some (.ofList value) }
    else if key = "timeout-sec".toList then (duration key value).map fun d => { settings with timeout := some d }
    else if key = "boot-unit".toList then .ok { settings with bootUnit := some (.ofList value) }
    else if key = "boot-sec".toList then (duration key value).map fun d => { settings with boot := some d }
    else .error (.unknownKey kernelCommandLine (cmdlinePrefix ++ key))

/-- The `oxinit.watchdog.*` entries of a kernel command line. -/
def fromCmdline (cmdline : List Char) : Except WatchdogError Settings :=
  (Text.splitWhitespace cmdline).foldlM readWord {}

/-- `self`, with anything it leaves unsaid taken from `base`. -/
def «over» (self base : Settings) : Settings :=
  { device := self.device.or base.device
    timeout := self.timeout.or base.timeout
    bootUnit := self.bootUnit.or base.bootUnit
    boot := self.boot.or base.boot }

/-- The deadline for the boot. A deadline of zero is none. -/
def deadline (self : Settings) : Except WatchdogError (Option Boot) :=
  match self.boot.filter (· ≠ 0), self.bootUnit with
  | none, none => .ok none
  | none, some _ => if self.boot.isSome then .ok none else .error .unitWithoutBoot
  | some _, none => .error .bootWithoutUnit
  | some within, some unit => .ok (some { unit, within })

/-- What to run with; a timeout of zero is no watchdog. -/
def resolve (self : Settings) : Except WatchdogError (Option Config) :=
  match self.timeout with
  | none => .ok none
  | some timeout =>
    if timeout = 0 then .ok none
    else if timeout % Duration.fromSecs 1 ≠ 0 ∨ maxTimeoutSecs < timeout / Duration.fromSecs 1 then .error .timeout
    else self.deadline.map fun boot =>
      some { device := self.device.getD defaultDevice, timeout := timeout / Duration.fromSecs 1, boot }

end Settings

/-- A file as it is read, if there is one. -/
abbrev File := Option (Except String String)

/-- A file's settings, if there is one. -/
def read (toml : String → Except String RawFile) (path : String) : File → Except WatchdogError (Option Settings)
  | none => .ok none
  | some (.ok text) => (Settings.parse toml path text).map some
  | some (.error e) => .error (.toml path e)

/-- The files of a machine, and what its kernel was told. -/
structure Sources where
  etc : File := none
  vendor : File := none
  cmdline : List Char := []

/-- The settings of whichever file is in force. -/
def loadFile (toml : String → Except String RawFile) (etc vendor : File) : Except WatchdogError Settings := do
  match ← read toml "/etc/oxinit/watchdog.toml" etc with
  | some settings => return settings
  | none => return (← read toml "/usr/lib/oxinit/watchdog.toml" vendor).getD {}

/-- The configuration, from the files and the kernel command line. -/
def load (toml : String → Except String RawFile) (s : Sources) : Except WatchdogError Settings := do
  let file ← loadFile toml s.etc s.vendor
  let cmdline ← Settings.fromCmdline s.cmdline
  return cmdline.«over» file

/-- What the machine runs with. A configuration that is broken is reported. -/
def configured (toml : String → Except String RawFile) (s : Sources) : Option Config :=
  match load toml s >>= Settings.resolve with
  | .ok config => config
  | .error _ => none

end Oxinit.Watchdog
