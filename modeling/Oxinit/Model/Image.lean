import Oxinit.Model.Log

/-!
# The child's exec image

`Image` of `sys/raw.rs`: what the parent lays out before the fork, and what the
child writes into it before it execs. A pointer is the index of the string that
it points to, and a null pointer is `none`.
-/

namespace Oxinit

open Log (Bytes bytes)

/-- The variable whose value only the child knows. -/
def listenPid : Bytes := bytes "LISTEN_PID="

/-- Room for any pid the kernel will hand out. -/
def pidDigits : Nat := 10

/-- Variables oxinit never passes through from its own environment. -/
def reserved : List Bytes :=
  [bytes "LISTEN_FDS", bytes "LISTEN_PID", bytes "LISTEN_FDNAMES", bytes "NOTIFY_SOCKET", bytes "WATCHDOG_USEC"]

/-- What a variable's name and value have between them. -/
def equals : UInt8 := 61

/-- Append the NUL that makes a byte string a C string, unless it has one. -/
def terminate (bytes : Bytes) : Option Bytes := if 0 ∈ bytes then none else some (bytes ++ [0])

/-- One entry of `std::env::vars_os`. A name is not empty, so it may begin with
the sign that ends it. -/
def parseVar : Bytes → Option (Bytes × Bytes)
  | [] => none
  | first :: rest => (rest.findIdx? (· == equals)).map fun pos => (first :: rest.take pos, rest.drop (pos + 1))

/-- `std::env::vars_os`. -/
def varsOs (environ : List Bytes) : List (Bytes × Bytes) := environ.filterMap parseVar

/-- One variable, as it stands in an environment. -/
def entry (var : Bytes × Bytes) : Bytes := var.1 ++ equals :: var.2

/-- The strings of an `execve(2)`, and its two arrays of pointers, each an index
into them or null. -/
structure Image where
  storage : List Bytes
  argv : List (Option Nat)
  envp : List (Option Nat)
  /-- Which string holds `LISTEN_PID`, and where its digits start. -/
  listenPid : Option (Nat × Nat)
  deriving DecidableEq

namespace Image

/-- Whether a variable of oxinit's own is passed on. -/
def passes (env : List (Bytes × Bytes)) (var : Bytes × Bytes) : Bool :=
  !reserved.any (· == var.1) && !env.any (·.1 == var.1)

/-- Lay out the image, in an oxinit whose own environment is `environ`. `env` is
what it adds, and `listen` reserves the slot, zeroes at first, that the child
fills in. -/
def build (environ : List Bytes) (exec : List Bytes) (env : List (Bytes × Bytes)) (listen : Bool) : Option Image := do
  let args ← exec.mapM terminate
  let argc := args.length
  if argc = 0 then none
  else
    let inherited ← ((varsOs environ).filter (passes env)).mapM fun var => terminate (entry var)
    let added ← env.mapM fun var => terminate (entry var)
    let slot := if listen then [Oxinit.listenPid ++ List.replicate (pidDigits + 1) 0] else []
    let storage := args ++ inherited ++ added ++ slot
    some {
      storage
      argv := (List.range argc).map some ++ [none]
      envp := (List.range' argc (storage.length - argc)).map some ++ [none]
      listenPid := if listen then some (storage.length - 1, Oxinit.listenPid.length) else none }

end Image

/-- What `spawn` adds for a service that is handed the descriptors of these
socket units. -/
def environment (service : Service) (notify : String) (listen : List Name) : List (Bytes × Bytes) :=
  (if service.ty = .notify then
    (bytes "NOTIFY_SOCKET", bytes notify) ::
      (service.watchdogSec.map fun interval => (bytes "WATCHDOG_USEC", bytes (toString (interval / 1000)))).toList
  else [])
    ++ if listen = [] then []
      else [(bytes "LISTEN_FDS", bytes (toString listen.length)), (bytes "LISTEN_FDNAMES", bytes (":".intercalate listen))]

/-- The digits of `value` into the array, from the place before `first` down;
and where they begin. -/
def writeDigits (digits : Bytes) (value : Nat) : Nat → Bytes × Nat
  | 0 => (digits, 0)
  | first + 1 =>
    let digits := digits.set first (48 + UInt8.ofNat (value % 10))
    if value / 10 = 0 then (digits, first) else writeDigits digits (value / 10) first

/-- Bytes into the entry from `at` on; and where they end. -/
def copyBytes (entry : Bytes) («at» : Nat) : Bytes → Bytes × Nat
  | [] => (entry, «at»)
  | byte :: bytes => copyBytes (entry.set «at» byte) («at» + 1) bytes

/-- Write `pid` as decimal digits at `offset`, followed by a NUL. -/
def writePid (entry : Bytes) (offset : Nat) (pid : Int) : Bytes :=
  let (digits, first) := writeDigits (List.replicate pidDigits 0) pid.natAbs pidDigits
  let (entry, «at») := copyBytes entry offset (digits.drop first)
  entry.set «at» 0

namespace Image

/-- The image as the child execs it, its own pid written into it. -/
def filled (pid : Int) (image : Image) : Image :=
  match image.listenPid with
  | none => image
  | some (index, offset) =>
    match image.storage[index]? with
    | none => image
    | some entry => { image with storage := image.storage.set index (writePid entry offset pid) }

end Image

/-- A C string: what comes before the NUL. -/
def cString (bytes : Bytes) : Bytes := bytes.takeWhile (· ≠ 0)

/-- What `execve` reads through a null-terminated array of pointers. -/
def Image.strings (image : Image) : List (Option Nat) → List Bytes
  | [] | none :: _ => []
  | some index :: pointers => cString (image.storage.getD index []) :: image.strings pointers

end Oxinit
