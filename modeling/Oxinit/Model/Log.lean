import Oxinit.Model.Unit
import Mathlib.Logic.Function.Basic

/-!
# The log files

`oxinit-log`, which says where a unit's log lives, what a record is and when
to rotate, and the part of `oxlogd` that writes a record. A path is the name
of a file in the log directory; a unit's name is the stem of the name of its
unit file, so it has no slash in it.
-/

namespace Oxinit.Log

/-- What is read and written. -/
abbrev Bytes := List UInt8

/-- The encoding of a string. -/
def bytes (s : String) : Bytes := s.toUTF8.data.toList

/-- A moment of the wall clock. -/
structure Timestamp where
  secs : Nat
  micros : Nat
  deriving DecidableEq

/-- `{:06}`. -/
def sixDigits (n : Nat) : String := String.ofList ((toString n).toList.leftpad 6 '0')

/-- One record: `<seconds>.<microseconds> <line>` and a newline. -/
def record (now : Timestamp) (line : Bytes) : Bytes :=
  bytes (toString now.secs ++ "." ++ sixDigits now.micros ++ " ") ++ line ++ [10]

/-- The live file for a unit. -/
def path (unit : Name) : String := unit ++ ".log"

/-- The name of an old file. -/
def generation (unit : Name) (n : Nat) : String := unit ++ ".log." ++ toString n

/-- When to start a new file, and how many old ones to keep. -/
structure Rotation where
  maxSize : Nat
  keep : Nat
  deriving DecidableEq

/-- One move of a rotation. -/
inductive Move
  | remove (path : String)
  | rename (source target : String)
  deriving DecidableEq

namespace Rotation

/-- Asked before the write. A single record larger than `maxSize` goes into a
file of its own. -/
def shouldRotate (current adding : Nat) (r : Rotation) : Bool :=
  0 < current && r.maxSize < saturatingAdd current adding

/-- Every move needed to free the live file, highest generation first. -/
def plan (unit : Name) (r : Rotation) : List Move :=
  let live := path unit
  if r.keep = 0 then [.remove live]
  else
    .remove (generation unit r.keep)
      :: (List.range' 1 (r.keep - 1)).reverse.map (fun n => .rename (generation unit n) (generation unit (n + 1)))
      ++ [.rename live (generation unit 1)]

end Rotation

/-! ## The directory -/

/-- The log directory. A name stands for a file, which keeps its contents when
it is renamed and for whoever holds it open. -/
structure Files where
  entries : String → Option Nat := fun _ => none
  data : Nat → Bytes := fun _ => []
  /-- How many files have been created. -/
  created : Nat := 0

/-- No file grows beyond what an offset into it can say. -/
def maxFileSize : Nat := 2 ^ 63 - 1

namespace Files

/-- What is in the file of a name. -/
def contents (name : String) (fs : Files) : Option Bytes := (fs.entries name).map fs.data

/-- `unlink(2)`. Who has the file open keeps it. -/
def remove (name : String) (fs : Files) : Files := { fs with entries := Function.update fs.entries name none }

/-- `rename(2)`. What was at the target is replaced. -/
def rename (source target : String) (fs : Files) : Files :=
  match fs.entries source with
  | none => fs
  | some file =>
    { fs with entries := Function.update (Function.update fs.entries source none) target (some file) }

/-- `OpenOptions::new().create(true).append(true)`. -/
def openAppend (name : String) (fs : Files) : Nat × Files :=
  match fs.entries name with
  | some file => (file, fs)
  | none =>
    (fs.created,
      { entries := Function.update fs.entries name (some fs.created)
        data := Function.update fs.data fs.created []
        created := fs.created + 1 })

/-- At the end of an open file; `none` if it fails. -/
def append (file : Nat) (what : Bytes) (fs : Files) : Option Files :=
  if (fs.data file).length + what.length ≤ maxFileSize then
    some { fs with data := Function.update fs.data file (fs.data file ++ what) }
  else none

/-- A move, past what it finds missing. -/
def move (fs : Files) : Move → Files
  | .remove path => fs.remove path
  | .rename source target => fs.rename source target

end Files

/-- Shift the generations down and drop the oldest. -/
def rotate (r : Rotation) (unit : Name) (fs : Files) : Files := (r.plan unit).foldl Files.move fs

/-! ## Writing -/

/-- One unit's open file, and the size it is known to have. -/
structure Sink where
  file : Nat
  size : Nat
  deriving DecidableEq

/-- What the shipper remembers of its files, and the files. -/
structure Shipper where
  sinks : Std.TreeMap Name Sink := ∅
  files : Files := {}

namespace Shipper

/-- `open`, which finds out how large the file is. -/
def sink (unit : Name) (s : Shipper) : Sink × Shipper :=
  match s.sinks[unit]? with
  | some sink => (sink, s)
  | none =>
    let (file, files) := s.files.openAppend (path unit)
    let sink : Sink := { file, size := (files.data file).length }
    (sink, { sinks := s.sinks.insert unit sink, files })

/-- One record into one unit's file, rotating first if it would not fit; and
whether it could be written. That the handle is dropped is what starts the new
file. -/
def write (r : Rotation) (unit : Name) (now : Timestamp) (line : Bytes) (s : Shipper) : Bool × Shipper :=
  let scratch := record now line
  let (sink, s) := s.sink unit
  let s :=
    if r.shouldRotate sink.size scratch.length then
      { sinks := s.sinks.erase unit, files := rotate r unit s.files }
    else s
  let (sink, s) := s.sink unit
  match s.files.append sink.file scratch with
  | some files =>
    (true, { sinks := s.sinks.insert unit { sink with size := saturatingAdd sink.size scratch.length }, files })
  | none => (false, s)

end Shipper

/-! ## Runs -/

/-- A line is to be written, or `oxlogd` is replaced by another. -/
inductive Op
  | write (unit : Name) (now : Timestamp) (line : Bytes)
  | restart
  deriving DecidableEq

namespace Shipper

/-- One of them. -/
def step (r : Rotation) (s : Shipper) : Op → Shipper
  | .write unit now line => (s.write r unit now line).2
  | .restart => { s with sinks := ∅ }

/-- Every operation on the directory that `step` makes succeeds. -/
def Succeeds (r : Rotation) (s : Shipper) : Op → Prop
  | .write unit now line => (s.write r unit now line).1
  | .restart => True

instance {r : Rotation} {s : Shipper} : (op : Op) → Decidable (s.Succeeds r op)
  | .write unit now line => inferInstanceAs (Decidable ((s.write r unit now line).1 = true))
  | .restart => inferInstanceAs (Decidable True)

/-- Any sequence of them, from the start. -/
def run (r : Rotation) (ops : List Op) : Shipper := ops.foldl (step r) {}

end Shipper

/-- The records of one unit, in the order in which they were written. -/
def recordsOf (unit : Name) (ops : List Op) : List Bytes :=
  ops.filterMap fun
    | .write unit' now line => if unit' = unit then some (record now line) else none
    | .restart => none

end Oxinit.Log
