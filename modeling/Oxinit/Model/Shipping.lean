import Oxinit.Model.Logs
import Oxinit.Model.Splitter

/-!
# Shipping

The loop of `oxlogd`. A source is the pipe of one start of a service, known by
how many descriptors came before it, with the splitter that its reads go
through. `Wake` is what one turn of the loop finds; `Serving` are the states in
which the loop waits, whatever the services, oxinit and the reads have done.
-/

namespace Oxinit.Log

open Pipes (Pipe)

/-- How much to take from a pipe at once. -/
def readSize : Nat := 16 * 1024

/-- One service's pipe. -/
structure Source where
  id : Nat
  unit : Name
  pipe : Pipe
  splitter : Splitter := {}
  deriving DecidableEq

/-- A line that was given to `write`, for the file of `unit`. -/
structure Shipped where
  source : Nat
  unit : Name
  line : Bytes
  deriving DecidableEq

/-- The shipper. -/
structure Oxlogd where
  rotation : Rotation := { maxSize := 1024 * 1024, keep := 3 }
  sources : List Source := []
  shipper : Shipper := {}
  /-- How many descriptors have come. -/
  accepted : Nat := 0
  /-- Oldest first. -/
  written : List Shipped := []

/-- How a read fails. -/
inductive ReadError
  /-- `INTR` or `AGAIN`. -/
  | again
  | other
  deriving DecidableEq

/-- What `accept` receives. -/
inductive Message
  | source (unit : Name) (pipe : Pipe)
  | noDescriptor
  /-- No bytes: oxinit has closed the socket. -/
  | closed
  | failed
  deriving DecidableEq

/-- What one turn of `serve` finds. -/
structure Wake where
  /-- Whether `poll` succeeds; an interrupted one is tried again. -/
  polled : Bool := true
  /-- What is written to each pipe before it is read. -/
  late : Nat → Bytes := fun _ => []
  errors : Nat → Option ReadError := fun _ => none
  /-- What is on the socket, if that is readable. -/
  message : Option Message := none

/-- What a turn of `serve` comes to. -/
inductive Outcome
  | looping
  | returned
  | failed
  deriving DecidableEq

namespace Source

/-- Its service writes. -/
def receive (what : Bytes) (source : Source) : Source :=
  if source.pipe.writable then { source with pipe := { source.pipe with unread := source.pipe.unread ++ what } }
  else source

/-- Its service and everything that it forked are gone. -/
def hangUp (source : Source) : Source := { source with pipe := { source.pipe with writable := false } }

/-- Whether `poll` reports it: there is something to read, or it hung up. -/
def ready (source : Source) : Bool := !source.pipe.unread.isEmpty || !source.pipe.writable

end Source

namespace Oxlogd

variable (clock : Nat → Timestamp)

/-- One record into one unit's file. -/
def write (source : Source) (line : Bytes) (s : Oxlogd) : Oxlogd :=
  { s with
    shipper := (s.shipper.write s.rotation source.unit (clock s.written.length) line).2
    written := s.written ++ [⟨source.id, source.unit, line⟩] }

/-- Read what is there and write it out; whether the writer is still there. A pipe
that is ready and empty has every write end closed. -/
def drain (error : Option ReadError) (source : Source) (s : Oxlogd) : Bool × Source × Oxlogd :=
  match error with
  | some .again => (true, source, s)
  | some .other => (false, source, s)
  | none =>
    if source.pipe.unread.isEmpty then
      let r := source.splitter.flush
      (false, { source with splitter := r.2 }, r.1.elim s fun last => s.write clock source last)
    else
      let r := source.splitter.push (source.pipe.unread.take readSize)
      let pipe := { source.pipe with unread := source.pipe.unread.drop readSize }
      (true, { source with pipe, splitter := r.2 }, r.1.foldl (fun s line => s.write clock source line) s)

/-- The loop over the sources that `poll` reported; those that are left. -/
def drainReady (t : Wake) : List Source → Oxlogd → List Source × Oxlogd
  | [], s => ([], s)
  | source :: rest, s =>
    let later := source.receive (t.late source.id)
    let r := if source.ready then drain clock (t.errors source.id) later s else (true, later, s)
    let left := drainReady t rest r.2.2
    (if r.1 then r.2.1 :: left.1 else left.1, left.2)

/-- Everything still buffered, on the way out. -/
def drainAll (s : Oxlogd) : Oxlogd :=
  let flushed := s.sources.foldl
    (fun s source => source.splitter.flush.1.elim s fun last => s.write clock source last) s
  { flushed with sources := s.sources.map fun source => { source with splitter := source.splitter.flush.2 } }

/-- Wait, then handle whatever became readable: sources before the socket. -/
def turn (t : Wake) (s : Oxlogd) : Outcome × Oxlogd :=
  if !t.polled then (.failed, s)
  else
    let r := drainReady clock t s.sources s
    let s := { r.2 with sources := r.1 }
    match t.message with
    | none | some .noDescriptor => (.looping, s)
    | some (.source unit pipe) =>
      (.looping, { s with sources := s.sources ++ [{ id := s.accepted, unit, pipe }], accepted := s.accepted + 1 })
    | some .closed => (.returned, s.drainAll clock)
    | some .failed => (.failed, s)

/-- A source changes. -/
def onSource (id : Nat) (f : Source → Source) (s : Oxlogd) : Oxlogd :=
  { s with sources := s.sources.map fun source => if source.id = id then f source else source }

/-- `serve` waits in this state. -/
inductive Serving : Oxlogd → Prop
  | start (files : Files) : Serving { shipper := { files } }
  | write {s : Oxlogd} (id : Nat) (what : Bytes) (h : Serving s) : Serving (s.onSource id (·.receive what))
  | hangUp {s : Oxlogd} (id : Nat) (h : Serving s) : Serving (s.onSource id (·.hangUp))
  | turn {s s' : Oxlogd} (t : Wake) (h : Serving s) (ht : s.turn clock t = (.looping, s')) : Serving s'

/-- What one source has had written, line by line. -/
def writtenBy (id : Nat) (written : List Shipped) : List Bytes :=
  (written.filter (·.source = id)).map (·.line)

end Oxlogd

end Oxinit.Log
