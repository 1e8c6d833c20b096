import Oxinit.Model.Unit
import Mathlib.Logic.Function.Basic

/-!
# Handing service output to the shipper

`logs.rs`, with the pipes that it makes and the shipper that it hands them to.
A pipe goes, with what is in it, when its last read end closes; a read end is
held by oxinit or has been given to the shipper. A pipe is named by the number
of pipes made before it.
-/

namespace Oxinit.Pipes

/-- A pipe: what is in it, and who holds it. -/
structure Pipe where
  unread : List UInt8 := []
  /-- Whether anything has a write end open. -/
  writable : Bool := true
  deriving DecidableEq

/-- The read end of one service's pipe, held so that a reconnecting shipper
can be given it again. -/
structure Held where
  unit : Name
  read : Nat
  deriving DecidableEq

/-- The shipper's socket, and what the shipper made of what it was sent. -/
structure Connection where
  /-- Whether the shipper still has its end. -/
  alive : Bool := true
  offered : List Nat := []
  /-- The read ends that reached it and that it has not closed. -/
  ends : List Nat := []
  deriving DecidableEq

/-- What oxinit holds of the logs. -/
structure Logs where
  listener : Bool
  shipper : Option Connection := none
  held : List Held := []
  deriving DecidableEq

/-- Whether a read end of a pipe is open. -/
def Logs.reads (pipe : Nat) (l : Logs) : Bool :=
  l.held.any (·.read = pipe) || l.shipper.any (pipe ∈ ·.ends)

/-- One message, with the descriptor attached; it may not be delivered. -/
def Connection.offer (read : Nat) (delivered : Bool) (c : Connection) : Connection :=
  { c with
    offered := read :: c.offered
    ends := if c.alive && delivered then read :: c.ends else c.ends }

/-- The logs, and every pipe that there has been. -/
structure State where
  logs : Logs
  pipes : Nat → Pipe := fun _ => {}
  made : Nat := 0
  /-- What was in pipes that nothing could read any more. -/
  lost : List UInt8 := []

namespace State

/-- Descriptors have been closed. -/
def close (s : State) (reads : List Nat) : State :=
  reads.foldl (fun s pipe =>
    if s.logs.reads pipe then s
    else
      { s with
        pipes := Function.update s.pipes pipe { s.pipes pipe with unread := [] }
        lost := s.lost ++ (s.pipes pipe).unread }) s

/-- A fresh pipe for `unit`; one per start, not one per unit. It replaces the read
end of the previous start. -/
def pipe (unit : Name) (delivered : Bool) (s : State) : State :=
  if !s.logs.listener then s
  else
    let read := s.made
    let shipper := s.logs.shipper.map (Connection.offer read delivered)
    let (replaced, kept) := s.logs.held.partition (·.unit = unit)
    close
      { s with
        logs := { s.logs with shipper, held := kept ++ [⟨unit, read⟩] }
        pipes := Function.update s.pipes read {}
        made := s.made + 1 }
      (replaced.map (·.read))

/-- Hand a new shipper everything that is held; a second one is refused. -/
def accept (undelivered : List Nat) (s : State) : State :=
  if !s.logs.listener || s.logs.shipper.isSome then s
  else
    let offerHeld := fun (c : Connection) (held : Held) => c.offer held.read (held.read ∉ undelivered)
    { s with logs := { s.logs with shipper := some (s.logs.held.foldl offerHeld {}) } }

/-- The shipper is let go, and closes what it was given. -/
def disconnect (s : State) : State :=
  close { s with logs := { s.logs with shipper := none } } (s.logs.shipper.elim [] (·.ends))

/-- The shipper exits, or dies. -/
def hangup (s : State) : State :=
  match s.logs.shipper with
  | none => s
  | some c => close { s with logs := { s.logs with shipper := some { c with alive := false, ends := [] } } } c.ends

/-- `on_shipper`; to watch the new connection may fail. -/
def onShipper (undelivered : List Nat) (registered : Bool) (s : State) : State :=
  let accepted := s.logs.listener && s.logs.shipper.isNone
  let s := s.accept undelivered
  if accepted && !registered then s.disconnect else s

/-- The shipper's connection is readable: it may be gone. -/
def onShipperGone (s : State) : State :=
  match s.logs.shipper with
  | none => s
  | some c => if c.alive then s else s.disconnect

/-- A service writes; without a reader it cannot. -/
def write (pipe : Nat) (what : List UInt8) (s : State) : State :=
  if pipe < s.made && (s.pipes pipe).writable && s.logs.reads pipe then
    { s with pipes := Function.update s.pipes pipe { s.pipes pipe with unread := (s.pipes pipe).unread ++ what } }
  else s

/-- The last process that could write has gone. -/
def quit (pipe : Nat) (s : State) : State :=
  { s with pipes := Function.update s.pipes pipe { s.pipes pipe with writable := false } }

/-- The shipper reads what there is, up to the size of its buffer; at the end
of file it closes its read end. -/
def read (pipe size : Nat) (s : State) : State :=
  match s.logs.shipper with
  | none => s
  | some c =>
    if pipe ∉ c.ends then s
    else if (s.pipes pipe).unread = [] ∧ !(s.pipes pipe).writable then
      close { s with logs := { s.logs with shipper := some { c with ends := c.ends.filter (· ≠ pipe) } } } [pipe]
    else
      { s with pipes := Function.update s.pipes pipe { s.pipes pipe with unread := (s.pipes pipe).unread.drop size } }

end State

/-- What becomes of the logs and of the pipes. -/
inductive Event
  | start (unit : Name) (delivered : Bool)
  | write (pipe : Nat) (what : List UInt8)
  | quit (pipe : Nat)
  | connect (undelivered : List Nat) (registered : Bool)
  | read (pipe size : Nat)
  | hangup
  | gone
  deriving DecidableEq

/-- One of them. -/
def State.step (s : State) : Event → State
  | .start unit delivered => s.pipe unit delivered
  | .write pipe what => s.write pipe what
  | .quit pipe => s.quit pipe
  | .connect undelivered registered => s.onShipper undelivered registered
  | .read pipe size => s.read pipe size
  | .hangup => s.hangup
  | .gone => s.onShipperGone

/-- `Logs::bind`, or `Logs::unavailable`, and what happens from then on. -/
def run (bound : Bool) (events : List Event) : State := events.foldl State.step { logs := { listener := bound } }

end Oxinit.Pipes
