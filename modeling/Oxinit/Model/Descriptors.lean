import Mathlib.Algebra.GroupWithZero.Nat
import Mathlib.Logic.Function.Basic
import Mathlib.Data.List.Basic

/-!
# The child's descriptors

What the parent does before the fork, and the child after it, so that a service
finds its listening sockets at 3 and upward and its output on 1 and 2. A table
says what each number refers to, and whether it closes on exec.
-/

namespace Oxinit

/-- What a number stands for, and whether it is closed on `exec`. -/
structure Descriptor (File : Type) where
  file : File
  cloexec : Bool
  deriving DecidableEq

/-- A process's descriptors, by number. -/
abbrev Table (File : Type) := Nat → Option (Descriptor File)

namespace Table

variable {File : Type}

/-- The number of the first listening descriptor that a service is passed. -/
def firstListenFd : Nat := 3

/-- `i32::MAX`, which no descriptor is above. -/
def maxFd : Nat := 2 ^ 31 - 1

/-- `fcntl(fd, F_DUPFD_CLOEXEC, min)`, where `pick` says which number the kernel
takes, if any. -/
def dupfdCloexec (pick : Table File → Nat → Option Nat) (fd min : Nat) (t : Table File) : Option (Nat × Table File) :=
  match t fd with
  | none => none
  | some d => (pick t min).map fun n => (n, Function.update t n (some { file := d.file, cloexec := true }))

/-- `dup2`, which does nothing where both numbers are the same. -/
def dup2 (fd target : Nat) (t : Table File) : Option (Table File) :=
  match t fd with
  | none => none
  | some d =>
    if fd = target then some t else some (Function.update t target (some { file := d.file, cloexec := false }))

/-- Duplicate each of them. -/
def duplicateAbove (pick : Table File → Nat → Option Nat) (above : Nat) :
    List Nat → Table File → Option (List Nat × Table File)
  | [], t => some ([], t)
  | fd :: listen, t => do
    let (n, t) ← dupfdCloexec pick fd above t
    let (fds, t) ← duplicateAbove pick above listen t
    return (n :: fds, t)

/-- Copy the listening descriptors to numbers at or above the range they are
moving into. -/
def duplicateListenFds (pick : Table File → Nat → Option Nat) (listen : List Nat) (t : Table File) :
    Option (List Nat × Table File) :=
  let length := if listen.length ≤ maxFd then listen.length else maxFd
  let above := min (firstListenFd + length) maxFd
  duplicateAbove pick above listen t

/-- Move the inherited listening descriptors, from the one with this index on. An
index that is no `i32` is an error, and past the last descriptor so is the call. -/
def placeFrom (index : Nat) : List Nat → Table File → Option (Table File)
  | [], t => some t
  | fd :: fds, t =>
    if maxFd < firstListenFd + index then none
    else (dup2 fd (firstListenFd + index) t).bind (placeFrom (index + 1) fds)

/-- Move the inherited listening descriptors to where the service looks for them. -/
def placeDescriptors (fds : List Nat) (t : Table File) : Option (Table File) := placeFrom 0 fds t

/-- Put `fd` on both standard output and standard error. -/
def redirectOutput (fd : Nat) (t : Table File) : Option (Table File) := do
  let t ← dup2 fd 1 t
  dup2 fd 2 t

/-- What `setup_child` does to the descriptors, in this order. -/
def setupChild (output : Option Nat) (fds : List Nat) (t : Table File) : Option (Table File) := do
  let t ← match output with
    | some fd => redirectOutput fd t
    | none => some t
  placeDescriptors fds t

end Table

end Oxinit
