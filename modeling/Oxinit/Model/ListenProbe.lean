import Oxinit.Model.Descriptors
import Oxinit.Model.Image
import Oxinit.Model.Text

/-!
# The service's side of socket activation

`inherited` of `listen-probe`: how a service finds the descriptor that oxinit
handed it, by the name of its socket unit.
-/

namespace Oxinit.ListenProbe

open Log (Bytes bytes)

/-- `var_os`: the first entry that sets it. -/
def varOs (environ : List Bytes) (name : Bytes) : Option Bytes :=
  environ.findSome? fun text => (name ++ [equals]).isPrefixOf? text

/-- `std::env::var`. -/
def var (environ : List Bytes) (name : String) : Except String String :=
  match (varOs environ (bytes name)).bind fun value => String.fromUTF8? ⟨value.toArray⟩ with
  | some value => .ok value
  | none => .error (name ++ " is not set")

/-- A number, or the error. -/
def parse (bits : Nat) (value error : String) : Except String Nat :=
  match Text.fromStr bits value.toList with
  | some n => .ok n
  | none => .error error

/-- Find the descriptor named `name`, in a process whose id is `mine`: its
offset from the first one. Every descendant inherits these variables, so that
they may be meant for another process. -/
def inherited (mine : Nat) (environ : List Bytes) (name : String) : Except String Nat := do
  let _count ← parse 64 (← var environ "LISTEN_FDS") "LISTEN_FDS is not a number"
  let announced ← parse 32 (← var environ "LISTEN_PID") "LISTEN_PID is not a number"
  if announced ≠ mine then throw ("LISTEN_PID is " ++ toString announced ++ ", but I am " ++ toString mine)
  let names ← var environ "LISTEN_FDNAMES"
  match (names.toList.splitOn ':').findIdx? (· = name.toList) with
  | none => throw ("no descriptor named `" ++ name ++ "` in `" ++ names ++ "`")
  | some index => if index < 2 ^ 31 then return index else throw "too many descriptors"

end Oxinit.ListenProbe

namespace Oxinit.Table

variable {File : Type}

/-- What is left of the descriptors when the process execs. -/
def afterExec (t : Table File) : Table File := fun fd => (t fd).filter fun d => !d.cloexec

end Oxinit.Table
