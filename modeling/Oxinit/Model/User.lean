import Mathlib.Data.List.Destutter
import Mathlib.Data.List.Sort
import Oxinit.Model.Text

/-!
# Identities

`oxinit-user`: a service's `user` resolved to the ids `setuid` needs, against
the contents of a passwd and a group file.
-/

namespace Oxinit.User

/-- Why a user cannot be run as. -/
inductive UserError
  | unknown (name : List Char)
  | malformed (name : List Char)
  deriving DecidableEq

/-- Where users are looked up. -/
def passwdPath : String := "/etc/passwd"

/-- What is reported of it. -/
def UserError.toString : UserError → String
  | .unknown name => "no user named " ++ .ofList name ++ " in " ++ passwdPath
  | .malformed name => passwdPath ++ ": entry for " ++ .ofList name ++ " is malformed"

/-- Who a service runs as. -/
structure Identity where
  name : List Char
  uid : Nat
  gid : Nat
  /-- The supplementary set passed to `setgroups`, primary gid included. -/
  groups : List Nat
  deriving DecidableEq

/-- The colon-separated fields of one line, or `none` if the line is not an
entry. -/
def fields (line : List Char) : Option (List (List Char)) :=
  let line := Text.trim line
  if line = [] ∨ line.head? = some '#' then none
  else
    let fields := line.splitOn ':'
    if fields.length < 4 then none else some fields

/-- A number in one field. -/
def number (fields : List (List Char)) (index : Nat) : Option Nat := fields[index]?.bind (Text.fromStr 32)

/-- The gid of a group entry, if `name` is a member. -/
def granted (name : List Char) (fields : List (List Char)) : Option Nat :=
  match fields[3]? with
  | none => none
  | some members => if (members.splitOn ',').any (· == name) then number fields 2 else none

/-- Resolve `name` against the contents of a passwd and a group file. -/
def resolve (name passwd group : List Char) : Except UserError Identity :=
  match ((Text.lines passwd).filterMap fields).find? (·.head? == some name) with
  | none => .error (.unknown name)
  | some entry =>
    match number entry 2, number entry 3 with
    | some uid, some gid =>
      let groups := gid :: ((Text.lines group).filterMap fields).filterMap (granted name)
      .ok { name, uid, gid, groups := (groups.insertionSort (· ≤ ·)).destutter (· ≠ ·) }
    | _, _ => .error (.malformed name)

end Oxinit.User
