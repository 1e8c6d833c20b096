import Mathlib.Data.List.Basic
import Oxinit.Model.Text

/-!
# Paths of cgroups

`left_its_cgroup`, on the path of a unit's cgroup and the text of
`/proc/PID/cgroup`, and what it uses of `std::path`. A path is compared by its
components.
-/

namespace Oxinit.Path

/-- `std::path::Component`. -/
inductive Component
  | rootDir
  | curDir
  | parentDir
  | normal (name : List Char)
  deriving DecidableEq

/-- What stands between two slashes. Nothing, and a dot, are no component. -/
def component (part : List Char) : Option Component :=
  if part = [] ∨ part = ['.'] then none
  else if part = ['.', '.'] then some .parentDir
  else some (.normal part)

/-- The components of a path behind its root. -/
def names (path : List Char) : List Component := (path.splitOn '/').filterMap component

/-- `Path::components`. A dot counts where a relative path begins with it. -/
def components (path : List Char) : List Component :=
  if path.head? = some '/' then .rootDir :: names path
  else if (path.splitOn '/').head? = some ['.'] then .curDir :: names path
  else names path

/-- `Path::ancestors`. A root has no parent, and neither has the empty path. -/
def ancestors (path : List Component) : List (List Component) :=
  path.inits.reverse.filter fun ancestor => decide (ancestor ≠ []) || decide (path.head? ≠ some .rootDir)

/-- `strip_prefix("/")`. -/
def stripRoot : List Component → Option (List Component)
  | .rootDir :: rest => some rest
  | _ => none

/-- `str::strip_prefix`. -/
def stripPrefix (start line : List Char) : Option (List Char) :=
  if start.isPrefixOf line then some (line.drop start.length) else none

/-- The path of a process in the unified hierarchy. -/
def reported (text : List Char) : Option (List Char) := (Text.lines text).findSome? (stripPrefix "0::".toList)

/-- Whether a process is outside a cgroup and everything below it, from the
text of its `/proc/PID/cgroup`, if that can be read. The mount point is not part
of what is reported, so the tail is compared. -/
def leftItsCgroup (cgroup : List Char) (text : Option (List Char)) : Bool :=
  match text.bind reported with
  | none => false
  | some path =>
    !(((ancestors (components path)).filterMap stripRoot).filter (· ≠ [])).any fun ancestor =>
      ancestor.isSuffixOf (components cgroup)

end Oxinit.Path
