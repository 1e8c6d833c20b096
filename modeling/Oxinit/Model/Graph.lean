import Oxinit.Model.Unit

/-!
# Dependency resolution and start ordering

`oxinit-graph`. `requires` and `wants` decide what is started, `after` and
`before` in what order.
-/

namespace Oxinit

/-- The units that have been loaded, by name. -/
abbrev Units := Std.TreeMap Name Unit

/-- The unit started at the end of boot. -/
def defaultUnit : Name := "default"

/-- What a unit names without there being such a unit, where that is no error. -/
inductive Warning
  | missingWants (unit missing : Name)
  | missingOrdering (unit missing : Name)
  deriving DecidableEq

/-- Why there is no start order. -/
inductive GraphError
  | missingRequires (unit missing : Name)
  | noDefault
  | cycle (path : List Name)
  | conflictingRequired (a b : Name)
  | missingSocketService (unit missing : Name)
  | socketServiceNotAService (unit other : Name)
  deriving DecidableEq

/-- A resolved start plan. -/
structure Plan where
  order : List Name
  warnings : List Warning
  deriving DecidableEq

namespace Graph

/-- The loop of `reachable`: `queue` is what is left to visit. -/
def visit (units : Units) : Nat → List Name → Std.TreeSet Name → List Warning →
    Except GraphError (Std.TreeSet Name × List Warning)
  | 0, _, seen, warnings => .ok (seen, warnings)
  | _ + 1, [], seen, warnings => .ok (seen, warnings)
  | fuel + 1, name :: queue, seen, warnings =>
    if seen.contains name then visit units fuel queue seen warnings
    else
      let seen := seen.insert name
      match units[name]? with
      | none => visit units fuel queue seen warnings
      | some unit =>
        match unit.deps.requires.find? fun dep => !units.contains dep with
        | some missing => .error (.missingRequires name missing)
        | none =>
          visit units fuel
            (queue ++ unit.deps.requires ++ unit.deps.wants.filter units.contains) seen
            (warnings ++ (unit.deps.wants.filter fun dep => !units.contains dep).map (.missingWants name))

/-- How often the loop of `reachable` can go round: once for the root, and
once for each dependency of each unit. -/
def visits (units : Units) : Nat :=
  1 + (units.toList.map fun u => u.2.deps.requires.length + u.2.deps.wants.length).sum

/-- Everything pulled in from `root` through `requires` and `wants`. -/
def reachable (units : Units) (root : Name) : Except GraphError (Std.TreeSet Name × List Warning) :=
  visit units (visits units + 1) [root] ∅ []

/-- Two units that conflict cannot both be in the start set. -/
def checkConflicts (units : Units) (wanted : Std.TreeSet Name) : Except GraphError PUnit :=
  match wanted.toList.findSome? fun name =>
    match units[name]? with
    | none => none
    | some unit => (unit.deps.conflicts.find? wanted.contains).map fun other => (name, other) with
  | some (a, b) => .error (.conflictingRequired a b)
  | none => .ok ⟨⟩

/-- A socket unit must activate a service that exists. -/
def checkSockets (units : Units) (wanted : Std.TreeSet Name) : Except GraphError PUnit :=
  match wanted.toList.findSome? fun name =>
    match units[name]?.bind Unit.socket with
    | none => none
    | some socket =>
      match units[socket.service]? with
      | none => some (GraphError.missingSocketService name socket.service)
      | some unit =>
        if unit.service.isNone then some (.socketServiceNotAService name socket.service) else none with
  | some e => .error e
  | none => .ok ⟨⟩

/-- The ordering edges so far. -/
structure Edges where
  successors : Std.TreeMap Name (Std.TreeSet Name) := ∅
  inDegree : Std.TreeMap Name Nat := ∅

/-- Record `edge.1` starts before `edge.2`. Edges to units that are not being
started are dropped. -/
def addEdge (wanted : Std.TreeSet Name) (e : Edges) (edge : Name × Name) : Edges :=
  if wanted.contains edge.1 && wanted.contains edge.2 then
    let next := e.successors.getD edge.1 ∅
    if next.contains edge.2 then { e with successors := e.successors.insert edge.1 next }
    else
      { successors := e.successors.insert edge.1 (next.insert edge.2)
        inDegree := e.inDegree.insert edge.2 (e.inDegree.getD edge.2 0 + 1) }
  else e

/-- The edges one unit of the start set declares: its `after`, its `before`,
and a socket before the service it activates. -/
def declared (units : Units) (name : Name) : List (Name × Name) :=
  match units[name]? with
  | none => []
  | some unit =>
    (unit.deps.after.filter units.contains).map (·, name) ++
      (unit.deps.before.filter units.contains).map (name, ·) ++
      match unit.socket with
      | some socket => [(name, socket.service)]
      | none => []

/-- What is said of an ordering that names no unit. -/
def missingOrdering (units : Units) (name : Name) : List Warning :=
  match units[name]? with
  | none => []
  | some unit =>
    ((unit.deps.after ++ unit.deps.before).filter fun dep => !units.contains dep).map (.missingOrdering name)

/-- The ordering edges among the units wanted. -/
def edges (units : Units) (wanted : Std.TreeSet Name) : Edges :=
  (wanted.toList.flatMap (declared units)).foldl (addEdge wanted)
    { inDegree := wanted.toList.foldl (fun m n => m.insert n 0) ∅ }

/-- One successor of a unit that has been put in the order: the in-degrees
left, and the units that are ready. -/
def relax (st : Std.TreeMap Name Nat × List Name) (next : Name) : Std.TreeMap Name Nat × List Name :=
  match st.1[next]? with
  | none => st
  | some degree => (st.1.insert next (degree - 1), if degree - 1 = 0 then st.2 ++ [next] else st.2)

/-- Kahn's algorithm: the order, and the in-degrees left. -/
def kahn (successors : Std.TreeMap Name (Std.TreeSet Name)) : Nat → List Name → Std.TreeMap Name Nat →
    List Name → List Name × Std.TreeMap Name Nat
  | 0, _, remaining, order => (order, remaining)
  | _ + 1, [], remaining, order => (order, remaining)
  | fuel + 1, name :: ready, remaining, order =>
    let st := (successors.getD name ∅).toList.foldl relax (remaining, ready)
    kahn successors fuel st.2 st.1 (order ++ [name])

/-- The walk of `find_cycle`: `path` is what it has passed. -/
def walk (successors : Std.TreeMap Name (Std.TreeSet Name)) (remaining : Std.TreeMap Name Nat) :
    Nat → List Name → Name → List Name
  | 0, path, _ => path
  | fuel + 1, path, current =>
    if path.contains current then path.dropWhile (· ≠ current) ++ [current]
    else
      let path := path ++ [current]
      match (successors.getD current ∅).toList.find? fun next => 0 < remaining.getD next 0 with
      | some next => walk successors remaining fuel path next
      | none => path

/-- Recover one cycle for the error message. -/
def findCycle (successors : Std.TreeMap Name (Std.TreeSet Name)) (remaining : Std.TreeMap Name Nat) :
    List Name :=
  match remaining.toList.find? fun p => 0 < p.2 with
  | none => []
  | some (start, _) => walk successors remaining (remaining.size + 1) [] start

/-- Kahn's algorithm over the `after`/`before` edges. -/
def topologicalOrder (units : Units) (wanted : Std.TreeSet Name) :
    Except GraphError (List Name × List Warning) :=
  let e := edges units wanted
  let ready := (e.inDegree.toList.filter fun p => p.2 = 0).map (·.1)
  let (order, remaining) := kahn e.successors wanted.size ready e.inDegree []
  if order.length ≠ wanted.size then .error (.cycle (findCycle e.successors remaining))
  else .ok (order, wanted.toList.flatMap (missingOrdering units))

/-- Resolve from an arbitrary root. -/
def resolveFrom (units : Units) (root : Name) : Except GraphError Plan :=
  if units.contains root then do
    let (wanted, warnings) ← reachable units root
    checkConflicts units wanted
    checkSockets units wanted
    let (order, more) ← topologicalOrder units wanted
    return { order, warnings := warnings ++ more }
  else .error .noDefault

/-- Resolve the units reachable from `default` into a start order. -/
def resolve (units : Units) : Except GraphError Plan := resolveFrom units defaultUnit

end Graph

end Oxinit
