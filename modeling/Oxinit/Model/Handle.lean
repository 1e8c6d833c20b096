import Oxinit.Model.Supervisor

/-!
# Loading, reloading and control requests

The entry points that read the unit directories, and the answers on the
control socket.
-/

namespace Oxinit

namespace Supervisor

/-! ## Loading -/

/-- Bind everything one socket unit asks for, past what cannot be bound. -/
def bindSocket (w : World) (unit : Name) (socket : Socket) (s : Supervisor) : Supervisor :=
  socket.listen.foldl
    (fun s address =>
      let ok := (w s.ticks).ok
      let s := s.turn w
      if ok then s.update (·.bind { unit, service := socket.service, address }) else s) s

/-- A cgroup for a service, created before anything starts in it. -/
def addCgroup (w : World) (name : Name) (unit : Unit) (s : Supervisor) : Supervisor :=
  match unit.kind with
  | .service _ =>
    let ok := (w s.ticks).ok
    let s := s.turn w
    s.update (·.addHandle name ok)
  | _ => s

/-- An instance for a unit that loaded, and a cgroup for a service. -/
def addUnit (w : World) (name : Name) (unit : Unit) (s : Supervisor) : Supervisor :=
  (addCgroup w name unit s).update (·.insertUnit name unit)

/-- The unit set a machine comes up with: what the directories hold, in the
order that resolves, or no order for a broken graph. -/
def load (w : World) (hierarchy : Bool) (kernel : Kernel) : Supervisor :=
  let s : Supervisor := { cgroups := { hierarchy }, kernel }
  let s := s.turn w
  let units := (loadDirsIn s.kernel.disk).units
  if units.isEmpty then s
  else
    let order := match Graph.resolve units with
      | .ok plan => plan.order
      | .error _ => []
    let s := s.update (·.setOrder order)
    let s := units.toList.foldl (fun s p => addUnit w p.1 p.2 s) s
    order.foldl
      (fun s name =>
        match units[name]?.bind Unit.socket with
        | some socket => bindSocket w name socket s
        | none => s) s

/-! ## Requests -/

/-- What a client is told of a unit's kind. -/
def Kind.toString : Kind → String
  | .service _ => "service"
  | .target => "target"
  | .socket _ => "socket"
  | .timer _ => "timer"

/-- What is known of a unit. The memory and tasks of a service are read from its cgroup. -/
def describe (w : World) (i : Instance) (s : Supervisor) : UnitStatus × Supervisor :=
  let stats := (w s.ticks).stats
  let s := s.turn w
  let stats := if (s.cgroups.get i.unit.name).isSome then stats else (none, none)
  ({ name := i.unit.name
     kind := Kind.toString i.unit.kind
     description := i.unit.description
     state := i.state.toString
     pid := i.pid
     restarts := i.restarts
     status := i.status
     nextElapse := (s.nextElapse[i.unit.name]?).map fun next => max (next.inSeconds s.kernel.wall) 1
     memory := stats.1
     tasks := stats.2 }, s)

/-- What is known of each of them. -/
def describeAll (w : World) : List Instance → Supervisor → List UnitStatus × Supervisor
  | [], s => ([], s)
  | i :: rest, s =>
    let r := describe w i s
    let rs := describeAll w rest r.2
    (r.1 :: rs.1, rs.2)

/-- The answer about a unit that there is not. -/
def unknown (unit : Name) : Response := .error ("no unit named `" ++ unit ++ "`")

/-- The answer to what is not done. -/
def refused (why : String) : Response := .error why

/-- Start a unit again once it has finished stopping, or now if it is down already. -/
def restartWhenStopped (w : World) (name : Name) (s : Supervisor) : Supervisor :=
  match s.instances[name]? with
  | none => s
  | some i =>
    if isIdle i.state then start w name s
    else (s.note (.await name)).update (·.awaitRestart name)

/-- One unit of a reload: what is running keeps its definition. The units
changed and the units skipped so far. -/
def reloadUnit (w : World) (acc : List Name × List Name × Supervisor) (p : Name × Unit) :
    List Name × List Name × Supervisor :=
  let (changed, skipped, s) := acc
  match s.instances[p.1]? with
  | some existing =>
    if existing.unit = p.2 then (changed, skipped, s)
    else if isIdle existing.state then (changed ++ [p.1], skipped, addUnit w p.1 p.2 s)
    else (changed, skipped ++ [p.1], s)
  | none => (changed ++ [p.1], skipped, addUnit w p.1 p.2 s)

/-- The units whose file is gone and which are running: they are left alone. -/
def leftAlone (units : Units) (s : Supervisor) : List Name :=
  (s.instances.toList.filter fun p => !units.contains p.1 && !isIdle p.2.state).map (·.1)

/-- A unit whose file is gone, and which is not running, stops being known. -/
def retain (units : Units) (s : Supervisor) : Supervisor :=
  s.update (·.keep fun name i => units.contains name || !isIdle i.state)

/-- What a client is told of a reload. -/
def reloadMessage (changed skipped : List Name) : String :=
  toString changed.length ++ " unit(s) reloaded" ++
    if skipped.isEmpty then ""
    else "; " ++ toString skipped.length ++ " left alone because they are running: " ++
      ", ".intercalate skipped

/-- Re-read the unit directories. -/
def reload (w : World) (s : Supervisor) : Response × Supervisor :=
  let s := s.turn w
  let loaded := loadDirsIn s.kernel.disk
  if loaded.errors.isEmpty then
    let r := loaded.units.toList.foldl (reloadUnit w) ([], [], s)
    (.accepted (reloadMessage r.1 (r.2.1 ++ leftAlone loaded.units r.2.2)), retain loaded.units r.2.2)
  else (.error ("; ".intercalate (loaded.errors.map UnitError.toString)), s)

/-- Answer one control request. Every answer is immediate: `accepted` says
what was asked for, not what has finished. -/
def handle (w : World) (request : Request) (s : Supervisor) : Response × Supervisor :=
  let s := s.note (.request request)
  match request with
  | .list =>
    let r := describeAll w (s.instances.toList.map (·.2)) s
    (.units r.1, r.2)
  | .status unit =>
    match s.instances[unit]? with
    | some i =>
      let r := describe w i s
      (.units [r.1], r.2)
    | none => (unknown unit, s)
  | .start unit =>
    if ¬s.knows unit then (unknown unit, s)
    else if s.shuttingDown then (refused "the machine is shutting down", s)
    else (.accepted ("started " ++ unit), start w unit s)
  | .stop unit =>
    if ¬s.knows unit then (unknown unit, s)
    else (.accepted ("stopping " ++ unit), stop w unit .requested s)
  | .restart unit =>
    if ¬s.knows unit then (unknown unit, s)
    else if s.shuttingDown then (refused "the machine is shutting down", s)
    else
      (.accepted ("restarting " ++ unit), restartWhenStopped w unit (stop w unit .requested s))
  | .reload => reload w s

end Supervisor

end Oxinit
