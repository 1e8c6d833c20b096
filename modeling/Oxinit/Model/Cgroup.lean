import Oxinit.Model.Kernel
import Oxinit.Model.Text
import Oxinit.Model.UnitFile

/-!
# cgroup v2

The hierarchy as the kernel shows it, a directory of small text files for each
cgroup, and what `oxinit-cgroup` does with it. That oxinit may write where it
writes is taken for granted, and that no cgroup is removed while it runs.
-/

namespace Oxinit.Cgroup

/-- The names on the way from the root of the hierarchy. -/
abbrev Path := List String

/-- A limit of a cgroup, by the file that holds it. -/
inductive Limit
  | memoryMax
  | pidsMax
  deriving DecidableEq

/-- The controller that enforces a limit. -/
def Limit.controller : Limit → List Char
  | .memoryMax => "memory".toList
  | .pidsMax => "pids".toList

/-- The control files of a cgroup that oxinit reads or writes. -/
inductive File
  | controllers
  | subtreeControl
  | procs
  | events
  | kill
  | limit (l : Limit)
  deriving DecidableEq

/-- A controller that the kernel has; its name is a word. -/
structure Controller where
  name : List Char
  isWord : name ≠ [] ∧ ∀ c ∈ name, Text.isWhitespace c = false
  deriving DecidableEq

/-- A cgroup, as its directory shows it. -/
structure Node where
  /-- What is enabled for the cgroups below it. -/
  subtree : List Controller := []
  /-- What its files say of its limits. -/
  limits : Limit → List Char := fun _ => "max\n".toList

/-- The hierarchy, and where in it every process is. -/
structure Kernfs where
  /-- What the kernel has. -/
  controllers : List Controller
  /-- The most that `pids.max` can be, but for `max`. -/
  pidsLimit : UInt32
  /-- What a limit's file says once this has been written to it; sizes are
  rounded to pages. -/
  shown : Limit → List Char → List Char
  nodes : Path → Option Node
  procs : List (Pid × Path)
  nextPid : Pid
  /-- Whom `cgroup.kill` has been sent to. -/
  killed : List Pid := []

namespace Kernfs

variable (fs : Kernfs)

/-- What a cgroup distributes to those below it. -/
def distributed (path : Path) : List Controller := (fs.nodes path).elim [] (·.subtree)

/-- What a cgroup is distributed. -/
def offered (path : Path) : List Controller := if path = [] then fs.controllers else fs.distributed path.dropLast

/-- Whether a controller can be enabled at `path`. -/
def offers (path : Path) (controller : List Char) : Bool := (fs.offered path).any (·.name = controller)

/-- The processes in a cgroup itself. -/
def inside (path : Path) : List Pid := (fs.procs.filter (·.2 = path)).map (·.1)

/-- The processes in a cgroup and below it. -/
def below (path : Path) : List Pid := (fs.procs.filter fun p => path.isPrefixOf p.2).map (·.1)

/-- The hierarchy with `node` at `path`. -/
def update (path : Path) (node : Node) : Kernfs := { fs with nodes := Function.update fs.nodes path (some node) }

/-- The file is there where its controller is. -/
def limited (path : Path) (l : Limit) : Bool := path ≠ [] && fs.offers path l.controller

/-- What is in a file of this cgroup. -/
def text (path : Path) (node : Node) : File → Option (List Char)
  | .controllers => some ([' '].intercalate ((fs.offered path).map (·.name)) ++ ['\n'])
  | .subtreeControl => some ([' '].intercalate (node.subtree.map (·.name)) ++ ['\n'])
  | .procs => some ((fs.inside path).flatMap fun pid => Nat.toDigits 10 pid ++ ['\n'])
  | .events =>
    if path = [] then none
    else some ("populated ".toList ++ (if (fs.below path).isEmpty then '0' else '1') :: "\nfrozen 0\n".toList)
  | .kill => none
  | .limit l => if fs.limited path l then some (node.limits l) else none

/-- Read a control file. -/
def read (path : Path) (file : File) : Option (List Char) := (fs.nodes path).bind fun node => fs.text path node file

/-- Whether there can be a process: a cgroup that distributes has none, but for the root. -/
def admits (path : Path) : Bool := path = [] || (fs.nodes path).any (·.subtree = [])

/-- A controller to be enabled. -/
def enabled (path : Path) : List Char → Option Controller
  | '+' :: controller => (fs.offered path).find? (·.name = controller)
  | _ => none

/-- Whether a limit can be this. -/
def takes (l : Limit) (text : List Char) : Bool :=
  match l with
  | .memoryMax => true
  | .pidsMax => text = "max".toList || (Text.fromStr 63 text).any (· ≤ fs.pidsLimit.toNat)

/-- `+controller`, any number of them. A cgroup that holds processes has nothing
to distribute, but for the root. -/
def enable (path : Path) (node : Node) (text : List Char) : Option Kernfs :=
  if path ≠ [] ∧ fs.inside path ≠ [] then none
  else ((text.splitOn ' ').mapM (fs.enabled path)).map fun cs => fs.update path { node with subtree := node.subtree ∪ cs }

/-- A write to `cgroup.procs`: the process moves, if the kernel admits it. -/
def enter (pid : Pid) (path : Path) : Option Kernfs :=
  if fs.admits path && fs.procs.any (·.1 = pid) then
    some { fs with procs := fs.procs.map fun p => if p.1 = pid then (pid, path) else p }
  else none

/-- A write to the file of a limit. -/
def setLimit (path : Path) (node : Node) (l : Limit) (text : List Char) : Option Kernfs :=
  if fs.limited path l && fs.takes l text then
    some (fs.update path { node with limits := Function.update node.limits l (fs.shown l text) })
  else none

/-- A write to a file that is there, by this process. -/
def write (writer : Pid) (path : Path) (file : File) (text : List Char) : Option Kernfs :=
  (fs.nodes path).bind fun node =>
    match file with
    | .subtreeControl => fs.enable path node text
    | .procs => (Text.fromStr 32 text).bind fun pid => fs.enter (if pid = 0 then writer else pid) path
    | .kill => if path ≠ [] ∧ text = ['1'] then some { fs with killed := fs.killed ++ fs.below path } else none
    | .limit l => fs.setLimit path node l text
    | .controllers | .events => none

/-- Make a directory; whether there was none and there is one to make it in. -/
def mkdir (path : Path) : Option Kernfs :=
  if (fs.nodes path).isNone ∧ (fs.nodes path.dropLast).isSome then some (fs.update path {}) else none

/-- A process is where its parent was. -/
def fork (parent : Pid) : Kernfs :=
  match fs.procs.find? (·.1 = parent) with
  | none => fs
  | some p => { fs with procs := (fs.nextPid, p.2) :: fs.procs, nextPid := fs.nextPid + 1 }

/-- A process exits. -/
def exit (pid : Pid) : Kernfs := { fs with procs := fs.procs.filter (·.1 ≠ pid) }

end Kernfs

/-! ## `oxinit-cgroup` -/

/-- A cgroup operation that failed. -/
inductive Error
  | notCgroup2 (path : Path)
  | create (path : Path)
  | write (path : Path) (file : File)
  | read (path : Path) (file : File)
  deriving DecidableEq

/-- What an operation answers, and what it leaves of the hierarchy. -/
abbrev Result := Except Error PUnit.{1} × Kernfs

/-- `?` -/
def Result.andThen (r : Result) (next : Kernfs → Result) : Result :=
  match r.1 with
  | .ok _ => next r.2
  | .error _ => r

/-- The cgroup that the cgroups of services are in. -/
def slice (root : Path) : Path := root ++ ["oxinit.slice"]

/-- The cgroup of oxinit itself. -/
def initScope (root : Path) : Path := root ++ ["init.scope"]

/-- The controllers that the cgroups of services need. -/
def controllers : List (List Char) := ["memory".toList, "pids".toList]

/-- Make a cgroup, unless there is one. -/
def createDir (path : Path) (fs : Kernfs) : Result :=
  if (fs.nodes path).isSome then (.ok ⟨⟩, fs)
  else
    match fs.mkdir path with
    | some fs => (.ok ⟨⟩, fs)
    | none => (.error (.create path), fs)

/-- Write one value to an interface file. -/
def write (self : Pid) (path : Path) (file : File) (value : List Char) (fs : Kernfs) : Result :=
  match fs.write self path file value with
  | some fs => (.ok ⟨⟩, fs)
  | none => (.error (.write path file), fs)

/-- Move oxinit out of the way. -/
def parkInit (root : Path) (pid : Pid) (fs : Kernfs) : Result :=
  (createDir (initScope root) fs).andThen (write pid (initScope root) .procs (Nat.toDigits 10 pid))

/-- Enable controllers for the cgroups below, by one write. -/
def enable (self : Pid) (cgroup : Path) (controllers : List (List Char)) (fs : Kernfs) : Result :=
  if controllers.isEmpty then (.ok ⟨⟩, fs)
  else write self cgroup .subtreeControl ([' '].intercalate (controllers.map ('+' :: ·))) fs

/-- `Hierarchy::new`: prepare the cgroup at `root` for cgroups of services. A
cgroup that holds processes cannot delegate, so oxinit leaves it; if it cannot,
that is only reported. -/
def prepare (root : Path) (initPid : Pid) (fs : Kernfs) : Result :=
  match fs.read root .controllers with
  | none => (.error (.notCgroup2 root), fs)
  | some text =>
    let available := Text.splitWhitespace text
    let wanted := controllers.filter (· ∈ available)
    let fs := (parkInit root initPid fs).2
    (enable initPid root wanted fs).andThen fun fs =>
      (createDir (slice root) fs).andThen (enable initPid (slice root) wanted)

/-- The cgroup of a service. -/
def cgroup (root : Path) (unit : Name) : Path := slice root ++ [unit ++ ".service"]

/-- Write the `[resources]` limits; an absent one is left alone. -/
def apply (self : Pid) (path : Path) (resources : Resources) (fs : Kernfs) : Result :=
  Result.andThen
    (match resources.memoryMax with
    | some memoryMax => write self path (.limit .memoryMax) memoryMax.toText fs
    | none => (.ok ⟨⟩, fs))
    fun fs =>
      match resources.tasksMax with
      | some tasksMax => write self path (.limit .pidsMax) (Nat.toDigits 10 tasksMax) fs
      | none => (.ok ⟨⟩, fs)

/-- The `populated` key of a `cgroup.events` body. -/
def parsePopulated (text : List Char) : Option Bool :=
  (((Text.lines text).filterMap (Text.splitOnce ' ')).find? fun entry => entry.1 = "populated".toList).map
    fun entry => Text.trim entry.2 ≠ ['0']

/-- Whether a cgroup has any process in it or below it. -/
def populated (path : Path) (fs : Kernfs) : Except Error Bool :=
  match fs.read path .events with
  | some text => .ok ((parsePopulated text).getD false)
  | none => .error (.read path .events)

/-- Every process in the cgroup. -/
def pids (path : Path) (fs : Kernfs) : Except Error (List Pid) :=
  match fs.read path .procs with
  | some text => .ok ((Text.lines text).filterMap fun line => Text.fromStr 32 (Text.trim line))
  | none => .error (.read path .procs)

/-- Kill everything in a cgroup and below it. -/
def kill (self : Pid) (path : Path) (fs : Kernfs) : Result := write self path .kill ['1'] fs

/-! ## Runs -/

/-- Fork a service's process. Where it is to be in the cgroup, that is open by
then, and the process moves itself there before it runs anything. -/
def spawn (self : Pid) (path : Path) (placed : Bool) (fs : Kernfs) : Kernfs :=
  if !placed then fs.fork self
  else if (fs.nodes path).isNone then fs
  else ((fs.fork self).write fs.nextPid path .procs ['0']).getD ((fs.fork self).exit fs.nextPid)

/-- What oxinit does, and what others do. -/
inductive Step
  | fork (parent : Pid)
  | exit (pid : Pid) (status : WaitStatus)
  | migrate (pid : Pid) (path : Path)
  | mkdir (path : Path)
  | limit (path : Path) (l : Limit) (text : List Char)
  | add (unit : Name)
  | apply (unit : Name) (resources : Resources)
  | spawn (unit : Name) (placed : Bool)
  | kill (unit : Name)

/-- Others leave oxinit itself where it is, and what is delegated to whom. -/
def step (root : Path) (self : Pid) (fs : Kernfs) : Step → Kernfs
  | .fork parent => if parent = self then fs else fs.fork parent
  | .exit pid _ => if pid = self then fs else fs.exit pid
  | .migrate pid path => if pid = self then fs else (fs.write pid path .procs ['0']).getD fs
  | .mkdir path => (fs.mkdir path).getD fs
  | .limit path l text => (fs.write self path (.limit l) text).getD fs
  | .add unit => (createDir (cgroup root unit) fs).2
  | .apply unit resources => (Cgroup.apply self (cgroup root unit) resources fs).2
  | .spawn unit placed => Cgroup.spawn self (cgroup root unit) placed fs
  | .kill unit => (Cgroup.kill self (cgroup root unit) fs).2

/-- Any sequence of steps. -/
def run (root : Path) (self : Pid) (fs : Kernfs) (steps : List Step) : Kernfs := steps.foldl (step root self) fs

end Oxinit.Cgroup
