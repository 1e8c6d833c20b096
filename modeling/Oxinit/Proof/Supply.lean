import Oxinit.Proof.Loading
import Oxinit.Proof.Queue
import Oxinit.Proof.Refresh
import Oxinit.Proof.Strides
import Oxinit.Proof.UnitFile

/-!
# Where units come from

Whatever a manager holds for a unit, it has read from a unit file: what is true
of each file that is ever on the disk (`Supplied`) is true of every unit of
every state (`run_supplied`). So a manager of files that have been parsed
knows well-formed units only.
-/

namespace Oxinit

/-- Each unit that the directories hold is as `P` says of it and its name. -/
def Supplied (P : Name → Unit → Prop) (disk : List Directory) : Prop :=
  ∀ d ∈ disk, ∀ file ∈ d.files, ∀ unit, file.2 = .ok unit → P file.1 unit

variable {P : Name → Unit → Prop} {w : World}

/-! ## Loading -/

theorem loadDirsIn_supplied {disk : List Directory} (h : Supplied P disk) (n : Name) (u : Unit)
    (hu : (loadDirsIn disk).units[n]? = some u) : P n u := by
  have hfile : ∀ (loaded : Loaded) (file : UnitFile), (∀ unit, file.2 = .ok unit → P file.1 unit) →
      (∀ (n : Name) (u : Unit), loaded.units[n]? = some u → P n u) →
      ∀ (n : Name) (u : Unit), (loaded.addFile file).units[n]? = some u → P n u := by
    intro loaded file hf hl n u hu
    unfold Loaded.addFile at hu
    split at hu
    · next unit hunit =>
      simp only [Std.TreeMap.getElem?_insert] at hu
      split at hu
      · next he =>
        cases hu
        rw [Std.LawfulEqCmp.compare_eq_iff_eq] at he
        exact he ▸ hf _ hunit
      · exact hl n u hu
    · exact hl n u hu
  refine List.foldlRecOn (motive := fun l : Loaded => ∀ (n : Name) (u : Unit), l.units[n]? = some u → P n u) disk _
    (fun n u hu => by simp at hu) (fun loaded hl d hd => ?_) n u hu
  unfold Loaded.addDir
  split
  · next files hfiles =>
    have hd := h d hd
    rw [Directory.files, hfiles] at hd
    exact List.foldlRecOn (motive := fun l : Loaded => ∀ (n : Name) (u : Unit), l.units[n]? = some u → P n u) files _ hl
      fun loaded hl file hf => hfile loaded file (hd file hf) hl
  · exact hl
  · exact hl

/-! ## The disk -/

/-- Whatever is put on the disk is supplied. -/
def Supplies (P : Name → Unit → Prop) (w : World) : Prop := ∀ n disk, .edit disk ∈ (w n).moves → Supplied P disk

namespace Supervisor

variable {s s' : Supervisor}

/-- The disk of the machine. -/
def Stocked (P : Name → Unit → Prop) (s : Supervisor) : Prop := Supplied P s.kernel.disk

theorem move_disk (k : Kernel) (mv : Move) : (k.move mv).disk = match mv with
    | .edit disk => disk
    | _ => k.disk := by
  cases mv with
  | edit | pass | setWall | migrate | datagram => rfl
  | fork =>
    simp only [Kernel.move, Kernel.next, Kernel.notify]
    split <;> rfl
  | exit =>
    simp only [Kernel.move, Kernel.next, Kernel.notify]
    split <;> rfl

theorem Stocked.turn (hw : Supplies P w) (h : s.Stocked P) : (s.turn w).Stocked P := by
  rw [Stocked, turn_kernel]
  refine List.foldlRecOn (motive := fun k : Kernel => Supplied P k.disk) _ _ h fun k hk mv hmv => ?_
  rw [move_disk]
  cases mv with
  | edit disk => exact hw _ disk hmv
  | pass | setWall | migrate | datagram | fork | exit => exact hk

theorem Stocked.schedule (hw : Supplies P w) (h : s.Stocked P) (delay : Nat) (alarm : Alarm) :
    (schedule w delay alarm s).2.Stocked P := by
  have hturn : (s.note (.schedule alarm delay)).turn w |>.Stocked P := Stocked.turn hw h
  rw [Stocked, Supervisor.schedule, armTimer_kernel]
  exact (Stocked.turn hw (Stocked.turn hw (s := (_ : Supervisor).update _) hturn))

theorem Stocked.ready (hw : Supplies P w) (h : s.Stocked P) (name : Name) : (ready w name s).Stocked P := by
  have hactive : (enterActive w name s).Stocked P := (h.turn hw).turn hw
  simp only [Supervisor.ready]
  split
  · exact Stocked.schedule hw hactive _ _
  · exact hactive

theorem Stocked.onMessage (hw : Supplies P w) (h : s.Stocked P) (message : Message) :
    (onMessage w message s).Stocked P := by
  simp only [Supervisor.onMessage]
  split
  · exact h
  · next name _ =>
    -- With a ping and without, ready and not.
    repeat' split
    all_goals try refine Stocked.ready hw ?_ name
    all_goals first | exact h | exact Stocked.turn hw h

theorem Stocked.stride {e : Event} (hw : Supplies P w) (h : s.Stocked P) (hs : Stride w e s s') : s'.Stocked P := by
  cases hs with
  | turn => exact h.turn hw
  | message _ message => exact h.onMessage hw message
  | read =>
    simp only [Stocked, onKernel, Kernel.read]
    split <;> exact h
  | signal | reaped | drained | note | update | push | expire | late | hung | lower | finished | spawn | active
    | forkedAway | insert | keep => exact h

theorem Stocked.step (hw : Supplies P w) (h : s.Stocked P) (e : Event) : (step w s e).Stocked P :=
  Framework.invariant (I := Stocked P) (fun h hs => h.stride hw hs) (step_strides w e s) h

theorem Stocked.addUnit (hw : Supplies P w) (h : s.Stocked P) (name : Name) (unit : Unit) :
    (addUnit w name unit s).Stocked P := by
  simp only [Supervisor.addUnit, addCgroup]
  split
  · exact h.turn hw
  · exact h

theorem Stocked.bindSocket (hw : Supplies P w) (h : s.Stocked P) (name : Name) (socket : Socket) :
    (bindSocket w name socket s).Stocked P :=
  List.foldlRecOn (motive := Stocked P) socket.listen _ h fun s h address _ => by
    dsimp only
    split <;> exact h.turn hw

theorem Stocked.load (hw : Supplies P w) (hierarchy : Bool) {kernel : Kernel} (h : Supplied P kernel.disk) :
    (load w hierarchy kernel).Stocked P := by
  have hblank : (blank hierarchy kernel).turn w |>.Stocked P := Stocked.turn hw h
  simp only [Supervisor.load]
  split
  · exact hblank
  · refine List.foldlRecOn (motive := Stocked P) _ _ ?_ fun s h name _ => ?_
    · exact List.foldlRecOn (motive := Stocked P) _ _ hblank fun s h p _ => h.addUnit hw p.1 p.2
    · split
      · exact h.bindSocket hw name _
      · exact h

/-! ## The units -/

/-- The machine's disk, and what it knows. -/
structure Stock (P : Name → Unit → Prop) (s : Supervisor) : Prop where
  disk : s.Stocked P
  units : ∀ n u, s.unitOf n = some u → P n u

/-- Only a reload changes the definition of a unit. -/
theorem step_units {e : Event} (h : Reachable w s) (he : e ≠ .request .reload) (n : Name) :
    (step w s e).unitOf n = s.unitOf n := by
  have ht := (step_tours (r := false) w s h.fired h.wall (.inr he)).1
  refine Framework.invariant (I := fun s' : Supervisor => s'.unitOf n = s.unitOf n) (fun hu ht => ?_) ht rfl
  refine ht.keeps (I := fun s' : Supervisor => s'.unitOf n = s.unitOf n) (fun hu ⟨_, ha⟩ => ?_)
    (fun {s f} hu hi _ _ => ?_) hu
  · exact (ha.effect.kept.units n).trans hu
  · rw [Manager.unitOf, update_toManager, hi]
    exact hu

theorem Stock.step (hw : Supplies P w) (hr : Reachable w s) (h : s.Stock P) (e : Event) : (step w s e).Stock P := by
  refine ⟨h.disk.step hw e, fun n u hu => ?_⟩
  by_cases he : e = .request .reload
  · subst he
    change (reload w (s.note (.request .reload))).2.unitOf n = some u at hu
    have hdisk : (s.note (.request .reload)).turn w |>.Stocked P := Stocked.turn hw h.disk
    by_cases herr : (onDisk w (s.note (.request .reload))).errors = []
    · rw [← Manager.get_held, reload_held herr, Manager.get_inForce] at hu
      split at hu
      · exact h.units n u hu
      · exact loadDirsIn_supplied hdisk n u hu
    · rw [reload_error herr, turn_toManager] at hu
      exact h.units n u hu
  · rw [step_units hr he] at hu
    exact h.units n u hu

theorem Stock.boot (hw : Supplies P w) (hierarchy : Bool) {kernel : Kernel} (h : Supplied P kernel.disk) :
    (boot w hierarchy kernel).Stock P := by
  have hload := Stocked.load hw hierarchy h
  have hblank : (blank hierarchy kernel).turn w |>.Stocked P := Stocked.turn hw h
  refine ⟨Framework.invariant (I := Stocked P) (fun h hs => h.stride hw hs) (boot_strides w hierarchy kernel) hload,
    fun n u hu => loadDirsIn_supplied hblank n u ?_⟩
  rw [(boot_deeds w (a := none) hierarchy kernel).acts.kept.units] at hu
  rw [← hu]
  exact ((load_spec w hierarchy kernel).2.1 n).symm

/-- What is true of the files is true of the units. -/
theorem run_supplied (hw : Supplies P w) (hierarchy : Bool) {kernel : Kernel} (h : Supplied P kernel.disk)
    (events : List Event) : (run w (Supervisor.boot w hierarchy kernel) events).Stock P := by
  have hb := Stock.boot hw hierarchy h
  have hr : Reachable w (Supervisor.boot w hierarchy kernel) := ⟨hierarchy, kernel, [], rfl⟩
  generalize Supervisor.boot w hierarchy kernel = s at hb hr
  induction events generalizing s with
  | nil => exact hb
  | cons e events ih => exact ih _ (hb.step hw hr e) (hr.step e)

/-! ## Files that are parsed -/

/-- The directories hold what comes of reading files and parsing them. -/
def Parsed (toml : String → Except String RawFile) (inet : String → Option String) (scope : Scope) (hostname : String)
    (disk : List Directory) : Prop :=
  ∀ d ∈ disk, ∀ file ∈ d.files, ∃ path contents, file.2 = readAndParse toml inet scope hostname file.1 path contents

variable {toml : String → Except String RawFile} {inet : String → Option String} {scope : Scope} {hostname : String}

/-- What is parsed from files is well formed. -/
theorem Parsed.supplied {disk : List Directory} (h : Parsed toml inet scope hostname disk) :
    Supplied (fun n u => ValidName n ∧ u.WellFormed inet scope n) disk := by
  intro d hd file hf unit hunit
  obtain ⟨path, contents, hp⟩ := h d hd file hf
  exact readAndParse_sound (hp.symm.trans hunit)

/-- A manager of files that are parsed when they are read knows well-formed
units only, each under a name that is one component of a path, after whatever
has happened, and whatever has been put on the disk. -/
theorem every_unit_is_well_formed (toml : String → Except String RawFile) (inet : String → Option String) (scope : Scope)
    (hostname : String) (w : World) (hierarchy : Bool) (kernel : Kernel) (events : List Event)
    (hk : Parsed toml inet scope hostname kernel.disk)
    (hw : ∀ n disk, .edit disk ∈ (w n).moves → Parsed toml inet scope hostname disk) (name : Name) (i : Instance)
    (hi : (run w (Supervisor.boot w hierarchy kernel) events).instances[name]? = some i) :
    ValidName name ∧ i.unit.WellFormed inet scope name := by
  have h := run_supplied (P := fun n u => ValidName n ∧ u.WellFormed inet scope n)
    (fun n disk he => (hw n disk he).supplied) hierarchy hk.supplied events
  exact h.units name i.unit (Manager.unitOf_of_get hi)

/-- A parser that knows one text. -/
def targets (text : String) : Except String RawFile :=
  if text = "[target]\n" then .ok { target := true } else .error "expected a table key, found eof at line 1 column 1"

/-- What comes of a file that says this. -/
def targetFile (name : Name) (text : String) : UnitFile :=
  (name, readAndParse targets (fun _ => none) .system "host" name (name ++ ".toml") (.ok text))

/-- One good file, and one that is not. -/
def targetsOnDisk : Kernel :=
  { disk := [⟨"/usr/lib/oxinit/units", .files [targetFile "a" "[", targetFile defaultUnit "[target]\n"]⟩] }

theorem every_unit_is_well_formed_sample :
    ∃ i, (run calm (Supervisor.boot calm true targetsOnDisk) [.request .reload]).instances[defaultUnit]? = some i ∧
      i.unit.WellFormed (fun _ => none) .system defaultUnit := by
  have hs : ((run calm (Supervisor.boot calm true targetsOnDisk)
      [.request .reload]).instances[defaultUnit]?).isSome = true := by
    decide +kernel
  obtain ⟨i, hi⟩ := Option.isSome_iff_exists.mp hs
  have hdisk : Parsed targets (fun _ => none) .system "host" targetsOnDisk.disk := by
    intro d hd file hf
    obtain rfl := List.mem_singleton.mp hd
    rcases List.mem_pair.mp hf with rfl | rfl
    · exact ⟨"a" ++ ".toml", .ok "[", rfl⟩
    · exact ⟨defaultUnit ++ ".toml", .ok "[target]\n", rfl⟩
  exact ⟨i, hi, (every_unit_is_well_formed targets (fun _ => none) .system "host" calm true targetsOnDisk
    [.request .reload] hdisk (by simp [calm]) defaultUnit i hi).2⟩

end Supervisor

end Oxinit
