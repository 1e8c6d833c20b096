import Oxinit.Model.Cgroup
import Oxinit.Proof.UnitFile

/-!
# Cgroups for services

A hierarchy that oxinit has prepared distributes to its slice what the kernel
has of what services need (`prepared`), and goes on to, whatever happens to
processes and limits (`run_distributed`): so a limit of a unit can be set where
its controller was on offer at the root.
-/

namespace Oxinit.Cgroup

variable {fs fs' fs'' : Kernfs} {path root : Path} {self : Pid} {node : Node} {names : List (List Char)}

theorem Result.andThen_of_ok {r : Result} (h : r.1 = .ok ⟨⟩) (next : Kernfs → Result) : r.andThen next = next r.2 := by
  obtain ⟨_ | _, fs⟩ := r
  · cases h
  · rfl

/-- An error ends what was to be done. -/
theorem Result.andThen_of_error {r : Result} (h : r.1 ≠ .ok ⟨⟩) (next : Kernfs → Result) : r.andThen next = r := by
  obtain ⟨_ | _, fs⟩ := r
  · rfl
  · exact absurd rfl h

/-! ## Paths -/

theorem slice_ne_nil : slice root ≠ [] := by simp [slice]

theorem initScope_ne_nil : initScope root ≠ [] := by simp [initScope]

theorem cgroup_ne_nil {unit : Name} : cgroup root unit ≠ [] := by simp [cgroup]

theorem dropLast_slice : (slice root).dropLast = root := List.dropLast_concat ..

theorem dropLast_initScope : (initScope root).dropLast = root := List.dropLast_concat ..

theorem dropLast_cgroup {unit : Name} : (cgroup root unit).dropLast = slice root := List.dropLast_concat ..

theorem root_ne_slice : root ≠ slice root := by simp [slice]

theorem root_ne_initScope : root ≠ initScope root := by simp [initScope]

theorem initScope_ne_slice : initScope root ≠ slice root := by simp [slice, initScope]

/-! ## What a step changes -/

theorem offered_of_ne (h : path ≠ []) : fs.offered path = fs.distributed path.dropLast := if_neg h

theorem distributed_of_node (h : fs.nodes path = some node) : fs.distributed path = node.subtree := by
  rw [Kernfs.distributed, h, Option.elim_some]

theorem update_nodes (q : Path) : (fs.update path node).nodes q = if q = path then some node else fs.nodes q :=
  Function.update_apply ..

theorem update_distributed (q : Path) :
    (fs.update path node).distributed q = if q = path then node.subtree else fs.distributed q := by
  rw [Kernfs.distributed, update_nodes]
  split
  · rfl
  · rfl

/-- Cgroups stay, and distribute what they distributed. -/
structure Steady (fs fs' : Kernfs) : Prop where
  controllers : fs'.controllers = fs.controllers
  pidsLimit : fs'.pidsLimit = fs.pidsLimit
  shown : fs'.shown = fs.shown
  nodes : ∀ path, (fs.nodes path).isSome = true → (fs'.nodes path).isSome = true
  distributed : ∀ path, fs'.distributed path = fs.distributed path

theorem Steady.refl (fs : Kernfs) : Steady fs fs := ⟨rfl, rfl, rfl, fun _ h => h, fun _ => rfl⟩

theorem Steady.trans (h : Steady fs fs') (h' : Steady fs' fs'') : Steady fs fs'' :=
  ⟨h'.controllers.trans h.controllers, h'.pidsLimit.trans h.pidsLimit, h'.shown.trans h.shown,
    fun p hp => h'.nodes p (h.nodes p hp), fun p => (h'.distributed p).trans (h.distributed p)⟩

theorem Steady.offered (h : Steady fs fs') (path : Path) : fs'.offered path = fs.offered path := by
  rw [Kernfs.offered, Kernfs.offered, h.controllers, h.distributed]

/-- And processes are where they were. -/
structure Still (fs fs' : Kernfs) : Prop extends Steady fs fs' where
  procs : fs'.procs = fs.procs
  nextPid : fs'.nextPid = fs.nextPid
  killed : fs'.killed = fs.killed

theorem Still.refl (fs : Kernfs) : Still fs fs := ⟨.refl fs, rfl, rfl, rfl⟩

theorem Still.trans (h : Still fs fs') (h' : Still fs' fs'') : Still fs fs'' :=
  ⟨h.toSteady.trans h'.toSteady, h'.procs.trans h.procs, h'.nextPid.trans h.nextPid, h'.killed.trans h.killed⟩

/-- A cgroup that is as before in this, or a new one. -/
theorem still_update (h : fs.distributed path = node.subtree) : Still fs (fs.update path node) := by
  refine ⟨⟨rfl, rfl, rfl, fun q hq => ?_, fun q => ?_⟩, rfl, rfl, rfl⟩
  · rw [update_nodes]
    split
    · rfl
    · exact hq
  · rw [update_distributed]
    split
    · next he => rw [he, h]
    · rfl

theorem still_mkdir (h : fs.mkdir path = some fs') : Still fs fs' := by
  obtain ⟨hp, h⟩ := Option.ite_none_right_eq_some.mp h
  obtain rfl := Option.some.inj h
  refine still_update ?_
  rw [Kernfs.distributed, Option.isNone_iff_eq_none.mp hp.1]
  rfl

/-- To write a limit is to change nothing else. -/
theorem still_setLimit {l : Limit} {text : List Char} (hn : fs.nodes path = some node)
    (h : fs.setLimit path node l text = some fs') : Still fs fs' := by
  obtain ⟨-, h⟩ := Option.ite_none_right_eq_some.mp h
  obtain rfl := Option.some.inj h
  exact still_update (show _ = node.subtree from distributed_of_node hn)

theorem still_limit {l : Limit} {text : List Char} (h : fs.write self path (.limit l) text = some fs') :
    Still fs fs' := by
  obtain ⟨node, hn, h⟩ := Option.bind_eq_some_iff.mp h
  exact still_setLimit hn h

theorem still_createDir (path : Path) (fs : Kernfs) : Still fs (createDir path fs).2 := by
  unfold createDir
  split
  · exact .refl fs
  · split
    · next h => exact still_mkdir h
    · exact .refl fs

theorem steady_procs (fs : Kernfs) (procs : List (Pid × Path)) (nextPid : Pid) (killed : List Pid) :
    Steady fs { fs with procs, nextPid, killed } := ⟨rfl, rfl, rfl, fun _ h => h, fun _ => rfl⟩

theorem steady_enter {pid : Pid} (h : fs.enter pid path = some fs') : Steady fs fs' := by
  obtain ⟨-, h⟩ := Option.ite_none_right_eq_some.mp h
  obtain rfl := Option.some.inj h
  exact steady_procs fs _ fs.nextPid fs.killed

theorem steady_procsFile {text : List Char} (h : fs.write self path .procs text = some fs') : Steady fs fs' := by
  obtain ⟨node, -, h⟩ := Option.bind_eq_some_iff.mp h
  obtain ⟨pid, -, h⟩ := Option.bind_eq_some_iff.mp h
  exact steady_enter h

theorem steady_kill (self : Pid) (path : Path) (fs : Kernfs) : Steady fs (kill self path fs).2 := by
  unfold kill write
  split
  · next h =>
    obtain ⟨node, -, h⟩ := Option.bind_eq_some_iff.mp h
    obtain ⟨-, h⟩ := Option.ite_none_right_eq_some.mp h
    obtain rfl := Option.some.inj h
    exact steady_procs fs fs.procs fs.nextPid _
  · exact .refl fs

/-- A limit, if it is declared. -/
def declare (self : Pid) (path : Path) (l : Limit) (text : Option (List Char)) (fs : Kernfs) : Result :=
  match text with
  | some text => write self path (.limit l) text fs
  | none => (.ok ⟨⟩, fs)

/-- What a unit declares for a limit. -/
def declared (resources : Resources) : Limit → Option (List Char)
  | .memoryMax => resources.memoryMax.map SizeValue.toText
  | .pidsMax => resources.tasksMax.map (Nat.toDigits 10)

/-- The limits of a unit are written one after another. -/
theorem apply_eq (self : Pid) (path : Path) (resources : Resources) (fs : Kernfs) : apply self path resources fs =
    (declare self path .memoryMax (declared resources .memoryMax) fs).andThen
      (declare self path .pidsMax (declared resources .pidsMax)) := by
  obtain ⟨_ | memoryMax, _ | tasksMax⟩ := resources
  all_goals rfl

/-- To declare a limit changes that file alone. -/
theorem still_declare (self : Pid) (path : Path) (l : Limit) (text : Option (List Char)) (fs : Kernfs) :
    Still fs (declare self path l text fs).2 := by
  unfold declare write
  split
  · split
    · next h => exact still_limit h
    · exact .refl fs
  · exact .refl fs

theorem still_apply (self : Pid) (path : Path) (resources : Resources) (fs : Kernfs) :
    Still fs (apply self path resources fs).2 := by
  have h := still_declare self path .memoryMax (declared resources .memoryMax) fs
  rw [apply_eq]
  generalize declare self path .memoryMax (declared resources .memoryMax) fs = r at h
  obtain ⟨_ | _, fs'⟩ := r
  · exact h
  · exact h.trans (still_declare ..)

theorem steady_fork (fs : Kernfs) (parent : Pid) : Steady fs (fs.fork parent) := by
  unfold Kernfs.fork
  split
  · exact .refl fs
  · exact steady_procs fs _ _ fs.killed

theorem steady_exit (fs : Kernfs) (pid : Pid) : Steady fs (fs.exit pid) := steady_procs fs _ fs.nextPid fs.killed

theorem getD_of {R : Kernfs → Kernfs → Prop} {o : Option Kernfs} (hr : R fs fs) (h : ∀ fs', o = some fs' → R fs fs') :
    R fs (o.getD fs) := by
  cases o with
  | none => exact hr
  | some fs' => exact h fs' rfl

theorem steady_spawn (self : Pid) (path : Path) (placed : Bool) (fs : Kernfs) :
    Steady fs (spawn self path placed fs) := by
  have hfork := steady_fork fs self
  unfold spawn
  split
  · exact hfork
  · split
    · exact .refl fs
    · cases hw : (fs.fork self).write fs.nextPid path .procs ['0'] with
      | none => exact hfork.trans (steady_exit ..)
      | some fs' => exact hfork.trans (steady_procsFile hw)

theorem steady_step (root : Path) (self : Pid) (fs : Kernfs) (e : Step) : Steady fs (step root self fs e) := by
  cases e with
  | fork parent =>
    rw [step]
    split
    · exact .refl fs
    · exact steady_fork fs parent
  | exit pid =>
    rw [step]
    split
    · exact .refl fs
    · exact steady_exit fs pid
  | migrate pid path =>
    rw [step]
    split
    · exact .refl fs
    · exact getD_of (.refl fs) fun _ h => steady_procsFile h
  | mkdir path => exact getD_of (.refl fs) fun _ h => (still_mkdir h).toSteady
  | limit path l text => exact getD_of (.refl fs) fun _ h => (still_limit h).toSteady
  | add unit => exact (still_createDir ..).toSteady
  | apply unit resources => exact (still_apply ..).toSteady
  | spawn unit placed => exact steady_spawn ..
  | kill unit => exact steady_kill ..

/-- No run of steps does. -/
theorem steady_run (root : Path) (self : Pid) (fs : Kernfs) (steps : List Step) :
    Steady fs (run root self fs steps) := by
  induction steps generalizing fs with
  | nil => exact .refl fs
  | cons e steps ih => exact (steady_step root self fs e).trans (ih _)

/-! ## What is delegated -/

theorem offers_iff {name : List Char} : fs.offers path name = true ↔ ∃ c ∈ fs.offered path, c.name = name := by
  simp [Kernfs.offers]

/-- What services need of what a cgroup is distributed. -/
def wanted (fs : Kernfs) (path : Path) : List (List Char) := controllers.filter (fs.offers path)

/-- What `prepare` reads is what the cgroup offers. -/
theorem wanted_read (fs : Kernfs) (path : Path) :
    controllers.filter
      (· ∈ Text.splitWhitespace ([' '].intercalate ((fs.offered path).map (·.name)) ++ ['\n'])) = wanted fs path := by
  have hwords : ∀ word ∈ (fs.offered path).map (·.name), Text.Plain word ∧ word ≠ [] := by
    intro word hw
    obtain ⟨c, -, rfl⟩ := List.mem_map.mp hw
    exact ⟨c.isWord.2, c.isWord.1⟩
  rw [Text.splitWhitespace_concat _ (by decide), Text.splitWhitespace_intercalate hwords]
  refine List.filter_congr fun name _ => ?_
  rw [Bool.eq_iff_iff, decide_eq_true_eq, offers_iff, List.mem_map]

theorem offers_of_mem_wanted {name : List Char} (h : name ∈ wanted fs path) : fs.offers path name = true :=
  (List.mem_filter.mp h).2

theorem space_notMem_wanted : ∀ word ∈ (wanted fs path).map ('+' :: ·), ' ' ∉ word := by
  have hc : ∀ name ∈ controllers, ' ' ∉ '+' :: name := by decide
  intro word hw
  obtain ⟨name, hn, rfl⟩ := List.mem_map.mp hw
  exact hc name (List.mem_filter.mp hn).1

/-- Controllers that are offered can all be enabled. -/
theorem mapM_enabled (h : ∀ name ∈ names, fs.offers path name = true) :
    ∃ cs, (names.map ('+' :: ·)).mapM (fs.enabled path) = some cs ∧ cs.map (·.name) = names ∧ cs ⊆ fs.offered path := by
  induction names with
  | nil => exact ⟨[], rfl, rfl, List.nil_subset _⟩
  | cons name names ih =>
    obtain ⟨hname, hnames⟩ := List.forall_mem_cons.mp h
    obtain ⟨cs, hcs, hmap, hsub⟩ := ih hnames
    obtain ⟨c, hfind⟩ : ∃ c, (fs.offered path).find? (·.name = name) = some c := by
      rw [← Option.isSome_iff_exists, List.find?_isSome]
      simpa using offers_iff.mp hname
    have hc : c.name = name := by simpa using List.find?_some hfind
    refine ⟨c :: cs, ?_, by rw [List.map_cons, hc, hmap], List.cons_subset.mpr ⟨List.mem_of_find?_eq_some hfind, hsub⟩⟩
    rw [List.map_cons, List.mapM_cons, show fs.enabled path ('+' :: name) = some c from hfind, hcs]
    rfl

/-- A cgroup distributes what it did, and these of what it is distributed. -/
structure Enabled (path : Path) (names : List (List Char)) (fs fs' : Kernfs) : Prop where
  controllers : fs'.controllers = fs.controllers
  pidsLimit : fs'.pidsLimit = fs.pidsLimit
  shown : fs'.shown = fs.shown
  procs : fs'.procs = fs.procs
  nextPid : fs'.nextPid = fs.nextPid
  killed : fs'.killed = fs.killed
  nodes : ∀ q, (fs'.nodes q).isSome = (fs.nodes q).isSome
  other : ∀ q ≠ path, fs'.distributed q = fs.distributed q
  enabled : ∀ name ∈ names, ∃ c ∈ fs'.distributed path, c.name = name
  only : ∀ c ∈ fs'.distributed path, c ∈ fs.distributed path ∨ c ∈ fs.offered path

theorem Enabled.nothing (path : Path) (fs : Kernfs) : Enabled path [] fs fs :=
  ⟨rfl, rfl, rfl, rfl, rfl, rfl, fun _ => rfl, fun _ _ => rfl, fun _ h => (by cases h), fun _ h => .inl h⟩

theorem enabled_update {cs : List Controller} (hn : fs.nodes path = some node) (hc : cs ⊆ fs.offered path) :
    Enabled path (cs.map (·.name)) fs (fs.update path { node with subtree := node.subtree ∪ cs }) := by
  have hself : (fs.update path { node with subtree := node.subtree ∪ cs }).distributed path = node.subtree ∪ cs := by
    rw [update_distributed, if_pos rfl]
  refine ⟨rfl, rfl, rfl, rfl, rfl, rfl, fun q => ?_, fun q hq => ?_, fun name h => ?_, fun c h => ?_⟩
  · rw [update_nodes]
    split
    · next he => rw [he, hn]; rfl
    · rfl
  · rw [update_distributed, if_neg hq]
  · obtain ⟨c, hm, rfl⟩ := List.mem_map.mp h
    exact ⟨c, by rw [hself]; exact List.mem_union_iff.mpr (.inr hm), rfl⟩
  · rw [hself, List.mem_union_iff] at h
    rw [distributed_of_node hn]
    exact h.imp_right (hc ·)

/-- A controller that is on offer can be enabled in a cgroup that holds no process. -/
theorem enable_spec (self : Pid) (hn : (fs.nodes path).isSome = true) (hs : ∀ word ∈ names.map ('+' :: ·), ' ' ∉ word)
    (ho : ∀ name ∈ names, fs.offers path name = true) :
    ((enable self path names fs).1 = .ok ⟨⟩ ↔ (names ≠ [] → path ≠ [] → fs.inside path = [])) ∧
      ((enable self path names fs).1 = .ok ⟨⟩ → Enabled path names fs (enable self path names fs).2) := by
  obtain ⟨node, hn⟩ := Option.isSome_iff_exists.mp hn
  unfold enable
  split
  · next he =>
    obtain rfl := List.isEmpty_iff.mp he
    exact ⟨iff_of_true rfl fun h => absurd rfl h, fun _ => .nothing path fs⟩
  · next he =>
    have hne : names ≠ [] := fun h => he (List.isEmpty_iff.mpr h)
    obtain ⟨cs, hcs, rfl, hsub⟩ := mapM_enabled ho
    have hwrite : fs.write self path .subtreeControl ([' '].intercalate ((cs.map (·.name)).map ('+' :: ·))) =
        if path ≠ [] ∧ fs.inside path ≠ [] then none
        else some (fs.update path { node with subtree := node.subtree ∪ cs }) := by
      rw [Kernfs.write, hn, Option.bind_some]
      show fs.enable path node _ = _
      rw [Kernfs.enable, List.splitOn_intercalate ' ' hs (by simpa using hne), hcs, Option.map_some]
    unfold write
    rw [hwrite]
    split_ifs with hbusy
    · exact ⟨iff_of_false (by simp) fun h => hbusy.2 (h hne hbusy.1), fun h => (by cases h)⟩
    · refine ⟨iff_of_true rfl fun _ hp => ?_, fun _ => enabled_update hn hsub⟩
      by_contra hi
      exact hbusy ⟨hp, hi⟩

/-- The cgroup is there after this. -/
theorem createDir_spec (h : (fs.nodes path.dropLast).isSome = true) :
    (createDir path fs).1 = .ok ⟨⟩ ∧ ((createDir path fs).2.nodes path).isSome = true := by
  unfold createDir
  split
  · next hn => exact ⟨rfl, hn⟩
  · next hn =>
    have hmk : fs.mkdir path = some (fs.update path {}) := if_pos ⟨by simpa using hn, h⟩
    rw [hmk]
    exact ⟨rfl, by rw [update_nodes, if_pos rfl]; rfl⟩

/-- A cgroup but the root takes processes as long as it distributes nothing. -/
theorem admits_iff (h : (fs.nodes path).isSome = true) (hp : path ≠ []) :
    fs.admits path = true ↔ fs.distributed path = [] := by
  obtain ⟨node, hn⟩ := Option.isSome_iff_exists.mp h
  simp [Kernfs.admits, hp, hn, distributed_of_node hn]

/-- One process is elsewhere. -/
def moved (pid : Pid) (path : Path) (procs : List (Pid × Path)) : List (Pid × Path) :=
  procs.map fun p => if p.1 = pid then (pid, path) else p

theorem moved_of_absent {pid : Pid} {procs : List (Pid × Path)} (h : procs.any (·.1 = pid) = false) :
    moved pid path procs = procs := by
  refine (List.map_congr_left fun p hp => if_neg fun e => ?_).trans (List.map_id procs)
  simpa [e] using List.any_eq_false.mp h p hp

/-- oxinit is out of the way afterwards, unless others have made use of where it goes. -/
theorem parkInit_spec (hi : self < 2 ^ 32) (hr : (fs.nodes root).isSome = true) :
    Steady fs (parkInit root self fs).2 ∧
      (parkInit root self fs).2.procs =
        (if fs.distributed (initScope root) = [] then moved self (initScope root) fs.procs else fs.procs) ∧
      (parkInit root self fs).2.nextPid = fs.nextPid ∧ (parkInit root self fs).2.killed = fs.killed := by
  have hscope : (fs.nodes (initScope root).dropLast).isSome = true := by rwa [dropLast_initScope]
  obtain ⟨hok, hnode⟩ := createDir_spec hscope
  have hstill := still_createDir (initScope root) fs
  unfold parkInit
  rw [Result.andThen_of_ok hok]
  generalize (createDir (initScope root) fs).2 = fs₁ at hnode hstill
  rw [← hstill.distributed, ← hstill.procs, ← hstill.nextPid, ← hstill.killed]
  have hwrite : fs₁.write self (initScope root) .procs (Nat.toDigits 10 self) = fs₁.enter self (initScope root) := by
    obtain ⟨node, hn⟩ := Option.isSome_iff_exists.mp hnode
    rw [Kernfs.write, hn, Option.bind_some]
    show (Text.fromStr 32 _).bind _ = _
    rw [fromStr_toDigits hi, Option.bind_some]
    split
    · rfl
    · rfl
  have hadmits := admits_iff hnode initScope_ne_nil
  unfold write
  rw [hwrite]
  cases he : fs₁.enter self (initScope root) with
  | some fs₂ =>
    refine ⟨hstill.toSteady.trans (steady_enter he), ?_⟩
    obtain ⟨hif, he⟩ := Option.ite_none_right_eq_some.mp he
    obtain rfl := Option.some.inj he
    rw [if_pos (hadmits.mp (Bool.and_eq_true_iff.mp hif).1)]
    exact ⟨rfl, rfl, rfl⟩
  | none =>
    refine ⟨hstill.toSteady, ?_, rfl, rfl⟩
    have hif : (fs₁.admits (initScope root) && fs₁.procs.any (·.1 = self)) = false := by
      unfold Kernfs.enter at he
      split at he
      · cases he
      · next hif => exact Bool.eq_false_of_not_eq_true hif
    show fs₁.procs = if fs₁.distributed (initScope root) = [] then moved self (initScope root) fs₁.procs else fs₁.procs
    split
    · next hd =>
      rw [hadmits.mpr hd, Bool.true_and] at hif
      exact (moved_of_absent hif).symm
    · rfl

theorem inside_eq_nil_iff : fs.inside path = [] ↔ ∀ p ∈ fs.procs, p.2 ≠ path := by
  rw [Kernfs.inside, List.map_eq_nil_iff, List.filter_eq_nil_iff]
  exact forall₂_congr fun p _ => by rw [decide_eq_true_eq]

theorem forall_parked_iff {P : Pid × Path → Prop} {procs : List (Pid × Path)} (h : ¬P (self, initScope root)) {cleared : Prop}
    [Decidable cleared] : (∀ p ∈ if cleared then moved self (initScope root) procs else procs, ¬P p) ↔
      ∀ p ∈ procs, P p → p.1 = self ∧ cleared := by
  split
  · next hc =>
    rw [moved, List.forall_mem_map]
    refine forall₂_congr fun p _ => ?_
    split
    · next hp => exact iff_of_true h fun _ => ⟨hp, hc⟩
    · next hp => exact ⟨fun hn hP => absurd hP hn, fun himp hP => hp (himp hP).1⟩
  · next hc => exact forall₂_congr fun p _ => ⟨fun hn hP => absurd hP hn, fun himp hP => hc (himp hP).2⟩

/-- No cgroup distributes what it is not distributed. -/
def Valid (fs : Kernfs) : Prop := ∀ path, ∀ c ∈ fs.distributed path, c ∈ fs.offered path

/-- What `prepare` leaves. -/
structure Prepared (root : Path) (init : Pid) (fs fs' : Kernfs) : Prop where
  pidsLimit : fs'.pidsLimit = fs.pidsLimit
  shown : fs'.shown = fs.shown
  nextPid : fs'.nextPid = fs.nextPid
  killed : fs'.killed = fs.killed
  procs : fs'.procs =
    if fs.distributed (initScope root) = [] then moved init (initScope root) fs.procs else fs.procs
  other : ∀ q, q ≠ root → q ≠ slice root → fs'.distributed q = fs.distributed q
  node : (fs'.nodes (slice root)).isSome = true
  delegates : Valid fs → ∀ name ∈ controllers,
    (∃ c ∈ fs'.distributed (slice root), c.name = name) ↔ fs.offers root name = true

/-- The slice is made and delegated to as the root is. -/
def delegate (root : Path) (self : Pid) (names : List (List Char)) (fs : Kernfs) : Result :=
  (enable self root names fs).andThen fun fs => (createDir (slice root) fs).andThen (enable self (slice root) names)

theorem prepare_of_node (hn : (fs.nodes root).isSome = true) :
    prepare root self fs = delegate root self (wanted fs root) (parkInit root self fs).2 := by
  obtain ⟨node, hn⟩ := Option.isSome_iff_exists.mp hn
  have hread : fs.read root .controllers = some ([' '].intercalate ((fs.offered root).map (·.name)) ++ ['\n']) := by
    rw [Kernfs.read, hn]
    rfl
  rw [prepare, hread]
  dsimp only
  rw [wanted_read]
  rfl

theorem prepare_of_no_node (hn : (fs.nodes root).isSome = false) :
    (prepare root self fs).1 = .error (.notCgroup2 root) := by
  have hnone : fs.nodes root = none := by simpa using hn
  rw [prepare, Kernfs.read, hnone]
  rfl

/-- What the slice distributes in the end. -/
structure Delegated (root : Path) (names : List (List Char)) (fs fs' : Kernfs) : Prop where
  pidsLimit : fs'.pidsLimit = fs.pidsLimit
  shown : fs'.shown = fs.shown
  nextPid : fs'.nextPid = fs.nextPid
  killed : fs'.killed = fs.killed
  procs : fs'.procs = fs.procs
  other : ∀ q, q ≠ root → q ≠ slice root → fs'.distributed q = fs.distributed q
  node : (fs'.nodes (slice root)).isSome = true
  enabled : ∀ name ∈ names, ∃ c ∈ fs'.distributed (slice root), c.name = name
  only : ∀ c ∈ fs'.distributed (slice root),
    c ∈ fs.distributed (slice root) ∨ c ∈ fs.distributed root ∨ c ∈ fs.offered root

/-- What oxinit does once it has left a cgroup. -/
theorem delegate_spec (self : Pid) (hn : (fs.nodes root).isSome = true) (hs : ∀ word ∈ names.map ('+' :: ·), ' ' ∉ word)
    (ho : ∀ name ∈ names, fs.offers root name = true) :
    ((delegate root self names fs).1 = .ok ⟨⟩ ↔
      (names ≠ [] → root ≠ [] → fs.inside root = []) ∧ (names ≠ [] → fs.inside (slice root) = [])) ∧
      ((delegate root self names fs).1 = .ok ⟨⟩ → Delegated root names fs (delegate root self names fs).2) := by
  obtain ⟨hok₁, hen₁⟩ := enable_spec self hn hs ho
  unfold delegate
  rw [← hok₁]
  by_cases h₁ : (enable self root names fs).1 = .ok ⟨⟩
  · have he₁ := hen₁ h₁
    rw [Result.andThen_of_ok h₁]
    generalize (enable self root names fs).2 = fs₁ at he₁
    have hroot : (fs₁.nodes (slice root).dropLast).isSome = true := by
      rw [dropLast_slice, he₁.nodes]
      exact hn
    obtain ⟨hok₂, hnode₂⟩ := createDir_spec hroot
    have hs₂ := still_createDir (slice root) fs₁
    rw [Result.andThen_of_ok hok₂]
    generalize (createDir (slice root) fs₁).2 = fs₂ at hnode₂ hs₂
    have hslice : fs₂.offered (slice root) = fs₁.distributed root := by
      rw [offered_of_ne slice_ne_nil, dropLast_slice, hs₂.distributed]
    obtain ⟨hok₃, hen₃⟩ := enable_spec self hnode₂ hs fun name hm => offers_iff.mpr (hslice ▸ he₁.enabled name hm)
    have hsame : fs₂.inside (slice root) = fs.inside (slice root) := by
      rw [Kernfs.inside, Kernfs.inside, hs₂.procs, he₁.procs]
    refine ⟨?_, fun h => ?_⟩
    · rw [hok₃, hsame]
      simp [h₁, slice_ne_nil]
    · have he₃ := hen₃ h
      generalize (enable self (slice root) names fs₂).2 = fs₃ at he₃
      refine ⟨?_, ?_, ?_, ?_, ?_, fun q hq hq' => ?_, ?_, he₃.enabled, fun c hc => ?_⟩
      · rw [he₃.pidsLimit, hs₂.pidsLimit, he₁.pidsLimit]
      · rw [he₃.shown, hs₂.shown, he₁.shown]
      · rw [he₃.nextPid, hs₂.nextPid, he₁.nextPid]
      · rw [he₃.killed, hs₂.killed, he₁.killed]
      · rw [he₃.procs, hs₂.procs, he₁.procs]
      · rw [he₃.other q hq', hs₂.distributed, he₁.other q hq]
      · rw [he₃.nodes]
        exact hnode₂
      · rcases he₃.only c hc with hc | hc
        · rw [hs₂.distributed, he₁.other _ root_ne_slice.symm] at hc
          exact .inl hc
        · rw [hslice] at hc
          exact .inr (he₁.only c hc)
  · rw [Result.andThen_of_error h₁]
    exact ⟨iff_of_false h₁ fun h => h₁ h.1, fun h => absurd h h₁⟩

/-- Nobody is in the way but oxinit, and it can leave. -/
def Free (root : Path) (init : Pid) (fs : Kernfs) : Prop :=
  ∀ p ∈ fs.procs, p.2 ≠ [] → p.2 = root ∨ p.2 = slice root → p.1 = init ∧ fs.distributed (initScope root) = []

/-- The root is free if nothing is left in it once oxinit has gone. -/
theorem free_iff (hp : fs'.procs =
    if fs.distributed (initScope root) = [] then moved self (initScope root) fs.procs else fs.procs) :
    Free root self fs ↔ (root ≠ [] → fs'.inside root = []) ∧ fs'.inside (slice root) = [] := by
  have hinside : ∀ q, initScope root ≠ q → (fs'.inside q = [] ↔
      ∀ p ∈ fs.procs, p.2 = q → p.1 = self ∧ fs.distributed (initScope root) = []) := fun q hq => by
    rw [inside_eq_nil_iff, hp]
    exact forall_parked_iff (P := fun p => p.2 = q) hq
  rw [hinside root root_ne_initScope.symm, hinside (slice root) initScope_ne_slice]
  constructor
  · refine fun h => ⟨fun hr p hp he => h p hp (he ▸ hr) (.inl he), fun p hp he => ?_⟩
    exact h p hp (he ▸ slice_ne_nil) (.inr he)
  · rintro ⟨hr, hs⟩ p hp hne (he | he)
    · exact hr (he ▸ hne) p hp he
    · exact hs p hp he

/-- When the hierarchy can be prepared, and what that leaves. -/
theorem prepare_spec (hi : self < 2 ^ 32) (root : Path) (fs : Kernfs) :
    ((prepare root self fs).1 = .ok ⟨⟩ ↔
      (fs.nodes root).isSome = true ∧ (wanted fs root ≠ [] → Free root self fs)) ∧
      ((prepare root self fs).1 = .ok ⟨⟩ → Prepared root self fs (prepare root self fs).2) := by
  cases hroot : (fs.nodes root).isSome with
  | false =>
    rw [prepare_of_no_node hroot]
    exact ⟨iff_of_false (by simp) (by simp), fun h => (by cases h)⟩
  | true =>
    rw [prepare_of_node hroot]
    obtain ⟨hs₁, hp₁, hn₁, hk₁⟩ := parkInit_spec hi hroot
    generalize (parkInit root self fs).2 = fs₁ at hs₁ hp₁ hn₁ hk₁
    have hoff : ∀ name ∈ wanted fs root, fs₁.offers root name = true := fun name hm => by
      rw [Kernfs.offers, hs₁.offered]
      exact offers_of_mem_wanted hm
    obtain ⟨hok, hdelegated⟩ := delegate_spec self (hs₁.nodes root hroot) space_notMem_wanted hoff
    refine ⟨?_, fun h => ?_⟩
    · rw [hok, free_iff hp₁, ← forall_and]
      exact (and_iff_right rfl).symm
    · have hd := hdelegated h
      refine ⟨hd.pidsLimit.trans hs₁.pidsLimit, hd.shown.trans hs₁.shown, hd.nextPid.trans hn₁,
        hd.killed.trans hk₁, hd.procs.trans hp₁,
        fun q hq hq' => (hd.other q hq hq').trans (hs₁.distributed q), hd.node, fun hv name hm => ⟨?_, fun ho => ?_⟩⟩
      · rintro ⟨c, hc, rfl⟩
        refine offers_iff.mpr ⟨c, ?_, rfl⟩
        rcases hd.only c hc with hc | hc | hc
        · rw [hs₁.distributed] at hc
          have hroot := hv _ c hc
          rw [offered_of_ne slice_ne_nil, dropLast_slice] at hroot
          exact hv _ c hroot
        · rw [hs₁.distributed] at hc
          exact hv _ c hc
        · rwa [hs₁.offered] at hc
      · exact hd.enabled name (List.mem_filter.mpr ⟨hm, ho⟩)

/-! ## Limits -/

theorem Steady.limited (h : Steady fs fs') (path : Path) (l : Limit) : fs'.limited path l = fs.limited path l := by
  rw [Kernfs.limited, Kernfs.limited, Kernfs.offers, Kernfs.offers, h.offered]

theorem Steady.takes (h : Steady fs fs') (l : Limit) (text : List Char) : fs'.takes l text = fs.takes l text := by
  cases l with
  | memoryMax => rfl
  | pidsMax => rw [Kernfs.takes, Kernfs.takes, h.pidsLimit]

/-- Apart from a limit that is set, all reads as before. -/
theorem text_setLimit {l : Limit} {text : List Char}
    (hs : Steady fs (fs.update path { node with limits := Function.update node.limits l text }))
    (q : Path) (node' : Node) (file : File) :
    (fs.update path { node with limits := Function.update node.limits l text }).text q node' file =
      fs.text q node' file := by
  cases file with
  | controllers => simp only [Kernfs.text, hs.offered]
  | limit l => simp only [Kernfs.text, hs.limited]
  | subtreeControl => rfl
  | procs => rfl
  | events => rfl
  | kill => rfl

/-- A limit that has been written is what its file shows, and no other file has changed. -/
theorem read_setLimit {l : Limit} {text : List Char} (hn : fs.nodes path = some node)
    (h : fs.setLimit path node l text = some fs') (q : Path) (file : File) :
    fs'.read q file = if q = path ∧ file = .limit l then some (fs.shown l text) else fs.read q file := by
  have hs := (still_setLimit hn h).toSteady
  obtain ⟨hl, h⟩ := Option.ite_none_right_eq_some.mp h
  obtain rfl := Option.some.inj h
  rw [Kernfs.read, Kernfs.read, update_nodes]
  by_cases hq : q = path
  · subst hq
    rw [if_pos rfl, hn, Option.bind_some, Option.bind_some, text_setLimit hs]
    by_cases he : file = .limit l
    · rw [if_pos ⟨rfl, he⟩, he]
      exact (if_pos (Bool.and_eq_true_iff.mp hl).1).trans (congrArg some (Function.update_self ..))
    · rw [if_neg fun h => he h.2]
      cases file with
      | limit l' =>
        have hne : l' ≠ l := fun e => he (congrArg _ e)
        simp only [Kernfs.text, Function.update_of_ne hne]
      | controllers => rfl
      | subtreeControl => rfl
      | procs => rfl
      | events => rfl
      | kill => rfl
  · rw [if_neg hq, if_neg fun h => hq h.1]
    exact Option.bind_congr fun node' _ => text_setLimit hs q node' file

/-- A limit is taken if its file is there and the kernel accepts the text. -/
theorem declare_spec (self : Pid) (hn : (fs.nodes path).isSome = true) (l : Limit) (text : Option (List Char)) :
    ((declare self path l text fs).1 = .ok ⟨⟩ ↔ ∀ t, text = some t → fs.limited path l = true ∧ fs.takes l t = true) ∧
      Steady fs (declare self path l text fs).2 ∧
      ∀ q file, (declare self path l text fs).2.read q file =
        if q = path ∧ file = .limit l ∧ (declare self path l text fs).1 = .ok ⟨⟩ then
          (text.map (fs.shown l)).or (fs.read q file)
        else fs.read q file := by
  obtain ⟨node, hn⟩ := Option.isSome_iff_exists.mp hn
  cases text with
  | none => exact ⟨iff_of_true rfl fun _ h => (by cases h), .refl fs, fun q file => (ite_self _).symm⟩
  | some text =>
    have hw : fs.write self path (.limit l) text = fs.setLimit path node l text := by
      rw [Kernfs.write, hn, Option.bind_some]
    simp only [declare, write, hw]
    cases hset : fs.setLimit path node l text with
    | some fs' =>
      refine ⟨iff_of_true rfl fun t ht => ?_, (still_setLimit hn hset).toSteady, fun q file => ?_⟩
      · obtain rfl := Option.some.inj ht
        exact Bool.and_eq_true_iff.mp (Option.ite_none_right_eq_some.mp hset).1
      · simpa using read_setLimit hn hset q file
    | none =>
      refine ⟨iff_of_false (by simp) fun h => ?_, .refl fs, fun q file => ?_⟩
      · have hboth := Bool.and_eq_true_iff.mpr (h text rfl)
        rw [Kernfs.setLimit, if_pos hboth] at hset
        cases hset
      · simp

/-- The first limit that cannot be set is the end of it; what is not declared is left alone. -/
theorem apply_spec (self : Pid) (hn : (fs.nodes path).isSome = true) (resources : Resources) :
    ((apply self path resources fs).1 = .ok ⟨⟩ ↔
      ∀ l text, declared resources l = some text → fs.limited path l = true ∧ fs.takes l text = true) ∧
      ((apply self path resources fs).1 = .ok ⟨⟩ → ∀ l text, declared resources l = some text →
        (apply self path resources fs).2.read path (.limit l) = some (fs.shown l text)) ∧
      ∀ q file, (q = path → ∀ l, file = .limit l → declared resources l = none) →
        (apply self path resources fs).2.read q file = fs.read q file := by
  rw [apply_eq]
  obtain ⟨hok₁, hs₁, hread₁⟩ := declare_spec self hn .memoryMax (declared resources .memoryMax)
  by_cases h₁ : (declare self path .memoryMax (declared resources .memoryMax) fs).1 = .ok ⟨⟩
  · have hmemory := hok₁.mp h₁
    rw [Result.andThen_of_ok h₁]
    simp only [h₁, and_true] at hread₁
    generalize (declare self path .memoryMax (declared resources .memoryMax) fs).2 = fs₁ at hs₁ hread₁
    obtain ⟨hok₂, -, hread₂⟩ := declare_spec self (hs₁.nodes path hn) .pidsMax (declared resources .pidsMax)
    refine ⟨hok₂.trans ⟨fun h l text hl => ?_, fun h text ht => ?_⟩, fun h₂ l text hl => ?_, fun q file hq => ?_⟩
    · cases l with
      | memoryMax => exact hmemory text hl
      | pidsMax =>
        obtain ⟨hlimited, htakes⟩ := h text hl
        exact ⟨hs₁.limited path _ ▸ hlimited, hs₁.takes _ _ ▸ htakes⟩
    · rw [hs₁.limited, hs₁.takes]
      exact h .pidsMax text ht
    · rw [hread₂]
      cases l with
      | memoryMax => rw [if_neg (by simp), hread₁, if_pos ⟨rfl, rfl⟩, hl, Option.map_some, Option.some_or]
      | pidsMax => rw [if_pos ⟨rfl, rfl, h₂⟩, hl, Option.map_some, Option.some_or, hs₁.shown]
    · rw [hread₂]
      split
      · next h => rw [hq h.1 _ h.2.1, Option.map_none, Option.none_or, hread₁, if_neg fun h' => by cases h.2.1.symm.trans h'.2]
      · rw [hread₁]
        split
        · next h => rw [hq h.1 _ h.2, Option.map_none, Option.none_or]
        · rfl
  · rw [Result.andThen_of_error h₁]
    refine ⟨iff_of_false h₁ fun h => h₁ (hok₁.mpr (h .memoryMax)), fun h => absurd h h₁, fun q file _ => ?_⟩
    rw [hread₁, if_neg fun h => h₁ h.2.2]

/-- The cgroup of a unit is there once it has been added. -/
theorem exists_of_add {unit : Name} {steps : List Step} (h : (fs.nodes (slice root)).isSome = true) (hu : .add unit ∈ steps) :
    ((run root self fs steps).nodes (cgroup root unit)).isSome = true := by
  obtain ⟨before, after, rfl⟩ := List.append_of_mem hu
  rw [run, List.foldl_append, List.foldl_cons]
  apply (steady_run root self _ after).nodes
  have hslice : ((run root self fs before).nodes (cgroup root unit).dropLast).isSome = true := by
    rw [dropLast_cgroup]
    exact (steady_run root self fs before).nodes _ h
  exact (createDir_spec hslice).2

/-- The controllers that limits need are the ones that `prepare` enables. -/
theorem controller_mem (l : Limit) : l.controller ∈ controllers := by cases l <;> decide

/-- Where a limit of a unit can be set. -/
theorem Prepared.limited (h : Prepared root self fs fs') (hv : Valid fs) (hs : Steady fs' fs'') (unit : Name) (l : Limit) :
    fs''.limited (cgroup root unit) l = fs.offers root l.controller := by
  rw [Bool.eq_iff_iff, ← h.delegates hv _ (controller_mem l), Kernfs.limited, Bool.and_eq_true_iff, offers_iff,
    offered_of_ne cgroup_ne_nil, dropLast_cgroup, hs.distributed]
  exact and_iff_right (decide_eq_true cgroup_ne_nil)

/-- A number of tasks is accepted up to the kernel's own limit. -/
theorem takes_toDigits (fs : Kernfs) (n : Nat) :
    fs.takes .pidsMax (Nat.toDigits 10 n) = true ↔ n ≤ fs.pidsLimit.toNat := by
  have hmax : Nat.toDigits 10 n ≠ "max".toList := fun e => by
    have hd := (digits_toDigits n).2.1 'm' (by rw [e]; decide)
    cases hd
  have hlimit := fs.pidsLimit.toNat_lt
  rw [Kernfs.takes, decide_eq_false hmax, Bool.false_or]
  by_cases hn : n < 2 ^ 63
  · rw [fromStr_toDigits hn]
    exact decide_eq_true_iff
  · rw [Text.fromStr_of_digits (digits_toDigits n), if_neg hn]
    exact iff_of_false (by simp) (by omega)

/-- A hierarchy can be prepared where nobody is in the way but oxinit, and it can
leave. After that, whatever happens, a unit is given its limits where there are
the controllers for them; what it does not declare is left alone. -/
theorem units_are_given_their_limits (hi : self < 2 ^ 32) (root : Path) (fs : Kernfs) :
    let r := prepare root self fs
    (r.1 = .ok ⟨⟩ ↔ (fs.nodes root).isSome = true ∧ (wanted fs root ≠ [] → Free root self fs)) ∧
      (r.1 = .ok ⟨⟩ → Valid fs → ∀ steps unit, .add unit ∈ steps → ∀ resources,
        let fs' := run root self r.2 steps
        let set := apply self (cgroup root unit) resources fs'
        (set.1 = .ok ⟨⟩ ↔ (resources.memoryMax ≠ none → fs.offers root "memory".toList = true) ∧
          ∀ n, resources.tasksMax = some n → fs.offers root "pids".toList = true ∧ n ≤ fs.pidsLimit.toNat) ∧
        (set.1 = .ok ⟨⟩ → ∀ l text, declared resources l = some text →
          set.2.read (cgroup root unit) (.limit l) = some (fs.shown l text)) ∧
        ∀ path file, (path = cgroup root unit → ∀ l, file = .limit l → declared resources l = none) →
          set.2.read path file = fs'.read path file) := by
  obtain ⟨hiff, hprepared⟩ := prepare_spec hi root fs
  refine ⟨hiff, fun h hv steps unit hu resources => ?_⟩
  have hp := hprepared h
  have hs := steady_run root self (prepare root self fs).2 steps
  obtain ⟨hok, hread⟩ := apply_spec self (exists_of_add hp.node hu) resources
  rw [hs.shown, hp.shown] at hread
  refine ⟨hok.trans ?_, hread⟩
  have hlimited := hp.limited hv hs unit
  constructor
  · refine fun h => ⟨fun hm => ?_, fun n hn => ?_⟩
    · obtain ⟨memoryMax, hm⟩ := Option.ne_none_iff_exists'.mp hm
      exact hlimited .memoryMax ▸ (h .memoryMax _ (by rw [declared, hm, Option.map_some])).1
    · obtain ⟨hl, ht⟩ := h .pidsMax (Nat.toDigits 10 n) (by rw [declared, hn, Option.map_some])
      rw [hs.takes, takes_toDigits, hp.pidsLimit] at ht
      exact ⟨hlimited .pidsMax ▸ hl, ht⟩
  · rintro ⟨hm, hn⟩ l text hl
    rw [hlimited, hs.takes]
    cases l with
    | memoryMax =>
      refine ⟨hm fun e => ?_, rfl⟩
      rw [declared, e] at hl
      cases hl
    | pidsMax =>
      obtain ⟨n, hsome, rfl⟩ := Option.map_eq_some_iff.mp hl
      rw [takes_toDigits, hp.pidsLimit]
      exact hn n hsome

/-- A machine that has just mounted the hierarchy. -/
def mounted : Kernfs where
  controllers := [⟨"memory".toList, by decide, by simp [Text.isWhitespace]⟩,
    ⟨"pids".toList, by decide, by simp [Text.isWhitespace]⟩]
  pidsLimit := 4194304
  shown _ text := text ++ ['\n']
  nodes path := if path = [] then some {} else none
  procs := [(1, [])]
  nextPid := 2

theorem units_are_given_their_limits_sample :
    (apply 1 (cgroup [] "a") { memoryMax := some .max, tasksMax := some 512 }
      (run [] 1 (prepare [] 1 mounted).2 [.spawn "b" false, .add "a", .exit 2 {}])).1 = .ok ⟨⟩ := by
  have hvalid : Valid mounted := fun path c hc => by
    have hnone : mounted.distributed path = [] := by
      by_cases hp : path = []
      · simp [Kernfs.distributed, mounted, hp]
      · simp [Kernfs.distributed, mounted, hp]
    rw [hnone] at hc
    cases hc
  have h := ((units_are_given_their_limits (show 1 < 2 ^ 32 by decide) [] mounted).2 rfl hvalid
    [.spawn "b" false, .add "a", .exit 2 {}] "a"
    (by simp) { memoryMax := some .max, tasksMax := some 512 }).1
  exact h.mpr ⟨fun _ => by decide, fun n hn => ⟨by decide, by cases hn; decide⟩⟩

end Oxinit.Cgroup
