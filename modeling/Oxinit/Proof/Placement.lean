import Oxinit.Proof.Cgroup

/-!
# Whose process is whose

What the machine's model of the kernel says of a process is the unit in whose
cgroup it is. That stands for where processes are in the hierarchy (`Stands`):
each thing that is done there is one that the model's kernel does, and what
oxinit reads from the files is what the model says.
-/

namespace Oxinit.Cgroup

variable {fs fs' : Kernfs} {k : Kernel} {path root : Path} {self pid : Pid} {unit : Name}

/-- The name of the unit that a cgroup is named for. -/
def serviceOf (name : String) : Option Name :=
  if ".service".toList.isSuffixOf name.toList then some (.ofList (name.toList.take (name.length - 8))) else none

/-- The unit in whose cgroup, or below it, something is. -/
def unitOf (root path : Path) : Option Name :=
  if (slice root).isPrefixOf path then (path.drop (slice root).length).head?.bind serviceOf else none

theorem serviceOf_eq_some_iff {name : String} : serviceOf name = some unit ↔ name = unit ++ ".service" := by
  unfold serviceOf
  rw [Option.ite_none_right_eq_some, List.isSuffixOf_iff_suffix]
  constructor
  · rintro ⟨⟨stem, hstem⟩, he⟩
    obtain rfl := Option.some.inj he
    rw [← String.toList_inj, String.toList_append, String.toList_ofList, ← hstem, ← String.length_toList, ← hstem]
    simp
  · rintro rfl
    refine ⟨⟨unit.toList, by rw [String.toList_append]⟩, congrArg some ?_⟩
    rw [← String.toList_inj, String.toList_ofList, String.toList_append, String.length_append]
    exact List.take_left' (by simp [String.length_toList]; rfl)

/-- The unit of a path is the one whose cgroup it is in. -/
theorem unitOf_eq_some_iff : unitOf root path = some unit ↔ cgroup root unit <+: path := by
  unfold unitOf
  rw [Option.ite_none_right_eq_some, List.isPrefixOf_iff_prefix]
  constructor
  · rintro ⟨⟨rest, rfl⟩, h⟩
    rw [List.drop_left] at h
    obtain ⟨name, hname, hs⟩ := Option.bind_eq_some_iff.mp h
    obtain ⟨more, rfl⟩ := List.head?_eq_some_iff.mp hname
    rw [serviceOf_eq_some_iff.mp hs]
    exact ⟨more, by simp [cgroup]⟩
  · rintro ⟨more, rfl⟩
    refine ⟨⟨(unit ++ ".service") :: more, by simp [cgroup]⟩, ?_⟩
    rw [cgroup, List.append_assoc, List.drop_left]
    exact serviceOf_eq_some_iff.mpr rfl

/-! ## The two views -/

/-- oxinit is in no unit's cgroup, and those distribute nothing. -/
structure Tidy (root : Path) (init : Pid) (fs : Kernfs) : Prop where
  present : fs.procs.any (·.1 = init) = true
  outside : ∀ p ∈ fs.procs, p.1 = init → unitOf root p.2 = none
  fresh : ∀ p ∈ fs.procs, p.1 < fs.nextPid
  leaf : ∀ unit, fs.distributed (cgroup root unit) = []

/-- Who there is, and whose. -/
def seen (root : Path) (init : Pid) (fs : Kernfs) : List (Pid × Option Name) :=
  (fs.procs.filter (·.1 ≠ init)).map fun p => (p.1, unitOf root p.2)

def told (k : Kernel) : List (Pid × Option Name) := k.live.map fun p => (p.pid, p.cgroup)

structure Stands (root : Path) (init : Pid) (fs : Kernfs) (k : Kernel) : Prop where
  procs : told k = seen root init fs
  nextPid : k.nextPid = fs.nextPid
  killed : (k.sent.filter (·.2 = .kill)).map (·.1) = fs.killed

/-- What the model's kernel does where this is done in the hierarchy. -/
def mirror (root : Path) (fs : Kernfs) (k : Kernel) : Step → Kernel
  | .fork parent => k.move (.fork parent)
  | .exit pid status => k.move (.exit pid status)
  | .migrate pid path => if (fs.nodes path).isSome && fs.admits path then k.move (.migrate pid (unitOf root path)) else k
  | .spawn unit placed => if placed && (fs.nodes (cgroup root unit)).isNone then k else k.spawn unit placed
  | .kill unit => if (fs.nodes (cgroup root unit)).isSome then k.signal (k.pids unit) .kill else k
  | .mkdir _ | .limit .. | .add _ | .apply .. => k

theorem Tidy.none_of_mem (h : Tidy root self fs) {p : Pid × Path} (hp : p ∈ fs.procs) (he : cgroup root unit <+: p.2) :
    p.1 ≠ self := fun hs => by
  have hnone := h.outside p hp hs
  rw [unitOf_eq_some_iff.mpr he] at hnone
  cases hnone

theorem pid_ne_of_stands (h : Stands root self fs k) : ∀ p ∈ k.live, p.pid ≠ self := by
  intro p hp he
  have hm : (p.pid, p.cgroup) ∈ seen root self fs := h.procs ▸ List.mem_map_of_mem hp
  obtain ⟨q, hq, e⟩ := List.mem_map.mp hm
  have hne := (List.mem_filter.mp hq).2
  obtain ⟨e, -⟩ := Prod.mk.inj e
  simp [e, he] at hne

theorem below_eq (h : Tidy root self fs) (unit : Name) :
    fs.below (cgroup root unit) = ((seen root self fs).filter (·.2 = some unit)).map (·.1) := by
  rw [Kernfs.below, seen, List.filter_map, List.map_map, List.filter_filter]
  show _ = List.map (fun p : Pid × Path => p.1) _
  refine congrArg _ (List.filter_congr fun p hp => ?_)
  rw [Bool.eq_iff_iff, List.isPrefixOf_iff_prefix]
  show _ ↔ (decide (unitOf root p.2 = some unit) && decide (p.1 ≠ self)) = true
  rw [Bool.and_eq_true_iff, decide_eq_true_eq, decide_eq_true_eq, unitOf_eq_some_iff]
  exact ⟨fun he => ⟨he, h.none_of_mem hp he⟩, fun he => he.1⟩

/-- Whom the kernel knows in a unit's cgroup. -/
theorem pids_eq (k : Kernel) (unit : Name) : k.pids unit = ((told k).filter (·.2 = some unit)).map (·.1) := by
  rw [Kernel.pids, told, List.filter_map, List.map_map]
  rfl

theorem Stands.pids (h : Stands root self fs k) (ht : Tidy root self fs) (unit : Name) :
    k.pids unit = fs.below (cgroup root unit) := by
  rw [pids_eq, below_eq ht, h.procs]

/-! ## What each does -/

/-- A process is known where its cgroup says. -/
theorem find_told (h : Stands root self fs k) (hne : pid ≠ self) :
    (k.live.find? (·.pid = pid)).map (fun p => (p.pid, p.cgroup)) =
      (fs.procs.find? (·.1 = pid)).map fun p => (p.1, unitOf root p.2) := by
  have hseen : (seen root self fs).find? (·.1 = pid) = (fs.procs.find? (·.1 = pid)).map fun p => (p.1, unitOf root p.2) := by
    rw [seen, List.find?_map, List.find?_filter]
    refine congrArg _ (congrArg (fs.procs.find? ·) (funext fun p => ?_))
    rw [Bool.eq_iff_iff, decide_eq_true_eq, decide_eq_true_eq, decide_eq_true_eq]
    refine ⟨fun h => of_decide_eq_true h.2, fun he => ⟨he ▸ hne, decide_eq_true he⟩⟩
  rw [← hseen, ← h.procs, told, List.find?_map]
  rfl

theorem Tidy.nextPid_ne (h : Tidy root self fs) : fs.nextPid ≠ self := by
  obtain ⟨q, hq, he⟩ := List.any_eq_true.mp h.present
  have hlt : self < fs.nextPid := of_decide_eq_true he ▸ h.fresh q hq
  exact hlt.ne'

theorem seen_fork (h : Tidy root self fs) {p : Pid × Path} (hp : fs.procs.find? (·.1 = pid) = some p) :
    seen root self (fs.fork pid) = (fs.nextPid, unitOf root p.2) :: seen root self fs := by
  rw [seen, Kernfs.fork, hp]
  show List.map _ (List.filter _ ((fs.nextPid, p.2) :: fs.procs)) = _
  rw [List.filter_cons_of_pos (by simpa using h.nextPid_ne)]
  rfl

/-- What moves nobody keeps it. -/
theorem Tidy.still (h : Tidy root self fs) (hs : Still fs fs') : Tidy root self fs' := by
  refine ⟨hs.procs ▸ h.present, hs.procs ▸ h.outside, ?_, fun unit => (hs.distributed _).trans (h.leaf unit)⟩
  rw [hs.procs, hs.nextPid]
  exact h.fresh

/-- The kernel need not move then. -/
theorem Stands.still (h : Stands root self fs k) (hs : Still fs fs') : Stands root self fs' k :=
  ⟨by rw [h.procs, seen, seen, hs.procs], h.nextPid.trans hs.nextPid.symm, h.killed.trans hs.killed.symm⟩

theorem tidy_fork (h : Tidy root self fs) (parent : Pid) : Tidy root self (fs.fork parent) := by
  have hself : fs.nextPid ≠ self := h.nextPid_ne
  unfold Kernfs.fork
  split
  · exact h
  · next p hfind =>
    refine ⟨?_, fun q hq he => ?_, fun q hq => ?_, h.leaf⟩
    · exact List.any_eq_true.mpr ((List.any_eq_true.mp h.present).imp fun _ h => ⟨List.mem_cons_of_mem _ h.1, h.2⟩)
    · rcases List.mem_cons.mp hq with rfl | hq
      · exact absurd he hself
      · exact h.outside q hq he
    · rcases List.mem_cons.mp hq with rfl | hq
      · exact Nat.lt_succ_self _
      · exact Nat.lt_succ_of_lt (h.fresh q hq)

theorem tidy_exit (h : Tidy root self fs) (hne : pid ≠ self) : Tidy root self (fs.exit pid) := by
  have hsub : ∀ p ∈ (fs.exit pid).procs, p ∈ fs.procs := fun p hp => List.mem_of_mem_filter hp
  refine ⟨?_, fun p hp => h.outside p (hsub p hp), fun p hp => h.fresh p (hsub p hp), h.leaf⟩
  obtain ⟨q, hq, he⟩ := List.any_eq_true.mp h.present
  refine List.any_eq_true.mpr ⟨q, List.mem_filter.mpr ⟨hq, ?_⟩, he⟩
  have he : q.1 = self := of_decide_eq_true he
  exact decide_eq_true (he ▸ hne.symm)

theorem tidy_enter (h : Tidy root self fs) (hne : pid ≠ self) (he : fs.enter pid path = some fs') :
    Tidy root self fs' := by
  obtain ⟨-, he⟩ := Option.ite_none_right_eq_some.mp he
  obtain rfl := Option.some.inj he
  refine ⟨?_, fun p hp hs => ?_, fun p hp => ?_, h.leaf⟩
  · obtain ⟨q, hq, hq'⟩ := List.any_eq_true.mp h.present
    have hself : q.1 = self := of_decide_eq_true hq'
    exact List.any_eq_true.mpr ⟨q, List.mem_map.mpr ⟨q, hq, if_neg fun e => hne (e.symm.trans hself)⟩, hq'⟩
  · obtain ⟨q, hq, rfl⟩ := List.mem_map.mp hp
    by_cases hqp : q.1 = pid
    · rw [if_pos hqp] at hs
      exact absurd hs hne
    · rw [if_neg hqp] at hs ⊢
      exact h.outside q hq hs
  · obtain ⟨q, hq, rfl⟩ := List.mem_map.mp hp
    split
    · next hqp => exact hqp ▸ h.fresh q hq
    · exact h.fresh q hq

theorem seen_moved (hne : pid ≠ self) (procs : List (Pid × Path)) :
    seen root self { fs with procs := moved pid path procs } =
      (seen root self { fs with procs }).map fun p => if p.1 = pid then (p.1, unitOf root path) else p := by
  induction procs with
  | nil => rfl
  | cons p procs ih =>
    simp only [seen, moved] at ih
    by_cases hs : p.1 = self
    · have hp : p.1 ≠ pid := fun e => hne (e.symm.trans hs)
      simp only [seen, moved, List.map_cons, if_neg hp]
      rw [List.filter_cons_of_neg (by simpa using hs), List.filter_cons_of_neg (by simpa using hs)]
      exact ih
    · by_cases hp : p.1 = pid
      · simp only [seen, moved, List.map_cons, if_pos hp]
        rw [List.filter_cons_of_pos (by simpa using hne), List.filter_cons_of_pos (by simpa using hs), List.map_cons,
          List.map_cons, List.map_cons, if_pos hp, ih, hp]
      · simp only [seen, moved, List.map_cons, if_neg hp]
        rw [List.filter_cons_of_pos (by simpa using hs), List.filter_cons_of_pos (by simpa using hs), List.map_cons,
          List.map_cons, List.map_cons, if_neg hp, ih]

/-! ## Step for step -/

/-- What is noticed of a move is not looked at here. -/
theorem Stands.move {mv : Move} (h : Stands root self fs (k.next mv)) : Stands root self fs (k.move mv) :=
  ⟨h.procs, h.nextPid, h.killed⟩

theorem find_self (h : Stands root self fs k) : k.live.find? (·.pid = self) = none :=
  List.find?_eq_none.mpr fun p hp he => pid_ne_of_stands h p hp (of_decide_eq_true he)

theorem Stands.fork (h : Stands root self fs k) (ht : Tidy root self fs) (parent : Pid) :
    Stands root self (if parent = self then fs else fs.fork parent) (k.move (.fork parent)) := by
  apply Stands.move
  by_cases hself : parent = self
  · rw [if_pos hself, hself, Kernel.next, find_self h]
    exact h
  · rw [if_neg hself]
    have hfind := find_told h hself
    cases hp : fs.procs.find? (·.1 = parent) with
    | none =>
      rw [hp, Option.map_none, Option.map_eq_none_iff] at hfind
      rw [Kernel.next, hfind, Kernfs.fork, hp]
      exact h
    | some p =>
      rw [hp, Option.map_some, Option.map_eq_some_iff] at hfind
      obtain ⟨q, hq, he⟩ := hfind
      obtain ⟨-, hunit⟩ := Prod.mk.inj he
      refine ⟨?_, ?_, ?_⟩
      · rw [seen_fork ht hp, ← h.procs, Kernel.next, hq]
        show (k.nextPid, q.cgroup) :: told k = _
        rw [h.nextPid, hunit]
      · rw [Kernel.next, hq, Kernfs.fork, hp]
        exact congrArg (· + 1) h.nextPid
      · rw [Kernel.next, hq, Kernfs.fork, hp]
        exact h.killed

theorem next_exit (k : Kernel) (pid : Pid) (status : WaitStatus) :
    (k.next (.exit pid status)).live = k.live.filter (·.pid ≠ pid) ∧
      (k.next (.exit pid status)).nextPid = k.nextPid ∧ (k.next (.exit pid status)).sent = k.sent := by
  rw [Kernel.next]
  split
  · exact ⟨rfl, rfl, rfl⟩
  · next hdead =>
    refine ⟨(List.filter_eq_self.mpr fun p hp => ?_).symm, rfl, rfl⟩
    refine decide_eq_true fun e => hdead ?_
    exact List.any_eq_true.mpr ⟨p, hp, decide_eq_true e⟩

theorem told_filter (k : Kernel) (pid : Pid) :
    (k.live.filter (·.pid ≠ pid)).map (fun p => (p.pid, p.cgroup)) = (told k).filter (·.1 ≠ pid) := by
  rw [told, List.filter_map]
  rfl

theorem Stands.exit (h : Stands root self fs k) (pid : Pid) (status : WaitStatus) :
    Stands root self (if pid = self then fs else fs.exit pid) (k.move (.exit pid status)) := by
  apply Stands.move
  obtain ⟨hlive, hnext, hsent⟩ := next_exit k pid status
  have htold : told (k.next (.exit pid status)) = (seen root self fs).filter (·.1 ≠ pid) := by
    rw [told, hlive, told_filter, h.procs]
  have hseen : seen root self (if pid = self then fs else fs.exit pid) = (seen root self fs).filter (·.1 ≠ pid) := by
    split
    · next he =>
      refine (List.filter_eq_self.mpr fun p hp => ?_).symm
      obtain ⟨q, hq, rfl⟩ := List.mem_map.mp hp
      exact he ▸ (List.mem_filter.mp hq).2
    · rw [seen, seen, Kernfs.exit, List.filter_map, List.filter_filter, List.filter_filter]
      exact congrArg _ (List.filter_congr fun p _ => Bool.and_comm ..)
  refine ⟨htold.trans hseen.symm, ?_, ?_⟩
  · rw [hnext, h.nextPid]
    split
    · rfl
    · rfl
  · rw [hsent, h.killed]
    split
    · rfl
    · rfl

theorem write_zero (fs : Kernfs) (pid : Pid) (path : Path) :
    fs.write pid path .procs ['0'] = if (fs.nodes path).isSome then fs.enter pid path else none := by
  rw [Kernfs.write]
  cases fs.nodes path with
  | none => rfl
  | some node => rfl

theorem write_zero_getD (fs : Kernfs) (pid : Pid) (path : Path) : (fs.write pid path .procs ['0']).getD fs =
    if (fs.nodes path).isSome && fs.admits path then { fs with procs := moved pid path fs.procs } else fs := by
  rw [write_zero, Kernfs.enter]
  cases (fs.nodes path).isSome with
  | false => rfl
  | true =>
    cases fs.admits path with
    | false => rfl
    | true =>
      cases hany : fs.procs.any (·.1 = pid) with
      | true => rfl
      | false => simp [moved_of_absent hany]

/-- A process that moves is told to. -/
theorem told_migrate (k : Kernel) (pid : Pid) (unit : Option Name) : told (k.next (.migrate pid unit)) =
    (told k).map fun p => if p.1 = pid then (p.1, unit) else p := by
  rw [told, told, Kernel.next, List.map_map, List.map_map]
  refine List.map_congr_left fun p _ => ?_
  by_cases he : p.pid = pid
  · simp [he]
  · simp [he]

theorem Stands.migrate (h : Stands root self fs k) (pid : Pid) (path : Path) :
    Stands root self (if pid = self then fs else (fs.write pid path .procs ['0']).getD fs)
      (if (fs.nodes path).isSome && fs.admits path then k.move (.migrate pid (unitOf root path)) else k) := by
  rw [write_zero_getD]
  by_cases hcan : ((fs.nodes path).isSome && fs.admits path) = true
  · rw [if_pos hcan, if_pos hcan]
    refine Stands.move ⟨?_, ?_, ?_⟩
    · rw [told_migrate, h.procs]
      by_cases hself : pid = self
      · -- no process but oxinit itself is left where it is
        rw [if_pos hself]
        refine (List.map_congr_left fun p hp => if_neg fun e => ?_).trans (List.map_id _)
        obtain ⟨q, hq, rfl⟩ := List.mem_map.mp hp
        exact of_decide_eq_true (List.mem_filter.mp hq).2 (e.trans hself)
      · rw [if_neg hself]
        exact (seen_moved hself fs.procs).symm
    · exact h.nextPid.trans (by split <;> rfl)
    · exact h.killed.trans (by split <;> rfl)
  · rw [if_neg hcan, if_neg hcan, ite_self]
    exact h

theorem find_init (ht : Tidy root self fs) : ∃ p, fs.procs.find? (·.1 = self) = some p ∧ unitOf root p.2 = none := by
  obtain ⟨p, hp⟩ := Option.isSome_iff_exists.mp (List.find?_isSome.mpr (List.any_eq_true.mp ht.present))
  have hself : p.1 = self := of_decide_eq_true (List.find?_some hp :)
  exact ⟨p, hp, ht.outside p (List.mem_of_find?_eq_some hp) hself⟩

/-- The child that is to be in its unit's cgroup is. -/
theorem spawn_placed (ht : Tidy root self fs) (hn : (fs.nodes (cgroup root unit)).isSome = true) :
    spawn self (cgroup root unit) true fs =
      { fs.fork self with procs := moved fs.nextPid (cgroup root unit) (fs.fork self).procs } := by
  have hadmits : (fs.fork self).admits (cgroup root unit) = true := by
    rw [admits_iff ((steady_fork fs self).nodes _ hn) cgroup_ne_nil]
    exact (tidy_fork ht self).leaf unit
  obtain ⟨p, hp, -⟩ := find_init ht
  have hany : (fs.fork self).procs.any (·.1 = fs.nextPid) = true := by
    rw [Kernfs.fork, hp]
    exact List.any_eq_true.mpr ⟨_, List.mem_cons_self, decide_eq_true rfl⟩
  have henter : (fs.fork self).enter fs.nextPid (cgroup root unit) =
      some { fs.fork self with procs := moved fs.nextPid (cgroup root unit) (fs.fork self).procs } :=
    if_pos (Bool.and_eq_true_iff.mpr ⟨hadmits, hany⟩)
  have hsome := Option.isSome_iff_ne_none.mp hn
  rw [spawn, write_zero, if_pos ((steady_fork fs self).nodes _ hn), henter]
  simp [hsome]

theorem Stands.spawn (h : Stands root self fs k) (ht : Tidy root self fs) (unit : Name) (placed : Bool) :
    Stands root self (spawn self (cgroup root unit) placed fs)
      (if placed && (fs.nodes (cgroup root unit)).isNone then k else k.spawn unit placed) := by
  obtain ⟨p, hp, hnone⟩ := find_init ht
  have hfork : seen root self (fs.fork self) = (k.nextPid, none) :: told k := by
    rw [seen_fork ht hp, hnone, h.procs, h.nextPid]
  have hnext : (fs.fork self).nextPid = k.nextPid + 1 := by
    rw [Kernfs.fork, hp, h.nextPid]
  have hkilled : (fs.fork self).killed = fs.killed := by
    rw [Kernfs.fork, hp]
  cases placed with
  | false => exact ⟨hfork.symm, hnext.symm, h.killed.trans hkilled.symm⟩
  | true =>
    cases hn : (fs.nodes (cgroup root unit)).isSome with
    | false =>
      have hnode : fs.nodes (cgroup root unit) = none := by simpa using hn
      simp only [Cgroup.spawn, hnode]
      exact h
    | true =>
      have hsome := Option.isSome_iff_ne_none.mp hn
      rw [spawn_placed ht hn, if_neg (by simpa using hsome)]
      refine ⟨?_, hnext.symm, h.killed.trans hkilled.symm⟩
      rw [seen_moved ht.nextPid_ne]
      show (k.nextPid, some unit) :: told k = List.map _ (seen root self (fs.fork self))
      rw [hfork, List.map_cons, if_pos h.nextPid, unitOf_eq_some_iff.mpr List.prefix_rfl, h.procs]
      refine congrArg _ ((List.map_congr_left fun q hq => if_neg fun e => ?_).trans (List.map_id _)).symm
      obtain ⟨r, hr, rfl⟩ := List.mem_map.mp hq
      exact (ht.fresh r (List.mem_of_mem_filter hr)).ne e

theorem Stands.kill (h : Stands root self fs k) (ht : Tidy root self fs) (unit : Name) :
    Stands root self (Cgroup.kill self (cgroup root unit) fs).2
      (if (fs.nodes (cgroup root unit)).isSome then k.signal (k.pids unit) .kill else k) := by
  have hwrite : fs.write self (cgroup root unit) .kill ['1'] = if (fs.nodes (cgroup root unit)).isSome then
      some { fs with killed := fs.killed ++ fs.below (cgroup root unit) } else none := by
    rw [Kernfs.write]
    cases fs.nodes (cgroup root unit) with
    | none => rfl
    | some node => exact if_pos ⟨cgroup_ne_nil, rfl⟩
  rw [Cgroup.kill, write, hwrite]
  cases (fs.nodes (cgroup root unit)).isSome with
  | false => exact h
  | true =>
    refine ⟨h.procs, h.nextPid, ?_⟩
    have hall : (k.pids unit).map (fun pid => (pid, Signal.kill)) =
        ((k.pids unit).map fun pid => (pid, Signal.kill)).filter (·.2 = .kill) :=
      (List.filter_eq_self.mpr fun p hp => by
        obtain ⟨pid, -, rfl⟩ := List.mem_map.mp hp
        exact decide_eq_true rfl).symm
    show ((k.sent ++ (k.pids unit).map fun pid => (pid, Signal.kill)).filter (·.2 = .kill)).map (·.1) =
      fs.killed ++ fs.below (cgroup root unit)
    rw [List.filter_append, ← hall, List.map_append, h.killed, List.map_map, h.pids ht]
    exact congrArg _ (List.map_id _)

/-- Every step keeps it tidy. -/
theorem tidy_step (ht : Tidy root self fs) (e : Step) : Tidy root self (step root self fs e) := by
  cases e with
  | fork parent =>
    rw [step]
    split
    · exact ht
    · exact tidy_fork ht parent
  | exit pid =>
    rw [step]
    split
    · exact ht
    · next hne => exact tidy_exit ht hne
  | migrate pid path =>
    rw [step]
    split
    · exact ht
    · next hne =>
      refine getD_of (R := fun _ fs' => Tidy root self fs') ht fun fs' h => ?_
      rw [write_zero] at h
      exact tidy_enter ht hne (Option.ite_none_right_eq_some.mp h).2
  | mkdir path => exact ht.still (getD_of (.refl fs) fun _ h => still_mkdir h)
  | limit path l text => exact ht.still (getD_of (.refl fs) fun _ h => still_limit h)
  | add unit => exact ht.still (still_createDir ..)
  | apply unit resources => exact ht.still (still_apply ..)
  | spawn unit placed =>
    have hfork := tidy_fork ht self
    rw [step, spawn]
    split
    · exact hfork
    · split
      · exact ht
      · refine getD_of (R := fun _ fs' => Tidy root self fs') (tidy_exit hfork ht.nextPid_ne) fun fs' h => ?_
        rw [write_zero] at h
        exact tidy_enter hfork ht.nextPid_ne (Option.ite_none_right_eq_some.mp h).2
  | kill unit =>
    rw [step, Cgroup.kill, write]
    split
    · next h =>
      obtain ⟨node, -, h⟩ := Option.bind_eq_some_iff.mp h
      obtain ⟨-, h⟩ := Option.ite_none_right_eq_some.mp h
      obtain rfl := Option.some.inj h
      exact ⟨ht.present, ht.outside, ht.fresh, ht.leaf⟩
    · exact ht

theorem Stands.step (h : Stands root self fs k) (ht : Tidy root self fs) (e : Step) :
    Stands root self (step root self fs e) (mirror root fs k e) := by
  cases e with
  | fork parent => exact h.fork ht parent
  | exit pid status => exact h.exit pid status
  | migrate pid path => exact h.migrate pid path
  | mkdir path => exact h.still (getD_of (.refl fs) fun _ h => still_mkdir h)
  | limit path l text => exact h.still (getD_of (.refl fs) fun _ h => still_limit h)
  | add unit => exact h.still (still_createDir ..)
  | apply unit resources => exact h.still (still_apply ..)
  | spawn unit placed => exact h.spawn ht unit placed
  | kill unit => exact h.kill ht unit

/-! ## What oxinit reads -/

/-- `populated` answers what the kernel says. -/
theorem populated_eq (h : Stands root self fs k) (ht : Tidy root self fs)
    (hn : (fs.nodes (cgroup root unit)).isSome = true) :
    populated (cgroup root unit) fs = .ok (k.populated unit) := by
  obtain ⟨node, hn⟩ := Option.isSome_iff_exists.mp hn
  have hpopulated : k.populated unit = !(fs.below (cgroup root unit)).isEmpty := by
    rw [← h.pids ht, Kernel.pids, List.isEmpty_map, Kernel.populated, Bool.eq_iff_iff, Bool.not_eq_true']
    simp [List.isEmpty_eq_false_iff, List.filter_eq_nil_iff]
  have hread : fs.read (cgroup root unit) .events = some ("populated ".toList ++
      (if (fs.below (cgroup root unit)).isEmpty then '0' else '1') :: "\nfrozen 0\n".toList) := by
    rw [Kernfs.read, hn]
    exact if_neg cgroup_ne_nil
  rw [populated, hread, hpopulated]
  cases (fs.below (cgroup root unit)).isEmpty with
  | true => rfl
  | false => rfl

theorem plain_toDigits (n : Nat) :
    Text.Plain (Nat.toDigits 10 n) := fun c hc => (of_isDigit ((digits_toDigits n).2.1 c hc)).2

/-- The pids of a cgroup are read back. -/
theorem pids_read (h : Stands root self fs k) (ht : Tidy root self fs) (hn : (fs.nodes (cgroup root unit)).isSome = true)
    (hbelow : ∀ p ∈ fs.procs, cgroup root unit <+: p.2 → p.2 = cgroup root unit) (hpids : fs.nextPid ≤ 2 ^ 32) :
    pids (cgroup root unit) fs = .ok (k.pids unit) := by
  obtain ⟨node, hn⟩ := Option.isSome_iff_exists.mp hn
  have hinside : fs.inside (cgroup root unit) = k.pids unit := by
    rw [h.pids ht, Kernfs.inside, Kernfs.below]
    refine congrArg _ (List.filter_congr fun p hp => ?_)
    rw [Bool.eq_iff_iff, decide_eq_true_eq, List.isPrefixOf_iff_prefix]
    exact ⟨fun e => e ▸ List.prefix_rfl, hbelow p hp⟩
  have hread : fs.read (cgroup root unit) .procs =
      some (((k.pids unit).map (Nat.toDigits 10)).flatMap (· ++ ['\n'])) := by
    rw [Kernfs.read, hn, List.flatMap_map, ← hinside]
    rfl
  have hlines : ∀ line ∈ (k.pids unit).map (Nat.toDigits 10), '\n' ∉ line ∧ '\r' ∉ line := by
    intro line hl
    obtain ⟨pid, -, rfl⟩ := List.mem_map.mp hl
    exact ⟨(plain_toDigits pid).notMem (by decide), (plain_toDigits pid).notMem (by decide)⟩
  rw [pids, hread]
  show Except.ok _ = _
  rw [Text.lines_flatMap hlines, List.filterMap_map]
  refine congrArg _ ((List.filterMap_congr fun pid hp => ?_).trans List.filterMap_some)
  show Text.fromStr 32 (Text.trim (Nat.toDigits 10 pid)) = some pid
  rw [Text.trim_eq_self (plain_toDigits pid), fromStr_toDigits]
  rw [h.pids ht] at hp
  obtain ⟨p, hmem, rfl⟩ := List.mem_map.mp hp
  exact (ht.fresh p (List.mem_of_mem_filter hmem)).trans_le hpids

/-! ## Runs -/

theorem Tidy.prepared (ht : Tidy root self fs) (h : Prepared root self fs fs') : Tidy root self fs' := by
  have hscope : unitOf root (initScope root) = none := by
    refine Option.eq_none_iff_forall_ne_some.mpr fun unit hu => ?_
    have hle := (unitOf_eq_some_iff.mp hu).length_le
    simp only [cgroup, slice, initScope, List.length_append, List.length_singleton] at hle
    omega
  have hleaf : ∀ unit, fs'.distributed (cgroup root unit) = [] := fun unit => by
    rw [h.other _ (by simp [cgroup, slice]) (by simp [cgroup, slice])]
    exact ht.leaf unit
  by_cases hclear : fs.distributed (initScope root) = []
  · have hprocs := h.procs.trans (if_pos hclear)
    refine ⟨?_, fun p hp hs => ?_, fun p hp => ?_, hleaf⟩
    · rw [hprocs]
      obtain ⟨q, hq, he⟩ := List.any_eq_true.mp ht.present
      refine List.any_eq_true.mpr ⟨_, List.mem_map_of_mem hq, ?_⟩
      rw [if_pos (of_decide_eq_true he)]
      exact decide_eq_true rfl
    · rw [hprocs] at hp
      obtain ⟨q, hq, rfl⟩ := List.mem_map.mp hp
      by_cases he : q.1 = self
      · rw [if_pos he]
        exact hscope
      · rw [if_neg he] at hs
        exact absurd hs he
    · rw [hprocs] at hp
      obtain ⟨q, hq, rfl⟩ := List.mem_map.mp hp
      rw [h.nextPid]
      split
      · next he => exact he ▸ ht.fresh q hq
      · exact ht.fresh q hq
  · have hprocs := h.procs.trans (if_neg hclear)
    exact ⟨hprocs ▸ ht.present, hprocs ▸ ht.outside, by rw [hprocs, h.nextPid]; exact ht.fresh, hleaf⟩

/-- The model's kernel, of a hierarchy. -/
def standIn (root : Path) (self : Pid) (fs : Kernfs) : Kernel where
  live := (seen root self fs).map fun p => { pid := p.1, cgroup := p.2, main := none }
  nextPid := fs.nextPid
  sent := fs.killed.map (·, .kill)

theorem standIn_stands (root : Path) (self : Pid) (fs : Kernfs) : Stands root self fs (standIn root self fs) := by
  refine ⟨?_, rfl, ?_⟩
  · rw [told, standIn, List.map_map]
    exact List.map_id _
  · have hall : (fs.killed.map fun pid => (pid, Signal.kill)).filter (·.2 = .kill) =
        fs.killed.map fun pid => (pid, Signal.kill) := List.filter_eq_self.mpr fun p hp => by
      obtain ⟨pid, -, rfl⟩ := List.mem_map.mp hp
      exact decide_eq_true rfl
    rw [standIn, hall, List.map_map]
    exact List.map_id _

/-- A step, in both views. -/
def both (root : Path) (self : Pid) (s : Kernfs × Kernel) (e : Step) : Kernfs × Kernel :=
  (step root self s.1 e, mirror root s.1 s.2 e)

theorem both_run (root : Path) (self : Pid) (s : Kernfs × Kernel) (steps : List Step) :
    (steps.foldl (both root self) s).1 = run root self s.1 steps := by
  induction steps generalizing s with
  | nil => rfl
  | cons e steps ih => exact ih (both root self s e)

/-- Where a hierarchy has been prepared, the machine's kernel stands for it,
whatever happens: each thing that is done there is what the kernel does, and
what oxinit reads there of a unit is what the kernel says, as long as its
processes make no cgroups of their own. -/
theorem the_kernel_stands_for_the_cgroups (hi : self < 2 ^ 32) (ht : Tidy root self fs)
    (h : (prepare root self fs).1 = .ok ⟨⟩) (steps : List Step) :
    let fs₁ := (prepare root self fs).2
    let s := steps.foldl (both root self) (fs₁, standIn root self fs₁)
    s.1 = run root self fs₁ steps ∧ Stands root self s.1 s.2 ∧ ∀ unit, .add unit ∈ steps →
      populated (cgroup root unit) s.1 = .ok (s.2.populated unit) ∧
      ((∀ p ∈ s.1.procs, cgroup root unit <+: p.2 → p.2 = cgroup root unit) → s.1.nextPid ≤ 2 ^ 32 →
        pids (cgroup root unit) s.1 = .ok (s.2.pids unit)) := by
  intro fs₁ s
  have hp := (prepare_spec hi root fs).2 h
  have hrun : s.1 = run root self fs₁ steps := both_run root self _ steps
  obtain ⟨hs, ht'⟩ : Stands root self s.1 s.2 ∧ Tidy root self s.1 :=
    List.foldlRecOn (motive := fun (s : Kernfs × Kernel) => Stands root self s.1 s.2 ∧ Tidy root self s.1) steps _
      ⟨standIn_stands root self fs₁, ht.prepared hp⟩ fun _ h e _ => ⟨h.1.step h.2 e, tidy_step h.2 e⟩
  refine ⟨hrun, hs, fun unit hu => ?_⟩
  have hn : (s.1.nodes (cgroup root unit)).isSome = true := by
    rw [hrun]
    exact exists_of_add hp.node hu
  exact ⟨populated_eq hs ht' hn, pids_read hs ht' hn⟩

theorem the_kernel_stands_for_the_cgroups_sample :
    let fs₁ := (prepare [] 1 mounted).2
    let s := [Step.add "a", .spawn "a" true, .fork 2].foldl (both [] 1) (fs₁, standIn [] 1 fs₁)
    s.1 = run [] 1 fs₁ [.add "a", .spawn "a" true, .fork 2] ∧ Stands [] 1 s.1 s.2 ∧
      ∀ unit, .add unit ∈ [Step.add "a", .spawn "a" true, .fork 2] →
      populated (cgroup [] unit) s.1 = .ok (s.2.populated unit) ∧
      ((∀ p ∈ s.1.procs, cgroup [] unit <+: p.2 → p.2 = cgroup [] unit) → s.1.nextPid ≤ 2 ^ 32 →
        pids (cgroup [] unit) s.1 = .ok (s.2.pids unit)) :=
  the_kernel_stands_for_the_cgroups (by decide) ⟨rfl, by decide, by decide,
    fun unit => by simp [Kernfs.distributed, mounted, cgroup]⟩
    rfl [.add "a", .spawn "a" true, .fork 2]

end Oxinit.Cgroup
