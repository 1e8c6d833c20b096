import Oxinit.Proof.Reachable

/-!
# Ends

A service ends by the exit of its main process, which `on_sigchld` reaps, or
by the emptying of its cgroup, which `on_cgroup` reads. `Hears` is what makes
up for each handler's trust in the other: a process that is tracked is alive
or not yet reaped, and the cgroup of a service that is up without one is
populated or has a notification pending. Every operation keeps that; only the
two handlers suspend it, for the unit they are at.
-/

namespace Oxinit

/-- A service that is up, or on the way up or down, with no process tracked. -/
def Instance.Untracked (i : Instance) : Prop := i.unit.service ≠ none ∧ i.state.down = false ∧ i.child = none

/-- Every end will be heard, but that of `x`; `R` is what has been reaped and
is not handled yet. -/
structure Hears (R : List Pid) (x : Option Name) (s : Supervisor) : Prop where
  waiting : ∀ (u : Name) (i : Instance), x ≠ some u → s.instances[u]? = some i → i.Untracked →
    i.state ≠ .activating ∧ u ∈ s.cgroups.handles ∧ s.kernel.Noticed u
  tracked : ∀ (u : Name) (i : Instance) p, x ≠ some u → s.instances[u]? = some i → i.child = some p →
    s.kernel.Known p ∨ p ∈ R
  fresh : ∀ (u : Name) (i : Instance) p, s.instances[u]? = some i → i.child = some p → p < s.kernel.nextPid
  alone : ∀ (u v : Name) (i j : Instance) p, s.instances[u]? = some i → s.instances[v]? = some j →
    i.child = some p → j.child = some p → u = v

/-- What may become of an instance without its end going unheard. -/
structure Tame (i i' : Instance) : Prop where
  child : i'.child = i.child ∨ i'.child = none
  untracked : i'.Untracked → i.Untracked ∧ (i'.state = .activating → i.state = .activating)

/-- A unit that comes down with no new process is tame. -/
theorem Tame.of_down {i i' : Instance} (hc : i'.child = i.child ∨ i'.child = none) (h : i'.state.down = true) :
    Tame i i' :=
  ⟨hc, fun hu => absurd h (by simp [hu.2.1])⟩

/-- A unit that is known to be up, or that is no service. -/
theorem Tame.of_active {i : Instance} {since ping : Nat}
    (h : i.unit.service = none ∨ i.state.down = false ∨ i.child ≠ none) : Tame i (i.enteredActive since ping) := by
  refine ⟨.inl rfl, fun hu => ⟨⟨hu.1, ?_, hu.2.2⟩, fun hs => by cases hs⟩⟩
  exact (h.resolve_left hu.1).resolve_right (not_not.mpr hu.2.2)

namespace Hears

open Supervisor (turn_toManager applyResources outputFor fork pumpTurn pumpLoop readPopulated addCgroup)

variable {R : List Pid} {x : Option Name} {s s' : Supervisor} {name : Name} {f : Instance → Instance}

theorem frame (h : Hears R x s) (hi : s'.instances = s.instances) (hc : s'.cgroups = s.cgroups)
    (hk : s.kernel.Drifts s'.kernel) : Hears R x s' := by
  refine ⟨fun u i hx hu hn => ?_, fun u i p hx hu hp => ?_, fun u i p hu hp => ?_, fun u v i j p hu hv => ?_⟩
  · obtain ⟨hs, hm, hn⟩ := h.waiting u i hx (hi ▸ hu) hn
    exact ⟨hs, hc ▸ hm, hk.noticed hn⟩
  · exact (h.tracked u i p hx (hi ▸ hu) hp).imp_left hk.known
  · exact (h.fresh u i p (hi ▸ hu) hp).trans_le hk.nextPid
  · exact h.alone u v i j p (hi ▸ hu) (hi ▸ hv)

theorem update {g : Manager → Manager} (h : Hears R x s) (hi : (g s.toManager).instances = s.instances)
    (hc : (g s.toManager).cgroups = s.cgroups) : Hears R x (s.update g) :=
  h.frame hi hc (.refl _)

theorem still (h : Hears R x s) (hs : Still none s s') (hm : s'.toManager = s.toManager) : Hears R x s' :=
  h.frame (congrArg (·.instances) hm) (congrArg (·.cgroups) hm) hs.kernel

theorem turn (w : World) (h : Hears R x s) : Hears R x (s.turn w) := h.still (.turn none w s) (by simp)

/-- Nobody's end is left out, once that of `x` is known to be heard. -/
theorem settle (h : Hears R (some name) s)
    (hw : ∀ i, s.instances[name]? = some i → i.Untracked →
      i.state ≠ .activating ∧ name ∈ s.cgroups.handles ∧ s.kernel.Noticed name)
    (ht : ∀ i p, s.instances[name]? = some i → i.child = some p → s.kernel.Known p ∨ p ∈ R) : Hears R none s := by
  refine ⟨fun u i _ hu hn => ?_, fun u i p _ hu hp => ?_, h.fresh, h.alone⟩
  · by_cases e : name = u
    · exact e ▸ hw i (e ▸ hu) hn
    · exact h.waiting u i (by simpa using e) hu hn
  · by_cases e : name = u
    · exact ht i p (e ▸ hu) hp
    · exact h.tracked u i p (by simpa using e) hu hp

/-- A unit's instance changes, and it tracks no other process than before. -/
theorem modify (h : Hears R x s) (hc : ∀ i, s.instances[name]? = some i → (f i).child = i.child ∨ (f i).child = none)
    (hf : ∀ i, x ≠ some name → s.instances[name]? = some i → (f i).Untracked →
      i.Untracked ∧ ((f i).state = .activating → i.state = .activating)) : Hears R x (s.modify name f) := by
  have hget : ∀ (u : Name) (i' : Instance), (s.modify name f).instances[u]? = some i' →
      s.instances[u]? = some i' ∨ u = name ∧ ∃ i, s.instances[name]? = some i ∧ i' = f i := by
    intro u i' hu
    rw [Supervisor.modify_toManager, Manager.get_modify] at hu
    split at hu
    · rename_i e
      subst e
      obtain ⟨i, hi, rfl⟩ := Option.map_eq_some_iff.mp hu
      exact .inr ⟨rfl, i, hi, rfl⟩
    · exact .inl hu
  have hchild : ∀ (u : Name) (i' : Instance) p, (s.modify name f).instances[u]? = some i' → i'.child = some p →
      ∃ i, s.instances[u]? = some i ∧ i.child = some p := by
    intro u i' p hu hp
    rcases hget u i' hu with hu | ⟨rfl, i, hi, rfl⟩
    · exact ⟨i', hu, hp⟩
    · rcases hc i hi with e | e
      · exact ⟨i, hi, e ▸ hp⟩
      · cases e.symm.trans hp
  refine ⟨fun u i' hx hu hn => ?_, fun u i' p hx hu hp => ?_, fun u i' p hu hp => ?_,
    fun u v i' j' p hu hv hp hq => ?_⟩
  · rcases hget u i' hu with hu | ⟨rfl, i, hi, rfl⟩
    · exact h.waiting u i' hx hu hn
    · obtain ⟨hn, hs⟩ := hf i hx hi hn
      obtain ⟨hs', hh⟩ := h.waiting _ i hx hi hn
      exact ⟨fun h => hs' (hs h), hh⟩
  · obtain ⟨i, hi, hp⟩ := hchild u i' p hu hp
    exact h.tracked u i p hx hi hp
  · obtain ⟨i, hi, hp⟩ := hchild u i' p hu hp
    exact h.fresh u i p hi hp
  · obtain ⟨i, hi, hp⟩ := hchild u i' p hu hp
    obtain ⟨j, hj, hq⟩ := hchild v j' p hv hq
    exact h.alone u v i j p hi hj hp hq

/-- A tame change loses no end. -/
theorem tame (h : Hears R x s) (hf : ∀ i, s.instances[name]? = some i → Tame i (f i)) :
    Hears R x (s.modify name f) :=
  h.modify (fun i hi => (hf i hi).child) fun i _ hi => (hf i hi).untracked

/-- A unit that is down with no process tracked has ended. -/
theorem ended (h : Hears R (some name) s) (hc : ∀ i, (f i).child = none)
    (hd : ∀ i, s.instances[name]? = some i → (f i).state.down = true) : Hears R none (s.modify name f) := by
  refine (h.modify (fun i _ => .inr (hc i)) fun i hx => absurd rfl hx).settle (fun i' hi' hn => ?_) fun i' p hi' hp => ?_
  · obtain ⟨i, hi, rfl⟩ := Option.map_eq_some_iff.mp (by simpa [Manager.get_modify] using hi')
    simp [Instance.Untracked, hd i hi] at hn
  · obtain ⟨i, hi, rfl⟩ := Option.map_eq_some_iff.mp (by simpa [Manager.get_modify] using hi')
    simp [hc i] at hp

/-! ## Deadlines, signals and reads -/

theorem setTimer (w : World) (delay : Option Nat) (h : Hears R x s) : Hears R x (Supervisor.setTimer w delay s).2 := by
  simp only [Supervisor.setTimer]
  split
  · exact (h.turn w).update rfl rfl
  · exact h.turn w

theorem armTimer (w : World) (h : Hears R x s) : Hears R x (Supervisor.armTimer w s).2 := (h.turn w).setTimer w _

theorem armWall (w : World) (h : Hears R x s) : Hears R x (Supervisor.armWall w s).2 := by
  simp only [Supervisor.armWall]
  split
  · exact (h.turn w).update rfl rfl
  · exact h.turn w

theorem note (h : Hears R x s) (c : Call) : Hears R x (s.note c) := h.frame rfl rfl (.refl _)

theorem schedule (w : World) (delay : Nat) (alarm : Alarm) (h : Hears R x s) :
    Hears R x (Supervisor.schedule w delay alarm s).2 :=
  (((h.note _).turn w).update rfl rfl).armTimer w

theorem scheduleAt (w : World) (moment : Nat) (alarm : Alarm) (h : Hears R x s) :
    Hears R x (Supervisor.scheduleAt w moment alarm s).2 :=
  ((h.note _).update rfl rfl).armWall w

theorem arm (w : World) (name : Name) (next : Option Next) (h : Hears R x s) :
    Hears R x (Supervisor.arm w name next s) := by
  cases next with
  | none => exact h.update (g := (·.clearNext name)) rfl rfl
  | some next =>
    have hset : ∀ {s'}, Hears R x s' → Hears R x (s'.update (·.setNext name next)) := fun h => h.update rfl rfl
    cases next with
    | after delay =>
      simp only [Supervisor.arm]
      split
      · exact hset (h.schedule w delay _)
      · exact h.schedule w delay _
    | «at» moment =>
      simp only [Supervisor.arm]
      split
      · exact hset (h.scheduleAt w moment _)
      · exact h.scheduleAt w moment _

/-! ## Stopping -/

/-- A stop loses no end: the child is kept until it is reaped. -/
theorem stop (w : World) (name : Name) (cause : StopCause) (h : Hears R none s) :
    Hears R none (Supervisor.stop w name cause s) := by
  have h₁ : Hears R none ((s.note (.stop name cause)).update (·.dequeue name)) := (h.note _).update rfl rfl
  simp only [Supervisor.stop]
  split
  · exact h₁
  · rename_i i hi
    have hi : s.instances[name]? = some i := hi
    split
    · rename_i hs
      refine h₁.tame fun j hj => ?_
      cases hj.symm.trans hi
      refine .of_down ?_ (by rw [Instance.cancelRestart_state hs]; rfl)
      simp [Instance.cancelRestart, hs]
    · split
      · rename_i hsv
        refine ((h₁.turn w).note _).tame fun j hj => .of_down (.inr (Instance.deactivated_child ..)) ?_
        exact Instance.deactivated_down ..
      · rename_i service hsv
        split
        · exact h₁
        · rename_i hs
          refine Hears.schedule w _ _ (Hears.still ?_ (.sigterm none w name i.pid _) (by simp))
          refine (h₁.note _).tame fun j hj => ⟨.inl rfl, fun hn => ⟨⟨hn.1, ?_, hn.2.2⟩, fun hne => by cases hne⟩⟩
          cases hj.symm.trans hi
          cases hst : i.state <;> simp_all [State.down]

theorem stops (w : World) (names : List Name) (h : Hears R none s) :
    Hears R none (names.foldl (fun s name => Supervisor.stop w name .requested s) s) := by
  induction names generalizing s with
  | nil => exact h
  | cons name names ih => exact ih (h.stop w name .requested)

theorem exclude (w : World) (name : Name) (h : Hears R none s) : Hears R none (Supervisor.exclude w name s) := by
  simp only [Supervisor.exclude]
  generalize s.conflictingWith name = l
  induction l generalizing s with
  | nil => exact h
  | cons other l ih =>
    rw [List.foldl_cons]
    split
    · exact ih (h.stop w other .requested)
    · exact ih h

/-! ## Starting -/

theorem fail (name : Name) (h : Hears R none s) : Hears R none (Supervisor.fail name s) :=
  (h.note _).tame fun _ _ => .of_down (.inr rfl) rfl

theorem enterActive (w : World) (name : Name) (h : Hears R none s)
    (hn : ∀ i, s.instances[name]? = some i → i.unit.service = none ∨ i.state.down = false ∨ i.child ≠ none) :
    Hears R none (Supervisor.enterActive w name s) := by
  refine ((h.turn w).turn w).tame fun i hi => .of_active (hn i ?_)
  rwa [turn_toManager, turn_toManager] at hi

/-- A process that is forked is tracked at once. -/
theorem spawned (name : Name) (placed : Bool) (h : Hears R none s) :
    Hears R none ((s.onKernel (·.spawn name placed)).modify name (Instance.enteredActivating s.kernel.nextPid)) := by
  obtain ⟨hknown, hlt⟩ := Kernel.spawn_known s.kernel name placed
  have hk := Kernel.spawn_drifts s.kernel name placed
  have hget : ∀ (u : Name) (i' : Instance),
      ((s.onKernel (·.spawn name placed)).modify name (Instance.enteredActivating s.kernel.nextPid)).instances[u]? =
        some i' → (u = name ∧ i'.child = some s.kernel.nextPid) ∨ s.instances[u]? = some i' := by
    intro u i' hu
    rw [Supervisor.modify_toManager, Manager.get_modify] at hu
    split at hu
    · obtain ⟨i, -, rfl⟩ := Option.map_eq_some_iff.mp hu
      exact .inl ⟨Eq.symm ‹_›, rfl⟩
    · exact .inr hu
  refine ⟨fun u i' hx hu hn => ?_, fun u i' p hx hu hp => ?_, fun u i' p hu hp => ?_,
    fun u v i' j' p hu hv hp hq => ?_⟩
  · rcases hget u i' hu with ⟨-, hc⟩ | hu
    · cases hc.symm.trans hn.2.2
    · obtain ⟨hs, hm, hn⟩ := h.waiting u i' hx hu hn
      exact ⟨hs, hm, hk.noticed hn⟩
  · rcases hget u i' hu with ⟨-, hc⟩ | hu
    · cases hc.symm.trans hp
      exact .inl hknown
    · exact (h.tracked u i' p hx hu hp).imp_left hk.known
  · rcases hget u i' hu with ⟨-, hc⟩ | hu
    · cases hc.symm.trans hp
      exact hlt
    · exact (h.fresh u i' p hu hp).trans_le hk.nextPid
  · rcases hget u i' hu with ⟨e, hc⟩ | hu <;> rcases hget v j' hv with ⟨e', hc'⟩ | hv
    · rw [e, e']
    · cases hc.symm.trans hp
      exact absurd (h.fresh v j' _ hv hq) (Nat.lt_irrefl _)
    · cases hc'.symm.trans hq
      exact absurd (h.fresh u i' _ hu hp) (Nat.lt_irrefl _)
    · exact h.alone u v i' j' p hu hv hp hq

/-- A process that is forked is in its unit's cgroup and is its child. -/
theorem launch (w : World) (name : Name) (service : Service) (h : Hears R none s) :
    Hears R none (Supervisor.launch w name service s) := by
  have h₁ : Hears R none (applyResources w name service.resources s).2 :=
    h.still (.applyResources none w name _ s) (by simp)
  have h₂ : Hears R none (outputFor w service.output (applyResources w name service.resources s).2).2 :=
    h₁.still (.outputFor none w _ _) (by simp)
  simp only [Supervisor.launch]
  split
  · split
    · generalize (outputFor w service.output (applyResources w name service.resources s).2).2 = s₂ at h₂
      simp only [fork]
      split
      · rename_i pid s₃ hfork
        split at hfork <;> cases hfork
        have h₃ := ((h₂.turn w).note (.spawn name)).spawned name ((s₂.turn w).cgroups.get name).isSome
        cases service.ty with
        | simple =>
          refine h₃.enterActive w name fun i hi => .inr (.inr ?_)
          obtain ⟨j, -, rfl⟩ := Option.map_eq_some_iff.mp (by simpa [Manager.get_modify] using hi)
          simp [Instance.enteredActivating]
        | oneshot | notify | forking => exact h₃.schedule w _ _
      · rename_i s₃ hfork
        split at hfork <;> cases hfork
        exact (h₂.turn w).fail name
    · exact h₂.fail name
  · exact h₁.fail name

theorem bringUp (w : World) {i : Instance} (hi : s.instances[name]? = some i) (h : Hears R none s) :
    Hears R none (Supervisor.bringUp w name i s) := by
  have hn : ∀ c, i.unit.service = none → ∀ j, (s.note c).instances[name]? = some j →
      j.unit.service = none ∨ j.state.down = false ∨ j.child ≠ none := by
    intro c hsv j hj
    rw [Supervisor.note_toMachine, hi] at hj
    exact .inl (Option.some.inj hj ▸ hsv)
  simp only [Supervisor.bringUp]
  cases hk : i.unit.kind with
  | target => exact (h.note _).enterActive w name (hn _ (by simp only [Unit.service, hk]))
  | timer timer =>
    exact (((h.note _).enterActive w name (hn _ (by simp only [Unit.service, hk]))).turn w).arm w name _
  | socket => exact (h.note _).enterActive w name (hn _ (by simp only [Unit.service, hk]))
  | service service => exact h.launch w name service

/-- A start loses no end. -/
theorem start (w : World) (name : Name) (h : Hears R none s) : Hears R none (Supervisor.start w name s) := by
  simp only [Supervisor.start]
  split
  · exact h.note _
  · split
    · exact (h.note _).exclude w name
    · exact ((h.note _).exclude w name).bringUp w ‹_›

theorem pump (w : World) (h : Hears R none s) : Hears R none (Supervisor.pump w s) := by
  have hturn : ∀ {s} name, Hears R none s → Hears R none (pumpTurn w name s) := by
    intro s name h
    have hq : Hears R none ((s.note (.pump name)).update (·.dequeue name)) := (h.note _).update rfl rfl
    simp only [pumpTurn]
    split
    · exact hq.fail name
    · exact hq.start w name
  have hloop : ∀ fuel {s}, Hears R none s → Hears R none (pumpLoop w fuel s) := by
    intro fuel
    induction fuel with
    | zero => exact id
    | succ fuel ih =>
      intro s h
      simp only [pumpLoop]
      split
      · exact h
      · exact ih (hturn _ h)
  simp only [Supervisor.pump]
  split
  · exact h.update rfl rfl
  · exact hloop _ h

theorem beginShutdown (w : World) (action : Action) (h : Hears R none s) :
    Hears R none (Supervisor.beginShutdown w action s) := by
  simp only [Supervisor.beginShutdown]
  split
  · exact h.note _
  · exact Hears.stops w _ (((h.note _).turn w).update rfl rfl)

/-! ## Ends -/

theorem restartUnlessGoingDown (w : World) (name : Name) (delay : Nat) (h : Hears R none s)
    (hd : ∀ i, s.instances[name]? = some i → i.state.down = true) :
    Hears R none (Supervisor.restartUnlessGoingDown w name delay s) := by
  simp only [Supervisor.restartUnlessGoingDown]
  split
  · refine h.tame fun i hi => .of_down ?_ (Instance.cancelRestart_down (hd i hi))
    simp only [Instance.cancelRestart]
    split
    · exact .inr rfl
    · exact .inl rfl
  · exact h.schedule w delay _

/-- A unit that is modified to be down ends, whatever comes of its restart. -/
theorem get_modified {f : Instance → Instance} {i' : Instance} (h : (s.modify name f).instances[name]? = some i') :
    ∃ i, s.instances[name]? = some i ∧ i' = f i := by
  rw [Supervisor.modify_toManager, Manager.get_modify, if_pos rfl] at h
  obtain ⟨i, hi, rfl⟩ := Option.map_eq_some_iff.mp h
  exact ⟨i, hi, rfl⟩

/-- The end of a stop. -/
theorem endStop (w : World) {i : Instance} (h : Hears R (some name) s) :
    Hears R none (Supervisor.endStop w name i s) := by
  have he := ((h.turn w).note (.finished name)).ended (f := fun i => (i.deactivated (s.turn w).kernel.now).2)
    (fun i => Instance.deactivated_child _ i) fun i _ => Instance.deactivated_down _ i
  simp only [Supervisor.endStop]
  split
  · refine he.restartUnlessGoingDown w name _ fun i' hi' => ?_
    obtain ⟨i, -, rfl⟩ := get_modified hi'
    exact Instance.deactivated_down _ i
  · exact he

/-- A stop is over only once the cgroup is empty. -/
theorem finishDeactivation (w : World) {i : Instance} (hi : s.instances[name]? = some i) (hs : i.state = .deactivating)
    (h : Hears R (some name) s) : Hears R none (Supervisor.finishDeactivation w name s) := by
  simp only [Supervisor.finishDeactivation, hi]
  rw [if_neg (not_not.mpr hs)]
  split
  · exact Hears.start w name (((h.endStop w).update rfl rfl).note _)
  · exact h.endStop w

theorem unitVanished (w : World) {i : Instance} (hi : s.instances[name]? = some i) (hs : i.state ≠ .deactivating)
    (h : Hears R (some name) s) : Hears R none (Supervisor.unitVanished w name s) := by
  have he := ((h.turn w).note (.vanished name)).ended (f := fun i => (i.onExit (s.turn w).kernel.now .abnormal).2)
    (fun i => Instance.onExit_child _ _ i) fun j hj => by
      rw [Supervisor.note_toMachine, turn_toManager] at hj
      cases hj.symm.trans hi
      exact Instance.onExit_down _ _ hs
  simp only [Supervisor.unitVanished, hi]
  split
  · exact he.schedule w _ _
  · exact he

/-! ## Reaping -/

/-- A unit whose end is not heard of otherwise changes. -/
theorem suspended {f : Instance → Instance} (h : Hears R (some name) s) (hc : ∀ i, (f i).child = none) :
    Hears R (some name) (s.modify name f) :=
  h.modify (fun i _ => .inr (hc i)) fun _ hx => absurd rfl hx

/-- A cgroup is found under its unit's name. -/
theorem get_cgroup {cgroup : Name} (h : s.cgroups.get name = some cgroup) :
    cgroup = name ∧ name ∈ s.cgroups.handles := by
  have hv : cgroup = name := by simpa using List.find?_some h
  exact ⟨hv, hv ▸ List.mem_of_find?_eq_some h⟩

/-- A unit with a process in its cgroup is left to that. -/
theorem entrusted (h : Hears R (some name) s) (hg : name ∈ s.cgroups.handles) (hn : s.kernel.Noticed name)
    (hc : ∀ i, s.instances[name]? = some i → i.child = none ∧ i.state ≠ .activating) : Hears R none s :=
  h.settle (fun i hi _ => ⟨(hc i hi).2, hg, hn⟩) fun i p hi hp => by cases (hc i hi).1.symm.trans hp

/-- The initial process of a forking service has been heard of. -/
theorem forkingParentExited (w : World) (exit : Exit) (h : Hears R (some name) s) :
    Hears R none (Supervisor.forkingParentExited w name exit s) := by
  have hfail : ∀ {s}, Hears R (some name) s → Hears R none (Supervisor.fail name s) :=
    fun h => (h.note _).ended (fun _ => rfl) fun _ _ => rfl
  simp only [Supervisor.forkingParentExited]
  split
  · exact hfail h
  · rename_i cgroup hg
    split
    · rename_i hp
      obtain ⟨rfl, hmem⟩ := get_cgroup hg
      have hn : (readPopulated w cgroup s).2.kernel.Noticed cgroup :=
        .inl (Bool.and_eq_true_iff.mp hp.2).2
      have hm : (readPopulated w cgroup s).2.toManager = s.toManager := turn_toManager w s
      have h₃ : Hears R (some cgroup) (((readPopulated w cgroup s).2.turn w).turn w) := ((h.turn w).turn w).turn w
      generalize (readPopulated w cgroup s).2 = s₁ at h₃ hn hm
      refine (h₃.suspended fun i => rfl).entrusted ?_ ?_ fun i hi => ?_
      · rw [Supervisor.modify_toManager, turn_toManager, turn_toManager, hm]
        exact hmem
      · exact (Supervisor.turn_drifts w _).noticed ((Supervisor.turn_drifts w s₁).noticed hn)
      · obtain ⟨i, -, rfl⟩ := get_modified hi
        exact ⟨rfl, fun hne => by cases hne⟩
    · exact hfail (h.turn w)

/-- Each child that was reaped is handled, or it is no unit's. -/
theorem onReaped (w : World) (child : Pid × WaitStatus) (h : Hears R (s.unitForPid child.1) s) :
    Hears R none (Supervisor.onReaped w child s) := by
  simp only [Supervisor.onReaped]
  split
  · rename_i hn
    exact hn ▸ h
  · rename_i name hn
    rw [hn] at h
    split
    · rename_i hi
      exact h.settle (fun i hi' => absurd hi' (by simp [hi])) fun i p hi' => absurd hi' (by simp [hi])
    · rename_i i hi
      generalize Exit.fromStatus child.2.exitStatus child.2.terminatingSignal = exit
      split
      · exact (h.note _).forkingParentExited w exit
      · have hm : ((s.turn w).note (.exited name exit)).toManager = s.toManager := turn_toManager w s
        have h₁ := ((h.turn w).note (.exited name exit)).suspended
          (f := fun i => (i.onExit (s.turn w).kernel.now exit).2) fun i => Instance.onExit_child _ _ i
        by_cases hs : i.state = .deactivating
        · have hi₁ : (((s.turn w).note (.exited name exit)).modify name fun i =>
              (i.onExit (s.turn w).kernel.now exit).2).instances[name]? = some { i with child := none } := by
            rw [Supervisor.modify_toManager, hm, Manager.get_modify_self hi, Instance.onExit_deactivating _ _ hs]
          simp only [Instance.onExit_deactivating _ _ hs, hs, if_true]
          generalize ((s.turn w).note (.exited name exit)).modify name _ = s₁ at h₁ hi₁
          split
          · exact h₁.finishDeactivation w hi₁ hs
          · rename_i cgroup hg
            obtain ⟨rfl, hmem⟩ := get_cgroup hg
            have hm₁ : (readPopulated w cgroup s₁).2.toManager = s₁.toManager := turn_toManager w s₁
            have h₂ : Hears R (some cgroup) (readPopulated w cgroup s₁).2 := h₁.turn w
            split
            · rename_i hp
              refine h₂.entrusted (hm₁ ▸ hmem) (.inl (Bool.and_eq_true_iff.mp hp).2) fun j hj => ?_
              rw [hm₁, hi₁] at hj
              cases hj
              exact ⟨rfl, fun e => by cases hs.symm.trans e⟩
            · exact h₂.finishDeactivation w (i := { i with child := none }) (hm₁ ▸ hi₁) hs
        · have h₂ := ((h.turn w).note (.exited name exit)).ended
            (f := fun i => (i.onExit (s.turn w).kernel.now exit).2) (fun i => Instance.onExit_child _ _ i) fun j hj => by
              rw [hm, hi] at hj
              cases hj
              exact Instance.onExit_down _ _ hs
          split
          · refine h₂.restartUnlessGoingDown w name _ fun i' hi' => ?_
            obtain ⟨j, hj, rfl⟩ := get_modified hi'
            rw [hm, hi] at hj
            cases hj
            exact Instance.onExit_down _ _ hs
          · rw [if_neg hs]
            exact h₂

/-- A child that is taken up was reaped; only its unit's end depends on that. -/
theorem take {child : Pid} (h : Hears (child :: R) none s) : Hears R (s.unitForPid child) s := by
  refine ⟨fun u i _ => h.waiting u i (by simp), fun u i p hx hu hp => ?_, h.fresh, h.alone⟩
  rcases h.tracked u i p (by simp) hu hp with hk | hR
  · exact .inl hk
  · refine (List.mem_cons.mp hR).elim (fun e => absurd ?_ hx) .inr
    -- Its unit is the only one that tracks it.
    obtain ⟨v, hv⟩ := Manager.unitForPid_of_child hu hp
    obtain ⟨j, hj, hq⟩ := Manager.unitForPid_get hv
    rw [← e, hv, h.alone u v i j p hu hj hp (e ▸ hq)]

theorem onChildren (w : World) (children : List (Pid × WaitStatus)) (h : Hears (children.map Prod.fst) none s) :
    Hears [] none (Supervisor.onChildren w children s) := by
  induction children generalizing s with
  | nil => exact h
  | cons child rest ih =>
    exact ih (Hears.onReaped w child ((h.take).update rfl rfl))

theorem onSigchld (w : World) (h : Hears [] none s) : Hears [] none (Supervisor.onSigchld w s) := by
  have h₁ := h.turn w
  refine Hears.onChildren w _ (Hears.update ?_ rfl rfl)
  refine ⟨h₁.waiting, fun u i p hx hu hp => ?_, h₁.fresh, h₁.alone⟩
  rcases h₁.tracked u i p hx hu hp with (ha | ⟨status, hz⟩) | hR
  · exact .inl (.inl ha)
  · exact .inr (List.mem_map_of_mem hz)
  · cases hR

theorem read (h : Hears R none s) (id : Nat) (name : Name) : Hears R (some name) (s.onKernel (·.read id name)) := by
  obtain ⟨hl, hz, hp⟩ := Kernel.read_live s.kernel id name
  refine ⟨fun u i hx hu hn => ?_, fun u i p _ hu hc => ?_, fun u i p hu hc => hp ▸ h.fresh u i p hu hc, h.alone⟩
  · obtain ⟨hs, hm, hn⟩ := h.waiting u i (by simp) hu hn
    exact ⟨hs, hm, Kernel.read_noticed (by simpa using hx) hn⟩
  · have := h.tracked u i p (by simp) hu hc
    rwa [Kernel.Known, Kernel.alive, Supervisor.onKernel_kernel, hl, hz]

/-- A notification is not lost: what its read clears is acted upon. -/
theorem onCgroup (w : World) (id : Nat) (h : Hears [] none s) : Hears [] none (Supervisor.onCgroup w id s) := by
  simp only [Supervisor.onCgroup]
  split
  · exact h
  · rename_i name hid
    have h₁ : Hears [] none (s.turn w) := h.turn w
    generalize s.turn w = s₁ at h₁
    by_cases hok : (w s.ticks).ok = true
    · simp only [hok, if_true, not_true_eq_false, false_or]
      have h₂ := h₁.read id name
      obtain ⟨hl, -⟩ := Kernel.read_live s₁.kernel id name
      have hwait : ∀ i, (s₁.onKernel (·.read id name)).instances[name]? = some i → i.Untracked →
          i.state ≠ .activating ∧ name ∈ (s₁.onKernel (·.read id name)).cgroups.handles :=
        fun i hi hn => ⟨(h₁.waiting name i (by simp) hi hn).1, (h₁.waiting name i (by simp) hi hn).2.1⟩
      have htrack : ∀ i p, (s₁.onKernel (·.read id name)).instances[name]? = some i → i.child = some p →
          (s₁.onKernel (·.read id name)).kernel.Known p ∨ p ∈ [] := fun i p hi hc => by
        have := h₁.tracked name i p (by simp) hi hc
        rwa [Kernel.Known, Kernel.alive, Supervisor.onKernel_kernel, hl, (Kernel.read_live s₁.kernel id name).2.1]
      generalize s₁.onKernel (·.read id name) = s₂ at h₂ hwait htrack
      split
      · rename_i hp
        exact h₂.settle (fun i hi hn => ⟨(hwait i hi hn).1, (hwait i hi hn).2, .inl hp⟩) htrack
      · split
        · rename_i hi
          exact h₂.settle (fun i hi' => absurd hi' (by simp [hi])) fun i p hi' => absurd hi' (by simp [hi])
        · rename_i i hi
          split
          · exact h₂.finishDeactivation w hi ‹_›
          · rename_i hs
            split
            · exact h₂.unitVanished w hi hs
            · rename_i hup
              -- The unit is not up without a process, so its end is not the cgroup's to tell.
              refine h₂.settle (fun j hj hn => ?_) htrack
              cases hj.symm.trans hi
              have hact := (hwait i hi hn).1
              have hd := hn.2.1
              cases hst : i.state <;> simp_all [State.down, Instance.pid, hn.2.2]
    · simp only [hok]
      exact h₁

/-! ## Alarms -/

theorem checkWatchdog (w : World) (name : Name) (h : Hears R none s) :
    Hears R none (Supervisor.checkWatchdog w name s) := by
  simp only [Supervisor.checkWatchdog]
  split
  · exact h
  · split
    · exact h
    · split
      · exact h
      · split
        · exact ((h.turn w).note _).stop w name .watchdog
        · exact (h.turn w).schedule w _ _

theorem stopTimedOut (w : World) (name : Name) (h : Hears R none s) :
    Hears R none (Supervisor.stopTimedOut w name s) := by
  simp only [Supervisor.stopTimedOut]
  split
  · exact h
  · split
    · exact h
    · have hk : Hears R none ((s.note (.kill name)).modify name Instance.stopTimedOut) :=
        (h.note _).tame fun i _ => ⟨.inl rfl, fun hn => ⟨hn, id⟩⟩
      exact hk.still (.sigkill none w name _ _) (by simp)

theorem timerElapsed (w : World) (name : Name) (h : Hears R none s) :
    Hears R none (Supervisor.timerElapsed w name s) := by
  simp only [Supervisor.timerElapsed]
  split
  · exact h
  · split
    · exact h
    · have hr : ∀ timer, Hears R none (Supervisor.rearm w name timer s) := fun timer => ((h.note _).turn w).arm w name _
      split
      · exact (hr _).start w _
      · exact hr _

theorem onAlarm (w : World) (alarm : Alarm) (h : Hears R none s) : Hears R none (Supervisor.onAlarm w alarm s) := by
  cases alarm with
  | restart unit =>
    simp only [Supervisor.onAlarm]
    split
    · exact (h.note _).start w unit
    · exact h
  | watchdogCheck unit => exact h.checkWatchdog w unit
  | stopTimeout unit => exact h.stopTimedOut w unit
  | timerElapsed unit => exact h.timerElapsed w unit
  | startTimeout unit =>
    simp only [Supervisor.onAlarm, Supervisor.startTimedOut]
    split
    · exact h
    · split
      · exact h
      · exact (h.note _).stop w unit .watchdog

theorem dispatch (w : World) (l : List Entry) (h : Hears R none s) : Hears R none (Supervisor.dispatch w l s) := by
  induction l generalizing s with
  | nil => exact h
  | cons e rest ih => exact ih (Hears.onAlarm w e.alarm (h.update rfl rfl))

theorem onTimer (w : World) (h : Hears R none s) : Hears R none (Supervisor.onTimer w s) := by
  have hr : Hears R none (Supervisor.armTimer w ((s.turn w).update (·.takeExpired (s.turn w).kernel.now))).2 :=
    ((h.turn w).update rfl rfl).armTimer w
  refine Hears.dispatch w _ ?_
  simp only [Supervisor.expired]
  split
  · exact hr
  · exact hr.update rfl rfl

theorem dispatchWall (w : World) (l : List Entry) (h : Hears R none s) :
    Hears R none (Supervisor.dispatchWall w l s) := by
  induction l generalizing s with
  | nil => exact h
  | cons e rest ih =>
    have hs : Hears R none (s.update (·.setFired rest)) := h.update rfl rfl
    refine ih ?_
    simp only [Supervisor.onWallAlarm]
    split
    · exact hs.timerElapsed w _
    · exact hs

theorem onWallTimer (w : World) (h : Hears R none s) : Hears R none (Supervisor.onWallTimer w s) := by
  refine Hears.dispatchWall w _ ?_
  have h₁ := ((h.turn w).note .wallTimer).turn w
  simp only [Supervisor.wallExpired]
  split
  · exact (h₁.armWall w).update rfl rfl
  · have hr : Hears R none (Supervisor.armWall w
        ((((s.turn w).note .wallTimer).turn w).update (·.takeWallExpired (s.turn w).kernel.wall))).2 :=
      (h₁.update rfl rfl).armWall w
    split
    · exact hr
    · exact hr.update rfl rfl

/-! ## Messages, connections and requests -/

theorem ready (w : World) (name : Name) (hs : s.stateOf name = some .activating) (h : Hears R none s) :
    Hears R none (Supervisor.ready w name s) := by
  have ha : Hears R none (Supervisor.enterActive w name s) := by
    refine h.enterActive w name fun i hi => .inr (.inl ?_)
    rw [Manager.stateOf, hi, Option.map_some] at hs
    rw [Option.some.inj hs]
    rfl
  simp only [Supervisor.ready]
  split
  · exact ha.schedule w _ _
  · exact ha

theorem onMessage (w : World) (message : Message) (h : Hears R none s) :
    Hears R none (Supervisor.onMessage w message s) := by
  have hsame : ∀ {s : Supervisor} {name : Name} {f : Instance → Instance}, Hears R none s →
      (∀ i, (f i).child = i.child ∧ (f i).state = i.state ∧ (f i).unit = i.unit) → Hears R none (s.modify name f) := by
    intro s name f h hf
    refine h.tame fun i _ => ⟨.inl (hf i).1, fun hn => ⟨?_, fun e => (hf i).2.1 ▸ e⟩⟩
    rwa [Instance.Untracked, (hf i).1, (hf i).2.1, (hf i).2.2] at hn
  have hping : ∀ name {s}, Hears R none s → Hears R none (if message.watchdog then Supervisor.ping w name s else s) := by
    intro name s h
    split
    · exact hsame (h.turn w) fun i => ⟨rfl, rfl, rfl⟩
    · exact h
  have hready : ∀ name {s : Supervisor}, Hears R none s → Hears R none
      (if message.ready ∧ s.stateOf name = some .activating then Supervisor.ready w name s else s) := by
    intro name s h
    split
    · exact h.ready w name (And.right ‹_›)
    · exact h
  simp only [Supervisor.onMessage]
  split
  · exact h
  · rename_i name _
    have h₁ := h.note (.message name message)
    cases message.status with
    | none => exact hready name (hping name h₁)
    | some status => exact hready name (hping name (hsame h₁ fun i => ⟨rfl, rfl, rfl⟩))

theorem onNotify (w : World) (h : Hears R none s) : Hears R none (Supervisor.onNotify w s) := by
  have h₁ : Hears R none ((s.turn w).onKernel (·.drained)) := (h.turn w).frame rfl rfl (Kernel.drained_drifts _)
  simp only [Supervisor.onNotify]
  generalize (s.turn w).onKernel (·.drained) = s₁ at h₁
  induction (s.turn w).kernel.inbox generalizing s₁ with
  | nil => exact h₁
  | cons message l ih => exact ih _ (h₁.onMessage w message)

theorem onSocket (w : World) (id : Nat) (h : Hears R none s) : Hears R none (Supervisor.onSocket w id s) := by
  simp only [Supervisor.onSocket]
  split
  · exact h
  · split
    · exact (h.note _).start w _
    · exact h.note _

theorem syncSockets (w : World) (h : Hears R none s) : Hears R none (Supervisor.syncSockets w s) := by
  simp only [Supervisor.syncSockets]
  induction List.range s.sockets.length generalizing s with
  | nil => exact h
  | cons id l ih =>
    refine ih ?_
    simp only [Supervisor.syncSocket]
    split
    · exact h
    · split
      · exact h
      · split
        · exact (h.turn w).update rfl rfl
        · exact h.turn w

theorem describeAll (w : World) (l : List Instance) (h : Hears R none s) :
    Hears R none (Supervisor.describeAll w l s).2 := by
  induction l generalizing s with
  | nil => exact h
  | cons i l ih => exact ih (h.turn w)

theorem addUnit (w : World) (name : Name) (unit : Unit) (h : Hears R none s) :
    Hears R none (Supervisor.addUnit w name unit s) := by
  have hc : Hears R none (addCgroup w name unit s) := by
    simp only [addCgroup]
    split
    · have ht := h.turn w
      refine ⟨fun u i hx hu hn => ?_, ht.tracked, ht.fresh, ht.alone⟩
      obtain ⟨hs, hm, hn⟩ := ht.waiting u i hx hu hn
      exact ⟨hs, Cgroups.mem_add hm, hn⟩
    · exact h
  have hget : ∀ (u : Name) (i : Instance), (Supervisor.addUnit w name unit s).instances[u]? = some i →
      i = Instance.new unit ∨ (addCgroup w name unit s).instances[u]? = some i := by
    intro u i hu
    rw [Supervisor.addUnit, Supervisor.update_toManager, Manager.get_insertUnit] at hu
    split at hu
    · exact .inl (Option.some.inj hu).symm
    · exact .inr hu
  refine ⟨fun u i hx hu hn => ?_, fun u i p hx hu hp => ?_, fun u i p hu hp => ?_, fun u v i j p hu hv hp hq => ?_⟩
  · rcases hget u i hu with rfl | hu
    · cases hn.2.1
    · exact hc.waiting u i hx hu hn
  · rcases hget u i hu with rfl | hu
    · cases hp
    · exact hc.tracked u i p hx hu hp
  · rcases hget u i hu with rfl | hu
    · cases hp
    · exact hc.fresh u i p hu hp
  · rcases hget u i hu with rfl | hu
    · cases hp
    · rcases hget v j hv with rfl | hv
      · cases hq
      · exact hc.alone u v i j p hu hv hp hq

theorem keep {p : Name → Instance → Bool} (h : Hears R none s) : Hears R none (s.update (·.keep p)) :=
  ⟨fun u i hx hu => h.waiting u i hx (Manager.get_of_keep hu),
    fun u i q hx hu => h.tracked u i q hx (Manager.get_of_keep hu),
    fun u i q hu => h.fresh u i q (Manager.get_of_keep hu),
    fun u v i j q hu hv => h.alone u v i j q (Manager.get_of_keep hu) (Manager.get_of_keep hv)⟩

/-- A reload loses no end: what runs keeps its definition. -/
theorem reload (w : World) (h : Hears R none s) : Hears R none (Supervisor.reload w s).2 := by
  have hunits : ∀ (l : List (Name × Unit)) (acc : List Name × List Name × Supervisor), Hears R none acc.2.2 →
      Hears R none (l.foldl (Supervisor.reloadUnit w) acc).2.2 := by
    intro l
    induction l with
    | nil => exact fun _ => id
    | cons p l ih =>
      intro acc h
      refine ih _ ?_
      simp only [Supervisor.reloadUnit]
      repeat' split
      all_goals first | exact h | exact h.addUnit w p.1 p.2
  simp only [Supervisor.reload]
  split
  · exact (hunits _ _ (h.turn w)).keep
  · exact h.turn w

theorem handle (w : World) (request : Request) (h : Hears R none s) :
    Hears R none (Supervisor.handle w request s).2 := by
  have h₁ := h.note (.request request)
  cases request with
  | list => exact h₁.describeAll w _
  | status unit =>
    simp only [Supervisor.handle]
    split
    · exact h₁.turn w
    · exact h₁
  | start unit =>
    simp only [Supervisor.handle]
    split
    · exact h₁
    · split
      · exact h₁
      · exact h₁.start w unit
  | stop unit =>
    simp only [Supervisor.handle]
    split
    · exact h₁
    · exact h₁.stop w unit .requested
  | restart unit =>
    simp only [Supervisor.handle]
    split
    · exact h₁
    · split
      · exact h₁
      · have h₂ := h₁.stop w unit .requested
        simp only [Supervisor.restartWhenStopped]
        split
        · exact h₂
        · split
          · exact h₂.start w unit
          · exact (h₂.note _).update rfl rfl
  | reload => exact h₁.reload w

theorem step (w : World) (event : Event) (h : Hears [] none s) : Hears [] none (Supervisor.step w s event) := by
  cases event with
  | sigchld => exact h.onSigchld w
  | timer => exact h.onTimer w
  | wallTimer => exact h.onWallTimer w
  | notify => exact h.onNotify w
  | cgroup id => exact h.onCgroup w id
  | socket id => exact h.onSocket w id
  | request request => exact h.handle w request
  | shutdown action => exact h.beginShutdown w action
  | pump => exact h.pump w
  | syncSockets => exact h.syncSockets w
  | sleep => exact h.turn w

end Hears

/-! ## Runs -/

/-- Epoll watches a handle of the unit's cgroup. -/
def Supervisor.Watches (s : Supervisor) (u : Name) : Prop :=
  ∃ id ∈ s.kernel.watched, s.cgroups.handles[id]? = some u

/-- A notification is pending for the unit's cgroup, and epoll watches it. -/
def Supervisor.Notified (s : Supervisor) (u : Name) : Prop := u ∈ s.kernel.notices ∧ s.Watches u

/-- No end of a service goes unheard, if its cgroup is watched or it has none. -/
structure Heard (s : Supervisor) : Prop where
  /-- Of a stop that has nothing left to wait for there is word to come. -/
  stop : ∀ (u : Name) (i : Instance), s.instances[u]? = some i → i.unit.service ≠ none →
    (u ∈ s.cgroups.handles → s.Watches u ∧ s.kernel.populated u = false) → i.state = .deactivating →
    (∀ p, i.child = some p → s.kernel.alive p = false) →
      s.Notified u ∨ ∃ p status, i.child = some p ∧ (p, status) ∈ s.kernel.zombies
  /-- So there is of a service that is up without a process, which has a cgroup. -/
  up : ∀ (u : Name) (i : Instance), s.instances[u]? = some i → i.unit.service ≠ none → i.state = .active →
    i.child = none → u ∈ s.cgroups.handles ∧ (s.Watches u → s.kernel.populated u = false → s.Notified u)

theorem Hears.heard {s : Supervisor} (h : Hears [] none s) : Heard s := by
  have hnone : ∀ (u : Name) (i : Instance), s.instances[u]? = some i → i.Untracked →
      u ∈ s.cgroups.handles ∧ (s.Watches u → s.kernel.populated u = false → s.Notified u) := by
    intro u i hu hn
    obtain ⟨-, hm, hn⟩ := h.waiting u i (by simp) hu hn
    exact ⟨hm, fun hw hp => ⟨hn.resolve_left (by simp [hp]), hw⟩⟩
  refine ⟨fun u i hu hsv hw hs hc => ?_, fun u i hu hsv hs hc => hnone u i hu ⟨hsv, by rw [hs]; rfl, hc⟩⟩
  cases hp : i.child with
  | none =>
    obtain ⟨hm, hn⟩ := hnone u i hu ⟨hsv, by rw [hs]; rfl, hp⟩
    exact .inl (hn (hw hm).1 (hw hm).2)
  | some p =>
    rcases h.tracked u i p (by simp) hu hp with (ha | ⟨status, hz⟩) | hR
    · cases ha.symm.trans (hc p hp)
    · exact .inr ⟨p, status, rfl, hz⟩
    · cases hR

namespace Supervisor

variable {w : World} {s : Supervisor}

/-- Every end is heard of, in every reachable state. -/
theorem Reachable.hears (h : Reachable w s) : Hears [] none s := by
  obtain ⟨hierarchy, kernel, events, rfl⟩ := h
  have hq : Hears [] none (queued w hierarchy kernel) := by
    have hnew : ∀ (u : Name) (i : Instance), (queued w hierarchy kernel).instances[u]? = some i →
        i.state.down = true ∧ i.child = none := fun u i hi => by
      rw [(queued_fresh w hierarchy kernel).inst u i hi]
      exact ⟨rfl, rfl⟩
    refine ⟨fun u i _ hu hn => ?_, fun u i p _ hu hp => ?_, fun u i p hu hp => ?_, fun u v i j p hu _ hp => ?_⟩
    · cases (hnew u i hu).1.symm.trans hn.2.1
    all_goals cases (hnew u i hu).2.symm.trans hp
  have hb : Hears [] none (boot w hierarchy kernel) := hq.pump w
  generalize boot w hierarchy kernel = s at hb
  induction events generalizing s with
  | nil => exact hb
  | cons e events ih => exact ih _ (hb.step w e)

/-- No end of a service is missed, in whatever order its processes exit, it is
stopped, and the exits and its cgroup are handled. -/
theorem no_end_is_missed (hr : Reachable w s) : Heard s := hr.hears.heard

/-- A service that is stopped has exited, and nothing of that is handled. -/
theorem no_end_is_missed_sample :
    Heard (run (movesAt 11 [exits 2]) (booted (movesAt 11 [exits 2]) [bootTarget ["a"], serviceUnit "a" {} .simple .no])
      [.request (.stop "a"), .sleep]) :=
  no_end_is_missed (run_reachable _ _ _)

end Supervisor

end Oxinit
