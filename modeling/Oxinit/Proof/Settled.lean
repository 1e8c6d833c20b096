import Oxinit.Proof.Gone

/-!
# What an ordered shutdown leaves

Every process in the cgroup of a unit, and every main process, belongs to a
unit that runs, in runs in which no unit goes down with a process left behind
(`Accounted`). So nothing of a service is alive once every unit is idle.
-/

namespace Oxinit

/-! ## Processes -/

namespace Kernel

variable {k k' k₁ : Kernel} {u : Name} {pid : Pid}

/-- A process that has exited, whose pid is not used again. -/
structure Dead (k : Kernel) (pid : Pid) : Prop where
  used : pid < k.nextPid
  dead : k.alive pid = false

/-- The pids in use have been given out, and what is to be reaped is dead. -/
structure Proper (k : Kernel) : Prop where
  live : ∀ p ∈ k.live, p.pid < k.nextPid
  zombies : ∀ z ∈ k.zombies, k.Dead z.1

/-- At boot no process belongs to a unit. -/
structure AtBoot (k : Kernel) : Prop extends Proper k where
  unowned : ∀ p ∈ k.live, p.cgroup = none ∧ p.main = none

/-- Each process in a cgroup, and each main process, comes from one of `k`. -/
def Fewer (k k' : Kernel) : Prop :=
  ∀ p ∈ k'.live, (∀ u, p.cgroup = some u → ∃ q ∈ k.live, q.cgroup = some u) ∧
    ∀ u, p.main = some u → ∃ q ∈ k.live, q.main = some u ∧ q.pid = p.pid

theorem Fewer.refl (k : Kernel) : Fewer k k := fun p hp => ⟨fun _ h => ⟨p, hp, h⟩, fun _ h => ⟨p, hp, h, rfl⟩⟩

theorem Fewer.trans (h₁ : Fewer k k') (h₂ : Fewer k' k₁) : Fewer k k₁ := by
  refine fun p hp => ⟨fun u hu => ?_, fun u hu => ?_⟩
  · obtain ⟨q, hq, hu⟩ := (h₂ p hp).1 u hu
    exact (h₁ q hq).1 u hu
  · obtain ⟨q, hq, hu, e⟩ := (h₂ p hp).2 u hu
    exact e ▸ (h₁ q hq).2 u hu

theorem Fewer.of_live (h : k'.live = k.live) : Fewer k k' := fun p hp => Fewer.refl k p (h ▸ hp)

/-- A move that takes nobody into a cgroup leaves fewer in it. -/
theorem move_fewer {mv : Move} (hm : ∀ pid cgroup, mv = .migrate pid cgroup → cgroup = none) : Fewer k (k.move mv) := by
  refine fun p hp => ⟨fun u hu => ?_, fun u hu => ?_⟩
  · rcases mem_next hp with ⟨q, hq, -, -, hc | hmv⟩ | ⟨-, -, q, hq, hc⟩
    · exact ⟨q, hq, hc ▸ hu⟩
    · cases (hm _ _ hmv).symm.trans hu
    · exact ⟨q, hq, hc ▸ hu⟩
  · rcases mem_next hp with ⟨q, hq, e, hmain, -⟩ | ⟨-, hmain, -⟩
    · exact ⟨q, hq, hmain ▸ hu, e.symm⟩
    · cases hmain.symm.trans hu

theorem moves_fewer {mvs : List Move} (hm : ∀ mv ∈ mvs, ∀ pid cgroup, mv = .migrate pid cgroup → cgroup = none) :
    Fewer k (mvs.foldl Kernel.move k) := by
  induction mvs generalizing k with
  | nil => exact .refl k
  | cons mv mvs ih =>
    exact (move_fewer (hm mv (List.mem_cons_self ..))).trans (ih fun mv hmv => hm mv (List.mem_cons_of_mem _ hmv))

theorem Dead.of_live (h : k.Dead pid) (hl : k'.live = k.live) (hp : k'.nextPid = k.nextPid) : k'.Dead pid :=
  ⟨hp ▸ h.used, by rw [alive, hl]; exact h.dead⟩

/-- A process that has gone does not come back. -/
theorem Dead.move (h : k.Dead pid) (mv : Move) : (k.move mv).Dead pid :=
  ⟨h.used.trans_le (move_drifts k mv).nextPid, moves_dead [mv] h.used h.dead⟩

theorem Dead.moves {mvs : List Move} (h : k.Dead pid) : (mvs.foldl Kernel.move k).Dead pid := by
  induction mvs generalizing k with
  | nil => exact h
  | cons mv mvs ih => exact ih (h.move mv)

theorem Dead.spawn (h : k.Dead pid) (placed : Bool) : (k.spawn u placed).Dead pid := by
  refine ⟨h.used.trans_le (Nat.le_succ _), alive_eq_false.mpr fun p hp => ?_⟩
  rcases List.mem_cons.mp hp with rfl | hp
  · exact h.used.ne'
  · exact alive_eq_false.mp h.dead p hp

namespace Proper

theorem of_live (h : k.Proper) (hl : k'.live = k.live) (hp : k'.nextPid = k.nextPid)
    (hz : ∀ z ∈ k'.zombies, z ∈ k.zombies) : k'.Proper :=
  ⟨fun p hm => hp ▸ h.live p (hl ▸ hm), fun z hm => (h.zombies z (hz z hm)).of_live hl hp⟩

/-- A move keeps the kernel proper. -/
theorem move (h : k.Proper) (mv : Move) : (k.move mv).Proper := by
  have hz : ∀ z ∈ k.zombies, (k.move mv).Dead z.1 := fun z hz => (h.zombies z hz).move mv
  cases mv with
  | pass | setWall | datagram | edit => exact ⟨h.live, hz⟩
  | fork parent =>
    refine ⟨?_, fun z hm => hz z ?_⟩
    · show ∀ p ∈ (k.next (.fork parent)).live, p.pid < (k.next (.fork parent)).nextPid
      simp only [next]
      split
      · exact h.live
      · intro p hp
        rcases List.mem_cons.mp hp with rfl | hp
        · exact Nat.lt_succ_self _
        · exact (h.live p hp).trans_le (Nat.le_succ _)
    · replace hm : z ∈ (k.next (.fork parent)).zombies := hm
      simp only [next] at hm
      split at hm <;> exact hm
  | migrate pid cgroup =>
    refine ⟨fun p hp => ?_, hz⟩
    obtain ⟨q, hq, rfl⟩ := List.mem_map.mp hp
    have hlt := h.live q hq
    split <;> exact hlt
  | exit pid status =>
    have hle := (move_drifts k (.exit pid status)).nextPid
    by_cases ha : k.alive pid = true
    · have hnext : k.next (.exit pid status) =
          { k with live := k.live.filter (·.pid ≠ pid), zombies := k.zombies ++ [(pid, status)] } := if_pos ha
      refine ⟨fun p hp => (h.live p ?_).trans_le hle, fun z hm => ?_⟩
      · replace hp : p ∈ (k.next (.exit pid status)).live := hp
        rw [hnext] at hp
        exact (List.mem_filter.mp hp).1
      · replace hm : z ∈ (k.next (.exit pid status)).zombies := hm
        rw [hnext] at hm
        rcases List.mem_append.mp hm with hm | hm
        · exact hz z hm
        · cases List.mem_singleton.mp hm
          obtain ⟨p, hp, e⟩ := alive_iff.mp ha
          refine ⟨(e ▸ h.live p hp).trans_le hle, ?_⟩
          · show (k.next (.exit pid status)).alive pid = false
            rw [hnext]
            exact alive_eq_false.mpr fun p hp => by simpa using (List.mem_filter.mp hp).2
    · have hnext : k.next (.exit pid status) = k := if_neg ha
      refine ⟨fun p hp => (h.live p ?_).trans_le hle, fun z hm => hz z ?_⟩
      · replace hp : p ∈ (k.next (.exit pid status)).live := hp
        rwa [hnext] at hp
      · replace hm : z ∈ (k.next (.exit pid status)).zombies := hm
        rwa [hnext] at hm

theorem moves {mvs : List Move} (h : k.Proper) : (mvs.foldl Kernel.move k).Proper := by
  induction mvs generalizing k with
  | nil => exact h
  | cons mv mvs ih => exact ih (h.move mv)

theorem spawn (h : k.Proper) (placed : Bool) : (k.spawn u placed).Proper := by
  refine ⟨fun p hp => ?_, fun z hz => (h.zombies z hz).spawn placed⟩
  rcases List.mem_cons.mp hp with rfl | hp
  · exact Nat.lt_succ_self _
  · exact (h.live p hp).trans_le (Nat.le_succ _)

end Proper

end Kernel

/-! ## Where only the world moves -/

namespace Supervisor

variable {w : World} {s : Supervisor} {J : Supervisor → Prop} {K : Kernel → Prop}

/-- What the world's turns keep, and what does not depend on what PID 1 holds. -/
structure Outer (w : World) (J : Supervisor → Prop) : Prop where
  turn : ∀ {s}, J s → J (s.turn w)
  note : ∀ {s c}, J s → J (s.note c)
  update : ∀ {s f}, J s → J (s.update f)

theorem Outer.of_kernel (hK : ∀ n k, K k → K ((w n).moves.foldl Kernel.move k)) : Outer w fun s => K s.kernel where
  turn h := by
    rw [turn_kernel]
    exact hK _ _ h
  note h := h
  update h := h

namespace Outer

theorem modify (hJ : Outer w J) (name : Name) (f : Instance → Instance) (h : J s) : J (s.modify name f) :=
  hJ.update (f := (·.modify name f)) h

theorem armTimer (hJ : Outer w J) (h : J s) : J (armTimer w s).2 := by
  simp only [Supervisor.armTimer, setTimer]
  split
  · exact hJ.update (hJ.turn (hJ.turn h))
  · exact hJ.turn (hJ.turn h)

theorem attended (hJ : Outer w J) (name : Name) (message : Message) (h : J s) : J (attended w name message s) := by
  have hp : ∀ {s : Supervisor}, J s → J (if message.watchdog then Supervisor.ping w name s else s) := by
    intro s h
    split
    · exact hJ.modify name _ (hJ.turn h)
    · exact h
  simp only [Supervisor.attended]
  cases message.status with
  | none => exact hp (hJ.note h)
  | some status => exact hp (hJ.modify name _ (hJ.note h))

theorem onMessage (hJ : Outer w J) (message : Message) (h : J s) : J (onMessage w message s) := by
  cases hu : s.unitForPid message.pid with
  | none => rwa [onMessage_none hu]
  | some name =>
    have ha := hJ.attended name message h
    rw [onMessage_some hu]
    generalize Supervisor.attended w name message s = s₁ at ha ⊢
    split
    · have hr : J (enterActive w name s₁) := hJ.modify name _ (hJ.turn (hJ.turn ha))
      simp only [ready]
      generalize enterActive w name s₁ = s₂ at hr ⊢
      split
      · exact hJ.armTimer (hJ.update (hJ.turn (hJ.note hr)))
      · exact hr
    · exact ha

theorem load (hJ : Outer w J) (hierarchy : Bool) {kernel : Kernel}
    (h : J { cgroups := { hierarchy }, kernel }) : J (load w hierarchy kernel) := by
  have h₁ := hJ.turn h
  have hfold : ∀ {β : Type} {f : Supervisor → β → Supervisor}, (∀ s b, J s → J (f s b)) →
      ∀ (l : List β) s, J s → J (l.foldl f s) := by
    intro β f hf l
    induction l with
    | nil => exact fun s h => h
    | cons b l ih => exact fun s h => ih _ (hf s b h)
  simp only [Supervisor.load]
  split
  · exact h₁
  · refine hfold (fun s name hs => ?_) _ _ (hfold (fun s p hs => ?_) _ _ (hJ.update h₁))
    · split
      · refine hfold (fun s address hs => ?_) _ _ hs
        dsimp only
        split
        · exact hJ.update (hJ.turn hs)
        · exact hJ.turn hs
      · exact hs
    · refine hJ.update ?_
      simp only [addCgroup]
      split
      · exact hJ.update (hJ.turn hs)
      · exact hs

end Outer

/-- What every move of the world and every fork keeps, and what else oxinit
asks the kernel for does not touch. -/
theorem stride_keeps {e : Event} {s' : Supervisor} (hK : ∀ n k, K k → K ((w n).moves.foldl Kernel.move k))
    (hspawn : ∀ k u placed, K k → K (k.spawn u placed))
    (hrest : ∀ k k' : Kernel, k'.live = k.live → k'.nextPid = k.nextPid → (∀ z ∈ k'.zombies, z ∈ k.zombies) → K k → K k')
    (hs : Stride w e s s') (h : K s.kernel) : K s'.kernel := by
  cases hs with
  | turn => exact (Outer.of_kernel hK).turn h
  | message _ m => exact (Outer.of_kernel hK).onMessage m h
  | spawn => exact hspawn _ _ _ h
  | signal | drained => exact hrest s.kernel _ rfl rfl (fun z hz => hz) h
  | reaped => exact hrest s.kernel _ rfl rfl (fun z hz => absurd hz List.not_mem_nil) h
  | @read id name =>
    obtain ⟨hl, hz, hp⟩ := Kernel.read_live s.kernel id name
    exact hrest s.kernel _ hl hp (fun z hm => hz ▸ hm) h
  | note | late | hung | update | push | expire | lower | finished | active | forkedAway | insert | keep => exact h

theorem strides_dead {e : Event} {s' : Supervisor} {pid : Pid} (hs : Strides w e s s') (h : s.kernel.Dead pid) :
    s'.kernel.Dead pid :=
  Framework.invariant (I := fun s => s.kernel.Dead pid) (fun h hs => stride_keeps (K := (·.Dead pid))
    (fun _ _ h => h.moves) (fun _ _ placed h => h.spawn placed) (fun _ _ hl hp _ h => h.of_live hl hp) hs h) hs h

theorem strides_proper {e : Event} {s' : Supervisor} (hs : Strides w e s s') (h : s.kernel.Proper) :
    s'.kernel.Proper :=
  Framework.invariant (I := fun s => s.kernel.Proper) (fun h hs => stride_keeps (K := Kernel.Proper)
    (fun _ _ h => h.moves) (fun _ _ placed h => h.spawn placed) (fun _ _ hl hp hz h => h.of_live hl hp hz) hs h) hs h

end Supervisor

/-! ## What a unit leaves -/

/-- When the main process of a unit exits by itself, nothing is left in the
unit's cgroup, unless that is how a `forking` service becomes ready; nor is
anything of a unit that runs when it is marked `Failed`; and a second main
process is not forked while the first is alive. -/
def leavesNothing (e : Call × Machine) : Bool :=
  match e.1 with
  | .exited u _ => (e.2.instances[u]?).all fun i =>
      i.state = .deactivating || (i.unit.service.any (·.ty = .forking) && i.state = .activating) ||
        !e.2.kernel.populated u
  | .fail u => (e.2.instances[u]?).all fun i =>
      i.state.down || (!e.2.kernel.populated u && i.child.all fun pid => !e.2.kernel.alive pid)
  | .spawn u => (e.2.instances[u]?).all fun i => i.child.all fun pid => !e.2.kernel.alive pid
  | _ => true

/-- The unit of each process runs, and knows its main process. -/
structure Accounted (s : Supervisor) : Prop where
  inside : ∀ p ∈ s.kernel.live, ∀ u, p.cgroup = some u → u ∈ s.cgroups.handles ∧
    ∃ i, s.instances[u]? = some i ∧ i.unit.service ≠ none ∧ i.state.down = false
  main : ∀ p ∈ s.kernel.live, ∀ u, p.main = some u →
    ∃ i, s.instances[u]? = some i ∧ i.unit.service ≠ none ∧ i.state.down = false ∧ i.child = some p.pid

namespace Accounted

variable {w : World} {s s' : Supervisor} {name : Name} {f : Instance → Instance}

/-- Units keep what they run. -/
theorem frame (h : Accounted s) (hk : s.kernel.Fewer s'.kernel) (hg : s.cgroups.handles ⊆ s'.cgroups.handles)
    (hi : ∀ (u : Name) (i : Instance), s.instances[u]? = some i → i.unit.service ≠ none → i.state.down = false →
      ∃ j, s'.instances[u]? = some j ∧ j.unit = i.unit ∧ j.state.down = false ∧ j.child = i.child) : Accounted s' := by
  refine ⟨fun p hp u hu => ?_, fun p hp u hu => ?_⟩
  · obtain ⟨q, hq, hu⟩ := (hk p hp).1 u hu
    obtain ⟨hmem, i, hu, hsv, hd⟩ := h.inside q hq u hu
    obtain ⟨j, hj, hunit, hd, -⟩ := hi u i hu hsv hd
    exact ⟨hg hmem, j, hj, hunit ▸ hsv, hd⟩
  · obtain ⟨q, hq, hu, e⟩ := (hk p hp).2 u hu
    obtain ⟨i, hu, hsv, hd, hc⟩ := h.main q hq u hu
    obtain ⟨j, hj, hunit, hd, hc'⟩ := hi u i hu hsv hd
    exact ⟨j, hj, hunit ▸ hsv, hd, by rw [hc', hc, e]⟩

/-- What only takes processes away keeps it. -/
theorem still (h : Accounted s) (hk : s.kernel.Fewer s'.kernel) (hm : s'.toManager = s.toManager) : Accounted s' :=
  h.frame hk (by rw [hm]; exact List.Subset.refl _) fun u i hi _ hd => ⟨i, by rw [hm, hi], rfl, hd, rfl⟩

theorem turn (hl : Leaves w) (h : Accounted s) : Accounted (s.turn w) := by
  refine h.still ?_ (Supervisor.turn_toManager w s)
  rw [Supervisor.turn_kernel]
  exact Kernel.moves_fewer (hl _)

/-- One unit changes, which is left with what is alive of it. -/
theorem modify (h : Accounted s)
    (hin : ∀ i : Instance, s.instances[name]? = some i → i.unit.service ≠ none → i.state.down = false →
      s.kernel.populated name = true → (f i).unit = i.unit ∧ (f i).state.down = false)
    (hmain : ∀ (i : Instance) (pid : Pid), s.instances[name]? = some i → i.unit.service ≠ none → i.state.down = false →
      i.child = some pid → s.kernel.alive pid = true →
      (f i).unit = i.unit ∧ (f i).state.down = false ∧ (f i).child = some pid) : Accounted (s.modify name f) := by
  refine ⟨fun p hp u hu => ?_, fun p hp u hu => ?_⟩
  · obtain ⟨hmem, i, hi, hsv, hd⟩ := h.inside p hp u hu
    refine ⟨hmem, ?_⟩
    by_cases e : name = u
    · subst e
      obtain ⟨hunit, hd⟩ := hin i hi hsv hd (Kernel.populated_iff.mpr ⟨p, hp, hu⟩)
      exact ⟨f i, Manager.get_modify_self hi, hunit ▸ hsv, hd⟩
    · exact ⟨i, (Manager.get_modify_ne e).trans hi, hsv, hd⟩
  · obtain ⟨i, hi, hsv, hd, hc⟩ := h.main p hp u hu
    by_cases e : name = u
    · subst e
      obtain ⟨hunit, hd, hc⟩ := hmain i p.pid hi hsv hd hc (Kernel.alive_iff.mpr ⟨p, hp, rfl⟩)
      exact ⟨f i, Manager.get_modify_self hi, hunit ▸ hsv, hd, hc⟩
    · exact ⟨i, (Manager.get_modify_ne e).trans hi, hsv, hd, hc⟩

/-- Nothing is alive of a unit. -/
theorem gone (h : Accounted s) (hp : s.kernel.populated name = false)
    (hc : ∀ (i : Instance) (pid : Pid), s.instances[name]? = some i → i.child = some pid → s.kernel.alive pid = false) :
    Accounted (s.modify name f) := by
  refine h.modify (fun i hi hsv hd h => ?_) fun i pid hi hsv hd hch h => ?_
  · cases hp.symm.trans h
  · cases (hc i pid hi hch).symm.trans h

/-- A cgroup that has never been made is empty. -/
theorem unpopulated (h : Accounted s) (hp : s.cgroups.get name ≠ none → s.kernel.populated name = false) :
    s.kernel.populated name = false := by
  by_contra hne
  obtain ⟨p, hmem, hc⟩ := Kernel.populated_iff.mp (eq_true_of_ne_false hne)
  refine hne (hp fun hg => ?_)
  have := List.find?_eq_none.mp hg name (h.inside p hmem name hc).1
  simp at this

theorem note (h : Accounted s) (c : Call) : Accounted (s.note c) := ⟨h.inside, h.main⟩

/-- A unit goes down. -/
theorem lower {e : Event} (hl : Leaves w) (he : e ≠ .sigchld) (hok : ∀ x ∈ s.history, leavesNothing x = true)
    (h : Accounted s) (hf : ∀ i, s.instances[name]? = some i → Lowers w e s name i (f i)) :
    Accounted (s.modify name f) := by
  by_cases hfall : ∃ i, s.instances[name]? = some i ∧ (f i).state.down = true ∧ i.unit.service ≠ none ∧ i.state.down = false
  · obtain ⟨i, hi, hd, hsv, hrun⟩ := hfall
    have hgone : s.kernel.populated name = false ∧ ∀ pid, i.child = some pid → s.kernel.alive pid = false := by
      cases (hf i hi).fallen hd with
      | down hd => cases hrun.symm.trans hd
      | plain hsv' => exact absurd hsv' hsv
      | exited he' => exact absurd he' he
      | failed hh =>
        have := hok _ (List.mem_of_mem_head? hh)
        simpa [leavesNothing, hi, hrun, Option.all_eq_true] using this
      | vanished hs hc hp =>
        obtain ⟨k, hk, e⟩ := hp
        refine ⟨?_, fun pid hp => by cases hc.symm.trans hp⟩
        rw [e]
        exact Kernel.moves_unpopulated (hl _) hk
    refine h.gone hgone.1 fun j pid hj => ?_
    cases hi.symm.trans hj
    exact hgone.2 pid
  · -- It does not go down, and keeps its main process.
    have hstay : ∀ i, s.instances[name]? = some i → i.unit.service ≠ none → i.state.down = false →
        (f i).unit = i.unit ∧ (f i).state.down = false ∧ (f i).child = i.child := by
      intro i hi hsv hrun
      have hd : (f i).state.down = false := eq_false_of_ne_true fun hd => hfall ⟨i, hi, hd, hsv, hrun⟩
      have hlow := hf i hi
      refine ⟨hlow.unit, hd, ?_⟩
      rcases hlow.stopping (State.deactivating_of_lower hd hlow.inactive hlow.settled) with ⟨hc, -⟩ | ⟨he', -⟩
      · exact hc
      · exact absurd he' he
    refine h.modify (fun i hi hsv hrun _ => ?_) fun i pid hi hsv hrun hc _ => ?_
    · obtain ⟨hu, hd, -⟩ := hstay i hi hsv hrun
      exact ⟨hu, hd⟩
    · obtain ⟨hu, hd, hc'⟩ := hstay i hi hsv hrun
      exact ⟨hu, hd, hc'.trans hc⟩

/-- A process that is forked is accounted for. -/
theorem spawn {i : Instance} {service : Service} (hi : s.instances[name]? = some i) (hsv : i.unit.service = some service)
    (hok : leavesNothing (.spawn name, s.toMachine) = true) (h : Accounted s) :
    Accounted (((s.note (.spawn name)).onKernel (·.spawn name (s.cgroups.get name).isSome)).modify name
      (Instance.enteredActivating s.kernel.nextPid)) := by
  have hdead : ∀ pid, i.child = some pid → s.kernel.alive pid = false := by
    simpa [leavesNothing, hi, Option.all_eq_true] using hok
  have hself : (((s.note (.spawn name)).onKernel (·.spawn name (s.cgroups.get name).isSome)).modify name
      (Instance.enteredActivating s.kernel.nextPid)).instances[name]? = some (i.enteredActivating s.kernel.nextPid) :=
    Manager.get_modify_self hi
  have hsv' : (i.enteredActivating s.kernel.nextPid).unit.service ≠ none := by
    show i.unit.service ≠ none
    rw [hsv]
    nofun
  refine ⟨fun p hp u hu => ?_, fun p hp u hu => ?_⟩
  · rcases List.mem_cons.mp hp with rfl | hp
    · -- the process that is forked
      replace hu : (if (s.cgroups.get name).isSome then some name else none) = some u := hu
      split at hu
      · rename_i hg
        cases hu
        obtain ⟨v, hv⟩ := Option.isSome_iff_exists.mp hg
        refine ⟨?_, _, hself, hsv', rfl⟩
        exact Supervisor.get_cgroup hv ▸ List.mem_of_find?_eq_some hv
      · cases hu
    · obtain ⟨hmem, j, hj, hjsv, hd⟩ := h.inside p hp u hu
      refine ⟨hmem, ?_⟩
      by_cases e : name = u
      · subst e
        exact ⟨_, hself, hsv', rfl⟩
      · exact ⟨j, (Manager.get_modify_ne e).trans hj, hjsv, hd⟩
  · rcases List.mem_cons.mp hp with rfl | hp
    · cases hu
      exact ⟨_, hself, hsv', rfl, rfl⟩
    · obtain ⟨j, hj, hjsv, hd, hc⟩ := h.main p hp u hu
      by_cases e : name = u
      · subst e
        cases hi.symm.trans hj
        cases (hdead p.pid hc).symm.trans (Kernel.alive_iff.mpr ⟨p, hp, rfl⟩)
      · exact ⟨j, (Manager.get_modify_ne e).trans hj, hjsv, hd, hc⟩

/-- A message from the notify socket. -/
theorem message (hl : Leaves w) (m : Message) (h : Accounted s) : Accounted (Supervisor.onMessage w m s) := by
  cases hu : s.unitForPid m.pid with
  | none => rwa [Supervisor.onMessage_none hu]
  | some name =>
    obtain ⟨i, hi, -⟩ := Manager.unitForPid_get hu
    have hv := Supervisor.onMessage_served w hu hi
    obtain ⟨j, hj, hunit, hc, hs, -⟩ := hv.inst
    have hkernel : s.kernel.Fewer (Supervisor.onMessage w m s).kernel :=
      (Supervisor.Outer.of_kernel fun n k h => h.trans (Kernel.moves_fewer (hl n))).onMessage m (.refl s.kernel)
    have hcgroups : (Supervisor.onMessage w m s).cgroups = s.cgroups :=
      (Supervisor.onMessage_routines w m s).chores.acts.kept.cgroups
    refine h.frame hkernel (by rw [hcgroups]; exact List.Subset.refl _) fun u i' hi' _ hd => ?_
    by_cases e : name = u
    · subst e
      cases hi.symm.trans hi'
      refine ⟨j, hj, hunit, ?_, hc⟩
      rcases hs with hs | ⟨-, hs⟩
      · rw [hs, hd]
      · rw [hs]
        rfl
    · exact ⟨i', (hv.ne u e).trans hi', rfl, hd, rfl⟩

/-- Every other stride keeps it. -/
theorem stride {e : Event} (hl : Leaves w) (he : e ≠ .sigchld) (he' : ∀ id, e ≠ .cgroup id)
    (hok : ∀ x ∈ s'.history, readable w x = true ∧ leavesNothing x = true) (h : Accounted s)
    (hs : Stride w e s s') : Accounted s' := by
  cases hs with
  | turn => exact h.turn hl
  | signal | reaped | drained => exact h.still (.of_live rfl) rfl
  | read => exact h.still (.of_live (Kernel.read_live ..).1) rfl
  | note | late | hung => exact h.note _
  | update hi _ hg => exact h.frame (.refl _) hg fun u i hi' _ hd => ⟨i, hi ▸ hi', rfl, hd, rfl⟩
  | push | expire => exact h.frame (.refl _) (List.Subset.refl _) fun u i hi _ hd => ⟨i, hi, rfl, hd, rfl⟩
  | message _ m => exact h.message hl m
  | lower hf => exact h.lower hl he (fun x hx => (hok x hx).2) hf
  | @finished name i hi hst hover =>
    cases hover with
    | read hc =>
      obtain ⟨id, hc⟩ := hc
      exact absurd hc (he' id)
    | @reaped exit m hlast hm hc hcg hr =>
      have hread := (hok _ (List.mem_cons_of_mem _ (List.mem_of_find?_eq_some hlast))).1
      have hp : s.kernel.populated name = false :=
        h.unpopulated fun hg => Emptied.unpopulated hl hread hm hcg hg hr
      refine (h.note _).gone hp fun j pid hj hch => ?_
      cases hi.symm.trans hj
      cases hc.symm.trans hch
  | spawn hi hsv => exact h.spawn hi hsv (hok _ (List.mem_cons_self ..)).2
  | active hi _ _ hrun =>
    refine h.modify (fun j hj _ _ _ => ⟨rfl, rfl⟩) fun j pid hj _ _ hc _ => ⟨rfl, rfl, hc⟩
  | forkedAway he₁ => exact absurd he₁ he
  | @insert name unit _ hidle =>
    refine h.frame (.refl _) (List.Subset.refl _) fun u i hi _ hd => ⟨i, ?_, rfl, hd, rfl⟩
    rw [Supervisor.update_toManager, Manager.get_insertUnit, if_neg fun e => ?_, hi]
    subst e
    rcases hidle with hn | hidle
    · cases hn.symm.trans hi
    · rw [Manager.idle, hi] at hidle
      cases hd.symm.trans (State.down_of_idle hidle)
  | @keep p _ hkeep =>
    refine h.frame (.refl _) (List.Subset.refl _) fun u i hi _ hd => ⟨i, ?_, rfl, hd, rfl⟩
    cases hp : p u i with
    | true =>
      show (s.toManager.keep p).instances[u]? = some i
      simp [Manager.keep, hi, hp]
    | false => cases hd.symm.trans (State.down_of_idle (hkeep u i hi hp))

/-- Strides that are not made for a child that exited or a cgroup that is empty. -/
theorem strides {e : Event} (hl : Leaves w) (he : e ≠ .sigchld) (he' : ∀ id, e ≠ .cgroup id)
    (hok : ∀ x ∈ s'.history, readable w x = true ∧ leavesNothing x = true) (h : Accounted s) (hs : Strides w e s s') :
    Accounted s' := by
  have hg : Framework.Grows (fun s : Supervisor => s.history) (Stride w e) := fun h => Supervisor.stride_grows h
  exact Framework.Grows.invariant (R := Stride w e) (I := Accounted) hg
    (fun hok h hs => h.stride hl he he' hok hs) hs hok h

/-- Strides on the way, whatever is handled. -/
theorem sleep (hl : Leaves w) (hok : ∀ x ∈ s'.history, readable w x = true ∧ leavesNothing x = true) (h : Accounted s)
    (hs : Strides w .sleep s s') : Accounted s' :=
  h.strides hl (by simp) (by simp) hok hs

end Accounted

namespace Supervisor

variable {w : World} {s : Supervisor} {name : Name}

/-- A unit that its cgroup says is gone has no process left. -/
theorem onCgroup_accounted {id : Nat} (hl : Leaves w) (hr : Reachable w s) (hm : mainInside w s (.cgroup id) = true)
    (hok : ∀ x ∈ (onCgroup w id s).history, readable w x = true ∧ leavesNothing x = true) (h : Accounted s) :
    Accounted (onCgroup w id s) := by
  rcases onCgroup_ends hl hr hm with hs | ⟨s₁, name, i, hs, hi, -, hp, hdead, hafter⟩
  · exact h.sleep hl hok hs
  · have hgrows := strides_grows hafter
    have h₁ : Accounted s₁ := h.sleep hl (fun x hx => hok x (hgrows.subset (List.mem_cons_of_mem _ hx))) hs
    refine ((h₁.note _).gone hp fun j pid hj => ?_).sleep hl hok hafter
    cases hi.symm.trans hj
    exact hdead pid

/-- The initial process of a `forking` service is dead. -/
theorem forkingParentExited_accounted {exit : Exit} {i : Instance} {pid : Pid} (hl : Leaves w)
    (hok : ∀ x ∈ (forkingParentExited w name exit s).history, readable w x = true ∧ leavesNothing x = true)
    (hi : s.instances[name]? = some i) (hc : i.child = some pid) (hdead : s.kernel.Dead pid) (h : Accounted s) :
    Accounted (forkingParentExited w name exit s) := by
  revert hok
  simp only [forkingParentExited]
  split
  · exact fun hok => h.sleep hl hok (fail_strides name s)
  · rename_i cgroup _
    have h₁ : Strides w .sleep s (readPopulated w cgroup s).2 := turn_strides w s
    split
    · intro _
      have hs : Strides w .sleep s ((((s.turn w).turn w).turn w)) := ((turn_strides w s).tail .turn).tail .turn
      refine (((h.turn hl).turn hl).turn hl).modify (fun j hj _ _ _ => ⟨rfl, rfl⟩) fun j p hj _ _ hp ha => ?_
      cases hi.symm.trans ((by simp : s.instances[name]? = (((s.turn w).turn w).turn w).instances[name]?).trans hj)
      cases hc.symm.trans hp
      cases (strides_dead hs hdead).dead.symm.trans ha
    · exact fun hok => h.sleep hl hok (h₁.trans (fail_strides name _))

/-- A unit whose main process was reaped has none either, if it leaves nothing. -/
theorem onReaped_accounted {child : Pid × WaitStatus} (hl : Leaves w) (hdead : s.kernel.Dead child.1)
    (hok : ∀ x ∈ (onReaped w child s).history, readable w x = true ∧ leavesNothing x = true) (h : Accounted s) :
    Accounted (onReaped w child s) := by
  cases hu : s.unitForPid child.1 with
  | none => simpa only [onReaped, hu] using h
  | some name =>
    obtain ⟨i, hi, hc⟩ := Manager.unitForPid_get hu
    by_cases hf : (i.unit.service.any fun sv => sv.ty = .forking) ∧ i.state = .activating
    · simp only [onReaped, hu, hi, hf, and_self, if_true] at hok ⊢
      exact forkingParentExited_accounted hl hok hi hc hdead (h.note _)
    · have hafter := onReaped_after (w := w) (e := .sleep) hu hi hf rfl
      generalize Exit.fromStatus child.2.exitStatus child.2.terminatingSignal = x at hafter
      have hgrows := strides_grows hafter
      have hi₁ : (s.turn w).instances[name]? = some i := by rw [turn_toManager, hi]
      have hgone := (hok _ (hgrows.subset (List.mem_cons_self ..))).2
      have hd₁ : (s.turn w).kernel.Dead child.1 := strides_dead (turn_strides (e := .sleep) w s) hdead
      refine Accounted.sleep hl hok ?_ hafter
      refine ((h.turn hl).note _).modify (fun j hj _ hd hp => ?_) fun j pid hj _ _ hp ha => ?_
      · cases hi₁.symm.trans hj
        replace hp : (s.turn w).kernel.populated name = true := hp
        have hs : i.state = .deactivating := by
          by_contra hs
          have hgone : i.unit.service.any (·.ty = .forking) = true ∧ i.state = .activating := by
            simpa [leavesNothing, hi, hs, hp] using hgone
          exact hf hgone
        exact ⟨by simp, by rw [Instance.onExit_deactivating _ _ hs]; exact hd⟩
      · cases hi₁.symm.trans hj
        cases hc.symm.trans hp
        cases hd₁.dead.symm.trans ha

theorem onSigchld_accounted (hl : Leaves w) (hproper : s.kernel.Proper)
    (hok : ∀ x ∈ (onSigchld w s).history, readable w x = true ∧ leavesNothing x = true) (h : Accounted s) :
    Accounted (onSigchld w s) := by
  have hloop : ∀ (children : List (Pid × WaitStatus)) (s : Supervisor), (∀ z ∈ children, s.kernel.Dead z.1) →
      (∀ x ∈ (onChildren w children s).history, readable w x = true ∧ leavesNothing x = true) → Accounted s →
      Accounted (onChildren w children s) := by
    intro children
    induction children with
    | nil => exact fun s _ _ h => h
    | cons child rest ih =>
      intro s hdead hok h
      have hs := onReaped_strides w child (s.update (·.setReaping rest))
      have hgrows := strides_grows (onChildren_strides w rest (onReaped w child (s.update (·.setReaping rest))))
      refine ih _ (fun z hz => strides_dead hs (hdead z (List.mem_cons_of_mem _ hz))) hok ?_
      exact onReaped_accounted hl (hdead child (List.mem_cons_self ..)) (fun x hx => hok x (hgrows.subset hx))
        ⟨h.inside, h.main⟩
  have h₁ := h.turn hl
  refine hloop _ _ (fun z hz => ?_) hok ⟨h₁.inside, h₁.main⟩
  exact ((strides_proper (turn_strides (e := .sleep) w s) hproper).zombies z hz).of_live rfl rfl

/-- At boot there are no processes to account for. -/
theorem queued_accounted {hierarchy : Bool} {kernel : Kernel} (hl : Leaves w) (hk : kernel.AtBoot) :
    Accounted (queued w hierarchy kernel) ∧ (queued w hierarchy kernel).kernel.Proper := by
  have hfewer : kernel.Fewer (load w hierarchy kernel).kernel :=
    (Outer.of_kernel fun n k h => h.trans (Kernel.moves_fewer (hl n))).load hierarchy (.refl kernel)
  have hproper : (load w hierarchy kernel).kernel.Proper :=
    (Outer.of_kernel fun _ _ h => h.moves).load hierarchy hk.toProper
  refine ⟨⟨fun p hp u hu => ?_, fun p hp u hu => ?_⟩, hproper.of_live rfl rfl fun _ hz => hz⟩
  · obtain ⟨q, hq, hc⟩ := (hfewer p hp).1 u hu
    cases (hk.unowned q hq).1.symm.trans hc
  · obtain ⟨q, hq, hc, -⟩ := (hfewer p hp).2 u hu
    cases (hk.unowned q hq).2.symm.trans hc

/-- In runs in which no unit goes down with a process left behind, no process
of a unit is alive once every unit has stopped. -/
theorem settled_leaves_nothing {hierarchy : Bool} {kernel : Kernel} {events : List Event} {action : Action}
    (hl : Leaves w) (hk : kernel.AtBoot)
    (hm : Framework.Each (step w) (fun s e => mainInside w s e = true) (boot w hierarchy kernel) events)
    (hok : ∀ x ∈ (run w (boot w hierarchy kernel) events).history, readable w x = true ∧ leavesNothing x = true)
    (hs : (settled w (run w (boot w hierarchy kernel) events)).1 = some action)
    (hd : ∀ shutdown ∈ (run w (boot w hierarchy kernel) events).shutdown,
      shutdown.overdue ((run w (boot w hierarchy kernel) events).turn w).kernel.now = false) :
    ∀ p ∈ (run w (boot w hierarchy kernel) events).kernel.live, p.cgroup = none ∧ p.main = none := by
  have h : Accounted (run w (boot w hierarchy kernel) events) := by
    refine (guarded_run (I := fun s => Accounted s ∧ s.kernel.Proper) (fun hok => ?_) (fun s e hr hm hok h => ?_) hm
      hok).1
    · obtain ⟨ha, hp⟩ := queued_accounted hl hk
      have hb := boot_strides w hierarchy kernel
      exact ⟨ha.strides hl (by simp) (by simp) hok hb, strides_proper hb hp⟩
    · have hp := strides_proper (step_strides w e s) h.2
      refine ⟨?_, hp⟩
      cases e with
      | cgroup id => exact onCgroup_accounted hl hr hm hok h.1
      | sigchld => exact onSigchld_accounted hl h.2 hok h.1
      | _ => exact h.1.strides hl (by simp) (by simp) hok (step_strides w _ s)
  generalize run w (boot w hierarchy kernel) events = s at hs hd h ⊢
  have hidle : ∀ (u : Name) (i : Instance), s.instances[u]? = some i → isIdle i.state = true := by
    rw [settled] at hs
    split at hs
    · cases hs
    · rename_i shutdown hsd
      split at hs
      · rename_i hall
        intro u i hi
        exact List.all_eq_true.mp hall (u, i) (Std.TreeMap.mem_toList_iff_getElem?_eq_some.mpr hi)
      · have hover := hd shutdown hsd
        simp [hover] at hs
  intro p hp
  refine ⟨?_, ?_⟩
  · by_contra hc
    obtain ⟨u, hu⟩ := Option.ne_none_iff_exists'.mp hc
    obtain ⟨-, i, hi, -, hrun⟩ := h.inside p hp u hu
    cases hrun.symm.trans (State.down_of_idle (hidle u i hi))
  · by_contra hc
    obtain ⟨u, hu⟩ := Option.ne_none_iff_exists'.mp hc
    obtain ⟨i, hi, -, hrun, -⟩ := h.main p hp u hu
    cases hrun.symm.trans (State.down_of_idle (hidle u i hi))

theorem settled_leaves_nothing_sample :
    let s := run obedient (booted obedient [bootTarget ["a"], serviceUnit "a" {} .simple .no])
      [.shutdown .powerOff, .cgroup 0, .sigchld]
    (settled obedient s).1 = some .powerOff ∧ ∀ p ∈ s.kernel.live, p.cgroup = none ∧ p.main = none := by
  have hs : (settled obedient (run obedient (booted obedient [bootTarget ["a"], serviceUnit "a" {} .simple .no])
      [.shutdown .powerOff, .cgroup 0, .sigchld])).1 = some .powerOff := by decide +kernel
  refine ⟨hs, settled_leaves_nothing obedient_leaves ⟨⟨by simp [holding], by simp [holding]⟩, by simp [holding]⟩
    ⟨by decide +kernel, by decide +kernel, by decide +kernel, trivial⟩ (by decide +kernel) hs (by decide +kernel)⟩

/-- The main process of `a` forks a child and exits. -/
def abandoning : World := scripted [(7, [.fork 2, .exit 2 { exitStatus := some 1 }])]

/-- The machine goes down at once, and the child is alive in the cgroup of `a`. -/
theorem settled_leaves_a_child :
    let s := run abandoning (booted abandoning [bootTarget ["a"], serviceUnit "a" {} .simple .no])
      [.sleep, .sigchld, .shutdown .powerOff]
    Reachable abandoning s ∧ (settled abandoning s).1 = some .powerOff ∧
      (s.shutdown.all fun shutdown => !shutdown.overdue (s.turn abandoning).kernel.now) = true ∧
      s.kernel.live.map (fun p => (p.pid, p.cgroup)) = [(3, some "a")] :=
  ⟨run_reachable _ _ _, by decide +kernel, by decide +kernel, by decide +kernel⟩

end Supervisor

end Oxinit
