import Oxinit.Proof.Precedence
import Oxinit.Proof.Rest
import Oxinit.Proof.Shutdown
import Oxinit.Proof.Strides

/-!
# Exits of main processes

What comes of a service in `Activating` or `Active` whose main process is
reaped. The restart policy decides, unless the service is a `forking` one that
is activating. A clean exit before readiness is then taken for a job that is
done, of whatever type the service is.
-/

namespace Oxinit

open Framework (Deadline)

/-! ## The policy -/

namespace Instance

variable {i j : Instance} {t : Nat} {exit : Exit}

theorem forget_backoff (hu : j.unit = i.unit) (hb : j.backoff = i.backoff) (hs : j.activeSince = i.activeSince) :
    (j.forget t).backoff = (i.forget t).backoff := by
  simp only [forget, hs]
  split
  · rw [hb, hu]
    split
    · rfl
    · exact hb
  · exact hb

/-- What `schedule_restart` decides, by the policy. -/
theorem scheduleRestart_decides (t : Nat) (exit : Exit) (i : Instance) :
    (i.scheduleRestart t exit).1 = (if shouldRestart i.policy exit then some (i.forget t).backoff else none) ∧
      (i.scheduleRestart t exit).2.state =
        if shouldRestart i.policy exit then .restarting else if exit = .clean then .inactive else .failed := by
  have hp : Instance.policy { i.forget t with activeSince := none } = i.policy := forget_policy t i
  simp only [scheduleRestart, hp]
  cases shouldRestart i.policy exit <;> exact ⟨rfl, rfl⟩

/-- The restart policy decides on the exit of a process, but for a unit that is being stopped. -/
theorem onExit_decides (t : Nat) (exit : Exit) (h : i.state ≠ .deactivating) :
    (i.onExit t exit).1 = (if shouldRestart i.policy exit then some (i.forget t).backoff else none) ∧
      (i.onExit t exit).2.state =
        if shouldRestart i.policy exit then .restarting else if exit = .clean then .inactive else .failed := by
  have key : ∀ j : Instance, j.unit = i.unit → j.backoff = i.backoff → j.activeSince = i.activeSince →
      (j.scheduleRestart t exit).1 = (if shouldRestart i.policy exit then some (i.forget t).backoff else none) ∧
        (j.scheduleRestart t exit).2.state =
          if shouldRestart i.policy exit then .restarting else if exit = .clean then .inactive else .failed := by
    intro j hu hb hs
    rw [← forget_backoff hu hb hs, show i.policy = j.policy by rw [policy, policy, hu]]
    exact scheduleRestart_decides t exit j
  simp only [onExit, h, if_false]
  split <;> exact key _ rfl rfl rfl

theorem policy_of_service {service : Service} (h : i.unit.service = some service) : i.policy = service.restart := by
  rw [policy, h]

end Instance

/-! ## What is reaped -/

/-- How a child that was reaped ended. -/
def exitOf (child : Pid × WaitStatus) : Exit := Exit.fromStatus child.2.exitStatus child.2.terminatingSignal

namespace Supervisor

/-- The children, each with the state in which the loop comes to it. -/
def comings (w : World) : List (Pid × WaitStatus) → Supervisor → List ((Pid × WaitStatus) × Supervisor)
  | [], _ => []
  | child :: rest, s =>
    (child, s.update (·.setReaping rest)) :: comings w rest (onReaped w child (s.update (·.setReaping rest)))

/-- The children that are reaped when `SIGCHLD` is handled, each with the state in which it is handled. -/
def reaps (w : World) (s : Supervisor) : List ((Pid × WaitStatus) × Supervisor) :=
  comings w (s.turn w).kernel.zombies
    (((s.turn w).onKernel (·.reaped)).update (·.setReaping (s.turn w).kernel.zombies))

variable {w : World} {s s₁ : Supervisor} {child : Pid × WaitStatus} {name v : Name} {i : Instance} {service : Service}
  {exit : Exit}

theorem comings_deeds {l : List (Pid × WaitStatus)} (h : (child, s₁) ∈ comings w l s) : Deeds w none s s₁ := by
  induction l generalizing s with
  | nil => cases h
  | cons c rest ih =>
    have hset : Deeds w none s (s.update (·.setReaping rest)) := .single (.act (Acted.now rfl .reaping) rfl)
    rw [comings, List.mem_cons] at h
    rcases h with h | h
    · cases h
      exact hset
    · exact (hset.trans (onReaped_deeds w c _)).trans (ih h)

/-- What is handled before a child of a `SIGCHLD`. -/
theorem reaps_deeds (h : (child, s₁) ∈ reaps w s) : Deeds w none s s₁ :=
  .head (.act (Acted.turn w s) rfl) (.head (.act (Acted.onKernel (Kernel.reaped_later _)) rfl)
    (.head (.act (Acted.now rfl .reaping) rfl) (comings_deeds h)))

/-- A restart is due, the backoff delay after now. -/
theorem restartIn_alarm (w : World) (name : Name) (delay : Nat) (s : Supervisor) :
    (restartIn w name delay s).instances = s.instances ∧
      ∃ t, s.kernel.now ≤ t ∧ t ≤ (restartIn w name delay s).kernel.now ∧
      ∃ e ∈ (restartIn w name delay s).timers.heap, e.alarm = .restart name ∧ e.due = t + delay := by
  have harm : ∀ s, ∃ fd, (armTimer w s).2.toManager = s.toManager.setFd fd ∧
      s.kernel.now ≤ (armTimer w s).2.kernel.now := by
    intro s
    obtain ⟨fd, hm⟩ := armTimer_manager w s
    refine ⟨fd, hm, ?_⟩
    rw [armTimer_kernel]
    exact (turn_now w s).trans (turn_now w _)
  obtain ⟨fd, hm, hle⟩ := harm (((s.note (.schedule (.restart name) delay)).turn w).update (·.push (w s.ticks).tie
    { due := ((s.note (.schedule (.restart name) delay)).turn w).kernel.now + delay, alarm := .restart name }))
  rw [update_toManager, turn_toManager, note_toMachine] at hm
  have hm : (restartIn w name delay s).toManager = _ := hm
  refine ⟨by rw [hm]; rfl, _, turn_now w (s.note _), hle, ?_⟩
  rw [hm]
  exact ⟨_, Deadline.mem_insert.mpr (.inl rfl), rfl, rfl⟩

/-- The policy has been applied, and no restart is scheduled yet. -/
def exited (w : World) (name : Name) (exit : Exit) (s : Supervisor) : Supervisor :=
  ((s.turn w).note (.exited name exit)).modify name fun i => (i.onExit (s.turn w).kernel.now exit).2

theorem exited_get (hi : s.instances[name]? = some i) : (exited w name exit s).instances[v]? =
    if name = v then some (i.onExit (s.turn w).kernel.now exit).2 else s.instances[v]? := by
  rw [exited, modify_toManager, note_toMachine, turn_toManager, Manager.get_modify]
  split
  · rename_i e
    rw [← e, hi]
    rfl
  · rfl

theorem onReaped_eq (hd : s.shuttingDown = false) (hu : s.unitForPid child.1 = some name)
    (hi : s.instances[name]? = some i) (hs : i.state ≠ .deactivating)
    (hf : ¬((i.unit.service.any fun sv => sv.ty = .forking) ∧ i.state = .activating)) :
    onReaped w child s = match (i.onExit (s.turn w).kernel.now (exitOf child)).1 with
      | some delay => restartIn w name delay (exited w name (exitOf child) s)
      | none => exited w name (exitOf child) s := by
  have hdown : (exited w name (exitOf child) s).shuttingDown = false := by
    rw [exited, modify_toManager, note_toMachine, turn_toManager]
    exact hd
  simp only [onReaped, hu, hi, hf, if_false, hs]
  change (match (i.onExit (s.turn w).kernel.now (exitOf child)).1 with
    | some delay => restartUnlessGoingDown w name delay (exited w name (exitOf child) s)
    | none => exited w name (exitOf child) s) = _
  split
  · rw [restartUnlessGoingDown, hdown]
    rfl
  · rfl

/-- The exit of a main process on which the policy decides. -/
theorem onReaped_decided (hd : s.shuttingDown = false) (hu : s.unitForPid child.1 = some name)
    (hi : s.instances[name]? = some i) (hs : i.state ≠ .deactivating)
    (hf : ¬((i.unit.service.any fun sv => sv.ty = .forking) ∧ i.state = .activating)) :
    ∃ t, s.kernel.now ≤ t ∧
      (∀ v : Name, (onReaped w child s).instances[v]? =
        if name = v then some (i.onExit t (exitOf child)).2 else s.instances[v]?) ∧
      ∀ delay, (i.onExit t (exitOf child)).1 = some delay → ∃ u, t ≤ u ∧ u ≤ (onReaped w child s).kernel.now ∧
        ∃ e ∈ (onReaped w child s).timers.heap, e.alarm = .restart name ∧ e.due = u + delay := by
  refine ⟨(s.turn w).kernel.now, turn_now w s, ?_⟩
  rw [onReaped_eq hd hu hi hs hf]
  cases hr : (i.onExit (s.turn w).kernel.now (exitOf child)).1 with
  | none => exact ⟨fun v => exited_get hi, nofun⟩
  | some delay =>
    obtain ⟨hsame, u, hle, hnow, he⟩ := restartIn_alarm w name delay (exited w name (exitOf child) s)
    refine ⟨fun v => ?_, fun d hd => ?_⟩
    · dsimp only
      rw [hsame]
      exact exited_get hi
    · cases hd
      exact ⟨u, hle, hnow, he⟩

/-- The readiness condition of a `forking` service whose initial process has exited. -/
def ForksAway (w : World) (name : Name) (exit : Exit) (s : Supervisor) : Prop :=
  exit = .clean ∧ s.cgroups.get name ≠ none ∧ (readPopulated w name s).1 = true

/-- An initial process that leaves nothing running has failed. -/
theorem onReaped_forking (hu : s.unitForPid child.1 = some name) (hi : s.instances[name]? = some i)
    (hsv : i.unit.service = some service) (hty : service.ty = .forking) (hs : i.state = .activating)
    (hn : ¬ForksAway w name (exitOf child) s) : (onReaped w child s).instances[v]? =
      if name = v then some i.failedToStart else s.instances[v]? := by
  have hf : ∀ s' : Supervisor, s'.instances = s.instances → (fail name s').instances[v]? =
      if name = v then some i.failedToStart else s.instances[v]? := by
    intro s' hs'
    rw [fail, modify_toManager, note_toMachine, Manager.get_modify, hs']
    split
    · rename_i e
      rw [← e, hi]
      rfl
    · rfl
  have hk : ((s.note (.exited name (exitOf child))).turn w).kernel = (s.turn w).kernel := by
    rw [turn_kernel, turn_kernel]
    rfl
  have hany : (i.unit.service.any fun sv => sv.ty = .forking) = true := by simp [hsv, hty]
  simp only [onReaped, hu, hi, hany, hs, and_self, if_true, forkingParentExited]
  split
  · exact hf _ rfl
  · rename_i cgroup hg
    obtain rfl := get_cgroup hg
    split
    · rename_i hc
      refine absurd ⟨hc.1, by simp [show s.cgroups.get cgroup = some cgroup from hg], ?_⟩ hn
      have hp := hc.2
      simp only [readPopulated] at hp ⊢
      rwa [show Exit.fromStatus child.2.exitStatus child.2.terminatingSignal = exitOf child from rfl, hk] at hp
    · exact hf _ (by rw [readPopulated_toManager]; rfl)

/-! ## Failing exits -/

/-- `name`, which was `i` in `s`, waits for its backoff delay. -/
def BacksOff (name : Name) (i : Instance) (s s' : Supervisor) : Prop :=
  s'.stateOf name = some .restarting ∧ ∃ t u, s.kernel.now ≤ t ∧ t ≤ u ∧ u ≤ s'.kernel.now ∧
    ∃ e ∈ s'.timers.heap, e.alarm = .restart name ∧ e.due = u + (i.forget t).backoff

/-- The restart policy of `name` has decided on a failing exit. -/
def Obeys (name : Name) (i : Instance) (exit : Exit) (s s' : Supervisor) : Prop :=
  (BacksOff name i s s' ↔ shouldRestart i.policy exit = true) ∧
    (shouldRestart i.policy exit = false → s'.stateOf name = some .failed)

/-- A service that is not a forking one on its way up. -/
theorem not_forking (hsv : i.unit.service = some service) (h : ¬(service.ty = .forking ∧ i.state = .activating)) :
    ¬((i.unit.service.any fun sv => sv.ty = .forking) ∧ i.state = .activating) := by
  simpa [hsv] using h

/-- A failing exit of a main process comes to what the restart policy says,
exactly if that is not a restart of a `forking` service that is activating. -/
theorem failing_exit_obeys_the_policy_iff (hd : s.shuttingDown = false) (hu : s.unitForPid child.1 = some name)
    (hi : s.instances[name]? = some i) (hsv : i.unit.service = some service)
    (hs : i.state = .activating ∨ i.state = .active) (hx : exitOf child ≠ .clean) :
    Obeys name i (exitOf child) s (onReaped w child s) ↔
      (service.ty = .forking ∧ i.state = .activating → shouldRestart service.restart (exitOf child) = false) := by
  rw [Obeys, Instance.policy_of_service hsv]
  by_cases hf : service.ty = .forking ∧ i.state = .activating
  · have hget := onReaped_forking (w := w) (v := name) hu hi hsv hf.1 hf.2 fun h => hx h.1
    rw [if_pos rfl] at hget
    have hst : (onReaped w child s).stateOf name = some .failed := Manager.stateOf_of_get hget
    have hno : ¬BacksOff name i s (onReaped w child s) := by
      rintro ⟨h, -⟩
      cases hst.symm.trans h
    simp [hf, hst, hno]
  · have hs' : i.state ≠ .deactivating := by rcases hs with h | h <;> rw [h] <;> decide
    obtain ⟨t, ht, hget, halarm⟩ := onReaped_decided (w := w) hd hu hi hs' (not_forking hsv hf)
    obtain ⟨hdelay, hst⟩ := Instance.onExit_decides t (exitOf child) hs'
    rw [Instance.policy_of_service hsv] at hdelay hst
    have hget := hget name
    rw [if_pos rfl] at hget
    have hstate := Manager.stateOf_of_get hget
    rw [hst] at hstate
    refine iff_of_true ⟨⟨fun h => ?_, fun h => ?_⟩, fun h => ?_⟩ fun h => absurd h hf
    · by_contra hr
      rw [eq_false_of_ne_true hr] at hstate
      cases (h.1.symm.trans hstate).trans (by simp [hx] : _ = some State.failed)
    · rw [h] at hstate hdelay
      obtain ⟨u, hle, hnow, he⟩ := halarm _ hdelay
      exact ⟨hstate, t, u, ht, hle, hnow, he⟩
    · rw [hstate, h]
      simp [hx]

/-- A child that exited with status 1. -/
def exitsWithOne (pid : Pid) : Pid × WaitStatus := (pid, { exitStatus := some 1 })

theorem failing_exit_obeys_the_policy_iff_sample :
    let s := booted calm [bootTarget ["a"], serviceUnit "a" {} .simple .onFailure]
    ∃ i, s.instances["a"]? = some i ∧ Obeys "a" i (.code 1) s (onReaped calm (exitsWithOne 2) s) := by
  intro s
  have h : (s.instances["a"]?.any fun i => i.unit = serviceUnit "a" {} .simple .onFailure ∧ i.state = .active) = true := by
    decide +kernel
  obtain ⟨i, hi, h⟩ := (Option.any_eq_true _ _).mp h
  obtain ⟨hunit, hs⟩ := of_decide_eq_true h
  have hsv : i.unit.service = some { ty := .simple, exec := ["/bin/a"], restart := .onFailure } := by rw [hunit]; rfl
  have hd : s.shuttingDown = false := by decide +kernel
  have hu : s.unitForPid (exitsWithOne 2).1 = some "a" := by decide +kernel
  exact ⟨i, hi, (failing_exit_obeys_the_policy_iff hd hu hi hsv (.inr hs) nofun).mpr fun h => nomatch h.1⟩

/-- A `forking` service that is to be restarted on failure fails on the way up. -/
theorem forking_service_is_not_restarted :
    let w := movesAt 8 [.exit 2 { exitStatus := some 1 }]
    let s := booted w [bootTarget ["f"], serviceUnit "f" {} .forking .onFailure]
    Reachable w s ∧ ∃ c ∈ reaps w s, c.2.shuttingDown = false ∧ c.2.unitForPid c.1.1 = some "f" ∧ exitOf c.1 ≠ .clean ∧
      ∃ i, c.2.instances["f"]? = some i ∧ i.state = .activating ∧ ¬Obeys "f" i (exitOf c.1) c.2 (onReaped w c.1 c.2) := by
  intro w s
  have h : ∃ c ∈ reaps w s, c.2.shuttingDown = false ∧ c.2.unitForPid c.1.1 = some "f" ∧ exitOf c.1 ≠ .clean ∧
      (c.2.instances["f"]?.any fun i => i.state = .activating ∧ shouldRestart i.policy (exitOf c.1)) ∧
      (onReaped w c.1 c.2).stateOf "f" = some .failed := by decide +kernel
  obtain ⟨c, hc, hd, hu, hx, hi, hf⟩ := h
  obtain ⟨i, hi, h⟩ := (Option.any_eq_true _ _).mp hi
  obtain ⟨hs, hr⟩ := of_decide_eq_true h
  refine ⟨booted_reachable _ _, c, hc, hd, hu, hx, i, hi, hs, fun ho => ?_⟩
  cases hf.symm.trans (ho.1.mpr hr).1

end Supervisor

/-! ## Exits before readiness -/

/-- A `simple` service is up at once. -/
theorem Change.not_simple {now : Nat} {v : Name} {c : Option Call} {i i' : Instance} (h : Change now v c i i')
    (hi : ∀ service, i.unit.service = some service → service.ty = .simple → i.state ≠ .activating) :
    ∀ service, i'.unit.service = some service → service.ty = .simple → i'.state ≠ .activating := by
  intro service hsv hty
  cases h with
  | up | arm | spawnSimple | forkedAway | ready | terminate | fail => nofun
  | spawn hsv' hne => exact fun _ => hne (by cases hsv'.symm.trans hsv; exact hty)
  | said | pinged => exact hi service hsv hty
  | kill hs => exact fun h => nomatch hs.symm.trans h
  | cancel hs => exact fun h => by cases (Instance.cancelRestart_state hs).symm.trans h
  | instant | finished => exact (State.down_lower (Instance.deactivated_down ..)).2
  | finishedDown => exact (State.down_lower (Instance.cancelRestart_down (Instance.deactivated_down ..))).2
  | @exited exit _ _ t =>
    by_cases hs : i.state = .deactivating
    · rw [Instance.onExit_deactivating _ _ hs, hs]
      nofun
    · exact (State.down_lower (Instance.onExit_down _ _ hs)).2
  | exitedDown _ _ hr =>
    have hs : i.state ≠ .deactivating := fun hs => hr (by rw [Instance.onExit_deactivating _ _ hs])
    exact (State.down_lower (Instance.cancelRestart_down (Instance.onExit_down _ _ hs))).2
  | vanished hs => exact (State.down_lower (Instance.onExit_down _ _ (by rw [hs]; nofun))).2

/-- Nothing but `name`, which is now `j`, is another. -/
def Manager.Sets (m m' : Manager) (name : Name) (j : Instance) : Prop :=
  ∀ v : Name, m'.instances[v]? = if name = v then some j else m.instances[v]?

namespace Manager.Sets

variable {m m' : Manager} {name v u : Name} {i j : Instance}

theorem stateOf (h : m.Sets m' name j) : m'.stateOf v = if name = v then some j.state else m.stateOf v := by
  rw [Manager.stateOf, h v]
  split <;> rfl

theorem unitOf (h : m.Sets m' name j) (hi : m.instances[name]? = some i) (hu : j.unit = i.unit) :
    m'.unitOf v = m.unitOf v := by
  rw [Manager.unitOf, h v]
  split
  · rename_i e
    rw [← e, unitOf_of_get hi, ← hu]
    rfl
  · rfl

/-- What requires a unit that has failed is refused. -/
theorem refused (h : m.Sets m' name j) (hs : j.state = .failed) (hr : name ∈ m'.requires u) :
    m'.failedRequirement u ≠ none := by
  intro hn
  obtain ⟨unit, hu, hmem⟩ := mem_requires.mp hr
  refine failedRequirement_eq_none.mp hn unit hu name hmem ?_
  rw [h.stateOf, if_pos rfl, hs]

/-- Where it has not, nothing more is refused than before. -/
theorem refused_iff (h : m.Sets m' name j) (hi : m.instances[name]? = some i) (hu : j.unit = i.unit)
    (hs : i.state ≠ .failed) (hs' : j.state ≠ .failed) :
    m'.failedRequirement u = none ↔ m.failedRequirement u = none := by
  have hst : ∀ v, m'.stateOf v = some .failed ↔ m.stateOf v = some .failed := by
    intro v
    rw [h.stateOf]
    split
    · rename_i e
      rw [← e, stateOf_of_get hi]
      simp [hs, hs']
    · exact Iff.rfl
  simp only [failedRequirement_eq_none, h.unitOf hi hu, ne_eq, hst]

end Manager.Sets

/-- What the exit of `name`, which was `i`, before it was ready has come to:
its policy has decided, and what requires it is refused. -/
structure FailsEarly (name : Name) (i : Instance) (exit : Exit) (m : Manager) : Prop where
  state : m.stateOf name = some (if shouldRestart i.policy exit then .restarting else .failed)
  refused : ∀ u, name ∈ m.requires u → m.failedRequirement u ≠ none

/-- A failure that is not tried again, or a restart that nothing waits for. -/
def SoundlyFails (service : Service) (name : Name) (exit : Exit) (m : Manager) : Prop :=
  if shouldRestart service.restart exit then
    service.ty = .notify ∧ ∀ u, name ∈ m.requires u → m.failedRequirement u ≠ none
  else service.ty = .notify → exit ≠ .clean

namespace Supervisor

variable {w : World} {s s₁ : Supervisor} {child : Pid × WaitStatus} {name : Name} {i : Instance} {service : Service}

/-- What holds of a service that is activating when its main process is reaped. -/
theorem reaps_activating (hr : Reachable w s) (hc : (child, s₁) ∈ reaps w s) (hi : s₁.instances[name]? = some i)
    (hsv : i.unit.service = some service) (hs : i.state = .activating) :
    s₁.shuttingDown = false ∧ service.ty ≠ .simple := by
  have ht : Tours w true s s₁ := (reaps_deeds hc).tours
  have hdown : GoesDown s₁ := Framework.invariant (fun h t => h.tour t) ht hr.goesDown
  have hunits := Framework.invariant (I := fun s => s.Units fun _ i => ∀ service, i.unit.service = some service →
    service.ty = .simple → i.state ≠ .activating)
    (fun h t => t.units (fun hi hc => hc.not_simple hi) (fun _ _ _ _ _ => nofun) h) ht
    (hr.units (fun hi hc => hc.not_simple hi) fun _ _ _ _ _ => nofun)
  refine ⟨eq_false_of_ne_true fun hd => ?_, fun hty => hunits name i hi service hsv hty hs⟩
  have := hdown.down hd name i hi
  simp [hs, isIdle] at this

/-- An activating `forking` service comes up or fails. -/
theorem onReaped_forking_stateOf (hu : s.unitForPid child.1 = some name) (hi : s.instances[name]? = some i)
    (hsv : i.unit.service = some service) (hty : service.ty = .forking) (hs : i.state = .activating) :
    (onReaped w child s).stateOf name = some .active ∨ (onReaped w child s).stateOf name = some .failed := by
  have hmod : ∀ {s' : Supervisor} {f : Instance → Instance}, s'.instances = s.instances →
      (s'.modify name f).stateOf name = some (f i).state := by
    intro s' f hs'
    exact Manager.stateOf_of_get (Manager.get_modify_self (hs' ▸ hi))
  have hany : (i.unit.service.any fun sv => sv.ty = .forking) = true := by simp [hsv, hty]
  simp only [onReaped, hu, hi, hany, hs, and_self, if_true, forkingParentExited]
  split
  · exact .inr (hmod rfl)
  · split
    · exact .inl (hmod (by rw [turn_toManager, turn_toManager, readPopulated_toManager]; rfl))
    · exact .inr (hmod (by rw [note_toMachine, readPopulated_toManager]; rfl))

/-- A service goes from `Activating` to `Inactive` by a clean exit only, and only
a job should. -/
theorem exit_to_inactive_iff (hd : s.shuttingDown = false) (hu : s.unitForPid child.1 = some name)
    (hi : s.instances[name]? = some i) (hsv : i.unit.service = some service) (hs : i.state = .activating)
    (hty : service.ty ≠ .simple) :
    ((onReaped w child s).stateOf name = some .inactive → service.ty = .oneshot ∧ exitOf child = .clean) ↔
      (service.ty = .notify → exitOf child = .clean → service.restart = .always) := by
  by_cases hf : service.ty = .forking
  · refine iff_of_true (fun h => ?_) fun h => by rw [hf] at h; cases h
    rcases onReaped_forking_stateOf (w := w) hu hi hsv hf hs with h' | h' <;> cases h.symm.trans h'
  · have hs' : i.state ≠ .deactivating := by rw [hs]; decide
    obtain ⟨t, -, hget, -⟩ := onReaped_decided (w := w) hd hu hi hs' (not_forking hsv fun h => hf h.1)
    obtain ⟨-, hst⟩ := Instance.onExit_decides t (exitOf child) hs'
    rw [Manager.Sets.stateOf hget, if_pos rfl, hst, Instance.policy_of_service hsv]
    by_cases hx : exitOf child = .clean
    · rw [hx]
      cases hr : service.restart <;> cases ht : service.ty <;> simp_all [shouldRestart]
    · refine iff_of_true (fun h => ?_) fun _ h => absurd h hx
      rw [if_neg hx] at h
      split at h <;> cases h

/-- The policy has decided on the exit of a `notify` service. -/
theorem notify_fails_early_iff (hd : s.shuttingDown = false) (hu : s.unitForPid child.1 = some name)
    (hi : s.instances[name]? = some i) (hsv : i.unit.service = some service) (hs : i.state = .activating)
    (hty : service.ty = .notify) :
    FailsEarly name i (exitOf child) (onReaped w child s).toManager ↔
      SoundlyFails service name (exitOf child) s.toManager := by
  have hs' : i.state ≠ .deactivating := by rw [hs]; decide
  obtain ⟨t, -, hget, -⟩ := onReaped_decided (w := w) hd hu hi hs' (not_forking hsv fun h => by simp [hty] at h)
  have hget : s.toManager.Sets (onReaped w child s).toManager name (i.onExit t (exitOf child)).2 := hget
  obtain ⟨-, hst⟩ := Instance.onExit_decides t (exitOf child) hs'
  have hunit : (i.onExit t (exitOf child)).2.unit = i.unit := Instance.onExit_unit ..
  have hstate := hget.stateOf (v := name)
  rw [if_pos rfl] at hstate
  rw [SoundlyFails]
  rw [Instance.policy_of_service hsv] at hst
  cases hr : shouldRestart service.restart (exitOf child) with
  | true =>
    rw [hr, if_pos rfl] at hst
    have hreq : ∀ u, (onReaped w child s).requires u = s.requires u := fun u => by
      rw [Manager.requires, Manager.requires, hget.unitOf hi hunit]
    have href : ∀ u, (onReaped w child s).failedRequirement u = none ↔ s.failedRequirement u = none :=
      fun u => hget.refused_iff hi hunit (by rw [hs]; decide) (by rw [hst]; decide)
    rw [if_pos rfl]
    constructor
    · intro h
      exact ⟨hty, fun u hm hn => h.refused u (hreq u ▸ hm) ((href u).mpr hn)⟩
    · intro h
      refine ⟨?_, fun u hm hn => h.2 u (hreq u ▸ hm) ((href u).mp hn)⟩
      rw [hstate, hst, Instance.policy_of_service hsv, hr]
      rfl
  | false =>
    rw [hr, if_neg (by decide)] at hst
    rw [if_neg (by decide)]
    by_cases hx : exitOf child = .clean
    · refine iff_of_false (fun h => ?_) fun h => h hty hx
      have := hstate.symm.trans h.state
      rw [Instance.policy_of_service hsv, hr, hst, if_pos hx] at this
      cases this
    · rw [if_neg hx] at hst
      refine iff_of_true ⟨?_, fun u hu => hget.refused hst hu⟩ fun _ => hx
      rw [hstate, hst, Instance.policy_of_service hsv, hr]
      rfl

/-- A `forking` service whose initial process leaves nothing behind is `Failed`, whatever its policy. -/
theorem forking_fails_early_iff (hu : s.unitForPid child.1 = some name) (hi : s.instances[name]? = some i)
    (hsv : i.unit.service = some service) (hs : i.state = .activating) (hty : service.ty = .forking)
    (hn : ¬ForksAway w name (exitOf child) s) :
    FailsEarly name i (exitOf child) (onReaped w child s).toManager ↔
      SoundlyFails service name (exitOf child) s.toManager := by
  have hget : s.toManager.Sets (onReaped w child s).toManager name i.failedToStart :=
    fun v => onReaped_forking hu hi hsv hty hs hn
  have hstate := hget.stateOf (v := name)
  rw [if_pos rfl] at hstate
  have hrefused : ∀ u, name ∈ (onReaped w child s).requires u → (onReaped w child s).failedRequirement u ≠ none :=
    fun u hu => hget.refused rfl hu
  rw [SoundlyFails]
  cases hr : shouldRestart service.restart (exitOf child) with
  | true =>
    refine iff_of_false (fun h => ?_) fun h => ?_
    · have := hstate.symm.trans h.state
      rw [Instance.policy_of_service hsv, hr] at this
      cases this
    · rw [if_pos rfl, hty] at h
      cases h.1
  | false =>
    refine iff_of_true ⟨?_, hrefused⟩ ?_
    · rw [hstate, Instance.policy_of_service hsv, hr]
      rfl
    · rw [if_neg (by decide), hty]
      nofun

/-- What comes of a main process that exits while its service is activating, in
every state in which a child is handled. Only jobs are then `Inactive` if and only if a
`notify` service that exits cleanly is restarted always; and one that was not
ready fails as its policy says, with all that requires it refused, if and only
if it is neither such a service nor one that is to be restarted and is
`forking` or required. -/
theorem early_exit_is_a_failure_iff (hr : Reachable w s) (hc : (child, s₁) ∈ reaps w s)
    (hu : s₁.unitForPid child.1 = some name) (hi : s₁.instances[name]? = some i) (hsv : i.unit.service = some service)
    (hs : i.state = .activating) :
    (((onReaped w child s₁).stateOf name = some .inactive → service.ty = .oneshot ∧ exitOf child = .clean) ↔
        (service.ty = .notify → exitOf child = .clean → service.restart = .always)) ∧
      (service.ty = .notify ∨ service.ty = .forking ∧ ¬ForksAway w name (exitOf child) s₁ →
        (FailsEarly name i (exitOf child) (onReaped w child s₁).toManager ↔
          SoundlyFails service name (exitOf child) s₁.toManager)) := by
  obtain ⟨hd, hty⟩ := reaps_activating hr hc hi hsv hs
  refine ⟨exit_to_inactive_iff hd hu hi hsv hs hty, fun hty => ?_⟩
  rcases hty with hty | ⟨hty, hn⟩
  · exact notify_fails_early_iff hd hu hi hsv hs hty
  · exact forking_fails_early_iff hu hi hsv hs hty hn

/-- `a` requires a service that says when it is ready. -/
def awaiting : List Unit :=
  [bootTarget ["a"], serviceUnit "a" { requires := ["n"], after := ["n"] } .simple .no, serviceUnit "n" {} .notify .no]

theorem early_exit_is_a_failure_iff_sample :
    let w := movesAt 8 [.exit 2 { exitStatus := some 1 }]
    ∃ c ∈ reaps w (booted w awaiting), ∃ i, c.2.instances["n"]? = some i ∧
      FailsEarly "n" i (exitOf c.1) (onReaped w c.1 c.2).toManager := by
  intro w
  have h : ∃ c ∈ reaps w (booted w awaiting), c.2.unitForPid c.1.1 = some "n" ∧ exitOf c.1 = .code 1 ∧
      (c.2.instances["n"]?.any fun i => i.unit = serviceUnit "n" {} .notify .no ∧ i.state = .activating) := by
    decide +kernel
  obtain ⟨c, hc, hu, hx, hi⟩ := h
  obtain ⟨i, hi, h⟩ := (Option.any_eq_true _ _).mp hi
  obtain ⟨hunit, hs⟩ := of_decide_eq_true h
  have hsv : i.unit.service = some { ty := .notify, exec := ["/bin/n"], restart := .no } := by rw [hunit]; rfl
  refine ⟨c, hc, i, hi, ((early_exit_is_a_failure_iff (booted_reachable _ _) hc hu hi hsv hs).2 (.inl rfl)).mpr ?_⟩
  rw [hx]
  exact fun _ => nofun

/-- A service that exits cleanly before it is ready is `Inactive`, and what requires it is started. -/
theorem clean_exit_before_readiness :
    let w := movesAt 8 [exits 2]
    let s := booted w awaiting
    Reachable w s ∧ (∃ c ∈ reaps w s, c.2.unitForPid c.1.1 = some "n" ∧ c.2.stateOf "n" = some .activating ∧
      (onReaped w c.1 c.2).stateOf "n" = some .inactive ∧
      ∀ i, ¬FailsEarly "n" i (exitOf c.1) (onReaped w c.1 c.2).toManager) ∧
      (run w s [.sigchld, .pump]).stateOf "a" = some .active := by
  intro w s
  have h : ∃ c ∈ reaps w s, c.2.unitForPid c.1.1 = some "n" ∧ c.2.stateOf "n" = some .activating ∧
      (onReaped w c.1 c.2).stateOf "n" = some .inactive := by decide +kernel
  obtain ⟨c, hc, hu, hs, hs'⟩ := h
  refine ⟨booted_reachable _ _, ⟨c, hc, hu, hs, hs', fun i hf => ?_⟩, by decide +kernel⟩
  have h := hs'.symm.trans hf.state
  split at h <;> cases h

end Supervisor

end Oxinit
