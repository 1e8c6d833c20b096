import Oxinit.Proof.Act

/-!
# The operations as runs of acts

Each operation of the supervisor below the event handlers is a run of acts;
the guards of the effects are what the code has checked. Only `bringUp`
brings a unit up.
-/

namespace Oxinit

open Framework (Deadline)
open Relation (ReflTransGen)

namespace Supervisor

variable {w : World} {s : Supervisor} {name : Name} {i : Instance}

theorem serviceOf_modify {m : Manager} {service : Service} {f : Instance → Instance}
    (hi : m.instances[name]? = some i) (hsv : (f i).unit.service = some service) :
    (m.modify name f).serviceOf name = some service := by
  rw [Manager.serviceOf, Manager.unitOf, Manager.get_modify_self hi]
  exact hsv

/-! ## Effects with an alarm -/

theorem schedule_effect {c : Option Call} {delay : Nat} {alarm : Alarm} {s₁ : Supervisor} {m : Manager}
    (hm : s₁.toManager = m)
    (h : ∀ tie due fd, s₁.kernel.now + delay ≤ due →
      Effect s.kernel.now c s.toManager ((m.push tie { due, alarm }).setFd fd)) :
    Effect s.kernel.now c s.toManager (schedule w delay alarm s₁).2.toManager := by
  obtain ⟨tie, due, fd, hdue, e⟩ := schedule_manager w delay alarm s₁
  rw [e, hm]
  exact h tie due fd hdue

/-- What `enter_active` leaves. -/
theorem enterActive_manager (w : World) (name : Name) (s : Supervisor) :
    ∃ since ping, s.kernel.now ≤ since ∧ since ≤ ping ∧ ping ≤ (enterActive w name s).kernel.now ∧
      (enterActive w name s).toManager = s.toManager.modify name (Instance.enteredActive since ping) :=
  ⟨_, _, turn_now w s, turn_now w (s.turn w), Nat.le_refl _, by simp [enterActive]⟩

theorem enterActive_active {i : Instance} (hi : s.instances[name]? = some i) :
    (enterActive w name s).stateOf name = some .active := by
  obtain ⟨since, ping, -, -, -, e⟩ := enterActive_manager w name s
  rw [Manager.stateOf, e, Manager.get_modify_self hi]
  rfl

theorem arm_armed (w : World) (name : Name) (next : Option Next) (s : Supervisor) :
    Armed s.kernel.now name s.toManager next (arm w name next s).toManager := by
  cases next with
  | none => exact .none
  | some next =>
    cases next with
    | after delay =>
      obtain ⟨tie, due, fd, hdue, e⟩ := schedule_manager w delay (.timerElapsed name) s
      simp only [arm]
      split
      · exact .after hdue e
      · exact .afterFailed hdue e
    | «at» moment =>
      obtain ⟨tie, fd, e⟩ := scheduleAt_manager w moment (.timerElapsed name) s
      simp only [arm]
      split
      · exact .at e
      · exact .atFailed e

/-! ## Stopping -/

/-- A stop begins. -/
theorem terminate_act {service : Service} {cause : StopCause} (hi : s.instances[name]? = some i)
    (hsv : i.unit.service = some service) (hs : i.state = .activating ∨ i.state = .active) :
    Acted (some (.terminate name)) s (schedule w service.stopSec (.stopTimeout name)
      (sigterm w name i.pid ((s.note (.terminate name)).modify name (Instance.enteredDeactivating cause)))).2 := by
  have hst := Still.sigterm none w name i.pid
    ((s.note (.terminate name)).modify name (Instance.enteredDeactivating cause))
  have hm := sigterm_toManager w name i.pid ((s.note (.terminate name)).modify name (Instance.enteredDeactivating cause))
  generalize sigterm w name i.pid _ = s₁ at hst hm
  have hask : s₁.asks (.schedule (.stopTimeout name) service.stopSec) := by
    refine ⟨service, ?_, rfl⟩
    rw [hm]
    exact serviceOf_modify hi hsv
  exact .callThen (f := (·.modify name (Instance.enteredDeactivating cause))) rfl (.head hst (.schedule none _ hask))
    (schedule_effect hm fun tie due fd hdue => .terminate hi hsv hs ((Nat.add_le_add_right hst.now _).trans hdue))

theorem schedule_inst {v : Name} {delay : Nat} {alarm : Alarm} :
    (schedule w delay alarm s).2.instances[v]? = s.instances[v]? := by
  obtain ⟨tie, due, fd, -, e⟩ := schedule_manager w delay alarm s
  rw [e]
  rfl

/-- `stop` takes the unit from the queue. -/
theorem stop_act (name : Name) (cause : StopCause) (s : Supervisor) :
    Acted (some (.stop name cause)) s ((s.note (.stop name cause)).update (·.dequeue name)) :=
  .call (f := (·.dequeue name)) rfl .stop

/-- `stop` once the unit is out of the queue. -/
theorem stop_rest (w : World) (name : Name) (cause : StopCause) (s : Supervisor) :
    stop w name cause s = (s.note (.stop name cause)).update (·.dequeue name) ∨
      ∃ c, Acted c ((s.note (.stop name cause)).update (·.dequeue name)) (stop w name cause s) ∧
        (c = none ∨ c = some (.down name) ∨ c = some (.terminate name)) := by
  simp only [stop]
  split
  · exact .inl rfl
  · rename_i i hi
    split
    · exact .inr ⟨_, .now (f := (·.modify name Instance.cancelRestart)) rfl (.cancel hi ‹_›), .inl rfl⟩
    · rename_i hr
      split
      · rename_i hsv
        refine .inr ⟨_, .laterCall (c := .down name)
          (f := (·.modify name fun i => ((i.enteredDeactivating cause).deactivated _).2)) rfl (.turn _ w _)
          (turn_toManager w _) (.refl _ _) ?_, .inr (.inl rfl)⟩
        rw [modify_toManager, note_toMachine, turn_toManager]
        exact .instant hi hsv hr (turn_now w _)
      · rename_i service hsv
        split
        · exact .inl rfl
        · rename_i hs
          have : i.state = .activating ∨ i.state = .active := by
            cases h : i.state <;> simp_all
          exact .inr ⟨_, terminate_act hi hsv this, .inr (.inr rfl)⟩

/-- A stop is routine: it starts nothing. -/
theorem stop_routines (w : World) (name : Name) (cause : StopCause) (s : Supervisor) :
    Routines s (stop w name cause s) := by
  refine .head ((stop_act name cause s).routine rfl) ?_
  rcases stop_rest w name cause s with e | ⟨c, ha, rfl | rfl | rfl⟩
  · rw [e]
  · exact ha.routines rfl
  · exact ha.routines rfl
  · exact ha.routines rfl

theorem stop_chores (w : World) (name : Name) (cause : StopCause) (s : Supervisor) :
    Chores s (stop w name cause s) :=
  (stop_routines w name cause s).chores

/-- What a stop records. -/
theorem stop_entries (w : World) (name : Name) (cause : StopCause) (s : Supervisor) :
    ∃ new, (stop w name cause s).history = new ++ (.stop name cause, s.toMachine) :: s.history ∧
      ∀ e ∈ new, e.1.isWorld = true ∨ e.1 = .down name ∨ e.1 = .terminate name := by
  rcases stop_rest w name cause s with e | ⟨c, ha, hc⟩
  · exact ⟨[], by rw [e]; rfl, List.forall_mem_nil _⟩
  · obtain ⟨new, e, hnew⟩ := ha.entries
    refine ⟨new, e, fun x hx => (hnew x hx).imp_right fun h => ?_⟩
    rcases hc with rfl | rfl | rfl
    · cases h.1
    · exact .inl (Option.some.inj h.1).symm
    · exact .inr (Option.some.inj h.1).symm

theorem stop_log (w : World) (name : Name) (cause : StopCause) (s : Supervisor) :
    ∃ new, (stop w name cause s).history = new ++ s.history ∧ ∀ e ∈ new, e.1.isStop = true := by
  obtain ⟨new, e, hnew⟩ := stop_entries w name cause s
  refine ⟨new ++ [(.stop name cause, s.toMachine)], by rw [e, List.append_cons], fun x hx => ?_⟩
  rcases List.mem_append.mp hx with hx | hx
  · rcases hnew x hx with h | h | h
    · exact Call.isStop_of_isWorld h
    · rw [h]
      rfl
    · rw [h]
      rfl
  · cases List.mem_singleton.mp hx
    rfl

/-- A unit that is asked to stop is not queued afterwards. -/
theorem stop_dequeued (w : World) (name : Name) (cause : StopCause) (s : Supervisor) :
    name ∉ (stop w name cause s).pending := fun h => by
  have : name ∈ ((s.note (.stop name cause)).update (·.dequeue name)).pending := by
    rcases stop_rest w name cause s with e | ⟨c, ha, -⟩
    · rwa [e] at h
    · exact ha.effect.kept.pending.subset h
  simp [Manager.dequeue] at this

/-- What a stop makes of the unit it is asked of. -/
inductive StopOutcome (cause : StopCause) (i : Instance) : Instance → Prop
  | cancelled (hs : i.state = .restarting) : StopOutcome cause i i.cancelRestart
  | instant (t : Nat) (hs : i.state ≠ .restarting) (hsv : i.unit.service = none) :
      StopOutcome cause i ((i.enteredDeactivating cause).deactivated t).2
  | already {service : Service} (hsv : i.unit.service = some service)
      (hs : i.state = .inactive ∨ i.state = .failed ∨ i.state = .deactivating) : StopOutcome cause i i
  | terminated {service : Service} (hsv : i.unit.service = some service)
      (hs : i.state = .activating ∨ i.state = .active) : StopOutcome cause i (i.enteredDeactivating cause)

theorem stop_get_none {c : StopCause} (hi : s.instances[name]? = none) :
    (stop w name c s).instances[name]? = none := by
  have hi' : ((s.note (.stop name c)).update (·.dequeue name)).instances[name]? = none := hi
  simp only [stop, hi']

theorem stop_get_self {c : StopCause} (hi : s.instances[name]? = some i) :
    ∃ i', (stop w name c s).instances[name]? = some i' ∧ StopOutcome c i i' := by
  have hi' : ((s.note (.stop name c)).update (·.dequeue name)).instances[name]? = some i := hi
  simp only [stop, hi']
  split
  · exact ⟨_, Manager.get_modify_self hi, .cancelled ‹_›⟩
  · split
    · refine ⟨_, Manager.get_modify_self ?_, .instant _ ‹_› ‹_›⟩
      rw [note_toMachine, turn_toManager]
      exact hi
    · rename_i service hsv
      split
      · exact ⟨i, hi, .already hsv ‹_›⟩
      · refine ⟨i.enteredDeactivating c, ?_, .terminated hsv ?_⟩
        · rw [schedule_inst, sigterm_toManager]
          exact Manager.get_modify_self hi
        · cases h : i.state <;> simp_all

theorem stop_get_ne {v : Name} {cause : StopCause} (h : name ≠ v) :
    (stop w name cause s).instances[v]? = s.instances[v]? := by
  simp only [stop]
  split
  · rfl
  · split
    · exact Manager.get_modify_ne h
    · split
      · exact (Manager.get_modify_ne h).trans (by rw [note_toMachine, turn_toManager]; rfl)
      · rename_i service _
        split
        · rfl
        · rw [schedule_inst, sigterm_toManager]
          exact Manager.get_modify_ne h

/-- To stop rivals is routine. -/
theorem exclude_routines (w : World) (name : Name) (s : Supervisor) : Routines s (exclude w name s) := by
  refine Framework.foldl_run (fun s other => ?_) _ s
  split
  · exact stop_routines w other .requested s
  · exact .refl

theorem exclude_chores (w : World) (name : Name) (s : Supervisor) : Chores s (exclude w name s) :=
  (exclude_routines w name s).chores

theorem exclude_log (w : World) (name : Name) (s : Supervisor) :
    ∃ new, (exclude w name s).history = new ++ s.history ∧ ∀ e ∈ new, e.1.isStop = true := by
  suffices h : ∀ (l : List Name) (s : Supervisor), ∃ new,
      (l.foldl (fun s other => if s.busy other then stop w other .requested s else s) s).history = new ++ s.history ∧
        ∀ e ∈ new, e.1.isStop = true from h _ s
  intro l
  induction l with
  | nil => exact fun s => ⟨[], rfl, List.forall_mem_nil _⟩
  | cons other l ih =>
    intro s
    obtain ⟨n₂, e₂, h₂⟩ := ih (if s.busy other then stop w other .requested s else s)
    rw [List.foldl_cons]
    split at e₂
    · obtain ⟨n₁, e₁, h₁⟩ := stop_log w other .requested s
      rw [if_pos ‹_›]
      exact ⟨n₂ ++ n₁, by rw [e₂, e₁, List.append_assoc], fun e he => (List.mem_append.mp he).elim (h₂ e) (h₁ e)⟩
    · rw [if_neg ‹_›]
      exact ⟨n₂, e₂, h₂⟩

/-! ## Starting -/

/-- A unit that fails without a process. -/
theorem fail_act (name : Name) (s : Supervisor) : Acted (some (.fail name)) s (fail name s) :=
  .call (f := (·.modify name Instance.failedToStart)) rfl .fail

theorem fork_launched {service : Service} {pid : Pid} {s₁ : Supervisor}
    (h : fork w name service s = (some pid, s₁)) :
    ∃ placed, s₁ = ((s.turn w).note (.spawn name)).onKernel (·.spawn name placed) := by
  simp only [fork] at h
  split at h <;> cases h
  exact ⟨_, rfl⟩

/-- A process is forked. -/
theorem spawn_act {service : Service} {pid : Pid} {placed : Bool} (hi : s.instances[name]? = some i)
    (hd : s.shuttingDown = false) (hsv : i.unit.service = some service) :
    Acted (some (.spawn name)) s (match service.ty with
      | .simple => enterActive w name
          (((s.note (.spawn name)).onKernel (·.spawn name placed)).modify name (Instance.enteredActivating pid))
      | .oneshot | .notify | .forking => (schedule w service.startSec (.startTimeout name)
          (((s.note (.spawn name)).onKernel (·.spawn name placed)).modify name
            (Instance.enteredActivating pid))).2) := by
  have h₁ : ∀ ty, service.ty = ty → ty ≠ .simple →
      Acted (some (.spawn name)) s (schedule w service.startSec (.startTimeout name)
      (((s.note (.spawn name)).onKernel (·.spawn name placed)).modify name (Instance.enteredActivating pid))).2 := by
    intro ty hty hne
    have hask : (((s.note (.spawn name)).onKernel (·.spawn name placed)).modify name
        (Instance.enteredActivating pid)).asks (.schedule (.startTimeout name) service.startSec) :=
      ⟨service, serviceOf_modify hi hsv, rfl⟩
    exact .callThen (f := (·.modify name (Instance.enteredActivating pid))) rfl
      (.head (.onKernel (f := (·.spawn name placed)) _ (Kernel.spawn_drifts ..)) (.schedule none _ hask))
      (schedule_effect rfl fun tie due fd hdue => .spawn hi hd hsv (hty ▸ hne) hdue)
  split
  · rename_i hty
    have hi₁ : (((s.note (.spawn name)).onKernel (·.spawn name placed)).modify name
        (Instance.enteredActivating pid)).instances[name]? = some (i.enteredActivating pid) :=
      Manager.get_modify_self hi
    obtain ⟨since, ping, ht, hp, -, e⟩ := enterActive_manager w name
      (((s.note (.spawn name)).onKernel (·.spawn name placed)).modify name (Instance.enteredActivating pid))
    have hst := (Still.onKernel (s := s.note (.spawn name)) (f := (·.spawn name placed)) (some name)
      (Kernel.spawn_drifts ..)).trans (.modify name (Instance.enteredActivating pid) _)
    refine .raise (v := name) (.still (hst.trans (.enterActive w name _)))
      rfl (enterActive_active hi₁) ?_
    rw [e]
    exact .spawnSimple hi hd hsv hty ht hp
  · exact h₁ _ ‹_› (by decide)
  · exact h₁ _ ‹_› (by decide)
  · exact h₁ _ ‹_› (by decide)

/-- The calls that put a unit in the state it starts in. -/
def Raises (name : Name) (c : Call) : Prop := c = .up name ∨ c = .arm name ∨ c = .fail name ∨ c = .spawn name

/-- The world moves, and then the unit is put in the state it starts in. -/
def Raised (name : Name) (s s' : Supervisor) : Prop :=
  ∃ c s₁, Still none s s₁ ∧ s₁.toManager = s.toManager ∧ Acted (some c) s₁ s' ∧ Raises name c

theorem Raised.acts {s' : Supervisor} (h : Raised name s s') : Acts s s' := by
  obtain ⟨c, s₁, hst, hm, ha, -⟩ := h
  exact .head (Acted.still hst hm).act ha.acts

/-- A service is raised, or fails. -/
theorem launch_raised {service : Service} (hi : s.instances[name]? = some i) (hd : s.shuttingDown = false)
    (hsv : i.unit.service = some service) : Raised name s (launch w name service s) := by
  have hf : ∀ {s₁}, Still none s s₁ → s₁.toManager = s.toManager → Raised name s (fail name s₁) :=
    fun hst hm => ⟨_, _, hst, hm, fail_act name _, .inr (.inr (.inl rfl))⟩
  have h₁ := Still.applyResources none w name service.resources s
  have h₂ := h₁.trans (.outputFor none w service.output (applyResources w name service.resources s).2)
  have hm : (outputFor w service.output (applyResources w name service.resources s).2).2.toManager =
      s.toManager := by simp
  simp only [launch]
  split
  · split
    · generalize (outputFor w service.output (applyResources w name service.resources s).2).2 = s₂ at h₂ hm
      have hm' : (s₂.turn w).toManager = s.toManager := by rw [turn_toManager, hm]
      have h₃ := h₂.trans (.turn none w s₂)
      cases hfork : fork w name service s₂ with
      | mk pid s₃ =>
        cases pid with
        | some pid =>
          obtain ⟨placed, rfl⟩ := fork_launched hfork
          exact ⟨_, s₂.turn w, h₃, hm', spawn_act (by rw [hm', hi]) (by rw [hm', hd]) hsv, .inr (.inr (.inr rfl))⟩
        | none =>
          have e : s₃ = s₂.turn w := by
            simp only [fork] at hfork
            split at hfork <;> cases hfork
            rfl
          exact e ▸ hf h₃ hm'
    · exact hf h₂ hm
  · exact hf h₁ (by simp)

theorem timerOf_modify {m : Manager} {timer : Timer} {f : Instance → Instance}
    (hi : m.instances[name]? = some i) (htm : (f i).unit.timer = some timer) :
    (m.modify name f).timerOf name = some timer := by
  rw [Manager.timerOf, Manager.unitOf, Manager.get_modify_self hi]
  exact htm

theorem lastCall_note {c : Call} (hc : c.isMove = false) (s : Supervisor) :
    (s.note c).lastCall = some (c, s.toMachine) := by
  simp [lastCall, hc]

theorem arm_act {timer : Timer} (hi : s.instances[name]? = some i) (hd : s.shuttingDown = false)
    (htm : i.unit.timer = some timer) : Acted (some (.arm name)) s
      (arm w name (timer.schedule.first ((enterActive w name (s.note (.arm name))).turn w).kernel.wall)
        ((enterActive w name (s.note (.arm name))).turn w)) := by
  obtain ⟨since, ping, ht, hp, hn, e⟩ := enterActive_manager w name (s.note (.arm name))
  have ha := arm_armed w name (timer.schedule.first ((enterActive w name (s.note (.arm name))).turn w).kernel.wall)
    ((enterActive w name (s.note (.arm name))).turn w)
  have hs : (arm w name (timer.schedule.first ((enterActive w name (s.note (.arm name))).turn w).kernel.wall)
      ((enterActive w name (s.note (.arm name))).turn w)).stateOf name = some .active := by
    rw [Manager.stateOf, ha.frame.1, turn_toManager]
    exact enterActive_active (s := s.note (.arm name)) hi
  have hst := (Still.enterActive w name (s.note (.arm name))).trans (.turn _ w _)
  have hplan : ∀ next, timer.schedule.first ((enterActive w name (s.note (.arm name))).turn w).kernel.wall = some next →
      ((enterActive w name (s.note (.arm name))).turn w).plans name next := by
    intro next hnext
    refine ⟨timer, s.toMachine, ?_, .inl ⟨hst.lastCall.trans (lastCall_note rfl s), hnext⟩⟩
    rw [turn_toManager, e]
    exact timerOf_modify hi htm
  refine .raise (.head hst (.arm _ _ _ hplan)) rfl hs ?_
  rw [turn_toManager, e] at ha
  exact .arm hi hd htm ht hp (ha.mono (hn.trans (turn_now w _)))

theorem up_act (hi : s.instances[name]? = some i) (hd : s.shuttingDown = false) (hsv : i.unit.service = none)
    (htm : i.unit.timer = none) : Acted (some (.up name)) s (enterActive w name (s.note (.up name))) := by
  obtain ⟨since, ping, ht, hp, -, e⟩ := enterActive_manager w name (s.note (.up name))
  refine .raise (.still (.enterActive w name _)) rfl (enterActive_active (s := s.note (.up name)) hi) ?_
  rw [e]
  exact .up hi hd hsv htm ht hp

theorem bringUp_raised (hi : s.instances[name]? = some i) (hd : s.shuttingDown = false) :
    Raised name s (bringUp w name i s) := by
  simp only [bringUp]
  cases hk : i.unit.kind with
  | target =>
    exact ⟨_, s, .refl _ s, rfl, up_act hi hd (by simp [Unit.service, hk]) (by simp [Unit.timer, hk]), .inl rfl⟩
  | timer timer => exact ⟨_, s, .refl _ s, rfl, arm_act hi hd (by simp [Unit.timer, hk]), .inr (.inl rfl)⟩
  | socket _ =>
    exact ⟨_, s, .refl _ s, rfl, up_act hi hd (by simp [Unit.service, hk]) (by simp [Unit.timer, hk]), .inl rfl⟩
  | service service => exact launch_raised hi hd (by simp [Unit.service, hk])

/-! ## Ends -/

theorem restartUnlessGoingDown_restarts (w : World) (name : Name) (delay : Nat) (s : Supervisor) :
    Restarts s.kernel.now name s.toManager (some delay) (restartUnlessGoingDown w name delay s).toManager := by
  simp only [restartUnlessGoingDown]
  split
  · exact .cancelled ‹_›
  · obtain ⟨tie, due, fd, hdue, e⟩ := schedule_manager w delay (.restart name) s
    rw [restartIn, e]
    exact .scheduled (by simp_all) hdue

/-- The world moves, a unit ends with call `c`, and what its policy announces
is done. -/
theorem ended_act {c : Call} {f : Instance → Instance} {r : Option Nat} :
    Call.announced name (c, (s.turn w).toMachine) = r →
    (∀ m', Restarts (s.turn w).kernel.now name (s.toManager.modify name f) r m' →
      Effect s.kernel.now (some c) s.toManager m') →
    Acted (some c) s (match r with
      | some delay => restartUnlessGoingDown w name delay (((s.turn w).note c).modify name f)
      | none => ((s.turn w).note c).modify name f) := by
  intro hr he
  have hm : (((s.turn w).note c).modify name f).toManager = s.toManager.modify name f := by simp
  cases r with
  | none =>
    exact .laterCall (f := (·.modify name f)) rfl (.turn _ w s) (turn_toManager w s) (.refl _ _) (hm ▸ he _ .no)
  | some delay =>
    have hres := restartUnlessGoingDown_restarts w name delay (((s.turn w).note c).modify name f)
    rw [hm] at hres
    have he := he _ hres
    simp only [restartUnlessGoingDown] at he ⊢
    split at he
    · rename_i hd
      rw [if_pos hd]
      exact .laterCall (f := fun m => (m.modify name f).modify name Instance.cancelRestart) rfl (.turn _ w s)
        (turn_toManager w s) (.refl _ _) he
    · rename_i hd
      rw [if_neg hd]
      exact .laterCall (f := (·.modify name f)) rfl (.turn _ w s) (turn_toManager w s)
        (.schedule none (.restart name) ⟨_, rfl, rfl, hr⟩) he

/-- A stop is over. -/
theorem endStop_act (hi : s.instances[name]? = some i) (hs : i.state = .deactivating) :
    Acted (some (.finished name)) s (endStop w name i s) :=
  ended_act (by simp [Call.announced, hi]) fun _ h => .finished hi hs (turn_now w s) h

/-- The main process of a unit exited, when that is not the readiness of a
`forking` service. -/
theorem exited_act {x : Exit} {pid : Pid} (hi : s.instances[name]? = some i) (hc : i.child = some pid)
    (hf : ¬((i.unit.service.any fun sv => sv.ty = .forking) ∧ i.state = .activating)) :
    Acted (some (.exited name x)) s (match (i.onExit (s.turn w).kernel.now x).1 with
      | some delay => restartUnlessGoingDown w name delay
          (((s.turn w).note (.exited name x)).modify name fun i => (i.onExit (s.turn w).kernel.now x).2)
      | none => ((s.turn w).note (.exited name x)).modify name fun i =>
          (i.onExit (s.turn w).kernel.now x).2) :=
  ended_act (by simp [Call.announced, hi]) fun _ h => .exited hi hc hf (turn_now w s) h

/-- A unit is gone. -/
theorem unitVanished_act (hi : s.instances[name]? = some i) (hs : i.state = .active) (hc : i.child = none) :
    Acted (some (.vanished name)) s (unitVanished w name s) := by
  simp only [unitVanished, hi]
  have hm : (((s.turn w).note (.vanished name)).modify name fun i =>
      (i.onExit (s.turn w).kernel.now .abnormal).2).toManager =
      s.toManager.modify name fun i => (i.onExit (s.turn w).kernel.now .abnormal).2 := by simp
  split
  · rename_i delay h
    exact .laterCall (c := .vanished name)
      (f := (·.modify name fun i => (i.onExit (s.turn w).kernel.now .abnormal).2)) rfl (.turn _ w s)
      (turn_toManager w s) (.schedule none (.restart name) ⟨_, rfl, rfl, by simp [Call.announced, hi, h]⟩)
      (schedule_effect hm fun tie due fd hdue => .vanishedRestart hi hs hc (turn_now w s) h hdue)
  · rename_i h
    exact .laterCall (c := .vanished name)
      (f := (·.modify name fun i => (i.onExit (s.turn w).kernel.now .abnormal).2)) rfl (.turn _ w s)
      (turn_toManager w s) (.refl _ _) (hm ▸ .vanished hi hs hc (turn_now w s) h)

/-! ## Deadlines and messages -/

theorem kill_act (hi : s.instances[name]? = some i) (hs : i.state = .deactivating) :
    Acted (some (.kill name)) s (sigkill w name i.pid ((s.note (.kill name)).modify name Instance.stopTimedOut)) :=
  .callThen (c := .kill name) (f := (·.modify name Instance.stopTimedOut)) rfl
    (.still (.sigkill _ w name _ _))
    (by rw [sigkill_toManager]; exact .kill hi hs)

theorem armWatchdog_act {interval : Nat} (hi : s.instances[name]? = some i)
    (hw : i.unit.service.bind (·.watchdogSec) = some interval) (hs : i.state = .active) :
    Acted none s (armWatchdog w name interval s) :=
  .quiet (f := id) (.refl _ s) rfl rfl (.schedule none (.watchdogCheck name) trivial)
    (schedule_effect rfl fun _ _ _ hdue => .watched hi hw hs hdue)

theorem checkWatchdog_routines (w : World) (name : Name) (s : Supervisor) : Routines s (checkWatchdog w name s) := by
  simp only [checkWatchdog]
  split
  · exact .refl
  · rename_i i hi
    split
    · exact .refl
    · rename_i interval hw
      split
      · exact .refl
      · rename_i hs
        refine .head ((Acted.turn w s).routine rfl) ?_
        split
        · exact .head ((Acted.mark (c := .hung name) rfl _).routine rfl) (stop_routines w name .watchdog _)
        · exact (armWatchdog_act (by rw [turn_toManager, hi]) hw (by simpa using hs)).routines rfl

theorem rearm_rest {timer : Timer} (htm : s.timerOf name = some timer) :
    Rest none (s.note (.elapsed name)) (rearm w name timer s) := by
  have ht := Still.turn none w (s.note (.elapsed name))
  exact .head ht (.arm _ _ _ fun next hnext =>
    ⟨timer, s.toMachine, by rw [turn_toManager]; exact htm, .inr ⟨ht.lastCall.trans (lastCall_note rfl s), hnext⟩⟩)

/-- A timer that has elapsed is armed again. -/
theorem rearm_act {timer : Timer} (htm : s.timerOf name = some timer) (hd : s.shuttingDown = false) :
    Acted (some (.elapsed name)) s (rearm w name timer s) := by
  refine .callThen (c := .elapsed name) (f := id) rfl (rearm_rest htm) ?_
  have ha := arm_armed w name (timer.schedule.next ((s.note (.elapsed name)).turn w).kernel.wall)
    ((s.note (.elapsed name)).turn w)
  rw [turn_toManager] at ha
  exact .elapsed htm hd (ha.mono (turn_now w (s.note (.elapsed name))))

/-- A unit reports that it is ready. -/
theorem ready_act (hs : s.stateOf name = some .activating) : Acted none s (ready w name s) := by
  simp only [Manager.stateOf, Option.map_eq_some_iff] at hs
  obtain ⟨i, hi, hs⟩ := hs
  obtain ⟨since, ping, ht, hp, hn, e⟩ := enterActive_manager w name s
  have hw : (enterActive w name s).serviceOf name = i.unit.service := by
    rw [Manager.serviceOf, Manager.unitOf, e, Manager.get_modify_self hi]
    rfl
  simp only [ready, hw]
  split
  · rename_i interval hw'
    exact .quiet (f := (·.modify name (Instance.enteredActive (s.turn w).kernel.now ((s.turn w).turn w).kernel.now)))
      ((Still.turn _ w s).trans (.turn _ w _)) (by simp) rfl
      (.schedule none (.watchdogCheck name) trivial)
      (schedule_effect e fun _ _ _ hdue => .readyWatched hi hs hw' ht hp ((Nat.add_le_add_right hn _).trans hdue))
  · rename_i hw'
    exact .later (f := (·.modify name (Instance.enteredActive (s.turn w).kernel.now ((s.turn w).turn w).kernel.now))) rfl
      ((Still.turn _ w s).trans (.turn _ w _)) (by simp) (.ready hi hs hw' (turn_now w s) (turn_now w _))

theorem ping_act (w : World) (name : Name) (s : Supervisor) : Acted none s (ping w name s) :=
  .later (f := (·.modify name (Instance.pinged (s.turn w).kernel.now))) rfl (.turn _ w s) (turn_toManager w s)
    (.pinged (turn_now w s))

theorem ready_routines (w : World) (name : Name) (b : Bool) (s : Supervisor) :
    Routines s (if b ∧ s.stateOf name = some .activating then ready w name s else s) := by
  split
  · exact (ready_act (And.right ‹_›)).routines rfl
  · exact .refl

theorem ping_routines (w : World) (name : Name) (b : Bool) (s : Supervisor) :
    Routines s (if b then ping w name s else s) := by
  split
  · exact (ping_act w name s).routines rfl
  · exact .refl

theorem said_routines (name : Name) (status : Option String) (s : Supervisor) :
    Routines s (match status with
      | some status => s.modify name (Instance.said status)
      | none => s) := by
  split
  · exact (Acted.now (f := (·.modify name (Instance.said _))) rfl .said).routines rfl
  · exact .refl

/-- A message starts nothing. -/
theorem onMessage_routines (w : World) (message : Message) (s : Supervisor) : Routines s (onMessage w message s) := by
  simp only [onMessage]
  split
  · exact .refl
  · rename_i name _
    exact .head ((Acted.mark (c := .message name message) rfl s).routine rfl)
      ((said_routines name message.status _).trans ((ping_routines w name _ _).trans (ready_routines w name _ _)))

theorem onNotify_routines (w : World) (s : Supervisor) : Routines s (onNotify w s) := by
  have hdrain := Acted.onKernel (s := s.turn w) (f := (·.drained)) (Kernel.drained_drifts _).toLater
  refine .head ((Acted.turn w s).routine rfl) (.head (hdrain.routine rfl) ?_)
  exact Framework.foldl_run (fun s message => onMessage_routines w message s) _ _

theorem syncSockets_routines (w : World) (s : Supervisor) : Routines s (syncSockets w s) := by
  refine Framework.foldl_run (fun s id => ?_) _ s
  simp only [syncSocket]
  split
  · exact .refl
  · rename_i bound hb
    split
    · exact .refl
    · refine .head ((Acted.turn w s).routine rfl) ?_
      split
      · exact (Acted.now (f := (·.setArmed id _ _)) rfl (.armed (by rwa [turn_toManager]))).routines rfl
      · exact .refl

end Supervisor

end Oxinit
