import Oxinit.Proof.Operations

/-!
# Event handlers as runs

A `Deed` is an act, a turn of the start queue, or a call of `start` with what
its caller has checked (`Origin`). Every handler below the deadlines, the
shutdown and the reload is a run of deeds. A `Tour` adds what those do:
taking alarms from a heap, handling them one by one, beginning a shutdown,
and changing the set of units. Every event is a run of tours.
-/

namespace Oxinit

open Framework (Deadline)
open Relation (ReflTransGen)

/-- A unit is known and neither up nor on the way up or down. -/
def Manager.isDown (m : Manager) (name : Name) : Bool := m.instances[name]?.any (·.state.down)

/-- A restart leaves an instance as it is, or without its delay. -/
theorem Restarts.get {now : Nat} {name : Name} {m m' : Manager} {r : Option Nat} {i : Instance}
    (h : Restarts now name m r m') (hi : m.instances[name]? = some i) :
    m'.instances[name]? = some i ∨ m'.instances[name]? = some i.cancelRestart := by
  cases h with
  | no => exact .inl hi
  | scheduled => exact .inl hi
  | cancelled => exact .inr (Manager.get_modify_self hi)

/-- The waits of a unit that an alarm ends. -/
inductive Wait
  | start
  | stop
  | backoff

/-- The state in which a unit waits. -/
def Wait.state : Wait → State
  | .start => .activating
  | .stop => .deactivating
  | .backoff => .restarting

def Wait.alarm : Wait → Name → Alarm
  | .start => .startTimeout
  | .stop => .stopTimeout
  | .backoff => .restart

/-! ## Deeds -/

/-- The last call, but for moves of the world and stops. -/
def Last (s : Supervisor) (e : Call × Machine) : Prop := s.history.find? (fun x => !x.1.isStop) = some e

theorem Last.mem {s : Supervisor} {e : Call × Machine} (h : Last s e) : e ∈ s.history := List.mem_of_find?_eq_some h

theorem Last.note (s : Supervisor) (c : Call) (hc : c.isStop = false) : Last (s.note c) (c, s.toMachine) := by
  simp [Last, hc]

/-- A call stays the last one while units are only stopped. -/
theorem Last.append {s s' : Supervisor} {e : Call × Machine} {new : List (Call × Machine)} (h : Last s e)
    (hn : s'.history = new ++ s.history) (hs : ∀ x ∈ new, x.1.isStop = true) : Last s' e := by
  rw [Last, hn, List.find?_append, List.find?_eq_none.mpr (by simpa using hs), Option.none_or]
  exact h

/-- Since the last call of an earlier state there has been another, or it
is still the last. -/
theorem Last.mem_or_eq {s s₀ : Supervisor} {e e₀ : Call × Machine} {new : List (Call × Machine)} (h : Last s e)
    (h₀ : Last s₀ e₀) (hn : s.history = new ++ s₀.history) : e ∈ new ∨ e = e₀ := by
  rw [Last, hn, List.find?_append, show s₀.history.find? _ = _ from h₀] at h
  cases hf : new.find? fun x => !x.1.isStop with
  | none =>
    rw [hf, Option.none_or] at h
    exact .inr (Option.some.inj h).symm
  | some x =>
    rw [hf, Option.some_or] at h
    exact .inl (Option.some.inj h ▸ List.mem_of_find?_eq_some hf)

/-- Why `start` is called, outside the queue. -/
inductive Origin (s : Supervisor) (name : Name) : Prop
  | requested {m : Machine} (h : Last s (.request (.start name), m)) (hm : m.toManager = s.toManager)
      (hd : s.shuttingDown = false)
  | restarted {m : Machine} (h : Last s (.request (.restart name), m)) (hq : name ∉ s.pending)
      (hi : s.idle name = true)
  | connection {m : Machine} (h : Last s (.connection name, m)) (hm : m.toManager = s.toManager)
      (hi : s.idle name = true)
  | elapsed {t : Name} {m : Machine} {timer : Timer} (h : Last s (.elapsed t, m))
      (htm : m.timerOf t = some timer) (hs : timer.service = name) (hu : m.instances = s.instances)
      (hq : m.pending = s.pending) (hi : s.idle name = true)
  | backoff (hs : s.stateOf name = some .restarting)

/-- `a` is the alarm that brings the deed about, if one does. -/
inductive Deed (w : World) (a : Option Alarm) : Supervisor → Supervisor → Prop
  | act {c s s'} (h : Acted c s s') (hc : Call.isRoutine c = true) : Deed w a s s'
  | fire {c s s'} (h : Acted c s s') (hc : Call.alarm c = a) (ha : a ≠ none) : Deed w a s s'
  | pump {s name} (hd : s.shuttingDown = false) (h : s.nextStartable = some name) :
      Deed w a s (Supervisor.pumpTurn w name s)
  | start {s name} (h : Origin s name) : Deed w a s (Supervisor.start w name s)
  /-- The unit is asked to stop, and is not down yet. -/
  | await {s name m i j} (h : Last s (.request (.restart name), m)) (hd : m.shuttingDown = false)
      (hj : m.instances[name]? = some j) (ho : Supervisor.StopOutcome .requested j i) (hq : name ∉ s.pending)
      (hi : s.instances[name]? = some i) (hs : isIdle i.state = false) :
      Deed w a s ((s.note (.await name)).update (·.awaitRestart name))
  /-- What a `forking` service left behind is not ready. -/
  | fail {s name} (hs : s.stateOf name = some .activating) : Deed w a s (Supervisor.fail name s)
  /-- A stop is over, and no restart was asked for. -/
  | finish {s name i} (hi : s.instances[name]? = some i) (hs : i.state = .deactivating)
      (hp : name ∉ (Supervisor.endStop w name i s).pendingRestart) : Deed w a s (Supervisor.endStop w name i s)
  /-- A stop is over, and a restart was asked for. -/
  | again {s name i} (hi : s.instances[name]? = some i) (hs : i.state = .deactivating)
      (hp : name ∈ (Supervisor.endStop w name i s).pendingRestart) :
      Deed w a s (Supervisor.start w name
        (((Supervisor.endStop w name i s).update (·.takeRestart name)).note (.again name)))

abbrev Deeds (w : World) (a : Option Alarm) : Supervisor → Supervisor → Prop := ReflTransGen (Deed w a)

theorem Deed.weaken {w : World} {a : Option Alarm} {s s' : Supervisor} (h : Deed w none s s') : Deed w a s s' := by
  cases h with
  | act h hc => exact .act h hc
  | fire _ _ ha => exact absurd rfl ha
  | pump hd h => exact .pump hd h
  | start h => exact .start h
  | await h hd hj ho hq hi hs => exact .await h hd hj ho hq hi hs
  | fail hs => exact .fail hs
  | finish hi hs hp => exact .finish hi hs hp
  | again hi hs hp => exact .again hi hs hp

theorem Deeds.weaken {w : World} {a : Option Alarm} {s s' : Supervisor} (h : Deeds w none s s') : Deeds w a s s' :=
  Framework.refine_run (fun h => .single h.weaken) h

theorem Deed.deeds {w : World} {a : Option Alarm} {s s' : Supervisor} (h : Deed w a s s') : Deeds w a s s' := .single h

theorem Acted.deeds {w : World} {a : Option Alarm} {c : Option Call} {s s' : Supervisor} (h : Acted c s s')
    (hc : Call.isRoutine c = true) : Deeds w a s s' :=
  .single (.act h hc)

theorem Routine.deeds {w : World} {a : Option Alarm} {s s' : Supervisor} (h : Routine s s') : Deeds w a s s' := by
  obtain ⟨c, h, hc⟩ := h
  exact h.deeds hc

theorem Routines.deeds {w : World} {a : Option Alarm} {s s' : Supervisor} (h : Routines s s') : Deeds w a s s' :=
  Framework.refine_run Routine.deeds h

namespace Supervisor

variable {w : World} {a : Option Alarm} {s : Supervisor} {name : Name} {i : Instance}

/-- A start is the call, the stops of what the unit excludes, and the unit,
if it is known. -/
theorem start_raised (w : World) (name : Name) {s : Supervisor} (hd : s.shuttingDown = false) :
    ((exclude w name (s.note (.start name))).instances[name]? = none ∧
        start w name s = exclude w name (s.note (.start name))) ∨
      Raised name (exclude w name (s.note (.start name))) (start w name s) := by
  have hx := (exclude_chores w name (s.note (.start name))).kept.shuttingDown.trans hd
  simp only [start]
  rw [if_neg (by rw [note_toMachine, hd]; decide)]
  split
  · exact .inl ⟨‹_›, rfl⟩
  · exact .inr (bringUp_raised ‹_› hx)

theorem start_goingDown (w : World) (name : Name) {s : Supervisor} (hd : s.shuttingDown = true) :
    start w name s = s.note (.start name) := by
  simp only [start]
  rw [if_pos (by exact hd)]

/-- To start a unit is an errand for it. -/
theorem Raised.errands {s' : Supervisor} (h : Raised name s s') : Errands name s s' := by
  obtain ⟨c, s₁, hst, hm, ha, hc⟩ := h
  refine .head ((Acted.still hst hm).chore rfl).errand (.single ⟨_, ha, ?_⟩)
  rcases hc with rfl | rfl | rfl | rfl
  · exact .inr rfl
  · exact .inr rfl
  · exact .inl rfl
  · exact .inr rfl

/-- `start` does nothing but what its unit needs. -/
theorem start_errands (w : World) (name : Name) (s : Supervisor) : Errands name s (start w name s) := by
  refine .head ((Acted.mark (c := .start name) rfl s).errand rfl) ?_
  by_cases hd : s.shuttingDown = true
  · rw [start_goingDown w name hd]
  · rcases start_raised w name (eq_false_of_ne_true hd) with ⟨-, e⟩ | h
    · rw [e]
      exact (exclude_chores w name _).errands name
    · exact ((exclude_chores w name _).errands name).trans h.errands

/-- A turn of the queue, once the unit has left it. -/
theorem pumpTurn_rest (w : World) (name : Name) (s : Supervisor) :
    Errands name ((s.note (.pump name)).update (·.dequeue name)) (pumpTurn w name s) := by
  simp only [pumpTurn]
  split
  · exact .single ((fail_act name _).chore rfl).errand
  · exact start_errands w name _

theorem pumpTurn_errands (hd : s.shuttingDown = false) (h : s.nextStartable = some name) :
    Errands name s (pumpTurn w name s) :=
  .head ((Acted.call (c := .pump name) (f := (·.dequeue name)) rfl (.pump hd h)).errand rfl) (pumpTurn_rest w name s)

/-- A stop that is over leaves the unit down. -/
theorem endStop_get (hi : s.instances[name]? = some i) :
    (endStop w name i s).isDown name = true := by
  have hm := Manager.get_modify_self (f := fun i => (i.deactivated (s.turn w).kernel.now).2) hi
  simp only [endStop]
  split
  · rename_i delay _
    have hr := restartUnlessGoingDown_restarts w name delay (((s.turn w).note (.finished name)).modify name
      fun i => (i.deactivated (s.turn w).kernel.now).2)
    simp only [modify_toManager, note_toMachine, turn_toManager] at hr
    rcases hr.get hm with h | h
    · simp [Manager.isDown, h, Instance.deactivated_down]
    · simp [Manager.isDown, h, Instance.cancelRestart_down, Instance.deactivated_down]
  · simp [Manager.isDown, hm, Instance.deactivated_down]

theorem endStop_over (hi : s.instances[name]? = some i) : (endStop w name i s).stateOf name ≠ some .deactivating := by
  obtain ⟨j, hj, hd⟩ := (Option.any_eq_true _ _).mp (endStop_get (w := w) hi)
  rw [Manager.stateOf, hj, Option.map_some, Ne, Option.some_inj]
  exact fun h => by simp [h, State.down] at hd

end Supervisor

/-- Why a unit is started. -/
inductive Reason (s : Supervisor) (name : Name) : Prop
  | queued (h : name ∈ s.pending)
  | origin (h : Origin s name)
  | awaited {m : Machine} (h : Last s (.request (.restart name), m))
  | again {i : Instance} (hi : s.instances[name]? = some i) (hs : i.state = .deactivating)
      (hp : name ∈ s.pendingRestart)

/-- A deed is a chore, is brought about by an alarm, or is an errand of a unit
there is a reason to start. -/
theorem Deed.errands {w : World} {a : Option Alarm} {s s' : Supervisor} (h : Deed w a s s') :
    Chore s s' ∨ (∃ c, Acted c s s' ∧ Call.alarm c = a ∧ a ≠ none) ∨ ∃ name, Reason s name ∧ Errands name s s' := by
  cases h with
  | act h hc => exact .inl (h.chore (Call.isChore_of_isRoutine hc))
  | fail => exact .inl ((Supervisor.fail_act _ s).chore rfl)
  | finish hi hs => exact .inl ((Supervisor.endStop_act hi hs).chore rfl)
  | fire h hc ha => exact .inr (.inl ⟨_, h, hc, ha⟩)
  | pump hd h => exact .inr (.inr ⟨_, .queued (List.mem_of_find?_eq_some h), Supervisor.pumpTurn_errands hd h⟩)
  | start h => exact .inr (.inr ⟨_, .origin h, Supervisor.start_errands w _ s⟩)
  | await h _ _ _ _ hi hs => exact .inr (.inr ⟨_, .awaited h, .single ((Acted.call rfl (.awaitRestart hi hs)).errand rfl)⟩)
  | again hi hs hp =>
    rename_i name i
    have ha := Supervisor.endStop_act (w := w) hi hs
    have hq : (Supervisor.endStop w name i s).pendingRestart = s.pendingRestart := ha.effect.finished_pendingRestart
    exact .inr (.inr ⟨name, .again hi hs (hq ▸ hp), .head (ha.chore rfl).errand
      (.head ((Acted.now (f := (·.takeRestart _)) rfl (.takeRestart hp (Supervisor.endStop_over hi))).chore rfl).errand
        (.head ((Acted.mark (c := .again _) rfl _).chore rfl).errand (Supervisor.start_errands w _ _)))⟩)

/-- A deed is a sequence of acts. -/
theorem Deed.acts {w : World} {a : Option Alarm} {s s' : Supervisor} (h : Deed w a s s') : Acts s s' := by
  rcases h.errands with hc | ⟨c, ha, -⟩ | ⟨_, -, he⟩
  · exact hc.act.acts
  · exact ha.acts
  · exact he.acts

theorem Deeds.acts {w : World} {a : Option Alarm} {s s' : Supervisor} (h : Deeds w a s s') : Acts s s' :=
  Framework.refine_run Deed.acts h

theorem Deed.dues {w : World} {a : Option Alarm} {s s' : Supervisor} (h : Deed w a s s') : Dues a s s' := by
  rcases h.errands with hc | ⟨c, ha, hc, -⟩ | ⟨_, -, he⟩
  · exact .single (hc.due a)
  · exact .single ⟨c, ha, .inr hc⟩
  · exact he.dues a

theorem Deeds.dues {w : World} {a : Option Alarm} {s s' : Supervisor} (h : Deeds w a s s') : Dues a s s' :=
  Framework.refine_run Deed.dues h

namespace Supervisor

variable {w : World} {a : Option Alarm} {s : Supervisor} {name : Name} {i : Instance}

/-! ## The handlers -/

theorem pumpLoop_deeds (w : World) (fuel : Nat) (s : Supervisor) (hd : s.shuttingDown = false) :
    Deeds w a s (pumpLoop w fuel s) := by
  induction fuel generalizing s with
  | zero => exact .refl
  | succ fuel ih =>
    simp only [pumpLoop]
    split
    · exact .refl
    · rename_i name h
      exact .head (.pump hd h) (ih _ ((pumpTurn_errands hd h).acts.kept.shuttingDown.trans hd))

/-- What `pump` does. -/
theorem pump_deeds (w : World) (s : Supervisor) : Deeds w a s (pump w s) := by
  simp only [pump]
  split
  · exact (Acted.now (f := (·.setPending [])) rfl (.clear ‹_›)).deeds rfl
  · exact pumpLoop_deeds w _ s (eq_false_of_ne_true ‹_›)

theorem finishDeactivation_deeds (w : World) (name : Name) (s : Supervisor) :
    Deeds w a s (finishDeactivation w name s) := by
  simp only [finishDeactivation]
  split
  · exact .refl
  · rename_i i hi
    split
    · exact .refl
    · rename_i hs
      split
      · exact (Deed.again hi (by simpa using hs) ‹_›).deeds
      · exact (Deed.finish hi (by simpa using hs) ‹_›).deeds

theorem forkingParentExited_deeds {service : Service} {exit : Exit} (hi : s.instances[name]? = some i)
    (hsv : i.unit.service = some service) (hty : service.ty = .forking) (hs : i.state = .activating) :
    Deeds w a s (forkingParentExited w name exit s) := by
  have hst : s.stateOf name = some .activating := by rw [Manager.stateOf, hi, Option.map_some, hs]
  simp only [forkingParentExited]
  split
  · exact (Deed.fail hst).deeds
  · rename_i cgroup _
    refine .head (.act (Acted.still (.readPopulated _ w cgroup s) (readPopulated_toManager ..)) rfl) ?_
    have hm := readPopulated_toManager w cgroup s
    split
    · generalize (readPopulated w cgroup s).2 = s₁ at hm
      refine (Acted.later (f := (·.modify name (Instance.forkedAway (s₁.turn w).kernel.now
        ((s₁.turn w).turn w).kernel.now))) rfl ((Still.turn _ w s₁).trans (.turn _ w _)) (by simp) ?_).deeds rfl
      exact .forkedAway (hm ▸ hi) hsv hty hs (turn_now w s₁) (turn_now w _)
    · exact (Deed.fail (by rwa [hm])).deeds

theorem onReaped_deeds (w : World) (child : Pid × WaitStatus) (s : Supervisor) :
    Deeds w a s (onReaped w child s) := by
  simp only [onReaped]
  split
  · exact .refl
  · rename_i name hn
    split
    · exact .refl
    · rename_i i hi
      split
      · rename_i hf
        simp only [Option.any_eq_true, decide_eq_true_eq] at hf
        obtain ⟨⟨service, hsv, hty⟩, hs⟩ := hf
        exact .head (.act (Acted.mark (c := .exited name _) rfl s) rfl)
          (forkingParentExited_deeds (s := s.note (.exited name _)) hi hsv hty hs)
      · rename_i hf
        have hc : i.child = some child.1 := by
          obtain ⟨j, hj, hc⟩ := Manager.unitForPid_get hn
          cases hj.symm.trans hi
          exact hc
        have ha := exited_act (w := w) (x := Exit.fromStatus child.2.exitStatus child.2.terminatingSignal) hi hc hf
        generalize (i.onExit (s.turn w).kernel.now
          (Exit.fromStatus child.2.exitStatus child.2.terminatingSignal)).1 = r at ha ⊢
        cases r with
        | some delay => exact ha.deeds rfl
        | none =>
          refine .head (.act ha rfl) ?_
          dsimp only
          split
          · split
            · exact finishDeactivation_deeds w name _
            · rename_i cgroup _
              refine .head (.act (Acted.still (.readPopulated _ w cgroup _) (readPopulated_toManager ..)) rfl) ?_
              split
              · exact .refl
              · exact finishDeactivation_deeds w name _
          · exact .refl

theorem onChildren_deeds (w : World) (children : List (Pid × WaitStatus)) (s : Supervisor) :
    Deeds w a s (onChildren w children s) := by
  induction children generalizing s with
  | nil => exact .refl
  | cons child rest ih =>
    exact .head (.act (Acted.now (f := (·.setReaping rest)) rfl .reaping) rfl) ((onReaped_deeds w child _).trans (ih _))

theorem onSigchld_deeds (w : World) (s : Supervisor) : Deeds w a s (onSigchld w s) :=
  .head (.act (Acted.turn w s) rfl) (.head (.act (Acted.onKernel (f := (·.reaped)) (Kernel.reaped_later _)) rfl)
    (.head (.act (Acted.now (f := (·.setReaping (s.turn w).kernel.zombies)) rfl .reaping) rfl) (onChildren_deeds w _ _)))

theorem onCgroup_deeds (w : World) (id : Nat) (s : Supervisor) : Deeds w a s (onCgroup w id s) := by
  simp only [onCgroup]
  split
  · exact .refl
  · rename_i name _
    refine .head (.act (Acted.turn w s) rfl) ?_
    have hr : Deeds w a (s.turn w) (if (w s.ticks).ok then (s.turn w).onKernel (·.read id name) else s.turn w) := by
      split
      · exact (Acted.onKernel (f := (·.read id name)) (Kernel.read_later ..)).deeds rfl
      · exact .refl
    refine hr.trans ?_
    generalize (if (w s.ticks).ok then (s.turn w).onKernel (·.read id name) else s.turn w) = s₁
    split
    · exact .refl
    · split
      · exact .refl
      · split
        · exact finishDeactivation_deeds w name _
        · split
          · rename_i i hi _ hs
            exact (unitVanished_act hi hs.1 hs.2).deeds rfl
          · exact .refl

theorem rearm_last {timer : Timer} (htm : s.timerOf name = some timer) :
    Last (rearm w name timer s) (.elapsed name, s.toMachine) := by
  obtain ⟨new, e, hn⟩ := (rearm_rest (w := w) htm).log
  exact (Last.note s (.elapsed name) rfl).append e fun x hx => Call.isStop_of_isWorld (hn x hx).1.isWorld

theorem rearm_frame (w : World) (name : Name) (timer : Timer) (s : Supervisor) :
    (rearm w name timer s).instances = s.instances ∧ (rearm w name timer s).pending = s.pending := by
  have h := (arm_armed w name (timer.schedule.next ((s.note (.elapsed name)).turn w).kernel.wall)
    ((s.note (.elapsed name)).turn w)).frame
  rw [turn_toManager] at h
  exact ⟨h.1, h.2.1⟩

/-- Once a timer that has elapsed is armed again, what it names is started. -/
theorem timerElapsed_rest {timer : Timer} (htm : s.timerOf name = some timer) (hd : s.shuttingDown = false) :
    Deeds w a (rearm w name timer s) (timerElapsed w name s) := by
  simp only [timerElapsed, htm]
  rw [if_neg (by rw [hd]; decide)]
  split
  · rename_i hi
    obtain ⟨hu, hq⟩ := rearm_frame w name timer s
    exact (Deed.start (.elapsed (rearm_last htm) htm rfl hu.symm hq.symm hi)).deeds
  · exact .refl

/-- The handler of `stop_timed_out`: it kills the unit, or does nothing. -/
theorem stopTimedOut_killed (w : World) (name : Name) (s : Supervisor) :
    stopTimedOut w name s = s ∨
      s.stateOf name = some .deactivating ∧ Acted (some (.kill name)) s (stopTimedOut w name s) := by
  simp only [stopTimedOut]
  split
  · exact .inl rfl
  · rename_i i hi
    split
    · exact .inl rfl
    · rename_i hs
      have hs := not_not.mp hs
      exact .inr ⟨by rw [Manager.stateOf, hi, Option.map_some, hs], kill_act hi hs⟩

/-- An alarm that still means something is handled by the call it brings about
and what follows from it. -/
theorem onAlarm_fires (w : World) (alarm : Alarm) (s : Supervisor) :
    Deeds w none s (onAlarm w alarm s) ∨ ∃ c s₁, Call.alarm (some c) = some alarm ∧
      (∀ (x : Wait) u, alarm = x.alarm u → s.stateOf u = some x.state) ∧ Acted (some c) s s₁ ∧
        Deeds w none s₁ (onAlarm w alarm s) := by
  cases alarm with
  | restart unit =>
    simp only [onAlarm]
    split
    · rename_i hs
      refine .inr ⟨_, _, rfl, fun x u e => ?_, Acted.mark (c := .backoff unit) rfl s,
        (Deed.start (s := s.note (.backoff unit)) (.backoff hs)).deeds⟩
      cases x <;> cases e
      exact hs
    · exact .inl .refl
  | watchdogCheck unit => exact .inl (checkWatchdog_routines w unit s).deeds
  | stopTimeout unit =>
    rcases stopTimedOut_killed w unit s with e | ⟨hs, h⟩
    · exact .inl (by rw [onAlarm, e])
    · refine .inr ⟨_, _, rfl, fun x u e => ?_, h, .refl⟩
      cases x <;> cases e
      exact hs
  | timerElapsed unit =>
    simp only [onAlarm]
    cases htm : s.timerOf unit with
    | none =>
      simp only [timerElapsed, htm]
      exact .inl .refl
    | some timer =>
      by_cases hd : s.shuttingDown = true
      · simp only [timerElapsed, htm]
        rw [if_pos hd]
        exact .inl .refl
      · have hd' := eq_false_of_ne_true hd
        refine .inr ⟨_, _, rfl, fun x u e => ?_, rearm_act (w := w) htm hd', timerElapsed_rest htm hd'⟩
        cases x <;> cases e
  | startTimeout unit =>
    simp only [onAlarm, startTimedOut]
    split
    · exact .inl .refl
    · rename_i i hi
      split
      · exact .inl .refl
      · rename_i hs
        refine .inr ⟨_, _, rfl, fun x u e => ?_, Acted.mark (c := .late unit) rfl s,
          (stop_routines w unit .watchdog _).deeds⟩
        cases x <;> cases e
        simp only [Manager.stateOf, hi, Option.map_some]
        exact congrArg some (not_not.mp hs)

theorem onAlarm_deeds (w : World) (alarm : Alarm) (s : Supervisor) : Deeds w (some alarm) s (onAlarm w alarm s) := by
  rcases onAlarm_fires w alarm s with h | ⟨c, s₁, hc, -, ha, h⟩
  · exact h.weaken
  · exact .head (.fire ha hc (by simp)) h.weaken

theorem onSocket_deeds (w : World) (id : Nat) (s : Supervisor) : Deeds w a s (onSocket w id s) := by
  simp only [onSocket]
  split
  · exact .refl
  · rename_i service _
    refine .head (.act (Acted.mark (c := .connection service) rfl s) rfl) ?_
    split
    · exact (Deed.start (.connection (Last.note s _ rfl) rfl ‹_›)).deeds
    · exact .refl

theorem describeAll_routines (w : World) (is : List Instance) (s : Supervisor) : Routines s (describeAll w is s).2 := by
  induction is generalizing s with
  | nil => exact .refl
  | cons i is ih => exact .head ((Acted.turn w s).routine rfl) (ih _)

/-- What `stop` leaves of a unit. -/
theorem stop_outcome {c : Call} {cause : StopCause} (hi : (stop w name cause (s.note c)).instances[name]? = some i) :
    ∃ j, s.instances[name]? = some j ∧ StopOutcome cause j i := by
  cases hj : s.instances[name]? with
  | none => cases (stop_get_none (s := s.note c) hj).symm.trans hi
  | some j =>
    obtain ⟨i', hi', ho⟩ := stop_get_self (w := w) (c := cause) (s := s.note c) hj
    cases hi.symm.trans hi'
    exact ⟨j, rfl, ho⟩

theorem restartWhenStopped_deeds {m : Machine} (h : Last s (.request (.restart name), m))
    (hd : m.shuttingDown = false) (hq : name ∉ s.pending)
    (ho : ∀ i, s.instances[name]? = some i → ∃ j, m.instances[name]? = some j ∧ StopOutcome .requested j i) :
    Deeds w a s (restartWhenStopped w name s) := by
  simp only [restartWhenStopped]
  split
  · exact .refl
  · rename_i i hi
    split
    · exact (Deed.start (.restarted h hq (by simpa [Manager.idle, hi]))).deeds
    · obtain ⟨j, hj, ho⟩ := ho i hi
      exact (Deed.await h hd hj ho hq hi (eq_false_of_ne_true ‹_›)).deeds

theorem handle_deeds {request : Request} (w : World) (s : Supervisor) (hr : request ≠ .reload) :
    Deeds w a s (handle w request s).2 := by
  refine .head (.act (Acted.mark (c := .request request) rfl s) rfl) ?_
  cases request with
  | list => exact (describeAll_routines w _ _).deeds
  | status unit =>
    simp only [handle]
    split
    · exact (Acted.turn w _).deeds rfl
    · exact .refl
  | start unit =>
    simp only [handle]
    split
    · exact .refl
    · split
      · exact .refl
      · exact (Deed.start (.requested (Last.note s _ rfl) rfl (eq_false_of_ne_true ‹_›))).deeds
  | stop unit =>
    simp only [handle]
    split
    · exact .refl
    · exact (stop_routines w unit .requested _).deeds
  | restart unit =>
    simp only [handle]
    split
    · exact .refl
    · split
      · exact .refl
      · obtain ⟨new, e, hn⟩ := stop_log w unit .requested (s.note (.request (.restart unit)))
        exact (stop_routines w unit .requested _).deeds.trans
          (restartWhenStopped_deeds ((Last.note s _ rfl).append e hn) (eq_false_of_ne_true ‹_›)
            (stop_dequeued w unit .requested _) fun i hi => stop_outcome hi)
  | reload => exact absurd rfl hr

/-! ## Tours -/

end Supervisor

/-- What an event is made of; `r` is whether it may be a reload. -/
inductive Tour (w : World) (r : Bool) : Supervisor → Supervisor → Prop
  | deed {s s'} (h : Deed w none s s') : Tour w r s s'
  | expire {s} (hf : s.fired = []) : Tour w r s (s.update (·.takeExpired s.kernel.now))
  | expireWall {s now m} (hf : s.fired = []) (h : s.lastCall = some (.wallTimer, m)) (hm : m.kernel.wall = now) :
      Tour w r s (s.update (·.takeWallExpired now))
  /-- The timerfd cannot be set, and what fired is lost. -/
  | lose {s} (h : (∃ n, (w n).timerfd = false) ∨ s.fired = []) : Tour w r s (s.update (·.setFired []))
  | alarm {s e rest} (hf : s.fired = e :: rest) :
      Tour w r s (Supervisor.onAlarm w e.alarm (s.update (·.setFired rest)))
  | shutdown {s action} (hd : s.shuttingDown = false) : Tour w r s (Supervisor.beginShutdown w action s)
  | addHandle {s name ok} (hr : r = true) : Tour w r s (s.update (·.addHandle name ok))
  | insert {s name unit} (hr : r = true) (h : s.instances[name]? = none ∨ s.idle name = true) :
      Tour w r s (s.update (·.insertUnit name unit))
  | keep {s p} (hr : r = true) (h : ∀ name i, s.instances[name]? = some i → p name i = false → isIdle i.state = true) :
      Tour w r s (s.update (·.keep p))

abbrev Tours (w : World) (r : Bool) : Supervisor → Supervisor → Prop := ReflTransGen (Tour w r)

theorem Deeds.tours {w : World} {r : Bool} {s s' : Supervisor} (h : Deeds w none s s') : Tours w r s s' :=
  Framework.refine_run (fun h => .single (.deed h)) h

theorem Acted.tours {w : World} {r : Bool} {c : Option Call} {s s' : Supervisor} (h : Acted c s s')
    (hc : Call.isRoutine c = true) : Tours w r s s' :=
  (h.deeds hc).tours

namespace Supervisor

variable {w : World} {r : Bool} {s : Supervisor} {name : Name} {i : Instance}

theorem dispatch_tours (w : World) (l : List Entry) (s : Supervisor) (hf : s.fired = l) :
    Tours w r s (dispatch w l s) ∧ (dispatch w l s).fired = [] := by
  induction l generalizing s with
  | nil => exact ⟨.refl, hf⟩
  | cons e rest ih =>
    have h := ih (onAlarm w e.alarm (s.update (·.setFired rest))) (onAlarm_deeds w e.alarm _).acts.kept.fired
    exact ⟨.head (.alarm hf) h.1, h.2⟩

/-- Timers are handled alike on both clocks. -/
theorem dispatchWall_eq (w : World) (l : List Entry) (s : Supervisor) (h : ∀ e ∈ l, ∃ u, e.alarm = .timerElapsed u) :
    dispatchWall w l s = dispatch w l s := by
  induction l generalizing s with
  | nil => rfl
  | cons e rest ih =>
    obtain ⟨u, hu⟩ := h e (List.mem_cons_self ..)
    have e' : onWallAlarm w e.alarm = onAlarm w e.alarm := by
      rw [hu]
      rfl
    simp only [dispatchWall, dispatch, e']
    exact ih _ fun e he => h e (List.mem_cons_of_mem _ he)

theorem armTimer_act (w : World) (s : Supervisor) : Acted none s (armTimer w s).2 := by
  obtain ⟨fd, e⟩ := armTimer_manager w s
  exact .quiet (f := id) (.refl _ s) rfl rfl (.still (.armTimer _ w s)) (e ▸ .fd)

theorem armWall_act (w : World) (s : Supervisor) : Acted none s (armWall w s).2 := by
  obtain ⟨fd, e⟩ := armWall_manager w s
  exact .quiet (f := id) (.refl _ s) rfl rfl (.still (.armWall _ w s)) (e ▸ .wallFd)

theorem expired_tours (w : World) (s : Supervisor) (hf : s.fired = []) : Tours w r s (expired w s) := by
  have h : Tours w r s (armTimer w ((s.turn w).update (·.takeExpired (s.turn w).kernel.now))).2 :=
    ((Acted.turn w s).tours rfl).trans (.head (.expire (by rw [turn_toManager, hf])) ((armTimer_act w _).tours rfl))
  simp only [expired]
  split
  · exact h
  · rename_i hok
    exact h.tail (.lose (.inl ⟨_, eq_false_of_ne_true hok⟩))

theorem wallExpired_tours {now : Nat} {m : Machine} (w : World) (s : Supervisor) (hf : s.fired = [])
    (hw : s.WallTimers) (hc : s.lastCall = some (.wallTimer, m)) (hm : m.kernel.wall = now) :
    Tours w r s (wallExpired w now s) ∧ ∀ e ∈ (wallExpired w now s).fired, ∃ u, e.alarm = .timerElapsed u := by
  have ht : (s.turn w).fired = [] := by rw [turn_toManager, hf]
  have hl : ∀ {s : Supervisor}, ∀ e ∈ (s.update (·.setFired [])).fired, ∃ u, e.alarm = .timerElapsed u := by
    simp [Manager.setFired]
  simp only [wallExpired]
  split
  · exact ⟨((Acted.turn w s).tours rfl).trans (((armWall_act w _).tours rfl).tail
      (.lose (.inr ((armWall_act w _).effect.kept.fired.trans ht)))), hl⟩
  · have h : Tours w r s (armWall w ((s.turn w).update (·.takeWallExpired now))).2 :=
      ((Acted.turn w s).tours rfl).trans (.head (.expireWall ht ((Still.turn none w s).lastCall.trans hc) hm)
        ((armWall_act w _).tours rfl))
    split
    · refine ⟨h, fun e he => hw e ?_⟩
      rw [(armWall_act w _).effect.kept.fired, update_toManager, turn_toManager] at he
      exact Deadline.mem_expired_or_later.mp (.inl he)
    · rename_i hok
      exact ⟨h.tail (.lose (.inl ⟨_, eq_false_of_ne_true hok⟩)), hl⟩

theorem onTimer_tours (w : World) (s : Supervisor) (hf : s.fired = []) :
    Tours w r s (onTimer w s) ∧ (onTimer w s).fired = [] := by
  have h := dispatch_tours (r := r) w (expired w s).fired (expired w s) rfl
  exact ⟨(expired_tours w s hf).trans h.1, h.2⟩

theorem onWallTimer_tours (w : World) (s : Supervisor) (hf : s.fired = []) (hw : s.WallTimers) :
    Tours w r s (onWallTimer w s) ∧ (onWallTimer w s).fired = [] := by
  have ht : (s.turn w).fired = [] ∧ (s.turn w).WallTimers := by rw [turn_toManager]; exact ⟨hf, hw⟩
  obtain ⟨he, hl⟩ := wallExpired_tours (r := r) w ((s.turn w).note .wallTimer) ht.1 ht.2
    (lastCall_note rfl _) rfl
  have h := dispatch_tours (r := r) w _ (wallExpired w (s.turn w).kernel.wall ((s.turn w).note .wallTimer)) rfl
  simp only [onWallTimer, note_toMachine]
  rw [dispatchWall_eq w _ _ hl]
  have hmark := (Acted.mark (c := .wallTimer) rfl (s.turn w)).tours (w := w) (r := r) rfl
  exact ⟨((Acted.turn w s).tours rfl).trans (hmark.trans (he.trans h.1)), h.2⟩

/-! ## The set of units -/

theorem addUnit_tours {unit : Unit} (h : s.instances[name]? = none ∨ s.idle name = true) :
    Tours w true s (addUnit w name unit s) := by
  have hm : (addCgroup w name unit s).instances = s.instances := by
    simp only [addCgroup]
    split
    · rw [update_toManager, turn_toManager]; rfl
    · rfl
  have hc : Tours w true s (addCgroup w name unit s) := by
    simp only [addCgroup]
    split
    · exact ((Acted.turn w s).tours rfl).tail (.addHandle rfl)
    · exact .refl
  exact hc.tail (.insert rfl (by rw [Manager.idle, hm]; exact h))

theorem addUnit_fired (w : World) (name : Name) (unit : Unit) (s : Supervisor) :
    (addUnit w name unit s).fired = s.fired := by
  simp only [addUnit, addCgroup]
  split <;> simp [Manager.insertUnit, Manager.addHandle]

theorem reloadUnits_tours (w : World) (units : List (Name × Unit)) (acc : List Name × List Name × Supervisor) :
    Tours w true acc.2.2 (units.foldl (reloadUnit w) acc).2.2 ∧
      (units.foldl (reloadUnit w) acc).2.2.fired = acc.2.2.fired := by
  induction units generalizing acc with
  | nil => exact ⟨.refl, rfl⟩
  | cons p units ih =>
    obtain ⟨changed, skipped, s⟩ := acc
    have h := ih (reloadUnit w (changed, skipped, s) p)
    have h₁ : Tours w true s (reloadUnit w (changed, skipped, s) p).2.2 ∧
        (reloadUnit w (changed, skipped, s) p).2.2.fired = s.fired := by
      simp only [reloadUnit]
      split
      · rename_i existing he
        split
        · exact ⟨.refl, rfl⟩
        · split
          · exact ⟨addUnit_tours (.inr (by simpa [Manager.idle, he])), addUnit_fired ..⟩
          · exact ⟨.refl, rfl⟩
      · exact ⟨addUnit_tours (.inl ‹_›), addUnit_fired ..⟩
    exact ⟨h₁.1.trans h.1, h.2.trans h₁.2⟩

theorem reload_tours (w : World) (s : Supervisor) :
    Tours w true s (reload w s).2 ∧ (reload w s).2.fired = s.fired := by
  have ht : (s.turn w).fired = s.fired := by rw [turn_toManager]
  simp only [reload]
  split
  · have h := reloadUnits_tours w (loadDirsIn (s.turn w).kernel.disk).units.toList ([], [], s.turn w)
    refine ⟨((Acted.turn w s).tours rfl).trans (h.1.tail (.keep rfl fun name i _ hp => ?_)), h.2.trans ht⟩
    simp only [Bool.or_eq_false_iff, Bool.not_eq_false'] at hp
    exact hp.2
  · exact ⟨((Acted.turn w s).tours rfl), ht⟩

/-! ## Events -/

theorem beginShutdown_tours (w : World) (action : Action) (s : Supervisor) :
    Tours w r s (beginShutdown w action s) := by
  by_cases hd : s.shuttingDown = true
  · simp only [beginShutdown]
    rw [if_pos (by exact hd)]
    exact (Acted.mark (c := .shutdown action) rfl s).tours rfl
  · exact .single (.shutdown (eq_false_of_ne_true hd))

theorem stops_routines (w : World) (names : List Name) (s : Supervisor) :
    Routines s (names.foldl (fun s name => stop w name .requested s) s) :=
  Framework.foldl_run (fun s name => stop_routines w name .requested s) names s

theorem beginShutdown_fired (w : World) (action : Action) (s : Supervisor) :
    (beginShutdown w action s).fired = s.fired := by
  simp only [beginShutdown]
  split
  · rfl
  · rw [(stops_routines w _ _).chores.kept.fired]
    simp [Manager.goDown]

/-- Every event is a run of tours, and leaves no alarm unhandled. -/
theorem step_tours (w : World) (s : Supervisor) (hf : s.fired = []) (hw : s.WallTimers) {event : Event}
    (hr : r = true ∨ event ≠ .request .reload) :
    Tours w r s (step w s event) ∧ (step w s event).fired = [] := by
  have hdeeds : ∀ {s'}, Deeds w none s s' → Tours w r s s' ∧ s'.fired = [] :=
    fun h => ⟨h.tours, h.acts.kept.fired.trans hf⟩
  cases event with
  | sigchld => exact hdeeds (onSigchld_deeds w s)
  | timer => exact onTimer_tours w s hf
  | wallTimer => exact onWallTimer_tours w s hf hw
  | notify => exact hdeeds (onNotify_routines w s).deeds
  | cgroup id => exact hdeeds (onCgroup_deeds w id s)
  | socket id => exact hdeeds (onSocket_deeds w id s)
  | request request =>
    by_cases hq : request = .reload
    · subst hq
      obtain rfl : r = true := by simpa using hr
      have h := reload_tours w (s.note (.request .reload))
      exact ⟨((Acted.mark (c := .request .reload) rfl s).tours rfl).trans h.1, h.2.trans hf⟩
    · exact hdeeds (handle_deeds w s hq)
  | shutdown action => exact ⟨beginShutdown_tours w action s, (beginShutdown_fired w action s).trans hf⟩
  | pump => exact hdeeds (pump_deeds w s)
  | syncSockets => exact hdeeds (syncSockets_routines w s).deeds
  | sleep => exact hdeeds ((Acted.turn w s).deeds rfl)

end Supervisor

end Oxinit
