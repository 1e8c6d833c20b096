import Oxinit.Proof.Reachable

/-!
# Events, stride by stride

A `Stride` is the finest step of a handler: the world takes its turn, the
kernel is asked something, a call is recorded, or one unit changes. A unit
comes up in three strides only, each of which knows the call it comes from;
what is done with a message from the notify socket is one stride. Every event
is a run of strides (`step_strides`).
-/

namespace Oxinit

open Framework (Deadline)
open Relation (ReflTransGen)

/-- The last call, but for moves of the world. -/
def Latest (s : Supervisor) (e : Call × Machine) : Prop := s.history.find? (fun x => !x.1.isMove) = some e

/-- Calls that are recorded together with what they rely on. -/
def Call.isGuarded : Call → Bool
  | .message .. | .hung _ | .late _ | .finished _ | .spawn _ => true
  | _ => false

/-- A unit that is not a `notify` or a `forking` service comes up with this call. -/
inductive Comes (name : Name) (unit : Unit) : Call → Prop
  | simple {service} (hsv : unit.service = some service) (hty : service.ty = .simple) : Comes name unit (.spawn name)
  | up (hsv : unit.service = none) (htm : unit.timer = none) : Comes name unit (.up name)
  | arm {timer} (htm : unit.timer = some timer) : Comes name unit (.arm name)

/-- The moves of the world that are recorded, last to first. -/
def movesOf (l : List (Call × Machine)) : List Move :=
  l.filterMap fun x => match x.1 with
    | .world mv => some mv
    | _ => none

/-- After the initial process of `name` exited, the world moved as in `l`, and
the cgroup was populated then. -/
def LeftBehind (name : Name) (m : Machine) (l : List (Call × Machine)) : Prop :=
  (∀ x ∈ l, x.1.isMove = true) ∧ ((movesOf l).reverse.foldl Kernel.move m.kernel).populated name = true

/-- The cgroup of a unit was empty before the last turn of the world. -/
def Emptied (w : World) (s : Supervisor) (name : Name) : Prop :=
  ∃ k : Kernel, k.populated name = false ∧ s.kernel = (w (s.ticks - 1)).moves.foldl Kernel.move k

/-- What a stop that is over relies on: either the main process has been reaped
since, and if the unit's cgroup could be read then it was empty, or the cgroup
has been read. -/
inductive Over (w : World) (event : Event) (s : Supervisor) (name : Name) (i : Instance) : Prop
  | reaped {exit m} (hl : Latest s (.exited name exit, m)) (hs : m.stateOf name = some .deactivating)
      (hc : i.child = none) (hg : s.cgroups = m.cgroups)
      (hr : s.cgroups.get name ≠ none → (w m.ticks).ok = true → Emptied w s name) : Over w event s name i
  | read (he : ∃ id, event = .cgroup id) : Over w event s name i

/-- Why a unit goes down. -/
inductive Falls (w : World) (event : Event) (s : Supervisor) (name : Name) (i : Instance) : Prop
  | down (h : i.state.down = true)
  | plain (h : i.unit.service = none)
  | failed (h : s.history.head? = some (.fail name, s.toMachine))
  | exited (he : event = .sigchld)
  | vanished (hs : i.state = .active) (hc : i.child = none) (hp : Emptied w s name)

/-- A unit goes down. One that is stopping keeps its main process, unless that
has just exited. -/
structure Lowers (w : World) (event : Event) (s : Supervisor) (name : Name) (i j : Instance) : Prop where
  unit : j.unit = i.unit
  inactive : j.state ≠ .active
  settled : j.state ≠ .activating
  stopping : j.state = .deactivating → (j.child = i.child ∧ i.state.down = false) ∨
    event = .sigchld ∧ ∃ exit m, Latest s (.exited name exit, m)
  fallen : j.state.down = true → Falls w event s name i

/-- What the handling of `event` is made of. -/
inductive Stride (w : World) (event : Event) : Supervisor → Supervisor → Prop
  -- The kernel.
  | turn {s} : Stride w event s (s.turn w)
  | signal {s pids sig} : Stride w event s (s.onKernel (·.signal pids sig))
  | read {s id name} : Stride w event s (s.onKernel (·.read id name))
  | reaped {s} : Stride w event s (s.onKernel (·.reaped))
  | drained {s} (he : event = .notify) : Stride w event s (s.onKernel (·.drained))
  -- Calls, and what is held besides the units.
  | note {s c} (hc : c.isGuarded = false) : Stride w event s (s.note c)
  | update {s f} (hi : (f s.toManager).instances = s.instances)
      (hh : (f s.toManager).timers.heap = s.timers.heap)
      (hg : s.cgroups.handles ⊆ (f s.toManager).cgroups.handles) : Stride w event s (s.update f)
  | push {s tie delay alarm} : Stride w event s (s.update (·.push tie { due := s.kernel.now + delay, alarm }))
  | expire {s} (he : event = .timer) : Stride w event s (s.update (·.takeExpired s.kernel.now))
  | late {s name} (he : event = .timer) (hs : s.stateOf name = some .activating) : Stride w event s (s.note (.late name))
  | hung {s name i interval} (he : event = .timer) (hi : s.instances[name]? = some i)
      (hw : i.unit.service.bind (·.watchdogSec) = some interval)
      (hx : i.watchdogExpired s.kernel.now interval = true) : Stride w event s (s.note (.hung name))
  | message {s} (he : event = .notify) (message : Message) : Stride w event s (Supervisor.onMessage w message s)
  -- Units.
  | lower {s name f} (hf : ∀ i, s.instances[name]? = some i → Lowers w event s name i (f i)) :
      Stride w event s (s.modify name f)
  | finished {s name i} (hi : s.instances[name]? = some i) (hs : i.state = .deactivating)
      (h : Over w event s name i) :
      Stride w event s ((s.note (.finished name)).modify name fun i => (i.deactivated s.kernel.now).2)
  | spawn {s name i service} (hi : s.instances[name]? = some i) (hsv : i.unit.service = some service)
      (hl : ∃ m, Last s (.start name, m) ∧ m.shuttingDown = false) :
      Stride w event s (((s.note (.spawn name)).onKernel (·.spawn name (s.cgroups.get name).isSome)).modify name
        (Instance.enteredActivating s.kernel.nextPid))
  | active {s name i c m since} (hi : s.instances[name]? = some i) (hl : Latest s (c, m))
      (hc : Comes name i.unit c) (hs : i.unit.service = none ∨ i.state.down = false) :
      Stride w event s (s.modify name (Instance.enteredActive since s.kernel.now))
  | forkedAway {s name i service m since l new old} (he : event = .sigchld) (hi : s.instances[name]? = some i)
      (hsv : i.unit.service = some service) (hty : service.ty = .forking) (hs : i.state = .activating)
      (hm : m.stateOf name = some .activating) (hl : LeftBehind name m l) (hn : ∀ x ∈ new, x.1.isMove = true)
      (hh : s.history = new ++ l ++ (.exited name .clean, m) :: old) :
      Stride w event s (s.modify name (Instance.forkedAway since s.kernel.now))
  -- The set of units.
  | insert {s name unit} (he : event = .request .reload) (h : s.instances[name]? = none ∨ s.idle name = true)
      (hl : ∃ m, Last s (.request .reload, m) ∧ m.busy name = false) :
      Stride w event s (s.update (·.insertUnit name unit))
  | keep {s p} (he : event = .request .reload)
      (h : ∀ name i, s.instances[name]? = some i → p name i = false → isIdle i.state = true) :
      Stride w event s (s.update (·.keep p))

abbrev Strides (w : World) (event : Event) : Supervisor → Supervisor → Prop := ReflTransGen (Stride w event)

/-! ## The latest call -/

namespace Latest

variable {s s' : Supervisor} {e : Call × Machine}

theorem note (s : Supervisor) (c : Call) (hc : c.isMove = false) : Latest (s.note c) (c, s.toMachine) := by
  simp [Latest, hc]

theorem append {new : List (Call × Machine)} (h : Latest s e) (hn : s'.history = new ++ s.history)
    (hm : ∀ x ∈ new, x.1.isMove = true) : Latest s' e := by
  rw [Latest, hn, List.find?_append, List.find?_eq_none.mpr (by simpa using hm), Option.none_or]
  exact h

theorem turn (w : World) (h : Latest s e) : Latest (s.turn w) e := by
  obtain ⟨new, hn, hm⟩ := (Still.turn none w s).log
  exact h.append hn fun x hx => (hm x hx).1

end Latest

theorem Last.turn {s : Supervisor} {e : Call × Machine} (w : World) (h : Last s e) : Last (s.turn w) e := by
  obtain ⟨new, hn, hm⟩ := (Still.turn none w s).log
  exact h.append hn fun x hx => Call.isStop_of_isWorld (Call.isWorld_of_isMove (hm x hx).1)

theorem Last.outside {w : World} {s s' : Supervisor} {e : Call × Machine} (h : ReflTransGen (Supervisor.Outside w) s s')
    (hl : Last s e) : Last s' e := by
  refine Framework.invariant (I := (Last · e)) (fun hl ho => ?_) h hl
  cases ho with
  | turn => exact hl.turn w
  | signal => exact hl

/-! ## Operations -/

theorem Comes.not_notify {name : Name} {unit : Unit} {c : Call} {service : Service} (h : Comes name unit c)
    (hsv : unit.service = some service) : service.ty ≠ .notify := by
  intro hty
  cases h with
  | simple hsv' hty' =>
    cases hsv.symm.trans hsv'
    cases hty.symm.trans hty'
  | up hsv' => cases hsv.symm.trans hsv'
  | arm htm => cases hsv.symm.trans (Unit.service_of_timer htm)

theorem Lowers.of_down {w : World} {e : Event} {s : Supervisor} {name : Name} {i j : Instance} (hu : j.unit = i.unit)
    (h : j.state.down = true) (hf : Falls w e s name i) : Lowers w e s name i j := by
  refine ⟨hu, ?_, ?_, ?_, fun _ => hf⟩ <;> (intro e; rw [e] at h; cases h)

theorem State.down_lower {s : State} (h : s.down = true) : s ≠ .active ∧ s ≠ .activating := by
  cases s <;> simp_all [State.down]

namespace Supervisor

variable {w : World} {e : Event} {s : Supervisor} {name : Name} {i : Instance}

theorem note_strides {c : Call} (hc : c.isGuarded = false) : Strides w e s (s.note c) := .single (.note hc)

theorem update_strides {f : Manager → Manager} (hi : (f s.toManager).instances = s.instances)
    (hh : (f s.toManager).timers.heap = s.timers.heap) (hg : (f s.toManager).cgroups = s.cgroups) :
    Strides w e s (s.update f) :=
  .single (.update hi hh (by rw [hg]; exact List.Subset.refl _))

theorem turn_strides (w : World) (s : Supervisor) : Strides w e s (s.turn w) := .single .turn

/-- One unit, if there is one, is put in a state in which it does not run. -/
theorem lower_strides (name : Name) {f : Instance → Instance} (hu : ∀ i, (f i).unit = i.unit)
    (hd : ∀ i, s.instances[name]? = some i → (f i).state.down = true)
    (hf : ∀ i, s.instances[name]? = some i → Falls w e s name i) : Strides w e s (s.modify name f) :=
  .single (.lower fun i hi => .of_down (hu i) (hd i hi) (hf i hi))

theorem armTimer_strides (w : World) (s : Supervisor) : Strides w e s (armTimer w s).2 := by
  refine (turn_strides w s).trans ?_
  simp only [armTimer, setTimer]
  split
  · exact (turn_strides w _).trans (update_strides rfl rfl rfl)
  · exact turn_strides w _

theorem armWall_strides (w : World) (s : Supervisor) : Strides w e s (armWall w s).2 := by
  simp only [armWall]
  split
  · exact (turn_strides w s).trans (update_strides rfl rfl rfl)
  · exact turn_strides w s

theorem schedule_strides (w : World) (delay : Nat) (alarm : Alarm) (s : Supervisor) :
    Strides w e s (schedule w delay alarm s).2 :=
  ((note_strides rfl).trans (turn_strides w _)).trans (.head .push (armTimer_strides w _))

theorem scheduleAt_strides (w : World) (moment : Nat) (alarm : Alarm) (s : Supervisor) :
    Strides w e s (scheduleAt w moment alarm s).2 :=
  (note_strides rfl).trans ((update_strides (f := (·.pushWall _ _)) rfl rfl rfl).trans (armWall_strides w _))

theorem outside_strides {s' : Supervisor} (h : ReflTransGen (Outside w) s s') : Strides w e s s' :=
  Framework.refine_run (fun ho => by
    cases ho with
    | turn => exact .single .turn
    | signal => exact .single .signal) h

theorem sigterm_strides (w : World) (name : Name) (child : Option Pid) (s : Supervisor) :
    Strides w e s (sigterm w name child s) :=
  outside_strides (sigterm_outside w name child s)

theorem sigkill_strides (w : World) (name : Name) (child : Option Pid) (s : Supervisor) :
    Strides w e s (sigkill w name child s) :=
  outside_strides (sigkill_outside w name child s)

theorem stop_strides (w : World) (name : Name) (cause : StopCause) (s : Supervisor) :
    Strides w e s (stop w name cause s) := by
  have h₀ : Strides w e s ((s.note (.stop name cause)).update (·.dequeue name)) :=
    (note_strides rfl).trans (update_strides rfl rfl rfl)
  simp only [stop]
  split
  · exact h₀
  · rename_i i hi
    split
    · rename_i hs
      have hd : ∀ j, ((s.note (.stop name cause)).update (·.dequeue name)).instances[name]? = some j →
          j.state.down = true := by
        intro j hj
        cases hi.symm.trans hj
        rw [hs]
        rfl
      exact h₀.trans (lower_strides name Instance.cancelRestart_unit
        (fun j hj => Instance.cancelRestart_down (hd j hj)) fun j hj => .down (hd j hj))
    · rename_i hr
      split
      · rename_i hsv
        refine (h₀.trans ((turn_strides w _).trans (note_strides rfl))).trans
          (lower_strides name (by simp [Instance.enteredDeactivating]) (fun j _ => Instance.deactivated_down ..)
            fun j hj => ?_)
        rw [note_toMachine, turn_toManager] at hj
        cases hi.symm.trans hj
        exact .plain hsv
      · split
        · exact h₀
        · rename_i hst
          have h₁ : Strides w e s (((s.note (.stop name cause)).update (·.dequeue name)).note (.terminate name)) :=
            h₀.trans (note_strides rfl)
          have hdown : i.state.down = false := by
            cases hs : i.state <;> simp [hs] at hr hst <;> rfl
          have h₂ : Strides w e s ((((s.note (.stop name cause)).update (·.dequeue name)).note (.terminate name)).modify name
              (Instance.enteredDeactivating cause)) := by
            refine h₁.tail (.lower fun j hj => ⟨rfl, by simp [Instance.enteredDeactivating],
              by simp [Instance.enteredDeactivating], fun _ => .inl ⟨rfl, ?_⟩, fun hdown => by cases hdown⟩)
            cases hi.symm.trans hj
            exact hdown
          exact h₂.trans ((sigterm_strides w name _ _).trans (schedule_strides w _ _ _))

theorem stops_strides (w : World) (names : List Name) (s : Supervisor) :
    Strides w e s (names.foldl (fun s name => stop w name .requested s) s) :=
  Framework.foldl_run (fun s name => stop_strides w name .requested s) names s

theorem exclude_strides (w : World) (name : Name) (s : Supervisor) : Strides w e s (exclude w name s) := by
  refine Framework.foldl_run (fun s other => ?_) _ s
  split
  · exact stop_strides w other .requested s
  · exact .refl

theorem fail_strides (name : Name) (s : Supervisor) : Strides w e s (fail name s) :=
  (note_strides rfl).trans (lower_strides name (fun _ => rfl) (fun _ _ => rfl) fun _ _ => .failed rfl)

theorem arm_strides (w : World) (name : Name) (next : Option Next) (s : Supervisor) :
    Strides w e s (arm w name next s) := by
  cases next with
  | none => exact update_strides (f := (·.clearNext name)) rfl rfl rfl
  | some next =>
    cases next with
    | after delay =>
      simp only [arm]
      split
      · exact (schedule_strides w delay _ s).trans (update_strides rfl rfl rfl)
      · exact schedule_strides w delay _ s
    | «at» moment =>
      simp only [arm]
      split
      · exact (scheduleAt_strides w moment _ s).trans (update_strides rfl rfl rfl)
      · exact scheduleAt_strides w moment _ s

/-- A unit comes up with the call that has just been recorded. -/
theorem enterActive_strides {c : Call} {m : Machine} (hi : s.instances[name]? = some i) (hl : Latest s (c, m))
    (hc : Comes name i.unit c) (hs : i.unit.service = none ∨ i.state.down = false) :
    Strides w e s (enterActive w name s) := by
  have hi' : ((s.turn w).turn w).instances[name]? = some i := by rw [turn_toManager, turn_toManager, hi]
  exact ((turn_strides w s).trans (turn_strides w _)).tail (.active hi' ((hl.turn w).turn w) hc hs)

/-- A process that is forked. -/
theorem launch_strides {service : Service} {m : Machine} (hi : s.instances[name]? = some i)
    (hsv : i.unit.service = some service) (hl : Last s (.start name, m)) (hd : m.shuttingDown = false) :
    Strides w e s (launch w name service s) := by
  have h₁ : Strides w e s (applyResources w name service.resources s).2 :=
    outside_strides (applyResources_outside w name service.resources s)
  have h₂ : Strides w e s (outputFor w service.output (applyResources w name service.resources s).2).2 :=
    h₁.trans (outside_strides (outputFor_outside w service.output _))
  have hl₂ : Last (outputFor w service.output (applyResources w name service.resources s).2).2 (.start name, m) :=
    (hl.outside (applyResources_outside w name service.resources s)).outside (outputFor_outside w service.output _)
  have hm : (outputFor w service.output (applyResources w name service.resources s).2).2.toManager =
      s.toManager := by simp
  simp only [launch]
  split
  · split
    · generalize (outputFor w service.output (applyResources w name service.resources s).2).2 = s₂ at h₂ hl₂ hm
      have h₃ := h₂.trans (turn_strides w s₂)
      have hi₂ : (s₂.turn w).instances[name]? = some i := by rw [turn_toManager, hm, hi]
      simp only [fork]
      split
      · rename_i hf
        split at hf <;> cases hf
        have h₄ := h₃.tail (.spawn hi₂ hsv ⟨m, hl₂.turn w, hd⟩)
        split
        · rename_i hty
          exact h₄.trans (enterActive_strides (Manager.get_modify_self hi₂)
            (Latest.note (s₂.turn w) (.spawn name) rfl) (.simple hsv hty) (.inr rfl))
        · exact h₄.trans (schedule_strides w _ _ _)
        · exact h₄.trans (schedule_strides w _ _ _)
        · exact h₄.trans (schedule_strides w _ _ _)
      · rename_i hf
        split at hf <;> cases hf
        exact h₃.trans (fail_strides name _)
    · exact h₂.trans (fail_strides name _)
  · exact h₁.trans (fail_strides name _)

theorem bringUp_strides {m : Machine} (hi : s.instances[name]? = some i) (hl : Last s (.start name, m))
    (hd : m.shuttingDown = false) : Strides w e s (bringUp w name i s) := by
  simp only [bringUp]
  cases hk : i.unit.kind with
  | target =>
    have hsv : i.unit.service = none := by simp [Unit.service, hk]
    exact (note_strides rfl).trans (enterActive_strides hi (Latest.note s (.up name) rfl)
      (.up hsv (by simp [Unit.timer, hk])) (.inl hsv))
  | timer timer =>
    have htm : i.unit.timer = some timer := by simp [Unit.timer, hk]
    exact ((note_strides rfl).trans (enterActive_strides hi (Latest.note s (.arm name) rfl)
      (.arm htm) (.inl (Unit.service_of_timer htm)))).trans ((turn_strides w _).trans (arm_strides w name _ _))
  | socket _ =>
    have hsv : i.unit.service = none := by simp [Unit.service, hk]
    exact (note_strides rfl).trans (enterActive_strides hi (Latest.note s (.up name) rfl)
      (.up hsv (by simp [Unit.timer, hk])) (.inl hsv))
  | service service => exact launch_strides hi (by simp [Unit.service, hk]) hl hd

theorem start_strides (w : World) (name : Name) (s : Supervisor) : Strides w e s (start w name s) := by
  simp only [start]
  split
  · exact note_strides rfl
  · rename_i hd
    have hx : Strides w e s (exclude w name (s.note (.start name))) :=
      (note_strides rfl).trans (exclude_strides w name _)
    split
    · exact hx
    · obtain ⟨new, hn, hnew⟩ := exclude_log w name (s.note (.start name))
      have hl := (Last.note s (.start name) rfl).append hn hnew
      exact hx.trans (bringUp_strides ‹_› hl (eq_false_of_ne_true hd))

theorem pumpTurn_strides (w : World) (name : Name) (s : Supervisor) : Strides w e s (pumpTurn w name s) := by
  have h₀ : Strides w e s ((s.note (.pump name)).update (·.dequeue name)) :=
    (note_strides rfl).trans (update_strides rfl rfl rfl)
  simp only [pumpTurn]
  split
  · exact h₀.trans (fail_strides name _)
  · exact h₀.trans (start_strides w name _)

theorem pump_strides (w : World) (s : Supervisor) : Strides w e s (pump w s) := by
  have hloop : ∀ fuel s, Strides w e s (pumpLoop w fuel s) := by
    intro fuel
    induction fuel with
    | zero => exact fun s => .refl
    | succ fuel ih =>
      intro s
      simp only [pumpLoop]
      split
      · exact .refl
      · exact (pumpTurn_strides w _ s).trans (ih _)
  simp only [pump]
  split
  · exact update_strides rfl rfl rfl
  · exact hloop _ s

theorem beginShutdown_strides (w : World) (action : Action) (s : Supervisor) :
    Strides w e s (beginShutdown w action s) := by
  simp only [beginShutdown]
  split
  · exact note_strides rfl
  · exact ((note_strides rfl).trans (turn_strides w _)).trans ((update_strides rfl rfl rfl).trans (stops_strides w _ _))

/-! ## Ends -/

theorem restartUnlessGoingDown_strides (w : World) (name : Name) (delay : Nat)
    (h : ∀ i, s.instances[name]? = some i → i.state = .restarting) :
    Strides w e s (restartUnlessGoingDown w name delay s) := by
  simp only [restartUnlessGoingDown]
  split
  · have hd : ∀ i, s.instances[name]? = some i → i.state.down = true := fun i hi => by rw [h i hi]; rfl
    exact lower_strides name Instance.cancelRestart_unit (fun i hi => Instance.cancelRestart_down (hd i hi))
      fun i hi => .down (hd i hi)
  · exact schedule_strides w delay _ s

theorem get_of_modify {f : Instance → Instance} {j : Instance} (h : (s.modify name f).instances[name]? = some j) :
    ∃ i, s.instances[name]? = some i ∧ j = f i := by
  rw [modify_toManager, Manager.get_modify, if_pos rfl, Option.map_eq_some_iff] at h
  obtain ⟨i, hi, e⟩ := h
  exact ⟨i, hi, e.symm⟩

/-- What follows the end of a stop. -/
theorem finishDeactivation_after (hi : s.instances[name]? = some i) (hs : i.state = .deactivating) :
    Strides w e (((s.turn w).note (.finished name)).modify name fun i => (i.deactivated (s.turn w).kernel.now).2)
      (finishDeactivation w name s) := by
  have h₁ : Strides w e (((s.turn w).note (.finished name)).modify name fun i => (i.deactivated (s.turn w).kernel.now).2)
      (endStop w name i s) := by
    simp only [endStop]
    split
    · rename_i delay hd
      refine restartUnlessGoingDown_strides w name delay fun j hj => ?_
      obtain ⟨i', hi₁, rfl⟩ := get_of_modify hj
      rw [note_toMachine, turn_toManager] at hi₁
      cases hi.symm.trans hi₁
      exact Instance.deactivated_restarting (by simp [hd])
    · exact .refl
  simp only [finishDeactivation, hi, hs, ne_eq, not_true, if_false]
  split
  · exact h₁.trans (((update_strides (f := (·.takeRestart name)) rfl rfl rfl).trans (note_strides rfl)).trans
      (start_strides w name _))
  · exact h₁

theorem finishDeactivation_strides (w : World) (name : Name) (s : Supervisor)
    (h : ∀ i, s.instances[name]? = some i → i.state = .deactivating → Over w e (s.turn w) name i) :
    Strides w e s (finishDeactivation w name s) := by
  cases hi : s.instances[name]? with
  | none =>
    simp only [finishDeactivation, hi]
    exact .refl
  | some i =>
    by_cases hs : i.state = .deactivating
    · have hi' : (s.turn w).instances[name]? = some i := by rw [turn_toManager, hi]
      exact (turn_strides w s).trans (.head (.finished hi' hs (h i hi hs)) (finishDeactivation_after hi hs))
    · simp only [finishDeactivation, hi, hs, ne_eq, not_false_iff, if_true]
      exact .refl

/-- What a turn records. -/
theorem turn_log (w : World) (s : Supervisor) : ∃ new, (s.turn w).history = new ++ s.history ∧
    (∀ x ∈ new, x.1.isMove = true) ∧ (movesOf new).reverse = (w s.ticks).moves := by
  have key : ∀ (mvs : List Move) (s : Supervisor), ∃ new, (s.moves mvs).history = new ++ s.history ∧
      (∀ x ∈ new, x.1.isMove = true) ∧ (movesOf new).reverse = mvs := by
    intro mvs
    induction mvs with
    | nil => exact fun s => ⟨[], rfl, by simp, rfl⟩
    | cons mv mvs ih =>
      intro s
      obtain ⟨new, e, hm, hr⟩ := ih (s.world mv)
      refine ⟨new ++ [(.world mv, s.toMachine)], ?_, fun x hx => ?_, ?_⟩
      · rw [moves, List.foldl_cons]
        exact e.trans (by rw [List.append_assoc]; rfl)
      · rcases List.mem_append.mp hx with hx | hx
        · exact hm x hx
        · cases List.mem_singleton.mp hx
          rfl
      · simp only [movesOf, List.filterMap_append, List.reverse_append] at hr ⊢
        rw [hr]
        rfl
  exact key _ s

theorem unitVanished_strides (w : World) (name : Name) (s : Supervisor)
    (h : ∀ i, s.instances[name]? = some i → i.state = .active ∧ i.child = none) (hp : s.kernel.populated name = false) :
    Strides w e s (unitVanished w name s) := by
  simp only [unitVanished]
  split
  · exact .refl
  · rename_i i hi
    have h₁ : Strides w e s (((s.turn w).note (.vanished name)).modify name fun i =>
        (i.onExit (s.turn w).kernel.now .abnormal).2) := by
      refine ((turn_strides w s).trans (note_strides (c := .vanished name) rfl)).trans
        (lower_strides name (by simp) (fun j hj => ?_) fun j hj => ?_)
      · exact Instance.onExit_down _ _ (by simp [(h j (by simpa using hj)).1])
      · obtain ⟨hs, hc⟩ := h j (by simpa using hj)
        exact .vanished hs hc ⟨s.kernel, hp, turn_kernel w s⟩
    split
    · exact h₁.trans (schedule_strides w _ _ _)
    · exact h₁

theorem get_cgroup {cgroup : Name} (h : s.cgroups.get name = some cgroup) : cgroup = name := by
  rw [Cgroups.get] at h
  simpa using List.find?_some h

/-- The initial process of a `forking` service exited while it was activating. -/
theorem forkingParentExited_strides {service : Service} (exit : Exit) (hi : s.instances[name]? = some i)
    (hsv : i.unit.service = some service) (hty : service.ty = .forking) (hs : i.state = .activating) :
    Strides w .sigchld s (forkingParentExited w name exit (s.note (.exited name exit))) := by
  have h₀ : Strides w .sigchld s (s.note (.exited name exit)) := note_strides rfl
  simp only [forkingParentExited]
  split
  · exact h₀.trans (fail_strides name _)
  · rename_i cgroup hg
    obtain rfl := get_cgroup hg
    have h₁ : Strides w .sigchld s (readPopulated w cgroup (s.note (.exited cgroup exit))).2 := h₀.trans (turn_strides w _)
    split
    · rename_i hp
      obtain ⟨rfl, hp⟩ := hp
      have hp := (Bool.and_eq_true_iff.mp hp).2
      obtain ⟨n₁, e₁, p₁, r₁⟩ := turn_log w (s.note (.exited cgroup .clean))
      obtain ⟨n₂, e₂, p₂, -⟩ := turn_log w ((s.note (.exited cgroup .clean)).turn w)
      obtain ⟨n₃, e₃, p₃, -⟩ := turn_log w (((s.note (.exited cgroup .clean)).turn w).turn w)
      have hh : ((((s.note (.exited cgroup .clean)).turn w).turn w).turn w).history =
          (n₃ ++ n₂) ++ n₁ ++ (.exited cgroup .clean, s.toMachine) :: s.history := e₃.trans (by rw [e₂, e₁]; simp)
      refine ((h₁.trans (turn_strides w _)).trans (turn_strides w _)).tail
        (.forkedAway rfl (by simpa using hi) hsv hty hs (by rw [Manager.stateOf, hi, Option.map_some, hs]) ⟨p₁, ?_⟩
          (fun x hx => ?_) hh)
      · rwa [turn_kernel, ← r₁] at hp
      · exact (List.mem_append.mp hx).elim (p₃ x) (p₂ x)
    · exact h₁.trans (fail_strides _ _)

/-- What follows the exit of a main process, when it is not the readiness of a
`forking` service. -/
theorem onReaped_after {child : Pid × WaitStatus} {x : Exit} (hu : s.unitForPid child.1 = some name)
    (hi : s.instances[name]? = some i) (hf : ¬((i.unit.service.any fun sv => sv.ty = .forking) ∧ i.state = .activating))
    (hx : Exit.fromStatus child.2.exitStatus child.2.terminatingSignal = x) :
    Strides w e (((s.turn w).note (.exited name x)).modify name fun i => (i.onExit (s.turn w).kernel.now x).2)
      (onReaped w child s) := by
  simp only [onReaped, hu, hi, hf, if_false, hx]
  have hi₁ : (s.turn w).instances[name]? = some i := by rw [turn_toManager, hi]
  have hi₂ : (((s.turn w).note (.exited name x)).modify name fun i =>
      (i.onExit (s.turn w).kernel.now x).2).instances[name]? = some (i.onExit (s.turn w).kernel.now x).2 :=
    Manager.get_modify_self hi₁
  have hl : Latest (((s.turn w).note (.exited name x)).modify name fun i =>
      (i.onExit (s.turn w).kernel.now x).2) (.exited name x, (s.turn w).toMachine) :=
    Latest.note (s.turn w) (.exited name x) rfl
  have ht : (((s.turn w).note (.exited name x)).modify name fun i =>
      (i.onExit (s.turn w).kernel.now x).2).ticks = (s.turn w).ticks := rfl
  have hcg : (((s.turn w).note (.exited name x)).modify name fun i =>
      (i.onExit (s.turn w).kernel.now x).2).cgroups = (s.turn w).cgroups := rfl
  generalize ((s.turn w).note (.exited name x)).modify name _ = s₁ at hi₂ hl ht hcg ⊢
  split
  · rename_i delay hd
    refine restartUnlessGoingDown_strides w name delay fun j hj => ?_
    cases hi₂.symm.trans hj
    have hs : i.state ≠ .deactivating := fun h => by simp [Instance.onExit_deactivating _ _ h] at hd
    exact Instance.onExit_restarting hs (by simp [hd])
  · split
    · rename_i hs
      have hm : (s.turn w).stateOf name = some .deactivating := by
        rw [Manager.stateOf, hi₁, Option.map_some, hs]
      split
      · rename_i hg
        refine finishDeactivation_strides w name s₁ fun j hj _ => ?_
        cases hi₂.symm.trans hj
        refine .reaped (hl.turn w) hm (Instance.onExit_child ..) ?_ fun h => absurd (by rw [turn_toManager, hg]) h
        rw [turn_toManager, hcg]
      · rename_i cgroup hg
        obtain rfl := get_cgroup hg
        have h₂ : Strides w e s₁ (readPopulated w cgroup s₁).2 := turn_strides w s₁
        split
        · exact h₂
        · rename_i hr
          refine h₂.trans (finishDeactivation_strides w cgroup _ fun j hj _ => ?_)
          rw [readPopulated_toManager, hi₂] at hj
          cases hj
          refine .reaped ((hl.turn w).turn w) hm (Instance.onExit_child ..) ?_ fun _ hok =>
            ⟨(s₁.turn w).kernel, ?_, turn_kernel w _⟩
          · rw [turn_toManager, readPopulated_toManager, hcg]
          have hr : ((w s₁.ticks).ok && (s₁.turn w).kernel.populated cgroup) = false := eq_false_of_ne_true hr
          rwa [ht, hok, Bool.true_and] at hr
    · exact .refl

theorem onReaped_strides (w : World) (child : Pid × WaitStatus) (s : Supervisor) :
    Strides w .sigchld s (onReaped w child s) := by
  cases hu : s.unitForPid child.1 with
  | none =>
    simp only [onReaped, hu]
    exact .refl
  | some name =>
    obtain ⟨i, hi, -⟩ := Manager.unitForPid_get hu
    by_cases hf : (i.unit.service.any fun sv => sv.ty = .forking) ∧ i.state = .activating
    · simp only [onReaped, hu, hi, hf, and_self, if_true]
      simp only [Option.any_eq_true, decide_eq_true_eq] at hf
      obtain ⟨⟨service, hsv, hty⟩, hs⟩ := hf
      exact forkingParentExited_strides _ hi hsv hty hs
    · refine .trans ?_ (onReaped_after hu hi hf rfl)
      refine ((turn_strides w s).trans (note_strides (c := .exited name _) rfl)).tail (.lower fun j _ => ?_)
      by_cases hd : j.state = .deactivating
      · have hx := Instance.onExit_deactivating (s.turn w).kernel.now
          (Exit.fromStatus child.2.exitStatus child.2.terminatingSignal) hd
        refine ⟨by simp, by simp [hx, hd], by simp [hx, hd], fun _ => .inr ⟨rfl, _, _, Latest.note _ _ rfl⟩, ?_⟩
        rw [hx, hd]
        intro hdown
        cases hdown
      · exact .of_down (by simp) (Instance.onExit_down _ _ hd) (.exited rfl)

theorem onChildren_strides (w : World) (children : List (Pid × WaitStatus)) (s : Supervisor) :
    Strides w .sigchld s (onChildren w children s) := by
  induction children generalizing s with
  | nil => exact .refl
  | cons child rest ih =>
    exact ((update_strides (f := (·.setReaping rest)) rfl rfl rfl).trans (onReaped_strides w child _)).trans (ih _)

theorem onSigchld_strides (w : World) (s : Supervisor) : Strides w .sigchld s (onSigchld w s) :=
  ((turn_strides w s).tail .reaped).trans
    ((update_strides (f := (·.setReaping (s.turn w).kernel.zombies)) rfl rfl rfl).trans (onChildren_strides w _ _))

theorem onCgroup_strides (w : World) (id : Nat) (s : Supervisor) : Strides w (.cgroup id) s (onCgroup w id s) := by
  simp only [onCgroup]
  split
  · exact .refl
  · rename_i name _
    have h₁ : Strides w (.cgroup id) s (if (w s.ticks).ok then (s.turn w).onKernel (·.read id name) else s.turn w) := by
      split
      · exact (turn_strides w s).tail .read
      · exact turn_strides w s
    refine h₁.trans ?_
    generalize (if (w s.ticks).ok then (s.turn w).onKernel (·.read id name) else s.turn w) = s₁
    split
    · exact .refl
    · rename_i hp
      have hp : s₁.kernel.populated name = false := eq_false_of_ne_true fun h => hp (.inr h)
      split
      · exact .refl
      · rename_i i hi
        split
        · exact finishDeactivation_strides w name s₁ fun _ _ _ => .read ⟨id, rfl⟩
        · split
          · rename_i ha
            refine unitVanished_strides w name s₁ (fun j hj => ?_) hp
            cases hi.symm.trans hj
            exact ha
          · exact .refl

/-! ## Deadlines -/

theorem stopTimedOut_strides (w : World) (name : Name) (s : Supervisor) :
    Strides w e s (stopTimedOut w name s) := by
  simp only [stopTimedOut]
  split
  · exact .refl
  · rename_i i hi
    split
    · exact .refl
    · rename_i hs
      refine ((note_strides rfl).tail (.lower (f := Instance.stopTimedOut) fun j hj => ?_)).trans
        (sigkill_strides w name _ _)
      cases hi.symm.trans hj
      have hs := not_not.mp hs
      refine ⟨rfl, by simp [Instance.stopTimedOut, hs], by simp [Instance.stopTimedOut, hs],
        fun _ => .inl ⟨rfl, by rw [hs]; rfl⟩, ?_⟩
      rw [Instance.stopTimedOut, hs]
      intro hdown
      cases hdown

theorem checkWatchdog_strides (w : World) (name : Name) (s : Supervisor) :
    Strides w .timer s (checkWatchdog w name s) := by
  simp only [checkWatchdog]
  split
  · exact .refl
  · rename_i i hi
    split
    · exact .refl
    · rename_i interval hw
      split
      · exact .refl
      · have hi₁ : (s.turn w).instances[name]? = some i := by rw [turn_toManager, hi]
        split
        · exact ((turn_strides w s).tail (.hung rfl hi₁ hw ‹_›)).trans (stop_strides w name .watchdog _)
        · exact (turn_strides w s).trans (schedule_strides w _ _ _)

theorem timerElapsed_strides (w : World) (name : Name) (s : Supervisor) :
    Strides w e s (timerElapsed w name s) := by
  simp only [timerElapsed]
  split
  · exact .refl
  · rename_i timer _
    split
    · exact .refl
    · have h₁ : Strides w e s (rearm w name timer s) :=
        ((note_strides rfl).trans (turn_strides w _)).trans (arm_strides w name _ _)
      split
      · exact h₁.trans (start_strides w _ _)
      · exact h₁

theorem onAlarm_strides (w : World) (alarm : Alarm) (s : Supervisor) : Strides w .timer s (onAlarm w alarm s) := by
  cases alarm with
  | restart unit =>
    simp only [onAlarm]
    split
    · exact (note_strides rfl).trans (start_strides w unit _)
    · exact .refl
  | watchdogCheck unit => exact checkWatchdog_strides w unit s
  | stopTimeout unit => exact stopTimedOut_strides w unit s
  | timerElapsed unit => exact timerElapsed_strides w unit s
  | startTimeout unit =>
    simp only [onAlarm, startTimedOut]
    split
    · exact .refl
    · rename_i i hi
      split
      · exact .refl
      · rename_i hs
        exact .head (.late rfl (by rw [Manager.stateOf, hi, Option.map_some, not_not.mp hs]))
          (stop_strides w unit .watchdog _)

theorem expired_strides (w : World) (s : Supervisor) : Strides w .timer s (expired w s) := by
  have h : Strides w .timer s (armTimer w ((s.turn w).update (·.takeExpired (s.turn w).kernel.now))).2 :=
    ((turn_strides w s).tail (.expire rfl)).trans (armTimer_strides w _)
  simp only [expired]
  split
  · exact h
  · exact h.trans (update_strides (f := (·.setFired [])) rfl rfl rfl)

theorem dispatch_strides (w : World) (l : List Entry) (s : Supervisor) : Strides w .timer s (dispatch w l s) := by
  induction l generalizing s with
  | nil => exact .refl
  | cons x l ih =>
    exact ((update_strides (f := (·.setFired l)) rfl rfl rfl).trans (onAlarm_strides w x.alarm _)).trans (ih _)

theorem onTimer_strides (w : World) (s : Supervisor) : Strides w .timer s (onTimer w s) :=
  (expired_strides w s).trans (dispatch_strides w _ _)

theorem onWallTimer_strides (w : World) (s : Supervisor) : Strides w e s (onWallTimer w s) := by
  have hd : ∀ (l : List Entry) s, Strides w e s (dispatchWall w l s) := by
    intro l
    induction l with
    | nil => exact fun s => .refl
    | cons x l ih =>
      refine fun s => ((update_strides (f := (·.setFired l)) rfl rfl rfl).trans ?_).trans (ih _)
      simp only [onWallAlarm]
      split
      · exact timerElapsed_strides w _ _
      · exact .refl
  have hw : ∀ now s, Strides w e s (wallExpired w now s) := by
    intro now s
    simp only [wallExpired]
    split
    · exact ((turn_strides w s).trans (armWall_strides w _)).trans (update_strides (f := (·.setFired [])) rfl rfl rfl)
    · have h : Strides w e s (armWall w ((s.turn w).update (·.takeWallExpired now))).2 :=
        ((turn_strides w s).trans (update_strides (f := (·.takeWallExpired now)) rfl rfl rfl)).trans (armWall_strides w _)
      split
      · exact h
      · exact h.trans (update_strides (f := (·.setFired [])) rfl rfl rfl)
  exact ((turn_strides w s).trans ((note_strides rfl).trans (hw _ _))).trans (hd _ _)

/-! ## Messages, connections and requests -/

/-- What a message does before it may make its unit ready. -/
def attended (w : World) (name : Name) (message : Message) (s : Supervisor) : Supervisor :=
  let s := s.note (.message name message)
  let s := match message.status with
    | some status => s.modify name (Instance.said status)
    | none => s
  if message.watchdog then ping w name s else s

theorem onMessage_none {message : Message} (h : s.unitForPid message.pid = none) : onMessage w message s = s := by
  rw [onMessage, h]

theorem onMessage_some {message : Message} (h : s.unitForPid message.pid = some name) : onMessage w message s =
    if message.ready ∧ (attended w name message s).stateOf name = some .activating then
      ready w name (attended w name message s)
    else attended w name message s := by
  rw [onMessage, h]
  rfl

/-- The unit keeps all but its status and its last ping. -/
theorem attended_get (w : World) (message : Message) (hi : s.instances[name]? = some i) :
    (attended w name message s).instances[name]? = some { i with
      status := message.status.or i.status
      lastPing := if message.watchdog then some (attended w name message s).kernel.now else i.lastPing } := by
  simp only [attended]
  cases message.status with
  | none =>
    cases message.watchdog with
    | false => exact hi
    | true =>
      refine (Manager.get_modify_self (i := i) ?_).trans rfl
      rw [turn_toManager]
      exact hi
  | some status =>
    cases message.watchdog with
    | false => exact Manager.get_modify_self hi
    | true =>
      refine (Manager.get_modify_self (i := i.said status) ?_).trans rfl
      rw [turn_toManager]
      exact Manager.get_modify_self hi

theorem attended_get_ne (w : World) (message : Message) {v : Name} (h : name ≠ v) :
    (attended w name message s).instances[v]? = s.instances[v]? := by
  simp only [attended]
  cases message.status with
  | none =>
    cases message.watchdog with
    | false => rfl
    | true => exact (Manager.get_modify_ne h).trans (by rw [turn_toManager]; rfl)
  | some status =>
    cases message.watchdog with
    | false => exact Manager.get_modify_ne h
    | true => exact (Manager.get_modify_ne h).trans (by rw [turn_toManager]; exact Manager.get_modify_ne h)

theorem attended_stateOf (w : World) (name : Name) (message : Message) (s : Supervisor) :
    (attended w name message s).stateOf name = s.stateOf name := by
  rw [Manager.stateOf, Manager.stateOf]
  cases hi : s.instances[name]? with
  | some i => rw [attended_get w message hi]; rfl
  | none =>
    simp only [attended]
    cases message.status <;> cases message.watchdog <;> simp [ping, Manager.get_modify, hi]

/-- A message is the latest thing that has come. -/
theorem attended_latest (w : World) (name : Name) (message : Message) (s : Supervisor) :
    Latest (attended w name message s) (.message name message, s.toMachine) := by
  have hl := Latest.note s (.message name message) rfl
  simp only [attended]
  cases message.status with
  | none =>
    cases message.watchdog with
    | false => exact hl
    | true => exact hl.turn w
  | some status =>
    have hl' : Latest ((s.note (.message name message)).modify name (Instance.said status))
        (.message name message, s.toMachine) := hl
    cases message.watchdog with
    | false => exact hl'
    | true => exact hl'.turn w

theorem onNotify_strides (w : World) (s : Supervisor) : Strides w .notify s (onNotify w s) :=
  ((turn_strides w s).tail (.drained rfl)).trans
    (Framework.foldl_run (fun _ message => .single (.message rfl message)) _ _)

theorem onSocket_strides (w : World) (id : Nat) (s : Supervisor) : Strides w e s (onSocket w id s) := by
  simp only [onSocket]
  split
  · exact .refl
  · split
    · exact (note_strides rfl).trans (start_strides w _ _)
    · exact note_strides rfl

theorem syncSockets_strides (w : World) (s : Supervisor) : Strides w e s (syncSockets w s) := by
  refine Framework.foldl_run (fun s id => ?_) _ s
  simp only [syncSocket]
  split
  · exact .refl
  · split
    · exact .refl
    · split
      · exact (turn_strides w s).trans (update_strides (f := (·.setArmed id _ _)) rfl rfl rfl)
      · exact turn_strides w s

theorem describeAll_strides (w : World) (is : List Instance) (s : Supervisor) :
    Strides w e s (describeAll w is s).2 := by
  induction is generalizing s with
  | nil => exact .refl
  | cons i is ih => exact (turn_strides w s).trans (ih _)

theorem addCgroup_instances (w : World) (name : Name) (unit : Unit) (s : Supervisor) :
    (addCgroup w name unit s).instances = s.instances := by
  simp only [addCgroup]
  split
  · rw [update_toManager, turn_toManager]
    rfl
  · rfl

/-- The request to reload was the last call, and what was idle then is idle. -/
structure Reloads (m : Machine) (s : Supervisor) : Prop where
  last : Last s (.request .reload, m)
  busy : ∀ u, m.busy u = s.busy u

namespace Reloads

variable {m : Machine}

theorem turn (h : Reloads m s) : Reloads m (s.turn w) :=
  ⟨h.last.turn w, fun u => by rw [turn_toManager]; exact h.busy u⟩

theorem addCgroup {unit : Unit} (h : Reloads m s) : Reloads m (addCgroup w name unit s) := by
  refine ⟨?_, fun u => (h.busy u).trans (by simp only [Manager.busy, addCgroup_instances])⟩
  simp only [Supervisor.addCgroup]
  split
  · exact h.turn.last
  · exact h.last

theorem addUnit {unit : Unit} (h : Reloads m s) (hb : s.busy name = false) : Reloads m (addUnit w name unit s) := by
  have hc : Reloads m (Supervisor.addCgroup w name unit s) := h.addCgroup
  refine ⟨hc.last, fun u => ?_⟩
  have hget := Manager.get_insertUnit (Supervisor.addCgroup w name unit s).toManager name u unit
  by_cases e : name = u
  · subst e
    rw [h.busy, hb, Supervisor.addUnit, update_toManager, Manager.busy, hget, if_pos rfl]
    rfl
  · rw [hc.busy, Supervisor.addUnit, update_toManager, Manager.busy, Manager.busy, hget, if_neg e]

end Reloads

theorem addUnit_strides {unit : Unit} {m : Machine} (h : s.instances[name]? = none ∨ s.idle name = true)
    (hm : Reloads m s) (hb : s.busy name = false) : Strides w (.request .reload) s (addUnit w name unit s) := by
  have hc : Strides w (.request .reload) s (addCgroup w name unit s) := by
    simp only [addCgroup]
    split
    · exact (turn_strides w s).trans (.single (.update (f := (·.addHandle name _)) rfl rfl fun _ => Cgroups.mem_add))
    · exact .refl
  refine hc.tail (.insert rfl (by rw [Manager.idle, addCgroup_instances]; exact h) ⟨m, hm.addCgroup.last, ?_⟩)
  rw [hm.busy, hb]

theorem reloadUnit_strides {m : Machine} (p : Name × Unit) (acc : List Name × List Name × Supervisor)
    (hm : Reloads m acc.2.2) : Strides w (.request .reload) acc.2.2 (reloadUnit w acc p).2.2 ∧
      Reloads m (reloadUnit w acc p).2.2 := by
  obtain ⟨changed, skipped, s⟩ := acc
  simp only [reloadUnit]
  split
  · rename_i existing he
    split
    · exact ⟨.refl, hm⟩
    · split
      · rename_i hid
        have hb : s.busy p.1 = false := by simpa [Manager.busy, he] using hid
        exact ⟨addUnit_strides (.inr (by simpa [Manager.idle, he])) hm hb, hm.addUnit hb⟩
      · exact ⟨.refl, hm⟩
  · rename_i he
    have hb : s.busy p.1 = false := by simp [Manager.busy, he]
    exact ⟨addUnit_strides (.inl he) hm hb, hm.addUnit hb⟩

theorem reload_strides {m : Machine} (w : World) (s : Supervisor) (hm : Reloads m s) :
    Strides w (.request .reload) s (reload w s).2 := by
  have hu : ∀ (units : List (Name × Unit)) (acc : List Name × List Name × Supervisor), Reloads m acc.2.2 →
      Strides w (.request .reload) acc.2.2 (units.foldl (reloadUnit w) acc).2.2 := by
    intro units
    induction units with
    | nil => exact fun acc _ => .refl
    | cons p units ih =>
      intro acc hm
      obtain ⟨h, hm⟩ := reloadUnit_strides p acc hm
      exact h.trans (ih (reloadUnit w acc p) hm)
  simp only [reload]
  split
  · refine ((turn_strides w s).trans (hu _ ([], [], s.turn w) hm.turn)).tail (.keep rfl fun name i _ hp => ?_)
    simp only [Bool.or_eq_false_iff, Bool.not_eq_false'] at hp
    exact hp.2
  · exact turn_strides w s

theorem handle_strides (w : World) (request : Request) (s : Supervisor) :
    Strides w (.request request) s (handle w request s).2 := by
  have h₀ : Strides w (.request request) s (s.note (.request request)) := note_strides rfl
  refine h₀.trans ?_
  cases request with
  | list => exact describeAll_strides w _ _
  | status unit =>
    simp only [handle]
    split
    · exact turn_strides w _
    · exact .refl
  | start unit =>
    simp only [handle]
    split
    · exact .refl
    · split
      · exact .refl
      · exact start_strides w unit _
  | stop unit =>
    simp only [handle]
    split
    · exact .refl
    · exact stop_strides w unit .requested _
  | restart unit =>
    simp only [handle]
    split
    · exact .refl
    · split
      · exact .refl
      · refine (stop_strides w unit .requested _).trans ?_
        simp only [restartWhenStopped]
        split
        · exact .refl
        · split
          · exact start_strides w unit _
          · exact (note_strides rfl).trans (update_strides rfl rfl rfl)
  | reload => exact reload_strides w _ ⟨Last.note s _ rfl, fun _ => rfl⟩

/-- Every event is a run of strides. -/
theorem step_strides (w : World) (event : Event) (s : Supervisor) : Strides w event s (step w s event) := by
  cases event with
  | sigchld => exact onSigchld_strides w s
  | timer => exact onTimer_strides w s
  | wallTimer => exact onWallTimer_strides w s
  | notify => exact onNotify_strides w s
  | cgroup id => exact onCgroup_strides w id s
  | socket id => exact onSocket_strides w id s
  | request request => exact handle_strides w request s
  | shutdown action => exact beginShutdown_strides w action s
  | pump => exact pump_strides w s
  | syncSockets => exact syncSockets_strides w s
  | sleep => exact turn_strides w s

theorem boot_strides (w : World) (hierarchy : Bool) (kernel : Kernel) :
    Strides w .pump (queued w hierarchy kernel) (boot w hierarchy kernel) :=
  pump_strides w _

theorem stride_grows {s' : Supervisor} (h : Stride w e s s') : s.history <:+ s'.history := by
  cases h with
  | turn =>
    obtain ⟨new, hn, -⟩ := turn_log w s
    exact ⟨new, hn.symm⟩
  | message _ message => exact (onMessage_routines w message s).chores.acts.grows
  | note | late | hung | finished | spawn => exact List.suffix_cons ..
  | signal | read | reaped | drained | update | push | expire | lower | active | forkedAway | insert | keep =>
    exact List.suffix_rfl

/-- What a stride does to a unit, unless it is a message. -/
inductive Becomes (s s' : Supervisor) (u : Name) (j : Instance) : Prop
  | kept (h : s.instances[u]? = some j)
  | lowered (hs : j.state ≠ .active ∧ j.state ≠ .activating)
  | forked (hs : j.state = .activating) (hc : j.child = some s.kernel.nextPid)
  | raised (hs : j.state = .active) (hp : j.lastPing = some s'.kernel.now)
      (hn : ∀ service, j.unit.service = some service → service.ty ≠ .notify)

/-- What becomes of an instance in a stride. -/
theorem stride_becomes {s' : Supervisor} {u : Name} {j : Instance} (h : Stride w e s s')
    (hj : s'.instances[u]? = some j) :
    Becomes s s' u j ∨ e = .notify ∧ ∃ message, s' = onMessage w message s := by
  have hmod : ∀ {s₁ : Supervisor} {v : Name} {f : Instance → Instance}, s₁.instances = s.instances →
      (∀ i, s₁.instances[v]? = some i → Becomes s s' v (f i)) → (s₁.modify v f).instances[u]? = some j →
      Becomes s s' u j := by
    intro s₁ v f hs hf hj
    rw [modify_toManager, Manager.get_modify] at hj
    split at hj
    · rename_i e
      subst e
      obtain ⟨i, hi, rfl⟩ := Option.map_eq_some_iff.mp hj
      exact hf i hi
    · exact .kept (hs ▸ hj)
  cases h with
  | turn => exact .inl (.kept (by rwa [turn_toManager] at hj))
  | signal | read | reaped | drained | note | push | expire | late | hung => exact .inl (.kept hj)
  | update hi => exact .inl (.kept (hi ▸ hj))
  | message he message => exact .inr ⟨he, message, rfl⟩
  | lower hf => exact .inl (hmod rfl (fun i hi => .lowered ⟨(hf i hi).inactive, (hf i hi).settled⟩) hj)
  | finished => exact .inl (hmod rfl (fun i _ => .lowered (State.down_lower (Instance.deactivated_down ..))) hj)
  | spawn => exact .inl (hmod rfl (fun i _ => .forked rfl rfl) hj)
  | active hi _ hc =>
    refine .inl (hmod rfl (fun i hi' => .raised rfl rfl fun service hsv => ?_) hj)
    cases hi.symm.trans hi'
    exact hc.not_notify hsv
  | forkedAway _ hi hsv hty =>
    refine .inl (hmod rfl (fun i hi' => .raised rfl rfl fun service hsv' hty' => ?_) hj)
    cases hi.symm.trans hi'
    cases hsv.symm.trans hsv'
    cases hty.symm.trans hty'
  | insert =>
    rw [update_toManager, Manager.get_insertUnit] at hj
    split at hj
    · cases hj
      exact .inl (.lowered ⟨nofun, nofun⟩)
    · exact .inl (.kept hj)
  | keep => exact .inl (.kept (Manager.get_of_keep hj))

theorem stride_now {s' : Supervisor} (h : Stride w e s s') : s.kernel.now ≤ s'.kernel.now := by
  cases h with
  | turn => exact turn_now w s
  | message _ message => exact (onMessage_routines w message s).chores.acts.time
  | read =>
    simp only [onKernel, Kernel.read]
    split <;> exact le_rfl
  | signal | reaped | drained | note | update | push | expire | late | hung | lower | finished | spawn | active
    | forkedAway | insert | keep => exact le_rfl

theorem strides_grows {s' : Supervisor} (h : Strides w e s s') : s.history <:+ s'.history := by
  have hg : Framework.Grows (fun s : Supervisor => s.history) (Stride w e) := fun h => stride_grows h
  exact Framework.Grows.run (R := Stride w e) hg h

theorem step_grows (w : World) (e : Event) (s : Supervisor) : s.history <:+ (step w s e).history :=
  strides_grows (step_strides w e s)

/-- Induction over a run from boot in which each event and what is recorded meet
a condition. -/
theorem guarded_run {I : Supervisor → Prop} {ok : Call × Machine → Prop} {P : Supervisor → Event → Prop}
    {hierarchy : Bool} {kernel : Kernel} {events : List Event}
    (hboot : (∀ x ∈ (boot w hierarchy kernel).history, ok x) → I (boot w hierarchy kernel))
    (hstep : ∀ s e, Reachable w s → P s e → (∀ x ∈ (step w s e).history, ok x) → I s → I (step w s e))
    (hp : Framework.Each (step w) P (boot w hierarchy kernel) events)
    (hok : ∀ x ∈ (run w (boot w hierarchy kernel) events).history, ok x) :
    I (run w (boot w hierarchy kernel) events) := by
  have hr : Reachable w (boot w hierarchy kernel) := ⟨hierarchy, kernel, [], rfl⟩
  generalize boot w hierarchy kernel = s at hp hok hboot hr
  induction events generalizing s with
  | nil => exact hboot hok
  | cons e events ih =>
    refine ih _ hp.2 hok (fun hok' => hstep s e hr hp.1 hok' (hboot fun x hx => ?_)) (hr.step e)
    exact hok' x ((step_grows w e s).subset hx)

/-- Induction over a run from boot, stride by stride, when what is recorded
meets a condition. -/
theorem guarded_strides {I : Supervisor → Prop} {ok : Call × Machine → Prop} {hierarchy : Bool} {kernel : Kernel}
    {events : List Event} (hok : ∀ x ∈ (run w (boot w hierarchy kernel) events).history, ok x)
    (init : (∀ x ∈ (queued w hierarchy kernel).history, ok x) → I (queued w hierarchy kernel))
    (stride : ∀ e {s s'}, (∀ x ∈ s'.history, ok x) → I s → Stride w e s s' → I s') :
    I (run w (boot w hierarchy kernel) events) := by
  have hg : ∀ e, Framework.Grows (fun s : Supervisor => s.history) (Stride w e) := fun e _ _ h => stride_grows h
  have hrun : ∀ {e s s'}, Strides w e s s' → (∀ x ∈ s'.history, ok x) → I s → I s' := by
    intro e s s' h hok hI
    exact Framework.Grows.invariant (R := Stride w e) (hg e) (fun hok hI h => stride e hok hI h) h hok hI
  have hb : (∀ x ∈ (boot w hierarchy kernel).history, ok x) → I (boot w hierarchy kernel) := by
    intro hok
    have hs := boot_strides w hierarchy kernel
    exact hrun hs hok (init fun x hx => hok x ((strides_grows hs).mem hx))
  generalize boot w hierarchy kernel = s at hok hb
  induction events generalizing s with
  | nil => exact hb hok
  | cons e events ih =>
    exact ih _ hok fun hok' => hrun (step_strides w e s) hok' (hb fun x hx => hok' x ((step_grows w e s).mem hx))

/-- An invariant that holds at boot, and that every stride keeps whose calls are admitted. -/
theorem Reachable.guarded_strides {I : Supervisor → Prop} {ok : Call × Machine → Prop} (h : Reachable w s)
    (hok : ∀ x ∈ s.history, ok x) (init : ∀ hierarchy kernel, I (queued w hierarchy kernel))
    (stride : ∀ e {s s'}, (∀ x ∈ s'.history, ok x) → I s → Stride w e s s' → I s') : I s := by
  obtain ⟨hierarchy, kernel, events, rfl⟩ := h
  exact Supervisor.guarded_strides hok (fun _ => init hierarchy kernel) stride

end Supervisor

end Oxinit
