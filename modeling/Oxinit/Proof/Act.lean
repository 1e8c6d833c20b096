import Oxinit.Proof.Effect

/-!
# Acts

`Still x s s'`: between the two states only the world moved, and no instance
but that of `x` is another. `Act s s'`: one effect, and what it recorded;
`Chore s s'`: one that starts nothing and that no alarm is needed for;
`Errand u s s'`: the same, but it may start `u`; `Routine s s'`: a chore that
ends nothing either. `stop` and the other operations are shown to be runs of chores,
`start` one of errands.
-/

namespace Oxinit

open Framework (Deadline)
open Relation (ReflTransGen)

structure Still (x : Option Name) (s s' : Supervisor) : Prop where
  log : ∃ new, s'.history = new ++ s.history ∧
    ∀ e ∈ new, e.1.isMove = true ∧ ∀ v, x ≠ some v → e.2.instances[v]? = s.instances[v]?
  inst : ∀ v, x ≠ some v → s'.instances[v]? = s.instances[v]?
  kernel : s.kernel.Drifts s'.kernel
  alarms : s'.alarms = s.alarms

namespace Still

variable {x : Option Name} {s s₁ s₂ : Supervisor}

theorem refl (x : Option Name) (s : Supervisor) : Still x s s :=
  ⟨⟨[], rfl, by simp⟩, fun _ _ => rfl, .refl _, rfl⟩

theorem now (h : Still x s s₁) : s.kernel.now ≤ s₁.kernel.now := h.kernel.now

theorem trans (h₁ : Still x s s₁) (h₂ : Still x s₁ s₂) : Still x s s₂ := by
  obtain ⟨n₁, e₁, p₁⟩ := h₁.log
  obtain ⟨n₂, e₂, p₂⟩ := h₂.log
  refine ⟨⟨n₂ ++ n₁, by rw [e₂, e₁, List.append_assoc], fun e he => ?_⟩,
    fun v hv => (h₂.inst v hv).trans (h₁.inst v hv), h₁.kernel.trans h₂.kernel, h₂.alarms.trans h₁.alarms⟩
  rcases List.mem_append.mp he with he | he
  · exact ⟨(p₂ e he).1, fun v hv => ((p₂ e he).2 v hv).trans (h₁.inst v hv)⟩
  · exact p₁ e he

theorem world (x : Option Name) (s : Supervisor) (mv : Move) : Still x s (s.world mv) :=
  ⟨⟨[(.world mv, s.toMachine)], rfl, by simp [Call.isMove]⟩, fun _ _ => rfl, Kernel.move_drifts _ mv, rfl⟩

theorem moves (x : Option Name) (s : Supervisor) (mvs : List Move) : Still x s (s.moves mvs) := by
  induction mvs generalizing s with
  | nil => exact refl x s
  | cons mv mvs ih => exact (world x s mv).trans (ih (s.world mv))

theorem turn (x : Option Name) (w : World) (s : Supervisor) : Still x s (s.turn w) :=
  ⟨(moves x s _).log, (moves x s _).inst, (moves x s _).kernel, (moves x s _).alarms⟩

theorem update {f : Manager → Manager} (ha : (f s.toManager).alarms = s.alarms)
    (h : ∀ v, x ≠ some v → (f s.toManager).instances[v]? = s.instances[v]?) : Still x s (s.update f) :=
  ⟨⟨[], rfl, by simp⟩, h, .refl _, ha⟩

theorem onKernel (x : Option Name) {f : Kernel → Kernel} (h : s.kernel.Drifts (f s.kernel)) :
    Still x s (s.onKernel f) :=
  ⟨⟨[], rfl, by simp⟩, fun _ _ => rfl, h, rfl⟩

theorem signal (x : Option Name) (s : Supervisor) (pids : List Pid) (sig : Signal) :
    Still x s (s.onKernel (·.signal pids sig)) :=
  onKernel x (Kernel.signal_drifts ..)

theorem setTimer (x : Option Name) (w : World) (delay : Option Nat) (s : Supervisor) :
    Still x s (Supervisor.setTimer w delay s).2 := by
  simp only [Supervisor.setTimer]
  split
  · exact (turn x w s).trans (update rfl fun _ _ => rfl)
  · exact turn x w s

theorem armTimer (x : Option Name) (w : World) (s : Supervisor) : Still x s (Supervisor.armTimer w s).2 :=
  (turn x w s).trans (setTimer x w _ _)

theorem armWall (x : Option Name) (w : World) (s : Supervisor) : Still x s (Supervisor.armWall w s).2 := by
  simp only [Supervisor.armWall]
  split
  · exact (turn x w s).trans (update rfl fun _ _ => rfl)
  · exact turn x w s

/-- What happens outside oxinit touches no instance. -/
theorem outside (x : Option Name) {w : World} (h : ReflTransGen (Supervisor.Outside w) s s₁) : Still x s s₁ := by
  refine Framework.invariant (I := fun s₁ => Still x s s₁) (fun hs ho => ?_) h (refl x s)
  cases ho with
  | turn => exact hs.trans (turn x w _)
  | signal => exact hs.trans (signal x _ _ _)

theorem sigterm (x : Option Name) (w : World) (name : Name) (child : Option Pid) (s : Supervisor) :
    Still x s (Supervisor.sigterm w name child s) :=
  outside x (Supervisor.sigterm_outside w name child s)

theorem sigkill (x : Option Name) (w : World) (name : Name) (child : Option Pid) (s : Supervisor) :
    Still x s (Supervisor.sigkill w name child s) :=
  outside x (Supervisor.sigkill_outside w name child s)

theorem readPopulated (x : Option Name) (w : World) (name : Name) (s : Supervisor) :
    Still x s (Supervisor.readPopulated w name s).2 := turn x w s

theorem applyResources (x : Option Name) (w : World) (name : Name) (r : Resources) (s : Supervisor) :
    Still x s (Supervisor.applyResources w name r s).2 :=
  outside x (Supervisor.applyResources_outside w name r s)

theorem outputFor (x : Option Name) (w : World) (o : Output) (s : Supervisor) :
    Still x s (Supervisor.outputFor w o s).2 :=
  outside x (Supervisor.outputFor_outside w o s)

theorem modify (name : Name) (f : Instance → Instance) (s : Supervisor) : Still (some name) s (s.modify name f) :=
  update rfl fun _ hv => Manager.get_modify_ne fun h => hv (h ▸ rfl)

theorem enterActive (w : World) (name : Name) (s : Supervisor) :
    Still (some name) s (Supervisor.enterActive w name s) :=
  ((turn _ w s).trans (turn _ w _)).trans (modify name _ _)

end Still

/-! ## Scheduling an alarm -/

/-- The delay an alarm that guards a unit is scheduled with. -/
def Manager.asks (m : Manager) (delay : Nat) : Alarm → Prop
  | .stopTimeout u => ∃ service, m.serviceOf u = some service ∧ delay = service.stopSec
  | .startTimeout u => ∃ service, m.serviceOf u = some service ∧ delay = service.startSec
  | _ => True

/-- The delay after which `u` is to be restarted, by its policy, when a call
ends it. -/
def Call.announced (u : Name) (e : Call × Machine) : Option Nat :=
  match e.1 with
  | .exited v exit => if v = u then e.2.instances[u]?.bind fun i => (i.onExit e.2.kernel.now exit).1 else none
  | .vanished v => if v = u then e.2.instances[u]?.bind fun i => (i.onExit e.2.kernel.now .abnormal).1 else none
  | .finished v => if v = u then e.2.instances[u]?.bind fun i => (i.deactivated e.2.kernel.now).1 else none
  | _ => none

namespace Supervisor

/-- The last call, but for moves of the world. -/
def lastCall (s : Supervisor) : Option (Call × Machine) := s.history.find? fun e => !e.1.isMove

/-- `u` has ended at this moment, and is to be restarted after `delay`. -/
def announces (s : Supervisor) (u : Name) (delay : Nat) : Prop :=
  ∃ e, s.history.head? = some e ∧ e.2.kernel.now = s.kernel.now ∧ Call.announced u e = some delay

/-- `u` is being armed, and `next` is what its schedule says: to begin with, or
after a firing. -/
def plans (s : Supervisor) (u : Name) (next : Next) : Prop :=
  ∃ timer m, s.timerOf u = some timer ∧
    (s.lastCall = some (.arm u, m) ∧ timer.schedule.first s.kernel.wall = some next ∨
      s.lastCall = some (.elapsed u, m) ∧ timer.schedule.next s.kernel.wall = some next)

/-- What an alarm is scheduled for. -/
def asks (s : Supervisor) : Call → Prop
  | .schedule (.restart u) delay => s.announces u delay
  | .schedule (.timerElapsed u) delay => s.plans u (.after delay)
  | .schedule alarm delay => s.toManager.asks delay alarm
  | .scheduleAt (.timerElapsed u) moment => s.plans u (.at moment)
  | .scheduleAt .. => False
  | _ => True

theorem asks_manager {s : Supervisor} {alarm : Alarm} {delay : Nat} (h : s.asks (.schedule alarm delay)) :
    s.toManager.asks delay alarm := by
  cases alarm <;> first | exact h | exact trivial

end Supervisor

theorem Still.lastCall {x : Option Name} {s s' : Supervisor} (h : Still x s s') : s'.lastCall = s.lastCall := by
  obtain ⟨new, e, p⟩ := h.log
  rw [Supervisor.lastCall, e, List.find?_append, List.find?_eq_none.mpr, Option.none_or]
  · rfl
  · intro x hx
    simp [(p x hx).1]

/-- An alarm is added to the heap that the call is about. -/
inductive Queues (now : Nat) (m m' : Manager) : Call → Prop
  | heap {alarm delay tie due} (hdue : now + delay ≤ due)
      (h : m'.alarms = (Deadline.insert tie { due, alarm } m.alarms.1, m.alarms.2)) :
      Queues now m m' (.schedule alarm delay)
  | wallHeap {alarm moment tie}
      (h : m'.alarms = (m.alarms.1, m.alarms.2.1, Deadline.insert tie { due := moment, alarm } m.alarms.2.2)) :
      Queues now m m' (.scheduleAt alarm moment)

theorem Queues.isWorld {now : Nat} {m m' : Manager} {c : Call} (h : Queues now m m' c) : c.isWorld = true := by
  cases h <;> rfl

theorem Queues.of_alarms {now : Nat} {m m₁ m' m₂ : Manager} {c : Call} (h : Queues now m₁ m₂ c)
    (hm : m₁.alarms = m.alarms) (hm' : m'.alarms = m₂.alarms) : Queues now m m' c := by
  cases h with
  | heap hdue h => exact .heap hdue (hm'.trans (hm ▸ h))
  | wallHeap h => exact .wallHeap (hm'.trans (hm ▸ h))

/-- From `s` to `s'` an alarm is scheduled, and the world moves. -/
structure Scheduled (c : Call) (s s' : Supervisor) : Prop where
  log : ∃ new, s'.history = new ++ (c, s.toMachine) :: s.history ∧
    ∀ e ∈ new, e.1.isMove = true ∧ ∀ v : Name, e.2.instances[v]? = s.instances[v]?
  inst : ∀ v : Name, s'.instances[v]? = s.instances[v]?
  kernel : s.kernel.Drifts s'.kernel
  queues : Queues s.kernel.now s.toManager s'.toManager c
  asked : s.asks c

/-- The world moves, and at most one alarm is scheduled. -/
inductive Rest (x : Option Name) (s s' : Supervisor) : Prop
  | still (h : Still x s s')
  | scheduled {c s₁} (h₁ : Still x s s₁) (h₂ : Scheduled c s₁ s')

/-- `schedule` adds an entry for its alarm, and arms the timerfd. -/
theorem Supervisor.schedule_scheduled (w : World) (alarm : Alarm) {delay : Nat} {s : Supervisor}
    (h : s.asks (.schedule alarm delay)) : Scheduled (.schedule alarm delay) s (schedule w delay alarm s).2 := by
  have ht := Still.turn none w (s.note (.schedule alarm delay))
  have ha := Still.armTimer none w
    (((s.note (.schedule alarm delay)).turn w).update (·.push (w s.ticks).tie
      { due := ((s.note (.schedule alarm delay)).turn w).kernel.now + delay, alarm }))
  obtain ⟨n₁, e₁, p₁⟩ := ht.log
  obtain ⟨n₂, e₂, p₂⟩ := ha.log
  have hu : ∀ v : Name, ((s.note (.schedule alarm delay)).turn w).instances[v]? = s.instances[v]? :=
    fun v => ht.inst v (by simp)
  refine ⟨⟨n₂ ++ n₁, ?_, fun e he => ?_⟩, fun v => (ha.inst v (by simp)).trans (hu v), ht.kernel.trans ha.kernel,
    @Queues.heap _ _ _ _ _ (w s.ticks).tie _ (Nat.add_le_add_right ht.now delay) ?_, h⟩
  · rw [schedule, e₂, update_history, e₁, note_history, List.append_assoc]
  · rcases List.mem_append.mp he with he | he
    · exact ⟨(p₂ e he).1, fun v => ((p₂ e he).2 v (by simp)).trans (hu v)⟩
    · exact ⟨(p₁ e he).1, fun v => (p₁ e he).2 v (by simp)⟩
  · rw [schedule, ha.alarms, update_toManager, turn_toManager, note_toMachine]
    rfl

/-- `schedule_at` adds an entry to the other heap. -/
theorem Supervisor.scheduleAt_scheduled (w : World) (alarm : Alarm) {moment : Nat} {s : Supervisor}
    (h : s.asks (.scheduleAt alarm moment)) :
    Scheduled (.scheduleAt alarm moment) s (scheduleAt w moment alarm s).2 := by
  have ha := Still.armWall none w
    ((s.note (.scheduleAt alarm moment)).update (·.pushWall (w s.ticks).tie { due := moment, alarm }))
  obtain ⟨new, e, p⟩ := ha.log
  refine ⟨⟨new, e, fun x hx => ⟨(p x hx).1, fun v => (p x hx).2 v (by simp)⟩⟩, fun v => ha.inst v (by simp), ha.kernel,
    @Queues.wallHeap _ _ _ _ _ (w s.ticks).tie ?_, h⟩
  rw [scheduleAt, ha.alarms]
  rfl

theorem Scheduled.update {c : Call} {s s' : Supervisor} {f : Manager → Manager} (h : Scheduled c s s')
    (hi : (f s'.toManager).instances = s'.instances) (hh : (f s'.toManager).alarms = s'.alarms) :
    Scheduled c s (s'.update f) :=
  ⟨h.log, fun v => by rw [Supervisor.update_toManager, hi, h.inst], h.kernel, h.queues.of_alarms rfl hh, h.asked⟩

/-- What is recorded aside from the call of an effect. -/
inductive Aside (s s' : Supervisor) (e : Call × Machine) : Prop
  | move (h : e.1.isMove = true)
  | schedule (queues : Queues e.2.kernel.now s.toManager s'.toManager e.1)

theorem Aside.isWorld {s s' : Supervisor} {e : Call × Machine} (h : Aside s s' e) : e.1.isWorld = true := by
  cases h with
  | move h => exact Call.isWorld_of_isMove h
  | schedule h => exact h.isWorld

namespace Rest

variable {x : Option Name} {s s₁ s' : Supervisor}

theorem refl (x : Option Name) (s : Supervisor) : Rest x s s := .still (.refl x s)

theorem head (h : Still x s s₁) (hr : Rest x s₁ s') : Rest x s s' := by
  cases hr with
  | still h' => exact .still (h.trans h')
  | scheduled h₁ h₂ => exact .scheduled (h.trans h₁) h₂

theorem log (h : Rest x s s') : ∃ new, s'.history = new ++ s.history ∧
    ∀ e ∈ new, Aside s s' e ∧ ∀ v, x ≠ some v → e.2.instances[v]? = s.instances[v]? := by
  cases h with
  | still h =>
    obtain ⟨new, e, p⟩ := h.log
    exact ⟨new, e, fun x hx => ⟨.move (p x hx).1, (p x hx).2⟩⟩
  | @scheduled c s₁ h₁ h₂ =>
    obtain ⟨n₁, e₁, p₁⟩ := h₁.log
    obtain ⟨n₂, e₂, p₂⟩ := h₂.log
    refine ⟨n₂ ++ _ :: n₁, by rw [e₂, e₁, List.append_assoc, List.cons_append], fun e he => ?_⟩
    rcases List.mem_append.mp he with he | he
    · exact ⟨.move (p₂ e he).1, fun v hv => ((p₂ e he).2 v).trans (h₁.inst v hv)⟩
    · rcases List.mem_cons.mp he with rfl | he
      · exact ⟨.schedule (h₂.queues.of_alarms h₁.alarms rfl), fun v hv => h₁.inst v hv⟩
      · exact ⟨.move (p₁ e he).1, (p₁ e he).2⟩

theorem inst (h : Rest x s s') (v : Name) (hv : x ≠ some v) : s'.instances[v]? = s.instances[v]? := by
  cases h with
  | still h => exact h.inst v hv
  | scheduled h₁ h₂ => exact (h₂.inst v).trans (h₁.inst v hv)

theorem kernel (h : Rest x s s') : s.kernel.Drifts s'.kernel := by
  cases h with
  | still h => exact h.kernel
  | scheduled h₁ h₂ => exact h₁.kernel.trans h₂.kernel

/-- An alarm that has been added to the heap was scheduled. -/
theorem of_push {tie : Nat} {e : Entry} (h : Rest x s s')
    (he : s'.timers.heap = Deadline.insert tie e s.timers.heap) :
    ∃ delay s₁, Still x s s₁ ∧ Scheduled (.schedule e.alarm delay) s₁ s' := by
  have hsame : s'.timers.heap ≠ s.timers.heap := fun h => by
    have := congrArg List.length (h.symm.trans he)
    rw [Deadline.length_insert] at this
    omega
  cases h with
  | still h => exact absurd (congrArg Prod.fst h.alarms) hsame
  | scheduled h₁ h₂ =>
    have hs₁ := congrArg Prod.fst h₁.alarms
    obtain ⟨log, inst, kernel, queues, asked⟩ := h₂
    cases queues with
    | wallHeap h => exact absurd ((congrArg Prod.fst h).trans hs₁) hsame
    | heap hdue h =>
      obtain rfl := Deadline.insert_inj (((congrArg Prod.fst h).symm.trans he).trans (congrArg _ hs₁.symm))
      exact ⟨_, _, h₁, log, inst, kernel, .heap hdue h, asked⟩

/-- To arm a timer touches no instance. -/
theorem arm {w : World} {name : Name} (x : Option Name) (next : Option Next) (s : Supervisor)
    (h : ∀ n, next = some n → s.plans name n) : Rest x s (Supervisor.arm w name next s) := by
  cases next with
  | none => exact .still (.update (f := (·.clearNext name)) rfl fun _ _ => rfl)
  | some next =>
    cases next with
    | after delay =>
      have h := Supervisor.schedule_scheduled w (.timerElapsed name) (h (.after delay) rfl)
      simp only [Supervisor.arm]
      split
      · exact .scheduled (.refl x s) (h.update rfl rfl)
      · exact .scheduled (.refl x s) h
    | «at» moment =>
      have h := Supervisor.scheduleAt_scheduled w (.timerElapsed name) (h (.at moment) rfl)
      simp only [Supervisor.arm]
      split
      · exact .scheduled (.refl x s) (h.update rfl rfl)
      · exact .scheduled (.refl x s) h

theorem schedule {w : World} {delay : Nat} (x : Option Name) (alarm : Alarm) (h : s.asks (.schedule alarm delay)) :
    Rest x s (Supervisor.schedule w delay alarm s).2 :=
  .scheduled (.refl x s) (Supervisor.schedule_scheduled w alarm h)

end Rest

/-! ## Acts -/

/-- The unit whose instance an effect sets up while the world may move. -/
def Call.raised : Option Call → Option Name
  | some (.spawn name) | some (.arm name) | some (.up name) => some name
  | _ => none

/-- How `s'` was reached from `s`: the world moves, then there is the call of
the effect, if it has one, and the effect, and then the rest. Only a unit that
comes up is not in its new state at once (`x`). -/
structure Logged (c : Option Call) (x : Option Name) (s s₁ s₂ s' : Supervisor) : Prop where
  before : Still none s s₁
  same : s₁.toManager = s.toManager
  call : s₂.history = (c.toList.map fun c => (c, s₁.toMachine)) ++ s₁.history
  kernel : s₁.kernel.Later s₂.kernel
  alarms : s₂.alarms = s.alarms
  rest : Rest x s₂ s'
  inst : ∀ v, x ≠ some v → s₂.instances[v]? = s'.instances[v]?
  raised : ∀ v, x = some v → Call.raised c = some v ∧ s'.stateOf v = some .active

/-- One effect, performed. -/
structure Acted (c : Option Call) (s s' : Supervisor) : Prop where
  effect : Effect s.kernel.now c s.toManager s'.toManager
  logged : ∃ x s₁ s₂, Logged c x s s₁ s₂ s'

/-- Some effect, performed. -/
def Act (s s' : Supervisor) : Prop := ∃ c, Acted c s s'

abbrev Acts : Supervisor → Supervisor → Prop := ReflTransGen Act

/-- The unit a call starts, or has started later. -/
def Call.begins : Option Call → Option Name
  | some (.pump name) | some (.start name) | some (.spawn name) | some (.arm name) | some (.up name)
  | some (.await name) => some name
  | _ => none

/-- The alarm that brings a call about, if nothing else does. -/
def Call.alarm : Option Call → Option Alarm
  | some (.elapsed name) => some (.timerElapsed name)
  | some (.kill name) => some (.stopTimeout name)
  | some (.late name) => some (.startTimeout name)
  | some (.backoff name) => some (.restart name)
  | _ => none

def Call.isChore (c : Option Call) : Bool := (Call.begins c).isNone && (Call.alarm c).isNone

/-- Some effect, performed, that starts nothing and that needs no alarm. -/
def Chore (s s' : Supervisor) : Prop := ∃ c, Acted c s s' ∧ Call.isChore c = true

abbrev Chores : Supervisor → Supervisor → Prop := ReflTransGen Chore

namespace Acted

variable {c : Option Call} {s s' : Supervisor}

theorem act (h : Acted c s s') : Act s s' := ⟨c, h⟩

theorem acts (h : Acted c s s') : Acts s s' := .single h.act

theorem chore (h : Acted c s s') (hc : Call.isChore c = true) : Chore s s' := ⟨c, h, hc⟩

theorem chores (h : Acted c s s') (hc : Call.isChore c = true) : Chores s s' := .single (h.chore hc)

/-- The world moves, then a call, an effect at once, and the rest. -/
theorem of_rest {s₁ : Supervisor} {x : Option Name} {f : Manager → Manager}
    (ha : (f s.toManager).alarms = s.alarms) (h₁ : Still none s s₁) (hm : s₁.toManager = s.toManager)
    (s₂ : Supervisor) (hs : s₂.history = (c.toList.map fun c => (c, s₁.toMachine)) ++ s₁.history)
    (hf : s₂.toManager = f s.toManager) (hk : s₁.kernel.Later s₂.kernel) (h : Rest x s₂ s')
    (hx : ∀ v, x = some v → Call.raised c = some v ∧ s'.stateOf v = some .active)
    (he : Effect s.kernel.now c s.toManager s'.toManager) : Acted c s s' :=
  ⟨he, x, s₁, s₂, h₁, hm, hs, hk, by rw [hf, ha], h, fun v hv => (h.inst v hv).symm, hx⟩

/-- An effect at once. -/
theorem now {f : Manager → Manager} (ha : (f s.toManager).alarms = s.alarms)
    (h : Effect s.kernel.now none s.toManager (f s.toManager)) : Acted none s (s.update f) :=
  of_rest ha (.refl _ s) rfl (s.update f) rfl rfl (.refl _) (.refl none _) (by simp) h

/-- The world moves, and then there is an effect at once. -/
theorem later {s₁ : Supervisor} {f : Manager → Manager} (ha : (f s.toManager).alarms = s.alarms)
    (h₁ : Still none s s₁) (hm : s₁.toManager = s.toManager)
    (h : Effect s.kernel.now none s.toManager (f s.toManager)) : Acted none s (s₁.update f) := by
  have e : (s₁.update f).toManager = f s.toManager := by rw [Supervisor.update_toManager, hm]
  exact of_rest ha h₁ hm (s₁.update f) rfl e (.refl _) (.refl none _) (by simp) (e ▸ h)

/-- The world moves, then a call, an effect at once, and the rest. -/
theorem laterCall {s₁ : Supervisor} {c : Call} {f : Manager → Manager} (ha : (f s.toManager).alarms = s.alarms)
    (h₁ : Still none s s₁) (hm : s₁.toManager = s.toManager) (h : Rest none ((s₁.note c).update f) s')
    (he : Effect s.kernel.now (some c) s.toManager s'.toManager) : Acted (some c) s s' :=
  of_rest ha h₁ hm ((s₁.note c).update f) rfl (congrArg f hm) (.refl _) h (by simp) he

/-- A call, an effect at once, and the rest. -/
theorem callThen {c : Call} {f : Manager → Manager} (ha : (f s.toManager).alarms = s.alarms)
    (h : Rest none ((s.note c).update f) s') (he : Effect s.kernel.now (some c) s.toManager s'.toManager) :
    Acted (some c) s s' :=
  laterCall ha (.refl _ s) rfl h he

/-- A call with an effect at once. -/
theorem call {c : Call} {f : Manager → Manager} (ha : (f s.toManager).alarms = s.alarms)
    (h : Effect s.kernel.now (some c) s.toManager (f s.toManager)) : Acted (some c) s ((s.note c).update f) :=
  callThen ha (.refl _ _) h

/-- A call that brings a unit up, and the rest. -/
theorem raise {c : Call} {v : Name} (h : Rest (some v) (s.note c) s') (hc : Call.raised (some c) = some v)
    (hs : s'.stateOf v = some .active) (he : Effect s.kernel.now (some c) s.toManager s'.toManager) :
    Acted (some c) s s' :=
  of_rest (f := id) rfl (.refl _ s) rfl (s.note c) rfl rfl (.refl _) h (fun _ e => Option.some.inj e ▸ ⟨hc, hs⟩) he

/-- Only the world moves. -/
theorem still (h : Still none s s') (hm : s'.toManager = s.toManager) : Acted none s s' :=
  of_rest (f := id) rfl (.refl _ s) rfl s rfl rfl (.refl _) (.still h) (by simp) (by rw [hm]; exact .turn)

/-- An effect of what an act without a call does. -/
theorem quiet {s₁ : Supervisor} (h₁ : Still none s s₁) (hm : s₁.toManager = s.toManager)
    {f : Manager → Manager} (ha : (f s.toManager).alarms = s.alarms) (h : Rest none (s₁.update f) s')
    (he : Effect s.kernel.now none s.toManager s'.toManager) : Acted none s s' :=
  of_rest ha h₁ hm (s₁.update f) rfl (congrArg f hm) (.refl _) h (by simp) he

theorem turn (w : World) (s : Supervisor) : Acted none s (s.turn w) := still (.turn _ w s) (by simp)

/-- Only the kernel is another. -/
theorem onKernel {f : Kernel → Kernel} (h : s.kernel.Later (f s.kernel)) : Acted none s (s.onKernel f) :=
  of_rest (f := id) rfl (.refl _ s) rfl (s.onKernel f) rfl rfl h (.refl none _) (by simp) .turn

theorem mark {c : Call} (h : c.isMark = true) (s : Supervisor) : Acted (some c) s (s.note c) :=
  call (f := id) rfl (.mark h)

/-- What an act records: the call of its effect on what PID 1 held when it
began, and what is aside from that. -/
theorem asides (h : Acted c s s') : ∃ new, s'.history = new ++ s.history ∧ ∀ e ∈ new, Aside s s' e ∨
    (c = some e.1 ∧ e.2.toManager = s.toManager ∧ s.kernel.now ≤ e.2.kernel.now) := by
  obtain ⟨x, s₁, s₂, h⟩ := h.logged
  obtain ⟨n₁, e₁, p₁⟩ := h.before.log
  obtain ⟨n₃, e₃, p₃⟩ := h.rest.log
  refine ⟨n₃ ++ (c.toList.map fun c => (c, s₁.toMachine)) ++ n₁, by simp [e₁, h.call, e₃], fun e hm => ?_⟩
  simp only [List.mem_append, List.mem_map, Option.mem_toList] at hm
  rcases hm with (hm | ⟨c', hc, rfl⟩) | hm
  · cases (p₃ e hm).1 with
    | move h => exact .inl (.move h)
    | schedule queues => exact .inl (.schedule (queues.of_alarms h.alarms rfl))
  · exact .inr ⟨hc, h.same, h.before.now⟩
  · exact .inl (.move (p₁ e hm).1)

/-- What an act adds to the history: its call, and moves of the world. -/
theorem entries (h : Acted c s s') : ∃ new, s'.history = new ++ s.history ∧ ∀ e ∈ new, e.1.isWorld = true ∨
    (c = some e.1 ∧ e.2.toManager = s.toManager ∧ s.kernel.now ≤ e.2.kernel.now) := by
  obtain ⟨new, hn, hnew⟩ := h.asides
  exact ⟨new, hn, fun e he => (hnew e he).imp_left Aside.isWorld⟩

/-- What holds of all that is recorded holds still if it does of the call. -/
theorem log {p : Call × Machine → Prop} (h : Acted c s s') (hs : ∀ e ∈ s.history, p e)
    (hw : ∀ e : Call × Machine, e.1.isWorld = true → p e)
    (hc : ∀ (c' : Call) (m : Machine), c = some c' → m.toManager = s.toManager → p (c', m)) :
    ∀ e ∈ s'.history, p e := by
  obtain ⟨new, hn, hnew⟩ := h.entries
  intro e he
  rw [hn] at he
  rcases List.mem_append.mp he with he | he
  · rcases hnew e he with h | ⟨h, hm, -⟩
    · exact hw e h
    · exact hc e.1 e.2 h hm
  · exact hs e he

/-- What precedes the call of an act. -/
theorem before {c' : Call} {m : Machine} {t : List (Call × Machine)} (h : Acted c s s')
    (ht : (c', m) :: t <:+ s'.history) (hc : c'.isWorld = false) : (c', m) :: t <:+ s.history ∨
      c = some c' ∧ m.toManager = s.toManager ∧ s.kernel.now ≤ m.kernel.now ∧
        ∃ new, t = new ++ s.history ∧
          ∀ e ∈ new, e.1.isMove = true ∧ ∀ v : Name, e.2.instances[v]? = s.instances[v]? := by
  obtain ⟨x, s₁, s₂, h⟩ := h.logged
  obtain ⟨n₁, e₁, p₁⟩ := h.before.log
  obtain ⟨n₃, e₃, p₃⟩ := h.rest.log
  have hskip : ∀ {n l : List (Call × Machine)}, (c', m) :: t <:+ n ++ l →
      (∀ e ∈ n, e.1.isWorld = true) → (c', m) :: t <:+ l := by
    intro n l h hn
    refine (Framework.cons_suffix_append h).resolve_right fun ⟨k, _, hk⟩ => ?_
    have := hn _ (hk.mem (List.mem_cons_self ..))
    exact absurd (hc.symm.trans this) (by decide)
  have ht := hskip (e₃ ▸ ht) fun e he => (p₃ e he).1.isWorld
  have hold : (c', m) :: t <:+ s₁.history → (c', m) :: t <:+ s.history :=
    fun ht => hskip (e₁ ▸ ht) fun e he => Call.isWorld_of_isMove (p₁ e he).1
  rw [h.call] at ht
  cases c with
  | none => exact .inl (hold ht)
  | some c =>
    rcases List.suffix_cons_iff.mp ht with ht | ht
    · cases ht
      exact .inr ⟨rfl, h.same, h.before.now, n₁, e₁, fun e he => ⟨(p₁ e he).1, fun v => (p₁ e he).2 v (by simp)⟩⟩
    · exact .inl (hold ht)

/-- An alarm that is scheduled in the course of an act is asked for. -/
theorem asked {c' : Call} {m : Machine} {t : List (Call × Machine)} (h : Acted c s s')
    (ht : (c', m) :: t <:+ s'.history) (hw : c'.isWorld = true) (hm : c'.isMove = false) :
    (c', m) :: t <:+ s.history ∨ ({ toMachine := m, history := t } : Supervisor).asks c' := by
  obtain ⟨x, s₁, s₂, hl⟩ := h.logged
  obtain ⟨n₁, e₁, p₁⟩ := hl.before.log
  have hskip : ∀ {n l : List (Call × Machine)}, (c', m) :: t <:+ n ++ l →
      (∀ e ∈ n, e.1.isMove = true) → (c', m) :: t <:+ l := by
    intro n l h hn
    refine (Framework.cons_suffix_append h).resolve_right fun ⟨k, _, hk⟩ => ?_
    exact absurd (hm.symm.trans (hn _ (hk.mem (List.mem_cons_self ..)))) (by decide)
  have hold : (c', m) :: t <:+ s₂.history → (c', m) :: t <:+ s.history := by
    intro ht
    rw [hl.call] at ht
    refine hskip (e₁ ▸ (Framework.cons_suffix_append ht).resolve_right fun ⟨k, _, hk⟩ => ?_) fun e he => (p₁ e he).1
    obtain ⟨c'', hc, e⟩ := List.mem_map.mp (hk.mem (List.mem_cons_self ..))
    cases e
    exact absurd (hw.symm.trans ((Option.mem_toList.mp hc ▸ h.effect).call_not_world)) (by decide)
  cases hl.rest with
  | still hr =>
    obtain ⟨n₃, e₃, p₃⟩ := hr.log
    exact .inl (hold (hskip (e₃ ▸ ht) fun e he => (p₃ e he).1))
  | scheduled h₁ h₂ =>
    obtain ⟨n₃, e₃, p₃⟩ := h₁.log
    obtain ⟨n₄, e₄, p₄⟩ := h₂.log
    rcases List.suffix_cons_iff.mp (hskip (e₄ ▸ ht) fun e he => (p₄ e he).1) with e | ht
    · cases e
      exact .inr h₂.asked
    · exact .inl (hold (hskip (e₃ ▸ ht) fun e he => (p₃ e he).1))

/-- As long as an act does not bring a unit up, what is recorded finds it in
a state it has before or after. -/
theorem between {v : Name} {st : Option State} (h : Acted c s s')
    (hc : Call.raised c ≠ some v ∨ st ≠ some .active) (hs : s.stateOf v = st) (hs' : s'.stateOf v = st) :
    ∃ new, s'.history = new ++ s.history ∧ ∀ e ∈ new, e.2.stateOf v = st := by
  obtain ⟨x, s₁, s₂, h⟩ := h.logged
  obtain ⟨n₁, e₁, p₁⟩ := h.before.log
  obtain ⟨n₃, e₃, p₃⟩ := h.rest.log
  have hx : x ≠ some v := by
    intro hx
    obtain ⟨hr, ha⟩ := h.raised v hx
    exact hc.elim (fun hc => hc hr) fun hc => hc (hs'.symm.trans ha)
  refine ⟨n₃ ++ (c.toList.map fun c => (c, s₁.toMachine)) ++ n₁, by simp [e₁, h.call, e₃], fun e he => ?_⟩
  simp only [List.mem_append, List.mem_map, Option.mem_toList] at he
  rcases he with (he | ⟨c', -, rfl⟩) | he
  · rw [Manager.stateOf, (p₃ e he).2 v hx, h.inst v hx]
    exact hs'
  · rw [Manager.stateOf, h.same]
    exact hs
  · rw [Manager.stateOf, (p₁ e he).2 v (by simp)]
    exact hs

/-- The call of an act is recorded in the course of it. -/
theorem noted {c : Call} (h : Acted (some c) s s') : ∃ new m, s'.history = new ++ s.history ∧ (c, m) ∈ new ∧
    m.toManager = s.toManager ∧ s.kernel.now ≤ m.kernel.now := by
  obtain ⟨x, s₁, s₂, h⟩ := h.logged
  obtain ⟨n₁, e₁, -⟩ := h.before.log
  obtain ⟨n₃, e₃, -⟩ := h.rest.log
  exact ⟨n₃ ++ (c, s₁.toMachine) :: n₁, s₁.toMachine, by simp [e₃, h.call, e₁], by simp, h.same, h.before.now⟩

/-- The call that is acted on is in the history. -/
theorem recorded {c : Call} (h : Acted (some c) s s') :
    ∃ m, (c, m) ∈ s'.history ∧ m.toManager = s.toManager ∧ s.kernel.now ≤ m.kernel.now := by
  obtain ⟨new, m, e, hm, h⟩ := h.noted
  exact ⟨m, by simp [e, hm], h⟩

end Acted

namespace Act

variable {s s' : Supervisor}

theorem acts (h : Act s s') : Acts s s' := .single h

/-- What no act changes. -/
theorem kept (h : Act s s') : Kept s.toManager s'.toManager := by
  obtain ⟨c, h⟩ := h
  exact h.effect.kept

theorem grows (h : Act s s') : s.history <:+ s'.history := by
  obtain ⟨c, h⟩ := h
  obtain ⟨new, e, -⟩ := h.entries
  exact ⟨new, e.symm⟩

theorem later (h : Act s s') : s.kernel.Later s'.kernel := by
  obtain ⟨c, h⟩ := h
  obtain ⟨x, s₁, s₂, h⟩ := h.logged
  exact (h.before.kernel.toLater.trans h.kernel).trans h.rest.kernel.toLater

end Act

theorem Chore.act {s s' : Supervisor} (h : Chore s s') : Act s s' := by
  obtain ⟨c, h, -⟩ := h
  exact h.act

theorem Chores.acts {s s' : Supervisor} (h : Chores s s') : Acts s s' := 
  Framework.refine_run (fun h => h.act.acts) h

namespace Acts

variable {s s' : Supervisor}

theorem grows (h : Acts s s') : s.history <:+ s'.history := Framework.Grows.run (fun h => h.grows) h

theorem later (h : Acts s s') : s.kernel.Later s'.kernel :=
  Framework.invariant (I := fun s' => s.kernel.Later s'.kernel) (fun h a => h.trans a.later) h (.refl _)

theorem time (h : Acts s s') : s.kernel.now ≤ s'.kernel.now := h.later.now

theorem kept (h : Acts s s') : Kept s.toManager s'.toManager :=
  Framework.invariant (I := fun s' => Kept s.toManager s'.toManager) (fun h a => h.trans a.kept) h (.refl _)

end Acts

theorem Call.begins_of_isChore {c : Option Call} (h : Call.isChore c = true) : Call.begins c = none := by
  simp only [isChore, Bool.and_eq_true, Option.isNone_iff_eq_none] at h
  exact h.1

theorem Call.alarm_of_isChore {c : Option Call} (h : Call.isChore c = true) : Call.alarm c = none := by
  simp only [isChore, Bool.and_eq_true, Option.isNone_iff_eq_none] at h
  exact h.2

theorem Call.begins_of_alarm {c : Option Call} {a : Alarm} (h : Call.alarm c = some a) : Call.begins c = none := by
  rcases c with _ | c
  · rfl
  · cases c <;> first | rfl | cases h

theorem Call.alarm_of_begins {c : Option Call} {name : Name} (h : Call.begins c = some name) : Call.alarm c = none := by
  cases ha : Call.alarm c with
  | none => rfl
  | some a => cases h.symm.trans (Call.begins_of_alarm ha)

/-- Some effect, performed, that starts nothing but `name`, and needs no alarm. -/
def Errand (name : Name) (s s' : Supervisor) : Prop :=
  ∃ c, Acted c s s' ∧ (Call.isChore c = true ∨ Call.begins c = some name)

abbrev Errands (name : Name) : Supervisor → Supervisor → Prop := ReflTransGen (Errand name)

/-- An act that begins nothing but its own unit is an errand for it. -/
theorem Acted.errand {c : Call} {name : Name} {s s' : Supervisor} (h : Acted (some c) s s')
    (hc : Call.begins (some c) = some name) : Errand name s s' :=
  ⟨some c, h, .inr hc⟩

theorem Chore.errand {name : Name} {s s' : Supervisor} (h : Chore s s') : Errand name s s' := by
  obtain ⟨c, h, hc⟩ := h
  exact ⟨c, h, .inl hc⟩

theorem Chores.errands {s s' : Supervisor} (h : Chores s s') (name : Name) : Errands name s s' :=
  Framework.refine_run (fun h => .single h.errand) h

theorem Errands.acts {name : Name} {s s' : Supervisor} (h : Errands name s s') : Acts s s' :=
  Framework.refine_run (fun ⟨_, h, _⟩ => h.acts) h

/-- Some effect, performed, that needs no alarm, or `a`. -/
def Due (a : Option Alarm) (s s' : Supervisor) : Prop :=
  ∃ c, Acted c s s' ∧ (Call.alarm c = none ∨ Call.alarm c = a)

abbrev Dues (a : Option Alarm) : Supervisor → Supervisor → Prop := ReflTransGen (Due a)

theorem Due.act {a : Option Alarm} {s s' : Supervisor} (h : Due a s s') : Act s s' := by
  obtain ⟨c, h, -⟩ := h
  exact h.act

theorem Chore.due {s s' : Supervisor} (h : Chore s s') (a : Option Alarm) : Due a s s' := by
  obtain ⟨c, h, hc⟩ := h
  exact ⟨c, h, .inl (Call.alarm_of_isChore hc)⟩

theorem Errand.due {name : Name} {s s' : Supervisor} (h : Errand name s s') (a : Option Alarm) : Due a s s' := by
  obtain ⟨c, h, hc | hc⟩ := h
  · exact ⟨c, h, .inl (Call.alarm_of_isChore hc)⟩
  · exact ⟨c, h, .inl (Call.alarm_of_begins hc)⟩

/-- The unit whose stop a call ends, or that it marks `Failed`. -/
def Call.closes : Option Call → Option Name
  | some (.finished name) | some (.again name) | some (.fail name) => some name
  | _ => none

def Call.isRoutine (c : Option Call) : Bool := isChore c && (closes c).isNone

theorem Call.isChore_of_isRoutine {c : Option Call} (h : Call.isRoutine c = true) : Call.isChore c = true :=
  (Bool.and_eq_true_iff.mp h).1

theorem Call.closes_of_isRoutine {c : Option Call} (h : Call.isRoutine c = true) : Call.closes c = none := by
  simp only [isRoutine, Bool.and_eq_true, Option.isNone_iff_eq_none] at h
  exact h.2

/-- Some effect, performed, that starts nothing, ends nothing, and needs no alarm. -/
def Routine (s s' : Supervisor) : Prop := ∃ c, Acted c s s' ∧ Call.isRoutine c = true

abbrev Routines : Supervisor → Supervisor → Prop := ReflTransGen Routine

theorem Acted.routine {c : Option Call} {s s' : Supervisor} (h : Acted c s s') (hc : Call.isRoutine c = true) :
    Routine s s' :=
  ⟨c, h, hc⟩

theorem Acted.routines {c : Option Call} {s s' : Supervisor} (h : Acted c s s') (hc : Call.isRoutine c = true) :
    Routines s s' :=
  .single (h.routine hc)

theorem Routine.chore {s s' : Supervisor} (h : Routine s s') : Chore s s' := by
  obtain ⟨c, h, hc⟩ := h
  exact h.chore (Call.isChore_of_isRoutine hc)

theorem Routines.chores {s s' : Supervisor} (h : Routines s s') : Chores s s' :=
  Framework.refine_run (fun h => .single h.chore) h

theorem Chores.dues {s s' : Supervisor} (h : Chores s s') (a : Option Alarm) : Dues a s s' :=
  Framework.refine_run (fun h => .single (h.due a)) h

theorem Errands.dues {name : Name} {s s' : Supervisor} (h : Errands name s s') (a : Option Alarm) : Dues a s s' :=
  Framework.refine_run (fun h => .single (h.due a)) h

theorem Chores.kept {s s' : Supervisor} (h : Chores s s') : Kept s.toManager s'.toManager := h.acts.kept

end Oxinit
