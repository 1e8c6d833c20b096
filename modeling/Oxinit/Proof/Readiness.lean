import Oxinit.Proof.Strides

/-!
# Readiness

A unit that is up came up at a call that found the readiness condition of its
own type met, and has stayed up since. That holds of every run in which no
`READY=1` is taken from a service that is activating and is not of the type
`notify`.
-/

namespace Oxinit

/-- The readiness condition of a unit was met at this call; `newer` is what was
recorded since. There is none for a `oneshot` service. -/
inductive ReadyOn (u : Name) (unit : Unit) (newer : List (Call × Machine)) : Call × Machine → Prop
  /-- A process was forked for a `simple` service, or what is no service was started. -/
  | started {c m} (h : Comes u unit c) : ReadyOn u unit newer (c, m)
  /-- `READY=1` from the main process of a `notify` service. -/
  | notified {service message m i} (hsv : unit.service = some service) (hty : service.ty = .notify)
      (hr : message.ready = true) (hi : m.instances[u]? = some i) (hs : i.state = .activating)
      (hc : i.child = some message.pid) : ReadyOn u unit newer (.message u message, m)
  /-- The initial process of a `forking` service exited, and the cgroup was populated. -/
  | forked {service m l} (hsv : unit.service = some service) (hty : service.ty = .forking)
      (hm : m.stateOf u = some .activating) (hl : l <:+ newer) (hp : LeftBehind u m l) :
      ReadyOn u unit newer (.exited u .clean, m)

/-- A unit came up on the condition of its type and has been up since. -/
def CameUp (u : Name) (unit : Unit) (log : List (Call × Machine)) : Prop :=
  ∃ newer e older, log = newer ++ e :: older ∧ ReadyOn u unit newer e ∧
    ∀ x ∈ newer, x.1.isWorld = true ∨ x.2.stateOf u = some .active

/-- Every unit that is up came up on the condition of its type. -/
def UpByType (m : Manager) (log : List (Call × Machine)) : Prop :=
  ∀ (u : Name) (i : Instance), m.instances[u]? = some i → i.state = .active → CameUp u i.unit log

/-- So it is, and so it was whenever a call was made. -/
structure ReadyByType (s : Supervisor) : Prop where
  now : UpByType s.toManager s.history
  past : ∀ {c m older}, (c, m) :: older <:+ s.history → c.isMove = false → UpByType m.toManager older

/-- If `READY=1` is taken from a service that is activating, its type is `notify`. -/
def readyFromNotify (e : Call × Machine) : Bool :=
  match e.1 with
  | .message name message =>
    if message.ready ∧ e.2.stateOf name = some .activating then (e.2.serviceOf name).any (·.ty = .notify) else true
  | _ => true

theorem ReadyOn.mono {u : Name} {unit : Unit} {newer newer' : List (Call × Machine)} {e : Call × Machine}
    (h : ReadyOn u unit newer e) (hn : newer <:+ newer') : ReadyOn u unit newer' e := by
  cases h with
  | started h => exact .started h
  | notified hsv hty hr hi hs hc => exact .notified hsv hty hr hi hs hc
  | forked hsv hty hm hl hp => exact .forked hsv hty hm (hl.trans hn) hp

/-- There is no readiness condition for a `oneshot` service. -/
theorem ReadyOn.not_oneshot {u : Name} {unit : Unit} {newer : List (Call × Machine)} {e : Call × Machine}
    {service : Service} (h : ReadyOn u unit newer e) (hsv : unit.service = some service) : service.ty ≠ .oneshot := by
  intro ht
  cases h with
  | started h =>
    cases h with
    | simple hsv' hty =>
      cases hsv.symm.trans hsv'
      simp [hty] at ht
    | up hsv' => simp [hsv'] at hsv
    | arm htm => simp [Unit.service_of_timer htm] at hsv
  | notified hsv' hty | forked hsv' hty =>
    cases hsv.symm.trans hsv'
    simp [hty] at ht

/-- A unit that came up stays explained. -/
theorem CameUp.cons {u : Name} {unit : Unit} {log : List (Call × Machine)} {x : Call × Machine}
    (h : CameUp u unit log) (hx : x.1.isWorld = true ∨ x.2.stateOf u = some .active) :
    CameUp u unit (x :: log) := by
  obtain ⟨newer, e, older, rfl, he, hn⟩ := h
  exact ⟨x :: newer, e, older, rfl, he.mono (List.suffix_cons ..), List.forall_mem_cons.mpr ⟨hx, hn⟩⟩

/-- A unit comes up at the latest call. -/
theorem CameUp.of_latest {u : Name} {unit : Unit} {s : Supervisor} {e : Call × Machine} (hl : Latest s e)
    (h : ReadyOn u unit [] e) : CameUp u unit s.history := by
  obtain ⟨-, newer, older, hh, hn⟩ := List.find?_eq_some_iff_append.mp hl
  exact ⟨newer, e, older, hh, h.mono (List.nil_suffix ..),
    fun x hx => .inl (Call.isWorld_of_isMove (by simpa using hn x hx))⟩

namespace ReadyByType

variable {s s' : Supervisor} {name : Name} {f : Instance → Instance}

theorem note (h : ReadyByType s) (c : Call) : ReadyByType (s.note c) := by
  refine ⟨fun u i hi hs => (h.now u i hi hs).cons (.inr ?_), fun {c' m older} hsuf hc => ?_⟩
  · rw [Manager.stateOf, show s.instances[u]? = some i from hi, Option.map_some, hs]
  · rcases List.suffix_cons_iff.mp hsuf with e | hsuf
    · cases e
      exact h.now
    · exact h.past hsuf hc

/-- Nothing is recorded, and whatever is up in `s'` is up in `s`. -/
theorem frame (h : ReadyByType s) (hh : s'.history = s.history)
    (hi : ∀ (u : Name) (i' : Instance), s'.instances[u]? = some i' → i'.state = .active → CameUp u i'.unit s.history) :
    ReadyByType s' :=
  ⟨fun u i' hi' hs => hh ▸ hi u i' hi' hs, fun hsuf => h.past (hh ▸ hsuf)⟩

theorem same (h : ReadyByType s) (hh : s'.history = s.history) (hi : s'.instances = s.instances) : ReadyByType s' :=
  h.frame hh fun u i' hi' hs => h.now u i' (hi ▸ hi') hs

theorem onKernel (h : ReadyByType s) (g : Kernel → Kernel) : ReadyByType (s.onKernel g) := h.same rfl rfl

theorem turn (w : World) (h : ReadyByType s) : ReadyByType (s.turn w) := by
  have key : ∀ (mvs : List Move) (s : Supervisor), ReadyByType s → ReadyByType (s.moves mvs) := by
    intro mvs
    induction mvs with
    | nil => exact fun s h => h
    | cons mv mvs ih => exact fun s h => ih _ ((h.note (.world mv)).onKernel _)
  exact (key _ s h).same rfl rfl

/-- A unit that comes up comes up as its type says. -/
theorem modify (h : ReadyByType s)
    (hf : ∀ i, s.instances[name]? = some i → (f i).state = .active → CameUp name (f i).unit s.history) :
    ReadyByType (s.modify name f) := by
  refine h.frame rfl fun u i' hi' hs => ?_
  rw [Supervisor.modify_toManager, Manager.get_modify] at hi'
  split at hi'
  · rename_i e
    subst e
    obtain ⟨i, hi, rfl⟩ := Option.map_eq_some_iff.mp hi'
    exact hf i hi hs
  · exact h.now u i' hi' hs

/-- The state of the unit that changes is not another. -/
theorem tidy (h : ReadyByType s) (hf : ∀ i, (f i).state = i.state ∧ (f i).unit = i.unit) :
    ReadyByType (s.modify name f) :=
  h.modify fun i hi hs => (hf i).2 ▸ h.now name i hi ((hf i).1 ▸ hs)

theorem schedule (w : World) (delay : Nat) (alarm : Alarm) (h : ReadyByType s) :
    ReadyByType (Supervisor.schedule w delay alarm s).2 := by
  have h₁ : ReadyByType (((s.note (.schedule alarm delay)).turn w).update
      (·.push (w s.ticks).tie { due := ((s.note (.schedule alarm delay)).turn w).kernel.now + delay, alarm })) :=
    ((h.note (.schedule alarm delay)).turn w).same rfl rfl
  simp only [Supervisor.schedule, Supervisor.armTimer, Supervisor.setTimer]
  split
  · exact ((h₁.turn w).turn w).same rfl rfl
  · exact (h₁.turn w).turn w

/-- `READY=1`, when the message that says so is the latest call. -/
theorem ready (w : World) {i : Instance} {message : Message} {m : Machine} (h : ReadyByType s)
    (hl : Latest s (.message name message, m)) (hi : s.instances[name]? = some i)
    (hr : ReadyOn name i.unit [] (.message name message, m)) :
    ReadyByType (Supervisor.ready w name s) := by
  have h₁ : ReadyByType (Supervisor.enterActive w name s) := by
    refine ((h.turn w).turn w).modify fun j hj _ => CameUp.of_latest ((hl.turn w).turn w) ?_
    rw [Supervisor.turn_toManager, Supervisor.turn_toManager, hi] at hj
    cases hj
    exact hr
  simp only [Supervisor.ready]
  split
  · exact h₁.schedule w _ _
  · exact h₁

/-- A message that is ready makes its unit so. -/
theorem attended (w : World) (name : Name) (message : Message) (h : ReadyByType s) :
    ReadyByType (Supervisor.attended w name message s) := by
  have h₁ := h.note (.message name message)
  have hp : ∀ {s : Supervisor}, ReadyByType s → ReadyByType (if message.watchdog then Supervisor.ping w name s else s) := by
    intro s h
    split
    · exact (h.turn w).tidy fun _ => ⟨rfl, rfl⟩
    · exact h
  simp only [Supervisor.attended]
  cases message.status with
  | none => exact hp h₁
  | some status => exact hp (h₁.tidy fun _ => ⟨rfl, rfl⟩)

theorem onMessage (w : World) (message : Message) (h : ReadyByType s)
    (hok : ∀ x ∈ (Supervisor.onMessage w message s).history, readyFromNotify x = true) :
    ReadyByType (Supervisor.onMessage w message s) := by
  cases hu : s.unitForPid message.pid with
  | none => rwa [Supervisor.onMessage_none hu]
  | some name =>
    obtain ⟨i, hi, hc⟩ := Manager.unitForPid_get hu
    have h₁ := h.attended w name message
    have hl := Supervisor.attended_latest w name message s
    have hmem : (Call.message name message, s.toMachine) ∈ (Supervisor.onMessage w message s).history := by
      have hm : (Call.message name message, s.toMachine) ∈ (Supervisor.attended w name message s).history :=
        List.mem_of_find?_eq_some hl
      rw [Supervisor.onMessage_some hu]
      split
      · exact (Supervisor.ready_act (And.right ‹_›)).act.grows.mem hm
      · exact hm
    have hok := hok _ hmem
    rw [Supervisor.onMessage_some hu]
    split
    · rename_i hr
      obtain ⟨hr, hs⟩ := hr
      rw [Supervisor.attended_stateOf] at hs
      simp only [readyFromNotify] at hok
      rw [if_pos ⟨hr, hs⟩, Option.any_eq_true] at hok
      obtain ⟨service, hsv, hty⟩ := hok
      have hsv : i.unit.service = some service := by
        rw [Manager.serviceOf, Manager.unitOf, hi] at hsv
        exact hsv
      have hs : i.state = .activating := by
        rw [Manager.stateOf, hi] at hs
        exact Option.some.inj hs
      exact h₁.ready w hl (Supervisor.attended_get w message hi) (.notified hsv (of_decide_eq_true hty) hr hi hs hc)
    · exact h₁

theorem queued (w : World) (hierarchy : Bool) (kernel : Kernel) :
    ReadyByType (Supervisor.queued w hierarchy kernel) := by
  refine ⟨fun u i hi hs => ?_, fun {c m older} hsuf hc => ?_⟩
  · rw [(Supervisor.queued_fresh w hierarchy kernel).inst u i hi] at hs
    cases hs
  · have hm := Supervisor.queued_moves w hierarchy kernel (c, m) (hsuf.subset (List.mem_cons_self ..))
    rw [hc] at hm
    cases hm

/-- A unit that is put to another state than Active. -/
theorem drop (h : ReadyByType s) (hf : ∀ i, s.instances[name]? = some i → (f i).state ≠ .active) :
    ReadyByType (s.modify name f) :=
  h.modify fun i hi hs => absurd hs (hf i hi)

/-- Every stride keeps it. -/
theorem stride {w : World} {e : Event} (hok : ∀ x ∈ s'.history, readyFromNotify x = true) (h : ReadyByType s)
    (hs : Stride w e s s') : ReadyByType s' := by
  cases hs with
  | turn => exact h.turn w
  | signal | read | reaped | drained => exact h.onKernel _
  | note | late | hung => exact h.note _
  | update hi => exact h.same rfl hi
  | push | expire => exact h.same rfl rfl
  | message _ message => exact h.onMessage w message hok
  | lower hf => exact h.drop fun i hi => (hf i hi).inactive
  | finished =>
    exact (h.note _).drop fun i _ => (State.down_lower (Instance.deactivated_down ..)).1
  | spawn => exact ((h.note _).onKernel _).drop fun i _ => nofun
  | active hi hl hc =>
    refine h.modify fun j hj _ => CameUp.of_latest hl ?_
    cases hi.symm.trans hj
    exact .started hc
  | forkedAway _ hi hsv hty _ hm hl hn hh =>
    refine h.modify fun j hj _ => ?_
    cases hi.symm.trans hj
    refine ⟨_, _, _, hh, .forked hsv hty hm (List.suffix_append ..) hl, fun x hx => .inl ?_⟩
    exact Call.isWorld_of_isMove ((List.mem_append.mp hx).elim (hn x) (hl.1 x))
  | insert =>
    refine h.frame rfl fun u i hi hs => ?_
    rw [Supervisor.update_toManager, Manager.get_insertUnit] at hi
    split at hi
    · cases hi
      cases hs
    · exact h.now u i hi hs
  | keep => exact h.frame rfl fun u i hi hs => h.now u i (Manager.get_of_keep hi) hs

end ReadyByType

namespace Supervisor

/-- While no `READY=1` is taken from an activating service of another type,
every unit that is up came up on the readiness condition of its type, and no
`oneshot` service is ever up. -/
theorem ready_by_type {w : World} {s : Supervisor} (hr : Reachable w s)
    (hok : ∀ e ∈ s.history, readyFromNotify e = true) :
    ReadyByType s ∧ ∀ (u : Name) (i : Instance) (service : Service), s.instances[u]? = some i →
      i.unit.service = some service → service.ty = .oneshot → i.state ≠ .active := by
  have h : ReadyByType s := hr.guarded_strides hok (ReadyByType.queued w) fun _ _ _ hok h hs => h.stride hok hs
  refine ⟨h, fun u i service hi hsv hty hs => ?_⟩
  obtain ⟨newer, e, older, -, he, -⟩ := h.now u i hi hs
  exact he.not_oneshot hsv hty

/-- The service `a`, whose main process says `READY=1`. -/
def speaking : World := scripted [(8, [.datagram { pid := 2, ready := true }])]

theorem ready_by_type_sample :
    let s := run speaking (booted speaking [bootTarget ["a"], serviceUnit "a" {} .notify .no]) [.notify]
    ReadyByType s ∧ ∀ (u : Name) (i : Instance) (service : Service), s.instances[u]? = some i →
      i.unit.service = some service → service.ty = .oneshot → i.state ≠ .active :=
  ready_by_type (run_reachable _ _ _) (by decide +kernel)

/-- A `oneshot` service that says `READY=1` is up. -/
theorem oneshot_is_up :
    let s := run speaking (booted speaking [bootTarget ["a"], serviceUnit "a" {} .oneshot .no]) [.notify]
    Reachable speaking s ∧ (s.serviceOf "a").any (·.ty = .oneshot) = true ∧ s.stateOf "a" = some .active :=
  ⟨run_reachable _ _ _, by decide +kernel, by decide +kernel⟩

end Supervisor

end Oxinit
