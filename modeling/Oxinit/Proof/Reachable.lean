import Oxinit.Proof.Deeds

/-!
# Reachable states

What `load` leaves, and the induction rules for reachable states and for the
runs whose history satisfies a condition.
-/

namespace Oxinit

open Framework (Deadline)
open Relation (ReflTransGen)

/-! ## After loading -/

/-- Nothing has been started. -/
structure Fresh (m : Manager) : Prop where
  inst : ∀ (v : Name) (i : Instance), m.instances[v]? = some i → i = Instance.new i.unit
  heap : m.timers.heap = []
  wallHeap : m.timers.wallHeap = []
  pendingRestart : m.pendingRestart = ∅
  shutdown : m.shutdown = none
  fired : m.fired = []
  reaping : m.reaping = []

theorem Manager.get_insertUnit (m : Manager) (name v : Name) (unit : Unit) :
    (m.insertUnit name unit).instances[v]? =
      if name = v then some (Instance.new unit) else m.instances[v]? := by
  simp only [insertUnit, Std.TreeMap.getElem?_insert, Std.LawfulEqCmp.compare_eq_iff_eq]

theorem Manager.get_of_keep {m : Manager} {p : Name → Instance → Bool} {v : Name} {i : Instance}
    (h : (m.keep p).instances[v]? = some i) : m.instances[v]? = some i := by
  simp only [keep, Std.TreeMap.getElem?_filter', Option.filter_eq_some_iff] at h
  exact h.1

theorem Fresh.insertUnit {m : Manager} (h : Fresh m) (name : Name) (unit : Unit) :
    Fresh (m.insertUnit name unit) := by
  refine ⟨fun v i hi => ?_, h.heap, h.wallHeap, h.pendingRestart, h.shutdown, h.fired, h.reaping⟩
  rw [Manager.get_insertUnit] at hi
  split at hi
  · cases hi
    rfl
  · exact h.inst v i hi

/-- While units are loaded only the world has moved. -/
structure Loading (s : Supervisor) : Prop where
  fresh : Fresh s.toManager
  log : ∀ e ∈ s.history, e.1.isMove = true

namespace Loading

variable {s : Supervisor}

theorem turn (w : World) (h : Loading s) : Loading (s.turn w) := by
  obtain ⟨new, e, hn⟩ := (Still.turn none w s).log
  refine ⟨(Supervisor.turn_toManager w s).symm ▸ h.fresh, fun x hx => ?_⟩
  rw [e] at hx
  rcases List.mem_append.mp hx with hx | hx
  · exact (hn x hx).1
  · exact h.log x hx

theorem update {f : Manager → Manager} (h : Loading s) (hf : Fresh (f s.toManager)) : Loading (s.update f) :=
  ⟨hf, h.log⟩

theorem addUnit (w : World) (name : Name) (unit : Unit) (h : Loading s) :
    Loading (Supervisor.addUnit w name unit s) := by
  have hc : Loading (Supervisor.addCgroup w name unit s) := by
    simp only [Supervisor.addCgroup]
    split
    · have ht := (h.turn w).fresh
      exact (h.turn w).update ⟨ht.inst, ht.heap, ht.wallHeap, ht.pendingRestart, ht.shutdown, ht.fired, ht.reaping⟩
    · exact h
  exact hc.update (hc.fresh.insertUnit name unit)

theorem foldl {β : Type} {f : Supervisor → β → Supervisor} (hf : ∀ s b, Loading s → Loading (f s b)) (l : List β)
    (h : Loading s) : Loading (l.foldl f s) := by
  induction l generalizing s with
  | nil => exact h
  | cons b l ih => exact ih (hf s b h)

theorem bindSocket (w : World) (unit : Name) (socket : Socket) (h : Loading s) :
    Loading (Supervisor.bindSocket w unit socket s) := by
  refine foldl (fun s address hs => ?_) _ h
  have ht := (hs.turn w).fresh
  dsimp only
  split
  · exact (hs.turn w).update
      ⟨ht.inst, ht.heap, ht.wallHeap, ht.pendingRestart, ht.shutdown, ht.fired, ht.reaping⟩
  · exact hs.turn w

end Loading

namespace Supervisor

/-- `load` starts nothing. -/
theorem load_loading (w : World) (hierarchy : Bool) (kernel : Kernel) : Loading (load w hierarchy kernel) := by
  have h₀ : Loading { cgroups := { hierarchy }, kernel } :=
    ⟨⟨by simp, rfl, rfl, rfl, rfl, rfl, rfl⟩, by simp⟩
  have h₁ := h₀.turn w
  simp only [load]
  split
  · exact h₁
  · refine Loading.foldl (fun s name hs => ?_) _ (Loading.foldl (fun s p hs => hs.addUnit w p.1 p.2) _ (h₁.update ?_))
    · split
      · exact hs.bindSocket w name _
      · exact hs
    · have hf := h₁.fresh
      exact ⟨hf.inst, hf.heap, hf.wallHeap, hf.pendingRestart, hf.shutdown, hf.fired, hf.reaping⟩

/-- The machine once the resolved order is queued. -/
def queued (w : World) (hierarchy : Bool) (kernel : Kernel) : Supervisor :=
  (wire w (load w hierarchy kernel)).update (·.setPending (load w hierarchy kernel).order)

theorem queued_fresh (w : World) (hierarchy : Bool) (kernel : Kernel) :
    Fresh (queued w hierarchy kernel).toManager := by
  have h := (load_loading w hierarchy kernel).fresh
  exact ⟨h.inst, h.heap, h.wallHeap, h.pendingRestart, h.shutdown, h.fired, h.reaping⟩

theorem queued_moves (w : World) (hierarchy : Bool) (kernel : Kernel) :
    ∀ e ∈ (queued w hierarchy kernel).history, e.1.isMove = true :=
  (load_loading w hierarchy kernel).log

theorem queued_log (w : World) (hierarchy : Bool) (kernel : Kernel) :
    ∀ e ∈ (queued w hierarchy kernel).history, e.1.isWorld = true :=
  fun e he => Call.isWorld_of_isMove (queued_moves w hierarchy kernel e he)

/-! ## Tours -/

theorem beginShutdown_routines (w : World) (action : Action) {s : Supervisor} (hd : s.shuttingDown = false) :
    ∃ s₁, Routines s s₁ ∧ s₁.toManager = s.toManager ∧
      Routines (s₁.update (·.goDown { action, started := s₁.kernel.now })) (beginShutdown w action s) := by
  refine ⟨(s.note (.shutdown action)).turn w,
    .head ((Acted.mark (c := .shutdown action) rfl s).routine rfl) ((Acted.turn w _).routines rfl), by simp, ?_⟩
  simp only [beginShutdown]
  rw [if_neg (by rw [note_toMachine, hd]; decide)]
  exact stops_routines w _ _

theorem beginShutdown_chores (w : World) (action : Action) {s : Supervisor} (hd : s.shuttingDown = false) :
    ∃ s₁, Chores s s₁ ∧ s₁.toManager = s.toManager ∧
      Chores (s₁.update (·.goDown { action, started := s₁.kernel.now })) (beginShutdown w action s) := by
  obtain ⟨s₁, h₁, hm, h₂⟩ := beginShutdown_routines w action hd
  exact ⟨s₁, h₁.chores, hm, h₂.chores⟩

theorem beginShutdown_acts (w : World) (action : Action) {s : Supervisor} (hd : s.shuttingDown = false) :
    ∃ s₁, Acts s s₁ ∧ s₁.toManager = s.toManager ∧
      Acts (s₁.update (·.goDown { action, started := s₁.kernel.now })) (beginShutdown w action s) := by
  obtain ⟨s₁, h₁, hm, h₂⟩ := beginShutdown_chores w action hd
  exact ⟨s₁, h₁.acts, hm, h₂.acts⟩

end Supervisor

/-- The history grows. -/
theorem Tour.grows {w : World} {r : Bool} {s s' : Supervisor} (h : Tour w r s s') : s.history <:+ s'.history := by
  cases h with
  | deed h => exact h.acts.grows
  | @alarm e rest hf => exact (Supervisor.onAlarm_deeds w e.alarm (s.update (·.setFired rest))).acts.grows
  | shutdown hd =>
    obtain ⟨s₁, h₁, -, h₂⟩ := Supervisor.beginShutdown_acts w _ hd
    exact h₁.grows.trans (h₂.grows)
  | expire | expireWall | lose | addHandle | insert | keep => exact List.suffix_rfl

theorem Tour.later {w : World} {r : Bool} {s s' : Supervisor} (h : Tour w r s s') : s.kernel.Later s'.kernel := by
  cases h with
  | deed h => exact h.acts.later
  | @alarm e rest hf => exact (Supervisor.onAlarm_deeds w e.alarm (s.update (·.setFired rest))).acts.later
  | shutdown hd =>
    obtain ⟨s₁, h₁, -, h₂⟩ := Supervisor.beginShutdown_acts w _ hd
    exact h₁.later.trans h₂.later
  | expire | expireWall | lose | addHandle | insert | keep => exact .refl _

theorem Tour.time {w : World} {r : Bool} {s s' : Supervisor} (h : Tour w r s s') : s.kernel.now ≤ s'.kernel.now :=
  h.later.now

theorem Tours.later {w : World} {r : Bool} {s s' : Supervisor} (h : Tours w r s s') : s.kernel.Later s'.kernel :=
  Framework.invariant (I := fun s' => s.kernel.Later s'.kernel) (fun h t => h.trans t.later) h (.refl _)

/-- Only a reload creates a cgroup. -/
theorem Tour.cgroups {w : World} {s s' : Supervisor} (h : Tour w false s s') : s'.cgroups = s.cgroups := by
  cases h with
  | deed h => exact h.acts.kept.cgroups
  | @alarm e rest hf => exact (Supervisor.onAlarm_deeds w e.alarm (s.update (·.setFired rest))).acts.kept.cgroups
  | shutdown hd =>
    obtain ⟨s₁, h₁, -, h₂⟩ := Supervisor.beginShutdown_acts w _ hd
    exact h₂.kept.cgroups.trans h₁.kept.cgroups
  | expire | expireWall | lose => rfl
  | addHandle hr | insert hr | keep hr => cases hr

/-- No event but a reload adds a cgroup. -/
theorem Tours.cgroups {w : World} {s s' : Supervisor} (h : Tours w false s s') : s'.cgroups = s.cgroups :=
  Framework.invariant (I := fun s' => s'.cgroups = s.cgroups) (fun h t => t.cgroups.trans h) h rfl

/-- Only the beginning of a shutdown begins one. -/
theorem Tour.shutdown_eq {w : World} {r : Bool} {s s' : Supervisor} (h : Tour w r s s') :
    s'.shutdown = s.shutdown ∨ s.shuttingDown = false ∧ ∃ action, s' = Supervisor.beginShutdown w action s := by
  cases h with
  | deed h => exact .inl h.acts.kept.shutdown
  | @alarm e rest hf =>
    exact .inl (Supervisor.onAlarm_deeds w e.alarm (s.update (·.setFired rest))).acts.kept.shutdown
  | @shutdown action hd => exact .inr ⟨hd, action, rfl⟩
  | expire | expireWall | lose | addHandle | insert | keep => exact .inl rfl

/-- On the wall clock there are still only timers. -/
theorem Tour.wall {w : World} {r : Bool} {s s' : Supervisor} (h : Tour w r s s') (hw : s.WallTimers) :
    s'.WallTimers := by
  cases h with
  | deed h => exact h.acts.kept.wall hw
  | @alarm e rest hf => exact (Supervisor.onAlarm_deeds w e.alarm (s.update (·.setFired rest))).acts.kept.wall hw
  | shutdown hd =>
    obtain ⟨s₁, h₁, -, h₂⟩ := Supervisor.beginShutdown_acts w _ hd
    exact h₂.kept.wall (h₁.kept.wall hw)
  | expireWall => exact fun e he => hw e (Deadline.mem_expired_or_later.mp (.inr he))
  | expire | lose | addHandle | insert | keep => exact hw

namespace Supervisor

/-! ## Runs -/

/-- The boot starts what the queue lets it. -/
theorem boot_deeds (w : World) {a : Option Alarm} (hierarchy : Bool) (kernel : Kernel) :
    Deeds w a (queued w hierarchy kernel) (boot w hierarchy kernel) :=
  pump_deeds w _

theorem boot_fired (w : World) (hierarchy : Bool) (kernel : Kernel) : (boot w hierarchy kernel).fired = [] :=
  (boot_deeds w (a := none) hierarchy kernel).acts.kept.fired.trans (queued_fresh w hierarchy kernel).fired

theorem boot_wall (w : World) (hierarchy : Bool) (kernel : Kernel) : (boot w hierarchy kernel).WallTimers :=
  (boot_deeds w (a := none) hierarchy kernel).acts.kept.wall fun e he => by
    rw [(queued_fresh w hierarchy kernel).wallHeap] at he
    cases he

/-- A run of events is a run of tours. -/
theorem run_tours (w : World) {r : Bool} (s : Supervisor) (hf : s.fired = []) (hw : s.WallTimers)
    {events : List Event} (hr : ∀ e ∈ events, r = true ∨ e ≠ .request .reload) :
    Tours w r s (run w s events) ∧ (run w s events).fired = [] := by
  induction events generalizing s with
  | nil => exact ⟨.refl, hf⟩
  | cons e events ih =>
    have h := step_tours w s hf hw (hr e (List.mem_cons_self ..))
    have hw' := Framework.invariant (I := fun s => s.WallTimers) (fun hw ht => ht.wall hw) h.1 hw
    have h' := ih (step w s e) h.2 hw' fun e he => hr e (List.mem_cons_of_mem _ he)
    exact ⟨h.1.trans h'.1, h'.2⟩

/-- A run is its boot, and then its events. -/
theorem boot_tours (w : World) {r : Bool} (hierarchy : Bool) (kernel : Kernel) {events : List Event}
    (hr : ∀ e ∈ events, r = true ∨ e ≠ .request .reload) :
    Tours w r (queued w hierarchy kernel) (run w (boot w hierarchy kernel) events) ∧
      (run w (boot w hierarchy kernel) events).fired = [] := by
  have h := run_tours w _ (boot_fired w hierarchy kernel) (boot_wall w hierarchy kernel) hr
  exact ⟨(boot_deeds w hierarchy kernel).tours.trans h.1, h.2⟩

/-- A reachable state is one that a run has come to. -/
theorem Reachable.tours {w : World} {s : Supervisor} (h : Reachable w s) :
    ∃ hierarchy kernel, Tours w true (queued w hierarchy kernel) s := by
  obtain ⟨hierarchy, kernel, events, rfl⟩ := h
  exact ⟨hierarchy, kernel, (boot_tours w hierarchy kernel fun _ _ => .inl rfl).1⟩

/-- Between two events nothing is half handled. -/
theorem Reachable.fired {w : World} {s : Supervisor} (h : Reachable w s) : s.fired = [] := by
  obtain ⟨hierarchy, kernel, events, rfl⟩ := h
  exact (boot_tours w (r := true) hierarchy kernel fun _ _ => .inl rfl).2

/-- Induction over a run from boot. -/
theorem Reachable.invariant {w : World} {s : Supervisor} {I : Supervisor → Prop} (h : Reachable w s)
    (init : ∀ hierarchy kernel, I (queued w hierarchy kernel))
    (tour : ∀ {s s'}, I s → Tour w true s s' → I s') : I s := by
  obtain ⟨hierarchy, kernel, h⟩ := h.tours
  exact Framework.invariant tour h (init hierarchy kernel)

theorem Reachable.wall {w : World} {s : Supervisor} (h : Reachable w s) : s.WallTimers :=
  h.invariant (I := fun s => s.WallTimers)
    (fun hierarchy kernel e he => by rw [(queued_fresh w hierarchy kernel).wallHeap] at he; cases he)
    fun hw ht => ht.wall hw

/-- What follows a reachable state is a run of tours too. -/
theorem Reachable.after {w : World} {s : Supervisor} (h : Reachable w s) (events : List Event) :
    Tours w true s (run w s events) :=
  (run_tours w s h.fired h.wall fun _ _ => .inl rfl).1

theorem Reachable.step {w : World} {s : Supervisor} (h : Reachable w s) (event : Event) :
    Reachable w (step w s event) := by
  obtain ⟨hierarchy, kernel, events, rfl⟩ := h
  exact ⟨hierarchy, kernel, events ++ [event], by rw [run, run, List.foldl_append]; rfl⟩

/-- An invariant that holds at boot, and that every event keeps whose calls are admitted. -/
theorem Reachable.guarded {w : World} {s : Supervisor} {I : Supervisor → Prop}
    {ok : Call × Machine → Prop} (h : Reachable w s) (hok : ∀ e ∈ s.history, ok e)
    (init : ∀ hierarchy kernel, I (queued w hierarchy kernel))
    (tour : ∀ {s s'}, (∀ e ∈ s'.history, ok e) → I s → Tour w true s s' → I s') : I s := by
  obtain ⟨hierarchy, kernel, h⟩ := h.tours
  exact Framework.Grows.invariant (fun h => h.grows) tour h hok (init hierarchy kernel)

end Supervisor

/-! ## Alarms -/

/-- What has been scheduled was asked for at that moment, after what had been
recorded until then. -/
def Asked (l : List (Call × Machine)) : Prop :=
  ∀ c m older, (c, m) :: older <:+ l → ({ toMachine := m, history := older } : Supervisor).asks c

theorem Supervisor.asks_of_not_world {s : Supervisor} {c : Call} (h : c.isWorld = false ∨ c.isMove = true) :
    s.asks c := by
  cases c with
  | schedule | scheduleAt => exact absurd h (by simp [Call.isWorld, Call.isMove])
  | _ => exact trivial

theorem Act.asked {s s' : Supervisor} (h : Act s s') (hs : Asked s.history) : Asked s'.history := by
  obtain ⟨c₀, h⟩ := h
  intro c m older hl
  by_cases hc : c.isWorld = true ∧ c.isMove = false
  · exact (h.asked hl hc.1 hc.2).elim (hs c m older) id
  · refine Supervisor.asks_of_not_world ?_
    cases hw : c.isWorld with
    | false => exact .inl rfl
    | true => exact .inr (eq_true_of_ne_false fun h => hc ⟨hw, h⟩)

theorem Acts.asked {s s' : Supervisor} (h : Acts s s') (hs : Asked s.history) : Asked s'.history :=
  Framework.invariant (I := fun s => Asked s.history) (fun hs h => h.asked hs) h hs

/-- What is scheduled has been asked for. -/
theorem Tour.asked {w : World} {r : Bool} {s s' : Supervisor} (h : Tour w r s s') (hs : Asked s.history) :
    Asked s'.history := by
  cases h with
  | deed h => exact h.acts.asked hs
  | @alarm e rest hf => exact (Supervisor.onAlarm_deeds w e.alarm (_ : Supervisor)).acts.asked hs
  | shutdown hd =>
    obtain ⟨s₁, h₁, -, h₂⟩ := Supervisor.beginShutdown_acts w _ hd
    exact h₂.asked (h₁.asked hs)
  | expire | expireWall | lose | addHandle | insert | keep => exact hs

theorem Supervisor.queued_asked (w : World) (hierarchy : Bool) (kernel : Kernel) :
    Asked (queued w hierarchy kernel).history := fun _ _ _ hl =>
  asks_of_not_world (.inr (queued_moves w hierarchy kernel _ (hl.mem (List.mem_cons_self ..))))

theorem Supervisor.Reachable.asked {w : World} {s : Supervisor} (h : Reachable w s) : Asked s.history :=
  h.invariant (I := fun s => Asked s.history) (queued_asked w) fun hs ht => ht.asked hs

/-! ## Small machines -/

/-- A world that does nothing. -/
def calm : World := fun _ => {}

/-- A world that does nothing but make `moves` in its `n`-th turn. -/
def movesAt (n : Nat) (moves : List Move) : World := fun k => if k = n then { moves } else {}

/-- A world that does nothing but make the moves of `script`, each in its turn. -/
def scripted (script : List (Nat × List Move)) : World := fun n => { moves := (script.lookup n).getD [] }

/-- A process exits with status 0. -/
def exits (pid : Pid) : Move := .exit pid { exitStatus := some 0 }

/-- A unit directory with a good file for each of `units`. -/
def directory (units : List Unit) : Directory :=
  { path := "/usr/lib/oxinit/units", listing := .files (units.map fun u => (u.name, .ok u)) }

/-- A kernel on which the unit directory holds `units`. -/
def holding (units : List Unit) : Kernel := { disk := [directory units] }

/-- The unit started at boot, which wants `units`. -/
def bootTarget (units : List Name) : Unit :=
  { name := defaultUnit, description := "", deps := { wants := units }, kind := .target }

/-- A service with nothing but what it needs. -/
def serviceUnit (name : Name) (deps : Deps) (ty : ServiceType) (restart : Restart) : Unit :=
  { name, description := "", deps, kind := .service { ty, exec := ["/bin/" ++ name], restart } }

/-- A timer unit that starts `service` again and again. -/
def timerUnit (name : Name) (interval : Nat) (service : Name) : Unit :=
  { name, description := "", kind := .timer { schedule := { interval := some interval }, service } }

/-- The machine after it has come up with `units`. -/
def Supervisor.booted (w : World) (units : List Unit) : Supervisor := boot w true (holding units)

/-- A run from a small machine's boot is a run. -/
theorem Supervisor.run_reachable (w : World) (units : List Unit) (events : List Event) :
    Reachable w (run w (booted w units) events) := ⟨true, _, events, rfl⟩

theorem Supervisor.booted_reachable (w : World) (units : List Unit) : Reachable w (booted w units) :=
  run_reachable w units []

end Oxinit
