import Mathlib.Order.Filter.AtTopBot.Basic
import Mathlib.Order.Filter.Finite
import Oxinit.Proof.Loading

/-!
# The start queue

What is queued is part of a legal plan (`Planned`), and stays so until a
reload. When `pump` returns, the first unit of the queue that waits for nothing
has been taken from it until there was none, so each unit left in it waits,
through others that are queued, for one that is activating.
-/

namespace Oxinit

open Filter (Eventually Frequently atTop)
open Relation (ReflTransGen)

namespace Manager

variable (m : Manager)

/-- What a unit is after. -/
def after (u : Name) : List Name := ((m.unitOf u).map (·.deps.after)).getD []

/-- `u` waits for `v`, which is queued too. -/
def WaitsFor (u v : Name) : Prop := v ∈ m.after u ∧ v ∈ m.pending

/-- `u` waits, directly or through other queued units, for one that is
activating. -/
def Waiting (u : Name) : Prop :=
  ∃ v a, ReflTransGen m.WaitsFor u v ∧ a ∈ m.after v ∧ m.stateOf a = some .activating

/-- What is queued is part of a legal order of the units that are held. -/
structure Planned : Prop where
  legal : m.order ≠ [] → Graph.Legal m.held defaultUnit m.order
  queue : m.pending.Sublist m.order

end Manager

namespace Manager

variable {m m' : Manager} {u v a b : Name}

theorem after_of_get {i : Instance} (hi : m.instances[u]? = some i) : m.after u = i.unit.deps.after := by
  rw [after, unitOf, hi]
  rfl

/-- A queued unit waits for nothing if and only if nothing that it is after is
queued or activating. -/
theorem orderingSatisfied_iff (hk : m.knows u = true) : m.orderingSatisfied u = true ↔
    ∀ a ∈ m.after u, a ∉ m.pending ∧ m.stateOf a ≠ some .activating := by
  rw [knows, Std.TreeMap.contains_eq_isSome_getElem?, Option.isSome_iff_exists] at hk
  obtain ⟨i, hi⟩ := hk
  rw [after_of_get hi, orderingSatisfied, hi]
  simp only [List.all_eq_true]
  refine forall₂_congr fun a _ => ?_
  simp only [stateOf, List.any_eq_true, decide_eq_true_eq, exists_eq_right]
  split
  · simp [*]
  · cases m.instances[a]? <;> simp [*]

namespace Planned

theorem known (h : m.Planned) (hu : u ∈ m.order) : m.knows u = true := by
  obtain ⟨unit, hn⟩ := Graph.get_of_mem ((h.legal (List.ne_nil_of_mem hu)).known u hu)
  rw [knows_eq, ← get_held, hn]
  rfl

/-- What a unit of the order is after comes before it there. -/
theorem after_lt (h : m.Planned) (ha : a ∈ m.order) (hb : b ∈ m.order) (hab : a ∈ m.after b) :
    m.order.idxOf a < m.order.idxOf b := by
  refine (h.legal (List.ne_nil_of_mem ha)).before a ha b hb (.inl ?_)
  rw [after] at hab
  rw [get_held]
  cases hu : m.unitOf b with
  | none => simp [hu] at hab
  | some unit => exact ⟨unit, rfl, by simpa [hu] using hab⟩

/-- Nothing of a plan is changed by what keeps the units and the order. -/
theorem congr (h : m.Planned) (hu : ∀ v, m'.unitOf v = m.unitOf v) (ho : m'.order = m.order)
    (hq : m'.pending.Sublist m.pending) : m'.Planned := by
  refine ⟨fun hne => ?_, ho ▸ hq.trans h.queue⟩
  rw [ho] at hne ⊢
  exact (h.legal hne).congr fun v => by rw [get_held, get_held, hu]

end Planned

/-- When nothing that is queued can be started, each of them waits. -/
theorem Planned.waiting (h : m.Planned) (hn : m.nextStartable = none) (hu : u ∈ m.pending) : m.Waiting u := by
  have hblocked : ∀ u, u ∈ m.pending → (∃ a ∈ m.after u, m.stateOf a = some .activating) ∨
      ∃ v, m.WaitsFor u v ∧ v ∈ m.pending ∧ m.order.idxOf v < m.order.idxOf u := by
    intro u hu
    have huo := h.queue.subset hu
    have hs : ¬m.orderingSatisfied u = true := List.find?_eq_none.mp hn u hu
    rw [orderingSatisfied_iff (h.known huo)] at hs
    push Not at hs
    obtain ⟨a, ha, hs⟩ := hs
    by_cases hq : a ∈ m.pending
    · exact .inr ⟨a, ⟨ha, hq⟩, hq, h.after_lt (h.queue.subset hq) huo ha⟩
    · exact .inl ⟨a, ha, hs hq⟩
  obtain ⟨v, huv, a, ha, hs⟩ := Framework.exists_end (P := (· ∈ m.pending)) m.order.idxOf hblocked hu
  exact ⟨v, a, huv, ha, hs⟩

end Manager

/-! ## Runs -/

/-- The units and the order are the same, and the queue has only lost units. -/
structure Steady (m m' : Manager) : Prop where
  units : ∀ v, m'.unitOf v = m.unitOf v
  order : m'.order = m.order
  pending : m'.pending.Sublist m.pending

namespace Steady

variable {m m₁ m₂ : Manager}

theorem refl (m : Manager) : Steady m m := ⟨fun _ => rfl, rfl, .refl _⟩

theorem trans (h₁ : Steady m m₁) (h₂ : Steady m₁ m₂) : Steady m m₂ :=
  ⟨fun v => (h₂.units v).trans (h₁.units v), h₂.order.trans h₁.order, h₂.pending.trans h₁.pending⟩

theorem planned (h : Steady m m₁) (hm : m.Planned) : m₁.Planned := hm.congr h.units h.order h.pending

theorem knows (h : Steady m m₁) (v : Name) : m₁.knows v = m.knows v := by
  rw [Manager.knows_eq, Manager.knows_eq, h.units]

end Steady

/-- No act changes the plan. -/
theorem Acts.steady {s s' : Supervisor} (h : Acts s s') : Steady s.toManager s'.toManager :=
  ⟨h.kept.units, h.kept.order, h.kept.pending⟩

/-- What acts keep, and what begins a shutdown or takes alarms from a heap,
holds until a reload. -/
theorem Tour.keeps {w : World} {I : Supervisor → Prop} {s s' : Supervisor}
    (act : ∀ {s s'}, I s → Act s s' → I s')
    (update : ∀ {s f}, I s → (f s.toManager).instances = s.instances → (f s.toManager).order = s.order →
      (f s.toManager).pending = s.pending → I (s.update f))
    (h : Tour w false s s') (hs : I s) : I s' := by
  have acts : ∀ {s s'}, Acts s s' → I s → I s' := fun h hs => Framework.invariant act h hs
  cases h with
  | deed h => exact acts h.acts hs
  | @alarm e rest hf =>
    exact acts (Supervisor.onAlarm_deeds w e.alarm _).acts
      (update (f := (·.setFired rest)) hs rfl rfl rfl)
  | shutdown hd =>
    obtain ⟨s₁, h₁, -, h₂⟩ := Supervisor.beginShutdown_acts w _ hd
    exact acts h₂ (update (acts h₁ hs) rfl rfl rfl)
  | expire | expireWall | lose => exact update hs rfl rfl rfl
  | addHandle hr | insert hr | keep hr => cases hr

/-- Until a reload nothing changes the units. -/
theorem Tour.steady {w : World} {s s' : Supervisor} (h : Tour w false s s') : Steady s.toManager s'.toManager := by
  refine h.keeps (I := fun s' => Steady s.toManager s'.toManager) (fun h ha => h.trans ha.acts.steady)
    (fun {s₁ f} h hi ho hq => h.trans ⟨fun v => ?_, ho, ?_⟩) (.refl _)
  · rw [Manager.unitOf, Manager.unitOf, Supervisor.update_toManager, hi]
  · rw [Supervisor.update_toManager, hq]

theorem Tours.steady {w : World} {s s' : Supervisor} (h : Tours w false s s') : Steady s.toManager s'.toManager :=
  Framework.invariant (I := fun s' => Steady s.toManager s'.toManager) (fun h t => h.trans t.steady) h (.refl _)

namespace Supervisor

variable {w : World} {s : Supervisor} {hierarchy : Bool} {kernel : Kernel}

/-- What is queued is known. -/
theorem queued_planned (w : World) (hierarchy : Bool) (kernel : Kernel) : (queued w hierarchy kernel).Planned := by
  obtain ⟨ho, hu, -, -⟩ := load_spec w hierarchy kernel
  refine ⟨fun hne => ?_, .refl _⟩
  have horder : (queued w hierarchy kernel).order = orderOf (onDisk w (blank hierarchy kernel)).units := ho
  rw [horder] at hne ⊢
  rw [ne_eq, orderOf_eq_nil, not_forall] at hne
  obtain ⟨plan, hp⟩ := hne
  have hp := not_not.mp hp
  rw [orderOf, hp]
  exact (Graph.resolveFrom_legal hp).congr fun n => Manager.get_held.trans (hu n)

/-! ## What `pump` returns -/

/-- An endless run: the machine once the order is queued, after boot, and after
each event. -/
def course (w : World) (hierarchy : Bool) (kernel : Kernel) (events : ℕ → Event) : ℕ → Supervisor
  | 0 => queued w hierarchy kernel
  | 1 => boot w hierarchy kernel
  | n + 2 => step w (course w hierarchy kernel events (n + 1)) (events n)

variable {events : ℕ → Event}

/-- `u` is after two oneshots. -/
def relayUnits : List Unit :=
  [bootTarget ["b", "u"], serviceUnit "a" {} .oneshot .no, serviceUnit "b" {} .oneshot .no,
    serviceUnit "u" { after := ["a", "b"] } .simple .no]

/-- In its `k`-th round the world ends the process forked before. -/
def relay : World := fun n => { moves := if 10 ≤ n ∧ (n - 10) % 6 = 0 then [exits ((n - 10) / 6 + 2)] else [] }

/-- The processes of the units of a round, in a machine in which `u` is queued:
a unit is activating exactly if it has a process, and of these the last, `n`,
is the only one alive. -/
structure Relayed (t n : ℕ) (running : Name → Option Pid) (zombies : List (Pid × WaitStatus)) (s : Supervisor) :
    Prop where
  ticks : s.ticks = t
  pid : s.kernel.nextPid = n + 1
  live : s.kernel.live.map (·.pid) = [n]
  zombies : s.kernel.zombies = zombies
  queued : s.pending = ["u"]
  up : s.shuttingDown = false
  units : ∀ v, s.unitOf v = (booted relay relayUnits).unitOf v
  state : ∀ (v : Name) (i : Instance), s.instances[v]? = some i → (i.state = .activating ↔ i.child ≠ none)
  child : ∀ (v : Name) (i : Instance), s.instances[v]? = some i → i.child = running v

theorem turn_of_no_moves (h : (w s.ticks).moves = []) : s.turn w = { s with ticks := s.ticks + 1 } := by
  rw [turn, h]
  rfl

/-- Where the world makes no move, scheduling an alarm leaves the kernel alone. -/
theorem schedule_kernel (delay : Nat) (alarm : Alarm) (h₀ : (w s.ticks).moves = []) (h₁ : (w (s.ticks + 1)).moves = [])
    (h₂ : (w (s.ticks + 2)).moves = []) :
    (schedule w delay alarm s).2.kernel = s.kernel ∧ (schedule w delay alarm s).2.ticks = s.ticks + 3 := by
  have e : (s.note (.schedule alarm delay)).turn w = _ := turn_of_no_moves (s := s.note (.schedule alarm delay)) h₀
  simp only [schedule, e, armTimer]
  rw [turn_of_no_moves (by exact h₁), setTimer, turn_of_no_moves (by exact h₂)]
  split <;> exact ⟨rfl, rfl⟩

/-- A oneshot that nothing is in the way of is forked. -/
theorem start_oneshot {x : Name} {i : Instance} (hd : s.shuttingDown = false) (hi : s.instances[x]? = some i)
    (hu : i.unit = serviceUnit x {} .oneshot .no) (hc : s.conflictingWith x = []) (hok : (w s.ticks).ok = true) :
    ∃ s₁ placed, s₁ = (s.note (.start x)).turn w ∧
      start w x s = (schedule w (Duration.fromSecs 90) (.startTimeout x)
        (((s₁.note (.spawn x)).onKernel (·.spawn x placed)).modify x
          (Instance.enteredActivating s₁.kernel.nextPid))).2 := by
  refine ⟨_, ((((s.note (.start x)).turn w).note (.spawn x)).cgroups.get x).isSome, rfl, ?_⟩
  have hx : exclude w x (s.note (.start x)) = s.note (.start x) := by
    rw [exclude, note_toMachine, hc]
    rfl
  simp only [start]
  rw [if_neg (by rw [note_toMachine, hd]; decide), hx]
  simp only [note_toMachine, hi]
  simp only [bringUp, hu, serviceUnit, launch, applyResources, outputFor, fork, note_toMachine, hok]
  simp only [↓reduceIte]
  rw [if_pos ⟨hok, List.cons_ne_nil _ _⟩]

namespace Relayed

variable {t n : ℕ} {running : Name → Option Pid} {zombies : List (Pid × WaitStatus)} {x y : Name}

/-- The relay at boot. -/
theorem booted : Relayed 10 2 (Function.update (fun _ => none) "b" (some 2)) [] (booted relay relayUnits) where
  ticks := by decide +kernel
  pid := by decide +kernel
  live := by decide +kernel
  zombies := by decide +kernel
  queued := by decide +kernel
  up := by decide +kernel
  units _ := rfl
  state v i hi := by
    have hall : ∀ p ∈ (Supervisor.booted relay relayUnits).instances.toList,
        (p.2.state = .activating ↔ p.2.child ≠ none) := by decide +kernel
    exact hall (v, i) (Std.TreeMap.mem_toList_iff_getElem?_eq_some.mpr hi)
  child v i hi := by
    have hall : ∀ p ∈ (Supervisor.booted relay relayUnits).instances.toList,
        p.2.child = if p.1 = "b" then some 2 else none := by decide +kernel
    rw [hall (v, i) (Std.TreeMap.mem_toList_iff_getElem?_eq_some.mpr hi), Function.update_apply]

theorem get (h : Relayed t n running zombies s) (hx : x = "a" ∨ x = "b") :
    ∃ i, s.instances[x]? = some i ∧ i.unit = serviceUnit x {} .oneshot .no := by
  have hu : s.unitOf x = some (serviceUnit x {} .oneshot .no) := by
    rw [h.units]
    rcases hx with rfl | rfl <;> decide +kernel
  exact Option.map_eq_some_iff.mp hu

theorem conflictingWith (h : Relayed t n running zombies s) (x : Name) : s.conflictingWith x = [] := by
  have hall : ∀ p ∈ (Supervisor.booted relay relayUnits).instances.toList, p.2.unit.deps.conflicts = [] := by
    decide +kernel
  have hnone : ∀ (v : Name) (i : Instance), s.instances[v]? = some i → i.unit.deps.conflicts = [] := by
    intro v i hi
    have hu := h.units v
    rw [Manager.unitOf, hi, Option.map_some, eq_comm, Manager.unitOf, Option.map_eq_some_iff] at hu
    obtain ⟨j, hj, e⟩ := hu
    rw [← e]
    exact hall (v, j) (Std.TreeMap.mem_toList_iff_getElem?_eq_some.mpr hj)
  refine List.eq_nil_iff_forall_not_mem.mpr fun v hv => ?_
  rcases Manager.mem_conflictingWith.mp hv with ⟨i, hi, hm⟩ | ⟨i, hi, hm⟩
  · simp [hnone _ i hi] at hm
  · simp [hnone _ i hi] at hm

/-- The process that was forked last exits. -/
theorem turn (h : Relayed t n running [] s) (hm : (relay t).moves = [exits n]) :
    (s.turn relay).ticks = t + 1 ∧ (s.turn relay).kernel.nextPid = n + 1 ∧
      (s.turn relay).kernel.live = [] ∧ (s.turn relay).kernel.zombies = [(n, { exitStatus := some 0 })] := by
  obtain ⟨p, hp, hpid⟩ : ∃ p, s.kernel.live = [p] ∧ p.pid = n := by
    simpa [List.map_eq_singleton_iff] using h.live
  have hk : (s.turn relay).kernel = s.kernel.move (exits n) := by
    rw [Supervisor.turn, h.ticks, hm]
    exact moves_kernel s [exits n]
  refine ⟨congrArg (· + 1) h.ticks, ?_, ?_, ?_⟩ <;>
    simp [hk, Kernel.move, Kernel.notify, Kernel.next, exits, Kernel.alive, hp, hpid, h.pid, h.zombies]

theorem note (h : Relayed t n running zombies s) (c : Call) : Relayed t n running zombies (s.note c) :=
  ⟨h.ticks, h.pid, h.live, h.zombies, h.queued, h.up, h.units, h.state, h.child⟩

/-- A oneshot is started, and the process that was forked before exits. -/
theorem started (h : Relayed t n running [] s) (hx : x = "a" ∨ x = "b") (h₀ : (relay t).moves = [exits n])
    (h₁ : (relay (t + 1)).moves = []) (h₂ : (relay (t + 2)).moves = []) (h₃ : (relay (t + 3)).moves = []) :
    Relayed (t + 4) (n + 1) (Function.update running x (some (n + 1))) [(n, { exitStatus := some 0 })]
      (start relay x s) := by
  obtain ⟨i, hi, hu⟩ := h.get hx
  obtain ⟨s₁, placed, e₁, e⟩ := start_oneshot (w := relay) h.up hi hu (h.conflictingWith x) rfl
  obtain ⟨ht, hp, hl, hz⟩ := (h.note (.start x)).turn h₀
  have hm : ((s.note (.start x)).turn relay).toManager = s.toManager := turn_toManager ..
  have hsteady := (start_errands relay x s).acts.steady
  rw [← e₁] at ht hp hl hz hm
  obtain ⟨hk, hticks⟩ := schedule_kernel (w := relay) (Duration.fromSecs 90) (.startTimeout x)
    (s := ((s₁.note (.spawn x)).onKernel (·.spawn x placed)).modify x (Instance.enteredActivating s₁.kernel.nextPid))
    (by rw [← h₁, ← ht]; rfl) (by rw [← h₂, show t + 2 = t + 1 + 1 from rfl, ← ht]; rfl)
    (by rw [← h₃, show t + 3 = t + 1 + 2 from rfl, ← ht]; rfl)
  obtain ⟨tie, due, fd, -, hm'⟩ := schedule_manager relay (Duration.fromSecs 90) (.startTimeout x)
    (((s₁.note (.spawn x)).onKernel (·.spawn x placed)).modify x (Instance.enteredActivating s₁.kernel.nextPid))
  rw [← e] at hk hticks hm'
  rw [modify_toManager, onKernel_toManager, note_toMachine, hm, hp] at hm'
  generalize start relay x s = s' at hk hticks hm' hsteady
  have hget : ∀ v, s'.instances[v]? = if x = v then s.instances[v]?.map (Instance.enteredActivating (n + 1))
      else s.instances[v]? := fun v => by
    rw [hm']
    exact Manager.get_modify ..
  refine ⟨hticks.trans (congrArg (· + 3) ht), ?_, ?_, (congrArg Kernel.zombies hk).trans hz, ?_, ?_,
    fun v => (hsteady.units v).trans (h.units v), fun v j hj => ?_, fun v j hj => ?_⟩
  · rw [hk]
    exact congrArg (· + 1) hp
  · rw [hk]
    exact congrArg₂ List.cons hp (congrArg (List.map (·.pid)) hl)
  · rw [hm']
    exact h.queued
  · rw [hm']
    exact h.up
  · rw [hget] at hj
    split at hj
    · obtain ⟨i, -, rfl⟩ := Option.map_eq_some_iff.mp hj
      simp [Instance.enteredActivating]
    · exact h.state v j hj
  · rw [hget] at hj
    rw [Function.update_apply]
    split at hj
    · rename_i e
      obtain ⟨i, -, rfl⟩ := Option.map_eq_some_iff.mp hj
      rw [if_pos e.symm]
      rfl
    · rename_i e
      rw [if_neg (Ne.symm e)]
      exact h.child v j hj

/-- Only `y` has this process. -/
theorem unitForPid {p : Pid} (h : Relayed t n running zombies s) (hy : y = "a" ∨ y = "b") (hp : running y = some p)
    (hone : ∀ v, running v = some p → v = y) : s.unitForPid p = some y := by
  obtain ⟨i, hi, -⟩ := h.get hy
  obtain ⟨v, hv⟩ := Manager.unitForPid_of_child hi ((h.child y i hi).trans hp)
  obtain ⟨j, hj, hc⟩ := Manager.unitForPid_get hv
  rw [hv, hone v ((h.child v j hj).symm.trans hc)]

/-- The end of a oneshot is seen. -/
theorem reaped {p : Pid} (h : Relayed t n running [] s) (hy : y = "a" ∨ y = "b")
    (hp : running y = some p) (hone : ∀ v, running v = some p → v = y) (h₀ : (relay t).moves = []) :
    Relayed (t + 1) n (Function.update running y none) [] (onReaped relay (p, { exitStatus := some 0 }) s) := by
  obtain ⟨i, hi, hu⟩ := h.get hy
  have hs : i.state = .activating := (h.state y i hi).mpr (by simp [h.child y i hi, hp])
  have hf : ¬((i.unit.service.any fun sv => sv.ty = .forking) ∧ i.state = .activating) := by
    simp [hu, serviceUnit, Unit.service]
  have hpol : i.policy = .no := by simp [Instance.policy, hu, serviceUnit, Unit.service]
  have hd : i.state ≠ .deactivating := by simp [hs]
  have e₀ : s.turn relay = { s with ticks := t + 1 } := by
    rw [turn_of_no_moves (by rw [h.ticks, h₀]), h.ticks]
  have e : onReaped relay (p, { exitStatus := some 0 }) s =
      (({ s with ticks := t + 1 } : Supervisor).note (.exited y .clean)).modify y
        fun i => (i.onExit s.kernel.now .clean).2 := by
    simp only [onReaped, h.unitForPid hy hp hone, hi]
    rw [if_neg hf, e₀]
    simp only [Exit.fromStatus, Instance.onExit_no hpol hd, if_neg hd]
  have hsteady := (onReaped_deeds (a := none) relay (p, { exitStatus := some 0 }) s).acts.steady
  rw [e] at hsteady ⊢
  refine ⟨rfl, h.pid, h.live, h.zombies, h.queued, h.up, fun v => (hsteady.units v).trans (h.units v),
    fun v j hj => ?_, fun v j hj => ?_⟩
  · rw [modify_toManager, Manager.get_modify] at hj
    split at hj
    · rename_i e
      subst e
      obtain ⟨i', hi', rfl⟩ := Option.map_eq_some_iff.mp hj
      cases hi'.symm.trans hi
      have hx : isIdle (i.onExit s.kernel.now .clean).2.state = true :=
        Instance.onExit_idle hd (Instance.onExit_no hpol hd)
      simp only [Instance.onExit_child, ne_eq, not_true_eq_false, iff_false]
      intro hs
      rw [hs] at hx
      cases hx
    · exact h.state v j hj
  · rw [modify_toManager, Manager.get_modify] at hj
    rw [Function.update_apply]
    split at hj
    · rename_i e
      obtain ⟨i, -, rfl⟩ := Option.map_eq_some_iff.mp hj
      rw [if_pos e.symm]
      exact Instance.onExit_child ..
    · rename_i e
      rw [if_neg (Ne.symm e)]
      exact h.child v j hj

theorem ended {p : Pid} (h : Relayed t n running [(p, { exitStatus := some 0 })] s) (hy : y = "a" ∨ y = "b")
    (hp : running y = some p) (hone : ∀ v, running v = some p → v = y) (h₀ : (relay t).moves = [])
    (h₁ : (relay (t + 1)).moves = []) : Relayed (t + 2) n (Function.update running y none) [] (onSigchld relay s) := by
  have e₀ : s.turn relay = { s with ticks := t + 1 } := by
    rw [turn_of_no_moves (by rw [h.ticks, h₀]), h.ticks]
  have e : onSigchld relay s = onReaped relay (p, { exitStatus := some 0 })
      { s with ticks := t + 1, kernel := s.kernel.reaped, reaping := [] } := by
    simp only [onSigchld, e₀, h.zombies, onChildren]
    rfl
  rw [e]
  exact reaped ⟨rfl, h.pid, h.live, rfl, h.queued, h.up, h.units, h.state, h.child⟩ hy hp hone h₁

/-- `u` still waits. -/
theorem pump (h : Relayed t n running zombies s) (hx : x = "a" ∨ x = "b") (hr : running x ≠ none) :
    Supervisor.pump relay s = s := by
  obtain ⟨i, hi, -⟩ := h.get hx
  have hu : s.unitOf "u" = some (serviceUnit "u" { after := ["a", "b"] } .simple .no) := by
    rw [h.units]
    decide +kernel
  have hs : s.stateOf x = some .activating := by
    rw [Manager.stateOf, hi, Option.map_some, (h.state x i hi).mpr (by rwa [h.child x i hi])]
  have hn : s.nextStartable = none := by
    rw [Manager.nextStartable, h.queued, List.find?_singleton]
    rw [if_neg]
    rw [Manager.orderingSatisfied_iff (by rw [Manager.knows_eq, hu]; rfl)]
    intro hall
    refine (hall x ?_).2 hs
    rw [Manager.after, hu]
    rcases hx with rfl | rfl <;> simp [serviceUnit]
  rw [Supervisor.pump, if_neg (by rw [h.up]; decide), h.queued]
  simp only [List.length_singleton, pumpLoop, hn]

end Relayed

end Supervisor

end Oxinit
