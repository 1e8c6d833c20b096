import Oxinit.Proof.Queue
import Oxinit.Proof.Requirements

/-!
# What the start queue waits for

When `pump` comes to a unit, what that is `after` is neither queued nor
activating (`Gated`). What it requires too has come up then, unless it is
`Inactive`, `Deactivating` or `Restarting`; and what is only declared `before`
it is not looked at.
-/

namespace Oxinit

namespace Manager

variable (m : Manager)

/-- What a unit requires. -/
def requires (u : Name) : List Name := ((m.unitOf u).map (·.deps.requires)).getD []

/-- What a unit is before. -/
def before (u : Name) : List Name := ((m.unitOf u).map (·.deps.before)).getD []

/-- What is in the order, required by `u`, and to come up before it. -/
def musts (u : Name) : List Name := m.order.filter fun b => b ∈ m.requires u ∧ b ∈ m.after u

/-- What is in the order and declares to come before `u`. -/
def predecessors (u : Name) : List Name := m.order.filter fun a => u ∈ m.before a

/-- Queued, or on the way up. -/
def Unsettled (u : Name) : Prop := u ∈ m.pending ∨ m.stateOf u = some .activating

/-- Every `before` between units of the order is an `after` of the other unit too. -/
def mirrored : Manager :=
  { m with
    instances := m.instances.map fun u i =>
      { i with unit := { i.unit with deps := { i.unit.deps with after := i.unit.deps.after ++ m.predecessors u } } } }

/-- What is up has come up. -/
def Up : Prop := ∀ (u : Name) (i : Instance), m.instances[u]? = some i → i.state = .active → i.reached = true

end Manager

/-! ## Units that come up -/

theorem Instance.not_active_of_down {i : Instance} (hd : i.state.down = true) : i.state ≠ .active := by
  intro h
  rw [h] at hd
  cases hd

theorem Instance.onExit_not_active (now : Nat) (exit : Exit) (i : Instance) :
    (i.onExit now exit).2.state ≠ .active := by
  by_cases hs : i.state = .deactivating
  · rw [onExit_deactivating _ _ hs, hs]
    nofun
  · exact not_active_of_down (onExit_down now exit hs)

/-- A unit that is up has come up. -/
theorem Change.reached {now : Nat} {u : Name} {c : Option Call} {i i' : Instance} (hc : Change now u c i i')
    (h : i.state = .active → i.reached = true) (hs : i'.state = .active) : i'.reached = true := by
  cases hc with
  | up | arm | spawnSimple | forkedAway | ready => rfl
  | said | pinged => exact h hs
  | terminate | fail | spawn => cases hs
  | cancel hr => exact absurd hs (Instance.not_active_of_down (Instance.cancelRestart_down (by rw [hr]; rfl)))
  | instant | finished => exact absurd hs (Instance.not_active_of_down (Instance.deactivated_down ..))
  | finishedDown =>
    exact absurd hs (Instance.not_active_of_down (Instance.cancelRestart_down (Instance.deactivated_down ..)))
  | kill hr => cases hr.symm.trans hs
  | exited | vanished => exact absurd hs (Instance.onExit_not_active _ _ _)
  | exitedDown _ _ hr =>
    have hd : _ ≠ State.deactivating := fun hd => hr (by rw [Instance.onExit_deactivating _ _ hd])
    exact absurd hs (Instance.not_active_of_down (Instance.cancelRestart_down (Instance.onExit_down _ _ hd)))

/-- What has come up stays so. -/
theorem Effect.keeps_up {now : Nat} {c : Option Call} {m m' : Manager} (he : Effect now c m m') (h : m.Up) : m'.Up := by
  intro u i' hi' hs
  rcases he.change u with e | ⟨i, j, hi, hj, hc⟩
  · exact h u i' (e ▸ hi') hs
  · cases hj.symm.trans hi'
    exact hc.reached (h u i hi) hs

/-- `pump` comes to the next unit that can start. -/
theorem Effect.pump_next {now : Nat} {u : Name} {m m' : Manager} (h : Effect now (some (.pump u)) m m') :
    m.nextStartable = some u := by
  cases h with
  | mark h => cases h
  | pump _ h => exact h

/-! ## Turns of the queue -/

/-- The unit that `pump` comes to. -/
def Call.pumped : Call → Option Name
  | .pump u => some u
  | _ => none

theorem Call.pumped_eq_some {c : Call} {u : Name} : c.pumped = some u ↔ c = .pump u := by
  cases c <;> simp [pumped]

/-- What `pump` finds when it comes to a unit. -/
structure Gate (u : Name) (m : Manager) : Prop where
  next : m.nextStartable = some u
  planned : m.Planned
  up : m.Up

/-- The units and their order are the same. -/
structure SamePlan (m m' : Manager) : Prop where
  units : ∀ v, m'.unitOf v = m.unitOf v
  order : m'.order = m.order

structure Gated (s : Supervisor) : Prop where
  planned : s.Planned
  up : s.Up
  log : ∀ u m, (.pump u, m) ∈ s.history → Gate u m.toManager ∧ SamePlan m.toManager s.toManager

theorem SamePlan.trans {m m₁ m₂ : Manager} (h₁ : SamePlan m m₁) (h₂ : SamePlan m₁ m₂) : SamePlan m m₂ :=
  ⟨fun v => (h₂.units v).trans (h₁.units v), h₂.order.trans h₁.order⟩

/-- An act of `pump` is gated. -/
theorem Gated.act {s s' : Supervisor} (h : Gated s) (ha : Act s s') : Gated s' := by
  obtain ⟨c, ha⟩ := ha
  have hplan : SamePlan s.toManager s'.toManager := ⟨ha.effect.kept.units, ha.effect.kept.order⟩
  refine ⟨ha.acts.steady.planned h.planned, ha.effect.keeps_up h.up, fun u m hm => ?_⟩
  refine ha.log (p := fun e => ∀ u, e.1 = .pump u → Gate u e.2.toManager ∧ SamePlan e.2.toManager s'.toManager)
    (fun e he u hu => ?_) (fun e he u hu => ?_) (fun c' m hc hm u hu => ?_) (.pump u, m) hm u rfl
  · obtain ⟨hg, hs⟩ := h.log u e.2 (hu ▸ he)
    exact ⟨hg, hs.trans hplan⟩
  · rw [hu] at he
    cases he
  · subst hc
    rw [show c' = .pump u from hu] at ha
    exact hm ▸ ⟨⟨ha.effect.pump_next, h.planned, h.up⟩, hplan⟩

theorem Gated.tour {w : World} {s s' : Supervisor} (h : Gated s) (ht : Tour w false s s') : Gated s' := by
  refine ht.keeps (I := Gated) (fun h ha => h.act ha) (fun {s f} h hi ho hq => ?_) h
  have hplan : SamePlan s.toManager (s.update f).toManager :=
    ⟨fun v => by rw [Manager.unitOf, Manager.unitOf, Supervisor.update_toManager, hi], ho⟩
  refine ⟨h.planned.congr hplan.units ho ?_, fun u i hu => h.up u i (hi ▸ hu), fun u m hm => ?_⟩
  · rw [Supervisor.update_toManager, hq]
  · exact (h.log u m hm).imp_right (·.trans hplan)

namespace Supervisor

variable {w : World} {hierarchy : Bool} {kernel : Kernel} {events : List Event}

/-- Until a reload, `pump` comes only to units that wait for nothing. -/
theorem run_gated (hr : ∀ e ∈ events, e ≠ .request .reload) : Gated (run w (boot w hierarchy kernel) events) := by
  refine Framework.invariant (fun h t => Gated.tour h t) (boot_tours w hierarchy kernel fun e he => .inr (hr e he)).1 ?_
  refine ⟨queued_planned w hierarchy kernel, fun u i hi hs => ?_, fun u m hm => ?_⟩
  · rw [(queued_fresh w hierarchy kernel).inst u i hi] at hs
    cases hs
  · cases queued_log w hierarchy kernel _ hm

end Supervisor

/-! ## What is required -/

namespace Manager

variable {m : Manager} {u a b : Name}

theorem mem_requires : b ∈ m.requires u ↔ ∃ unit, m.unitOf u = some unit ∧ b ∈ unit.deps.requires := by
  rw [requires]
  cases m.unitOf u <;> simp

/-- What `pump` comes to is in the queue, and waits for nothing. -/
theorem settled_of_next (hp : m.Planned) (hn : m.nextStartable = some u) (ha : a ∈ m.after u) : ¬m.Unsettled a := by
  have hu : u ∈ m.pending := List.mem_of_find?_eq_some hn
  have hs : m.orderingSatisfied u = true := List.find?_some hn
  rw [orderingSatisfied_iff (hp.known (hp.queue.subset hu))] at hs
  rintro (hq | hq)
  · exact (hs a ha).1 hq
  · exact (hs a ha).2 hq

/-- What is down, or on its way there. -/
def Lagging (m : Manager) (b : Name) : Prop :=
  m.stateOf b = some .inactive ∨ m.stateOf b = some .deactivating ∨ m.stateOf b = some .restarting

end Manager

/-- What a unit that `pump` starts requires too has come up, or is down again. -/
theorem Gate.reached {u b : Name} {m : Manager} (h : Gate u m) (hf : m.failedRequirement u = none)
    (hb : b ∈ m.musts u) (hl : ¬m.Lagging b) : m.reached b = true := by
  rw [Manager.musts, List.mem_filter, decide_eq_true_eq] at hb
  obtain ⟨ho, hr, ha⟩ := hb
  obtain ⟨unit, hu, hr⟩ := Manager.mem_requires.mp hr
  have hfail := Manager.failedRequirement_eq_none.mp hf unit hu b hr
  have hact := Manager.settled_of_next h.planned h.next ha
  have hk := h.planned.known ho
  rw [Manager.knows, Std.TreeMap.contains_eq_isSome_getElem?, Option.isSome_iff_exists] at hk
  obtain ⟨i, hi⟩ := hk
  have hs : m.stateOf b = some i.state := by rw [Manager.stateOf, hi, Option.map_some]
  rw [Manager.Lagging, hs] at hl
  rw [hs] at hfail
  rw [Manager.Unsettled, hs] at hact
  cases hst : i.state with
  | active =>
    rw [Manager.reached, hi]
    exact h.up b i hi hst
  | activating => exact absurd (.inr (congrArg some hst)) hact
  | failed => exact absurd (congrArg some hst) hfail
  | inactive | deactivating | restarting => simp [hst] at hl

/-! ## What is declared before -/

namespace Manager

variable {m : Manager} {u v a : Name}

theorem mirrored_get : m.mirrored.instances[v]? = m.instances[v]?.map fun i =>
    { i with unit := { i.unit with deps := { i.unit.deps with after := i.unit.deps.after ++ m.predecessors v } } } := by
  simp [mirrored, Std.TreeMap.getElem?_map]

/-- The mirror changes no state. -/
@[simp] theorem mirrored_stateOf : m.mirrored.stateOf v = m.stateOf v := by
  rw [stateOf, stateOf, mirrored_get, Option.map_map]
  rfl

@[simp] theorem mirrored_knows : m.mirrored.knows v = m.knows v := by
  simp only [knows, Std.TreeMap.contains_eq_isSome_getElem?, mirrored_get, Option.isSome_map]

/-- In the mirror a unit is after what declares to come before it. -/
theorem mem_mirrored_after (hk : m.knows v = true) : a ∈ m.mirrored.after v ↔ a ∈ m.after v ∨ a ∈ m.predecessors v := by
  rw [knows, Std.TreeMap.contains_eq_isSome_getElem?, Option.isSome_iff_exists] at hk
  obtain ⟨i, hi⟩ := hk
  rw [after_of_get hi, after, unitOf, mirrored_get, hi]
  exact List.mem_append

/-- A unit waits, when `before` is mirrored, for what is declared before it too. -/
theorem mirrored_satisfied_iff (hk : m.knows v = true) : m.mirrored.orderingSatisfied v = true ↔
    m.orderingSatisfied v = true ∧ ∀ a ∈ m.predecessors v, ¬m.Unsettled a := by
  have hq : m.mirrored.pending = m.pending := rfl
  rw [orderingSatisfied_iff (by rwa [mirrored_knows]), orderingSatisfied_iff hk]
  simp only [mem_mirrored_after hk, mirrored_stateOf, hq, Unsettled, not_or]
  exact ⟨fun h => ⟨fun a ha => h a (.inl ha), fun a ha => h a (.inr ha)⟩, fun h a ha => ha.elim (h.1 a) (h.2 a)⟩

/-- The queue comes to the unit that it would come to if `before` was mirrored, if
and only if nothing declared before that unit is queued or activating. -/
theorem mirrored_next_iff (hp : m.Planned) (hn : m.nextStartable = some u) :
    m.mirrored.nextStartable = some u ↔ ∀ a ∈ m.predecessors u, ¬m.Unsettled a := by
  have hknown : ∀ v ∈ m.pending, m.knows v = true := fun v hv => hp.known (hp.queue.subset hv)
  obtain ⟨hs, front, rest, hq, hfront⟩ := List.find?_eq_some_iff_append.mp hn
  have hu : u ∈ m.pending := List.mem_of_find?_eq_some hn
  rw [nextStartable, List.find?_eq_some_iff_append]
  constructor
  · rintro ⟨hs', -⟩
    exact ((mirrored_satisfied_iff (hknown u hu)).mp hs').2
  · intro h
    refine ⟨(mirrored_satisfied_iff (hknown u hu)).mpr ⟨hs, h⟩, front, rest, hq, fun v hv => ?_⟩
    have hv' : v ∈ m.pending := hq ▸ List.mem_append_left _ hv
    by_contra hb
    rw [Bool.not_eq_true, Bool.not_eq_false'] at hb
    have := hfront v hv
    rw [((mirrored_satisfied_iff (hknown v hv')).mp hb).1] at this
    cases this

end Manager

/-- Only what a unit is not after too may still be queued or activating. -/
theorem Gate.settled_iff {u : Name} {m : Manager} (h : Gate u m) :
    (∀ a ∈ m.predecessors u, ¬m.Unsettled a) ↔ ∀ a ∈ m.predecessors u, a ∉ m.after u → ¬m.Unsettled a := by
  refine ⟨fun hs a ha _ => hs a ha, fun hs a ha => ?_⟩
  by_cases hua : a ∈ m.after u
  · exact Manager.settled_of_next h.planned h.next hua
  · exact hs a ha hua

/-- The plan says what comes before a unit. -/
theorem SamePlan.predecessors {m m' : Manager} (h : SamePlan m m') (u : Name) :
    m'.predecessors u = m.predecessors u := by
  rw [Manager.predecessors, Manager.predecessors, h.order]
  exact List.filter_congr fun a _ => by rw [Manager.before, Manager.before, h.units]

theorem SamePlan.after {m m' : Manager} (h : SamePlan m m') (u : Name) : m'.after u = m.after u := by
  rw [Manager.after, Manager.after, h.units]

/-! ## Runs -/

namespace Supervisor

/-- `pump` came to `u` and starts it: no requirement of `u` has failed. -/
def Pumped (s : Supervisor) (u : Name) (m : Machine) : Prop := (.pump u, m) ∈ s.history ∧ m.failedRequirement u = none

variable {w : World} {hierarchy : Bool} {kernel : Kernel} {events : List Event}

/-- What a unit requires and is after has come up whenever `pump` starts that unit,
if and only if it has whenever it is `Inactive`, `Deactivating` or `Restarting` then. -/
theorem required_has_come_up_iff (hr : ∀ e ∈ events, e ≠ .request .reload) :
    let s := run w (boot w hierarchy kernel) events
    (∀ u m, s.Pumped u m → ∀ b ∈ m.musts u, m.reached b = true) ↔
      ∀ u m, s.Pumped u m → ∀ b ∈ m.musts u, m.Lagging b → m.reached b = true := by
  intro s
  have hg : Gated s := run_gated hr
  refine ⟨fun h u m hm b hb _ => h u m hm b hb, fun h u m hm b hb => ?_⟩
  by_cases hl : m.Lagging b
  · exact h u m hm b hb hl
  · exact (hg.log u m hm.1).1.reached hm.2 hb hl

/-- `a` requires a service that is tried again after it has failed. -/
def tenacious : List Unit :=
  [bootTarget ["a"], serviceUnit "a" { requires := ["b"], after := ["b"] } .simple .no, serviceUnit "b" {} .notify .always]

theorem required_has_come_up_iff_sample :
    let s := run failing (boot failing true (holding tenacious)) [.sigchld, .pump]
    (∀ u m, s.Pumped u m → ∀ b ∈ m.musts u, m.reached b = true) ↔
      ∀ u m, s.Pumped u m → ∀ b ∈ m.musts u, m.Lagging b → m.reached b = true :=
  required_has_come_up_iff (by simp)

/-- A unit is started while what it requires waits to be tried again. -/
theorem started_without_its_requirement :
    let s := run failing (booted failing tenacious) [.sigchld, .pump]
    s.stateOf "a" = some .active ∧ ¬∀ u m, s.Pumped u m → ∀ b ∈ m.musts u, m.reached b = true := by
  intro s
  refine ⟨by decide +kernel, fun h => ?_⟩
  obtain ⟨e, he, hu, hf, hb, hn⟩ : ∃ e ∈ s.history, e.1.pumped = some "a" ∧ e.2.failedRequirement "a" = none ∧
      "b" ∈ e.2.musts "a" ∧ e.2.reached "b" = false := by decide +kernel
  rw [Call.pumped_eq_some] at hu
  exact absurd (h "a" e.2 ⟨hu ▸ he, hf⟩ "b" hb) (by rw [hn]; nofun)

/-- What is declared before a unit is neither queued nor activating whenever `pump`
starts that unit, if and only if this holds of what the unit is not itself after;
and `pump` comes to the units that it would come to if each `before` was an `after`
of the other unit, if and only if it does. -/
theorem before_is_after_iff (hr : ∀ e ∈ events, e ≠ .request .reload) :
    let s := run w (boot w hierarchy kernel) events
    ((∀ u m, s.Pumped u m → ∀ a ∈ m.predecessors u, ¬m.Unsettled a) ↔
      ∀ u m, s.Pumped u m → ∀ a ∈ m.predecessors u, a ∉ m.after u → ¬m.Unsettled a) ∧
    ((∀ u m, (.pump u, m) ∈ s.history → m.mirrored.nextStartable = some u) ↔
      ∀ u m, (.pump u, m) ∈ s.history → ∀ a ∈ m.predecessors u, a ∉ m.after u → ¬m.Unsettled a) := by
  intro s
  have hg : Gated s := run_gated hr
  refine ⟨forall₃_congr fun u m hm => (hg.log u m hm.1).1.settled_iff, forall₃_congr fun u m hm => ?_⟩
  have h := (hg.log u m hm).1
  exact (Manager.mirrored_next_iff h.planned h.next).trans h.settled_iff

/-- Where each `before` between units of the order is an `after` of the other
unit too, no unit is started before what is declared to come before it. -/
theorem before_is_after_of_mirrored (hr : ∀ e ∈ events, e ≠ .request .reload) :
    let s := run w (boot w hierarchy kernel) events
    (∀ u, ∀ a ∈ s.predecessors u, a ∈ s.after u) → ∀ u m, (.pump u, m) ∈ s.history →
      (∀ a ∈ m.predecessors u, ¬m.Unsettled a) ∧ m.mirrored.nextStartable = some u := by
  intro s hm u m hu
  obtain ⟨h, hplan⟩ := (run_gated hr).log u m hu
  have hsettled : ∀ a ∈ m.predecessors u, ¬m.Unsettled a := by
    intro a ha
    refine Manager.settled_of_next h.planned h.next ?_
    rw [← hplan.after]
    exact hm u a (hplan.predecessors u ▸ ha)
  exact ⟨hsettled, (Manager.mirrored_next_iff h.planned h.next).mpr hsettled⟩

/-- `a` takes its time, and declares to come before `b`. -/
def preceding : List Unit :=
  [bootTarget ["a", "b"], serviceUnit "a" { before := ["b"] } .notify .no, serviceUnit "b" {} .simple .no]

theorem before_is_after_iff_sample :
    let s := run calm (boot calm true (holding preceding)) [.sigchld, .pump]
    ((∀ u m, s.Pumped u m → ∀ a ∈ m.predecessors u, ¬m.Unsettled a) ↔
      ∀ u m, s.Pumped u m → ∀ a ∈ m.predecessors u, a ∉ m.after u → ¬m.Unsettled a) ∧
    ((∀ u m, (.pump u, m) ∈ s.history → m.mirrored.nextStartable = some u) ↔
      ∀ u m, (.pump u, m) ∈ s.history → ∀ a ∈ m.predecessors u, a ∉ m.after u → ¬m.Unsettled a) :=
  before_is_after_iff (by simp)

/-- A unit is started while what is declared before it is activating. -/
theorem started_in_spite_of_before :
    let s := booted calm preceding
    s.stateOf "b" = some .active ∧ (¬∀ u m, s.Pumped u m → ∀ a ∈ m.predecessors u, ¬m.Unsettled a) ∧
      ¬∀ u m, (.pump u, m) ∈ s.history → m.mirrored.nextStartable = some u := by
  intro s
  obtain ⟨e, he, hu, hf, ha, hs, hn⟩ : ∃ e ∈ s.history, e.1.pumped = some "b" ∧ e.2.failedRequirement "b" = none ∧
      "a" ∈ e.2.predecessors "b" ∧ e.2.stateOf "a" = some .activating ∧ e.2.mirrored.nextStartable ≠ some "b" := by
    decide +kernel
  rw [Call.pumped_eq_some] at hu
  refine ⟨by decide +kernel, fun h => h "b" e.2 ⟨hu ▸ he, hf⟩ "a" ha (.inr hs), fun h => hn (h "b" e.2 (hu ▸ he))⟩

end Supervisor

end Oxinit
