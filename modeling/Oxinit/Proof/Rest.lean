import Oxinit.Proof.Change
import Oxinit.Proof.Reachable

/-!
# Units at rest

What every change of a unit preserves holds of every unit of every run
(`Tour.units`). A unit that is down tracks no process, and it stays down until
it is started.
-/

namespace Oxinit

open Relation (ReflTransGen)

/-! ## Properties of every unit -/

/-- `P` holds of every unit. -/
def Manager.Units (P : Name → Instance → Prop) (m : Manager) : Prop :=
  ∀ (v : Name) (i : Instance), m.instances[v]? = some i → P v i

section

variable {P : Name → Instance → Prop} (change : ∀ {now v c i i'}, P v i → Change now v c i i' → P v i')
  (new : ∀ v unit, P v (Instance.new unit))

theorem Supervisor.queued_units (new : ∀ v unit, P v (Instance.new unit)) (w : World) (hierarchy : Bool)
    (kernel : Kernel) : (queued w hierarchy kernel).Units P := fun v i hi => by
  rw [(queued_fresh w hierarchy kernel).inst v i hi]
  exact new v _

include change

theorem Effect.units {now : Nat} {c : Option Call} {m m' : Manager} (h : Effect now c m m') (hm : m.Units P) :
    m'.Units P := by
  intro v i' hi'
  rcases h.change v with e | ⟨i, j, hi, hj, hc⟩
  · exact hm v i' (e ▸ hi')
  · rw [hj] at hi'
    cases hi'
    exact change (hm v i hi) hc

theorem Acts.units {s s' : Supervisor} (h : Acts s s') (hs : s.Units P) : s'.Units P :=
  Framework.invariant (I := fun s => s.Units P) (fun hs ⟨_, h⟩ => h.effect.units change hs) h hs

include new

theorem Tour.units {w : World} {r : Bool} {s s' : Supervisor} (h : Tour w r s s') (hs : s.Units P) : s'.Units P := by
  cases h with
  | deed h => exact h.acts.units change hs
  | @alarm e rest hf =>
    exact (Supervisor.onAlarm_deeds w e.alarm (s.update (·.setFired rest))).acts.units change hs
  | shutdown hd =>
    obtain ⟨s₁, h₁, -, h₂⟩ := Supervisor.beginShutdown_acts w _ hd
    exact h₂.units change (h₁.units change hs)
  | expire | expireWall | lose | addHandle => exact hs
  | insert =>
    intro v i hi
    rw [Supervisor.update_toManager, Manager.get_insertUnit] at hi
    split at hi
    · cases hi
      exact new v _
    · exact hs v i hi
  | keep => exact fun v i hi => hs v i (Manager.get_of_keep hi)

/-- What every change of an instance keeps holds of every instance. -/
theorem Supervisor.Reachable.units {w : World} {s : Supervisor} (h : Reachable w s) : s.Units P :=
  h.invariant (I := fun s => s.Units P) (queued_units new w) fun hs ht => ht.units change new hs

end

/-! ## Units that run nothing -/

/-- What is not a service is `Inactive`, `Failed` or `Active`, and runs nothing. -/
def Instance.Plain (i : Instance) : Prop :=
  i.unit.service = none → i.child = none ∧ (i.state = .inactive ∨ i.state = .failed ∨ i.state = .active)

namespace Instance

variable {i j : Instance}

theorem Plain.like (h : i.Plain) (hu : j.unit = i.unit) (hs : j.state = i.state) (hc : j.child = i.child ∨ j.child = none) :
    j.Plain := by
  intro hn
  rw [hu] at hn
  rw [hs]
  exact ⟨hc.elim (fun e => e ▸ (h hn).1) id, (h hn).2⟩

theorem Plain.of_service {service : Service} (h : i.unit.service = some service) : i.Plain :=
  fun hn => by simp [hn] at h

theorem Plain.of_idle (hc : i.child = none) (h : isIdle i.state = true) : i.Plain :=
  fun _ => ⟨hc, by cases hs : i.state <;> simp_all [isIdle]⟩

/-- A unit on the way up, on the way down or in backoff is a service. -/
theorem Plain.service (h : i.Plain)
    (hs : i.state = .activating ∨ i.state = .deactivating ∨ i.state = .restarting) :
    ∃ service, i.unit.service = some service := by
  cases hsv : i.unit.service with
  | some service => exact ⟨service, rfl⟩
  | none =>
    have := (h hsv).2
    rcases hs with hs | hs | hs <;> simp [hs] at this

/-- What is not a service is not restarted. -/
theorem onExit_plain (now : Nat) (exit : Exit) (h : i.unit.service = none) (hs : i.state ≠ .deactivating) :
    (i.onExit now exit).1 = none :=
  onExit_no (by rw [policy, h]) hs

end Instance

/-- No change gives a process to a unit that is no service. -/
theorem Change.plain {now : Nat} {v : Name} {c : Option Call} {i i' : Instance} (hi : i.Plain)
    (h : Change now v c i i') : i'.Plain := by
  have hsv : ∀ {f : Instance}, f.unit = i.unit →
      (i.state = .activating ∨ i.state = .deactivating ∨ i.state = .restarting) → f.Plain := by
    intro f hf hs
    obtain ⟨service, h⟩ := hi.service hs
    exact .of_service (by rw [hf, h])
  have hchild : ∀ {f : Instance} {pid}, f.unit = i.unit → i.child = some pid → f.Plain :=
    fun hf hc hn => absurd ((hi (hf ▸ hn)).1) (by simp [hc])
  cases h with
  | cancel hs => exact hsv (Instance.cancelRestart_unit i) (.inr (.inr hs))
  | instant h => exact .of_idle (Instance.deactivated_child ..) (Instance.instant_idle _ _ h)
  | terminate h | spawnSimple h | spawn h | forkedAway h => exact .of_service h
  | kill => exact hi.like rfl rfl (.inl rfl)
  | said | pinged => exact hi.like rfl rfl (.inl rfl)
  | up h => exact fun _ => ⟨(hi h).1, .inr (.inr rfl)⟩
  | arm h => exact fun _ => ⟨(hi (Unit.service_of_timer h)).1, .inr (.inr rfl)⟩
  | fail => exact .of_idle rfl rfl
  | finished hs => exact hsv (Instance.deactivated_unit ..) (.inr (.inl hs))
  | finishedDown hs =>
    exact hsv ((Instance.cancelRestart_unit _).trans (Instance.deactivated_unit ..)) (.inr (.inl hs))
  | exited hc => exact hchild (Instance.onExit_unit ..) hc
  | exitedDown hc => exact hchild ((Instance.cancelRestart_unit _).trans (Instance.onExit_unit ..)) hc
  | vanished hs =>
    intro h
    have hd := hs.trans_ne (show State.active ≠ .deactivating by decide)
    rw [Instance.onExit_unit] at h
    exact Instance.Plain.of_idle (Instance.onExit_child ..)
      (Instance.onExit_idle hd (Instance.onExit_plain _ _ h hd)) (by rwa [Instance.onExit_unit])
  | ready hs => exact hsv rfl (.inl hs)

/-! ## Down -/

/-- A unit that is down tracks no process. -/
def Instance.Childless (i : Instance) : Prop := i.state.down = true → i.child = none

theorem Change.childless {now : Nat} {v : Name} {c : Option Call} {i i' : Instance} (hi : i.Childless)
    (h : Change now v c i i') : i'.Childless := by
  intro hd
  cases h with
  | cancel hs => exact Instance.cancelRestart_child (hi (by rw [hs]; rfl))
  | instant | finished => exact Instance.deactivated_child ..
  | finishedDown => exact Instance.cancelRestart_child (Instance.deactivated_child ..)
  | exited | vanished => exact Instance.onExit_child ..
  | exitedDown => exact Instance.cancelRestart_child (Instance.onExit_child ..)
  | fail | forkedAway => rfl
  | said | pinged | kill => exact hi hd
  | terminate | up | arm | spawnSimple | spawn | ready => cases hd

/-- A unit that is down stays down until it is started. -/
theorem Change.stays_down {now : Nat} {v : Name} {c : Option Call} {i i' : Instance} (h : Change now v c i i')
    (hc : Call.begins c ≠ some v) (hi : i.Childless) (hd : i.state.down = true) :
    i'.state.down = true ∧ (isIdle i.state = true → isIdle i'.state = true) := by
  have hne : ∀ {s}, i.state = s → s.down = true := fun h => h ▸ hd
  cases h with
  | cancel hs => exact ⟨Instance.cancelRestart_down hd, fun _ => by rw [Instance.cancelRestart_state hs]; rfl⟩
  | instant hsv =>
    exact ⟨State.down_of_idle (Instance.instant_idle _ _ hsv), fun _ => Instance.instant_idle _ _ hsv⟩
  | terminate _ hs => rcases hs with hs | hs <;> cases hne hs
  | kill hs | finished hs | finishedDown hs | vanished hs | forkedAway _ _ hs | ready hs => cases hne hs
  | up | arm | spawnSimple | spawn => exact absurd rfl hc
  | fail => exact ⟨rfl, fun _ => rfl⟩
  | exited h | exitedDown h => simp [hi hd] at h
  | said | pinged => exact ⟨hd, id⟩

/-- A service that is down stays down until a process is forked for it. -/
theorem Change.service_stays_down {now : Nat} {v : Name} {c : Option Call} {i i' : Instance} (h : Change now v c i i')
    (hi : i.Childless) (hd : i.state.down = true) (hsv : i'.unit.service ≠ none) (hc : c ≠ some (.spawn v)) :
    i'.state.down = true ∧ (isIdle i.state = true → isIdle i'.state = true) := by
  by_cases hb : Call.begins c = some v
  · cases h with
    | up h => exact absurd h hsv
    | arm h => exact absurd (Unit.service_of_timer h) hsv
    | spawn | spawnSimple => exact absurd rfl hc
    | cancel | instant | terminate | kill | fail | finished | finishedDown | exited | exitedDown | vanished
      | forkedAway | said | pinged | ready => cases hb
  · exact h.stays_down hb hi hd

end Oxinit
