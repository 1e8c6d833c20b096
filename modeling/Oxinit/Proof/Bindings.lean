import Oxinit.Proof.Rest
import Oxinit.Proof.Shutdown

/-!
# Bound sockets

Addresses are bound by `load`, for the socket units of the order, and never
again. A socket unit is `Active` once `start` has come to it, and nothing else
makes it so. So one that is `Active` has an address bound as long as `start`
comes only to those that got one from `load`.
-/

namespace Oxinit

/-! ## What is bound -/

namespace Manager

/-- Whether `u` is a socket unit. -/
def isSocket (m : Manager) (u : Name) : Bool := (m.unitOf u).any (·.socket.isSome)

/-- A descriptor is bound for `u`. -/
def Listens (m : Manager) (u : Name) : Prop := ∃ b ∈ m.sockets, b.unit = u

/-- Every socket unit that is up has a descriptor. -/
def SocketsListen (m : Manager) : Prop := ∀ u, m.isSocket u = true → m.stateOf u = some .active → m.Listens u

variable {m m' : Manager} {u : Name}

theorem listens_iff : m.Listens u ↔ u ∈ m.sockets.map (·.unit) := by
  simp [Listens]

theorem isSocket_iff : m.isSocket u = true ↔ ∃ i, m.instances[u]? = some i ∧ i.unit.socket.isSome = true := by
  rw [isSocket, unitOf, Option.any_map, Option.any_eq_true]

/-- Whether a descriptor is watched is all that `setArmed` changes. -/
theorem setArmed_map {α : Type} {f : Bound → α} (hf : ∀ bound armed, f { bound with armed } = f bound) {id : Nat}
    {bound : Bound} {b : Bool} (hb : m.sockets[id]? = some bound) :
    (m.setArmed id bound b).sockets.map f = m.sockets.map f := by
  refine List.ext_getElem? fun n => ?_
  simp only [setArmed, List.getElem?_map, List.getElem?_set]
  split
  · rename_i e
    subst e
    split
    · rw [hb, Option.map_some, Option.map_some, hf]
    · rename_i hn
      rw [List.getElem?_eq_none (Nat.le_of_not_lt hn)]
  · rfl

end Manager

theorem Armed.sockets {now : Nat} {name : Name} {m m' : Manager} {next : Option Next} (h : Armed now name m next m') :
    m'.sockets = m.sockets := by
  cases h with
  | none => rfl
  | after _ h | afterFailed _ h | «at» h | atFailed h => subst h; rfl

theorem Restarts.sockets {now : Nat} {name : Name} {m m' : Manager} {r : Option Nat} (h : Restarts now name m r m') :
    m'.sockets = m.sockets := by
  cases h <;> rfl

/-- Nothing is bound or closed. -/
theorem Effect.sockets {α : Type} {f : Bound → α} (hf : ∀ bound armed, f { bound with armed } = f bound) {now : Nat}
    {c : Option Call} {m m' : Manager} (h : Effect now c m m') : m'.sockets.map f = m.sockets.map f := by
  cases h with
  | armed hb => exact Manager.setArmed_map hf hb
  | arm _ _ _ _ _ h => exact congrArg (List.map f) (h.sockets.trans rfl)
  | elapsed _ _ h => exact congrArg (List.map f) h.sockets
  | finished _ _ _ h => exact congrArg (List.map f) (h.sockets.trans rfl)
  | exited _ _ _ _ h => exact congrArg (List.map f) (h.sockets.trans rfl)
  | _ => rfl

/-! ## What comes up -/

theorem Unit.service_of_socket {u : Unit} (h : u.socket.isSome = true) : u.service = none ∧ u.timer = none := by
  cases hk : u.kind <;> simp [socket, service, timer, hk] at h ⊢

/-- A socket unit that is up was up, or comes up with the call. -/
theorem Change.listening {now : Nat} {v : Name} {c : Option Call} {i i' : Instance} (h : Change now v c i i')
    (hp : i.Plain) (hs : i.unit.socket.isSome = true) (ha : i'.state = .active) :
    i.state = .active ∨ c = some (.up v) := by
  obtain ⟨hsv, htm⟩ := Unit.service_of_socket hs
  obtain ⟨hc, hst⟩ := hp hsv
  cases h with
  | up => exact .inr rfl
  | said | pinged => exact .inl ha
  | vanished hs => exact .inl hs
  | fail | terminate => cases ha
  | @instant _ cause t =>
    have hd := Instance.deactivated_down t (i.enteredDeactivating cause)
    rw [ha] at hd
    cases hd
  | arm h => cases h.symm.trans htm
  | spawnSimple h | spawn h | forkedAway h => cases h.symm.trans hsv
  | exited h | exitedDown h => cases h.symm.trans hc
  | cancel h | kill h | finished h | finishedDown h | ready h => rcases hst with e | e | e <;> cases h.symm.trans e

/-- Every socket unit that is up in `m` has come up with a call that `s` records. -/
def Announced (s : Supervisor) (m : Manager) : Prop :=
  ∀ u, m.isSocket u = true → m.stateOf u = some .active → ∃ m', (.up u, m') ∈ s.history ∧ m'.isSocket u = true

/-- What has been announced stays so. -/
theorem Announced.grow {s s' : Supervisor} {m : Manager} (h : Announced s m) (hg : s.history <:+ s'.history) :
    Announced s' m := fun u hs ha => by
  obtain ⟨m', hm, hs'⟩ := h u hs ha
  exact ⟨m', hg.mem hm, hs'⟩

/-- The descriptors are those of `units`, and the socket units that
are up, or were when something was called, have been announced. -/
structure Announcing (units : List Name) (s : Supervisor) : Prop where
  plain : s.Units fun _ => Instance.Plain
  bound : s.sockets.map (·.unit) = units
  up : Announced s s.toManager
  log : ∀ e ∈ s.history, e.1.isWorld = true ∨ e.2.sockets.map (·.unit) = units ∧ Announced s e.2.toManager

namespace Announcing

variable {w : World} {units : List Name} {s s' : Supervisor}

/-- An act binds no socket, and a socket unit that comes up is announced. -/
theorem acted {c : Option Call} (h : Announcing units s) (ha : Acted c s s') : Announcing units s' := by
  have hg := ha.act.grows
  refine ⟨ha.effect.units Change.plain h.plain, (ha.effect.sockets fun _ _ => rfl).trans h.bound, fun u hs hup => ?_, ?_⟩
  · obtain ⟨i', hi', hs'⟩ := Manager.isSocket_iff.mp hs
    rcases ha.effect.change u with e | ⟨i, j, hi, hj, hc⟩
    · rw [Manager.isSocket, Manager.unitOf, e] at hs
      rw [Manager.stateOf, e] at hup
      exact (h.up.grow hg) u hs hup
    · cases hj.symm.trans hi'
      rw [ha.effect.kept.unit_eq hi hj] at hs'
      rw [Manager.stateOf_of_get hj, Option.some.injEq] at hup
      have hsock := Manager.isSocket_iff.mpr ⟨i, hi, hs'⟩
      rcases hc.listening (h.plain u i hi) hs' hup with hst | rfl
      · exact (h.up.grow hg) u hsock (by rw [Manager.stateOf_of_get hi, hst])
      · obtain ⟨m, hm, he, -⟩ := ha.recorded
        exact ⟨m, hm, by rw [he]; exact hsock⟩
  · refine ha.log (fun e he => (h.log e he).imp_right fun hl => ⟨hl.1, hl.2.grow hg⟩) (fun e he => .inl he) ?_
    intro c' m hc hm
    refine .inr ⟨?_, ?_⟩
    · rw [hm]
      exact h.bound
    · rw [hm]
      exact h.up.grow hg

theorem acts (h : Announcing units s) (ha : Acts s s') : Announcing units s' :=
  Framework.invariant (fun h ⟨_, ha⟩ => h.acted ha) ha h

theorem update {f : Manager → Manager} (h : Announcing units s) (hi : (f s.toManager).instances = s.instances)
    (hs : (f s.toManager).sockets = s.sockets) : Announcing units (s.update f) := by
  refine ⟨?_, ?_, fun u => ?_, h.log⟩
  · rw [Supervisor.update_toManager, Manager.Units, hi]
    exact h.plain
  · rw [Supervisor.update_toManager, hs]
    exact h.bound
  · rw [Supervisor.update_toManager, Manager.isSocket, Manager.stateOf, Manager.unitOf, hi]
    exact h.up u

/-- A whole event keeps it. -/
theorem tour (h : Announcing units s) (ht : Tour w true s s') : Announcing units s' := by
  have hplain := ht.units Change.plain (fun _ _ _ => ⟨rfl, .inl rfl⟩) h.plain
  cases ht with
  | deed hd => exact h.acts hd.acts
  | @alarm e rest =>
    exact (h.update (f := (·.setFired rest)) rfl rfl).acts (Supervisor.onAlarm_deeds w e.alarm _).acts
  | shutdown hd =>
    obtain ⟨s₁, h₁, -, h₂⟩ := Supervisor.beginShutdown_acts w _ hd
    exact ((h.acts h₁).update rfl rfl).acts h₂
  | expire | expireWall | lose | addHandle => exact h.update rfl rfl
  | @insert name unit _ hn =>
    refine ⟨hplain, h.bound, fun u hs ha => ?_, h.log⟩
    have hget := Manager.get_insertUnit s.toManager name u unit
    rw [Supervisor.update_toManager] at hs ha
    split at hget
    · rw [Manager.stateOf_of_get hget] at ha
      cases ha
    · rw [Manager.isSocket, Manager.unitOf, hget] at hs
      rw [Manager.stateOf, hget] at ha
      exact h.up u hs ha
  | keep =>
    refine ⟨hplain, h.bound, fun u hs ha => ?_, h.log⟩
    obtain ⟨i, hi, hs'⟩ := Manager.isSocket_iff.mp hs
    rw [Manager.stateOf_of_get hi] at ha
    have hi := Manager.get_of_keep hi
    exact h.up u (Manager.isSocket_iff.mpr ⟨i, hi, hs'⟩) ((Manager.stateOf_of_get hi).trans ha)

end Announcing

namespace Supervisor

variable {w : World} {hierarchy : Bool} {kernel : Kernel} {events : List Event}

theorem queued_announcing :
    Announcing ((load w hierarchy kernel).sockets.map (·.unit)) (queued w hierarchy kernel) := by
  refine ⟨queued_units (fun _ _ _ => ⟨rfl, .inl rfl⟩) w hierarchy kernel, rfl, fun u hs ha => ?_, fun e he =>
    .inl (queued_log w hierarchy kernel e he)⟩
  obtain ⟨i, hi, -⟩ := Manager.isSocket_iff.mp hs
  rw [Manager.stateOf_of_get hi, (queued_fresh w hierarchy kernel).inst u i hi] at ha
  cases ha

/-- After every run, a socket unit that is up was announced. -/
theorem run_announcing (w : World) (hierarchy : Bool) (kernel : Kernel) (events : List Event) :
    Announcing ((load w hierarchy kernel).sockets.map (·.unit)) (run w (boot w hierarchy kernel) events) :=
  Framework.invariant (fun h ht => h.tour ht) (boot_tours w hierarchy kernel fun _ _ => .inl rfl).1 queued_announcing

/-- As long as `start` comes only to socket units that got a descriptor when the
units were loaded, one that is up has one: between two events, and whenever
anything is called. -/
theorem active_sockets_listen (w : World) (hierarchy : Bool) (kernel : Kernel) (events : List Event)
    (h : ∀ u m, (.up u, m) ∈ (run w (boot w hierarchy kernel) events).history → m.isSocket u = true →
      (load w hierarchy kernel).Listens u) :
    (run w (boot w hierarchy kernel) events).SocketsListen ∧
      ∀ c m, (c, m) ∈ (run w (boot w hierarchy kernel) events).history → c.isWorld = false → m.SocketsListen := by
  have ha := run_announcing w hierarchy kernel events
  have hbound : ∀ {m : Manager}, m.sockets.map (·.unit) = (load w hierarchy kernel).sockets.map (·.unit) →
      Announced (run w (boot w hierarchy kernel) events) m → m.SocketsListen := by
    intro m hm hup u hs hst
    obtain ⟨m', hm', hs'⟩ := hup u hs hst
    rw [Manager.listens_iff, hm, ← Manager.listens_iff]
    exact h u m' hm' hs'
  refine ⟨hbound ha.bound ha.up, fun c m hm hc => ?_⟩
  obtain ⟨hm, hup⟩ := (ha.log _ hm).resolve_left (by rw [hc]; decide)
  exact hbound hm hup

/-- Port 80, and the service that is started for a connection on it. -/
def web : List Unit :=
  [bootTarget ["s"], { name := "s", description := "", kind := .socket { listen := [.inet "0.0.0.0:80"], service := "a" } },
    serviceUnit "a" {} .simple .no]

/-- A unit that comes up without a process is no socket unit, or has a descriptor from `units`. -/
def fromLoad (units : List Name) (e : Call × Machine) : Bool :=
  match e.1 with
  | .up u => !e.2.isSocket u || units.contains u
  | _ => true

theorem active_sockets_listen_sample :
    (run calm (booted calm web) [.request (.stop "s"), .request (.start "s"), .pump]).SocketsListen := by
  refine (active_sockets_listen calm true (holding web) _ fun u m hm hs => ?_).1
  have hall : ∀ e ∈ (run calm (booted calm web) [.request (.stop "s"), .request (.start "s"), .pump]).history,
      fromLoad ((load calm true (holding web)).sockets.map (·.unit)) e = true := by decide +kernel
  have he : (!m.isSocket u || _) = true := hall _ hm
  rw [hs, Bool.not_true, Bool.false_or] at he
  exact Manager.listens_iff.mpr (List.contains_iff_mem.mp he)

/-- The address is taken: the unit is up with nothing bound. -/
theorem active_without_a_descriptor :
    let s := booted (fun n => { ok := n ≠ 2 }) web
    Reachable (fun n => { ok := n ≠ 2 }) s ∧ s.isSocket "s" = true ∧ s.stateOf "s" = some .active ∧ ¬s.SocketsListen := by
  have hs : (booted (fun n => { ok := n ≠ 2 }) web).isSocket "s" = true := by decide +kernel
  have ha : (booted (fun n => { ok := n ≠ 2 }) web).stateOf "s" = some .active := by decide +kernel
  have hn : (booted (fun n => { ok := n ≠ 2 }) web).sockets = [] := by decide +kernel
  refine ⟨booted_reachable _ _, hs, ha, fun h => ?_⟩
  obtain ⟨b, hb, -⟩ := h "s" hs ha
  rw [hn] at hb
  cases hb

end Supervisor

end Oxinit
