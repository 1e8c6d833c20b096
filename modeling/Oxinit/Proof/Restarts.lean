import Oxinit.Proof.Stops

/-!
# Requested restarts

An `oxctl restart` is a stop followed by a start, and a restart policy may
have a unit that has stopped come back by itself. `phase u` reads off a history
where the restart of `u` is, and rejects one in which it is started otherwise
than once, or in which its policy has it come back too.
-/

namespace Oxinit

open Relation (ReflTransGen)

/-! ## Phases -/

/-- Where a restart that was asked for is. -/
inductive Phase
  /-- None is awaited. -/
  | free
  /-- The unit is started once it has stopped. -/
  | waiting
  /-- It has stopped. -/
  | stopped
  /-- It is about to be started. -/
  | again
  deriving DecidableEq

/-- The stop of `u` that is over ends without a restart by the policy. -/
def endsForGood (u : Name) (m : Machine) : Bool :=
  m.instances[u]?.all fun i => (i.deactivated m.kernel.now).1.isNone

/-- What a call makes of the restart of `u`; `none` for one out of place. -/
def Phase.next (u : Name) (p : Phase) (e : Call × Machine) : Option Phase :=
  match p, e.1 with
  | .free, .await v => some (if v = u then .waiting else .free)
  | .free, .again v => if v = u then none else some .free
  | .free, _ => some .free
  | .waiting, .start v => if v = u then none else some .waiting
  | .waiting, .again v => if v = u then none else some .waiting
  | .waiting, .finished v =>
    if v = u then (if endsForGood u e.2 then some .stopped else none) else some .waiting
  | .waiting, _ => some .waiting
  -- Nothing comes between the end of the stop and the start.
  | .stopped, .again v => if v = u then some .again else none
  | .stopped, _ => none
  | .again, .start v => if v = u then some .free else none
  | .again, _ => none

def phase (u : Name) : List (Call × Machine) → Option Phase := Framework.monitor (Phase.next u) .free

/-- Nothing asks for a second start of a unit that is to be started again: no
request to start it, and none to restart it whose stop ends in a restart by the
policy. -/
def orderly (e : Call × Machine) : Bool :=
  match e.1 with
  | .request (.start u) => e.2.shuttingDown || u ∉ e.2.pendingRestart
  | .request (.restart u) => e.2.shuttingDown ||
      e.2.instances[u]?.all fun i => i.state ≠ .deactivating || !i.comesBack
  | _ => true

theorem Call.closes_of_isWorld {c : Call} (h : c.isWorld = true) : Call.closes (some c) = none := by
  cases c <;> first | rfl | cases h

theorem Call.begins_of_isWorld {c : Call} (h : c.isWorld = true) : Call.begins (some c) = none := by
  cases c <;> first | rfl | cases h

theorem Call.closes_of_alarm {c : Option Call} {a : Alarm} (h : Call.alarm c = some a) : Call.closes c = none := by
  rcases c with _ | c
  · rfl
  · cases c <;> first | rfl | cases h

theorem Call.closes_of_raises {c : Call} {u v : Name} (h : Supervisor.Raises v c) (hv : v ≠ u) :
    Call.begins (some c) ≠ some u ∧ Call.closes (some c) ≠ some u := by
  rcases h with rfl | rfl | rfl | rfl <;> simp [begins, closes, hv]

namespace Phase

variable {u : Name} {e : Call × Machine}

/-- A unit that nobody waits for stays free. -/
theorem next_free (h : e.1 ≠ .await u) (h' : e.1 ≠ .again u) : next u .free e = some .free := by
  obtain ⟨c, m⟩ := e
  cases c with
  | await v => simp [next, show v ≠ u from fun hv => h (by rw [hv])]
  | again v => simp [next, show v ≠ u from fun hv => h' (by rw [hv])]
  | _ => rfl

/-- A restart is waited for until it comes or is called off. -/
theorem next_waiting (h : Call.begins (some e.1) ≠ some u) (h' : Call.closes (some e.1) ≠ some u) :
    next u .waiting e = some .waiting := by
  obtain ⟨c, m⟩ := e
  cases c with
  | start v => simp [next, show v ≠ u from fun hv => h (by rw [hv]; rfl)]
  | again v | finished v => simp [next, show v ≠ u from fun hv => h' (by rw [hv]; rfl)]
  | _ => rfl

end Phase

/-! ## Units that wait to be started again -/

/-- A service that is being stopped, and whose policy has nothing to say about that. -/
def Manager.StopsQuietly (m : Manager) (u : Name) : Prop :=
  ∃ i, m.instances[u]? = some i ∧ i.unit.service ≠ none ∧ i.state = .deactivating ∧ i.comesBack = false

theorem Manager.StopsQuietly.stateOf {m : Manager} {u : Name} (h : m.StopsQuietly u) :
    m.stateOf u = some .deactivating := by
  obtain ⟨i, hi, -, hs, -⟩ := h
  rw [Manager.stateOf, hi, Option.map_some, hs]

theorem Manager.StopsQuietly.not_idle {m : Manager} {u : Name} (h : m.StopsQuietly u) : m.idle u ≠ true := by
  obtain ⟨i, hi, -, hs, -⟩ := h
  simp [Manager.idle, hi, hs, isIdle]

/-- A unit goes on stopping. -/
theorem Change.stopsQuietly {now : Nat} {v : Name} {c : Option Call} {i i' : Instance} (h : Change now v c i i')
    (hb : Call.begins c ≠ some v) (hc : Call.closes c ≠ some v) (hsv : i.unit.service ≠ none)
    (hs : i.state = .deactivating) (hn : i.comesBack = false) :
    i'.unit.service ≠ none ∧ i'.state = .deactivating ∧ i'.comesBack = false := by
  have hne : ∀ {s}, i.state = s → s = .deactivating := fun h => h.symm.trans hs
  cases h with
  | kill | said | pinged => exact ⟨hsv, hs, hn⟩
  | exited =>
    rw [Instance.onExit_deactivating _ _ hs]
    exact ⟨hsv, hs, hn⟩
  | exitedDown _ _ hr => exact absurd (by rw [Instance.onExit_deactivating _ _ hs]) hr
  | instant h => exact absurd h hsv
  | up | arm | spawnSimple | spawn => exact absurd rfl hb
  | fail | finished | finishedDown => exact absurd rfl hc
  | terminate _ hs => rcases hs with hs | hs <;> cases hne hs
  | cancel hs | vanished hs | forkedAway _ _ hs | ready hs => cases hne hs

theorem Effect.stopsQuietly {now : Nat} {c : Option Call} {m m' : Manager} {u : Name} (h : Effect now c m m')
    (hb : Call.begins c ≠ some u) (hc : Call.closes c ≠ some u) (hs : m.StopsQuietly u) : m'.StopsQuietly u := by
  obtain ⟨i, hi, hst⟩ := hs
  rcases h.change u with e | ⟨j, j', hj, hj', hch⟩
  · exact ⟨i, e.trans hi, hst⟩
  · cases hi.symm.trans hj
    exact ⟨j', hj', hch.stopsQuietly hb hc hst.1 hst.2.1 hst.2.2⟩

/-- Nothing forgets a restart while the unit is still being stopped. -/
theorem Effect.awaits {now : Nat} {c : Option Call} {m m' : Manager} {u : Name} (h : Effect now c m m')
    (hs : m.stateOf u = some .deactivating) (hu : u ∈ m.pendingRestart) : u ∈ m'.pendingRestart := by
  cases h with
  | awaitRestart => exact Finset.mem_insert_of_mem hu
  | takeRestart _ hs' => exact Finset.mem_erase.mpr ⟨fun e => hs' (e ▸ hs), hu⟩
  | arm _ _ _ _ _ h => rwa [h.frame.2.2]
  | elapsed _ _ h => rwa [h.frame.2.2]
  | finished _ _ _ h => rwa [h.pendingRestart]
  | exited _ _ _ _ h => rwa [h.pendingRestart]
  | _ => exact hu

/-- No restart of `u` is awaited. -/
structure Free (u : Name) (s : Supervisor) : Prop where
  restart : u ∉ s.pendingRestart
  log : phase u s.history = some .free

/-- `u` is started once it has stopped. -/
structure Awaits (u : Name) (s : Supervisor) : Prop where
  restart : u ∈ s.pendingRestart
  queue : u ∉ s.pending
  stops : s.StopsQuietly u
  log : phase u s.history = some .waiting

def Tracked (u : Name) (s : Supervisor) : Prop := Free u s ∨ Awaits u s

section

variable {u : Name} {s s' : Supervisor} {c : Option Call}

theorem Free.acted (h : Acted c s s') (hc : c ≠ some (.await u)) (hc' : c ≠ some (.again u)) (hf : Free u s) :
    Free u s' := by
  obtain ⟨new, hn, hnew⟩ := h.entries
  refine ⟨fun hu => hf.restart (h.effect.pendingRestart hc hu), ?_⟩
  rw [hn]
  refine Framework.monitor_append hf.log fun e he => ?_
  rcases hnew e he with hw | ⟨rfl, -⟩
  · exact Phase.next_free (fun e => by rw [e] at hw; cases hw) fun e => by rw [e] at hw; cases hw
  · exact Phase.next_free (fun e => hc (by rw [e])) fun e => hc' (by rw [e])

/-- An act that is not about the unit leaves it waiting. -/
theorem Awaits.acted (h : Acted c s s') (hb : Call.begins c ≠ some u) (hc : Call.closes c ≠ some u)
    (ha : Awaits u s) : Awaits u s' := by
  obtain ⟨new, hn, hnew⟩ := h.entries
  refine ⟨h.effect.awaits ha.stops.stateOf ha.restart, fun hu => ha.queue (h.effect.kept.pending.subset hu),
    h.effect.stopsQuietly hb hc ha.stops, ?_⟩
  rw [hn]
  refine Framework.monitor_append ha.log fun e he => ?_
  rcases hnew e he with hw | ⟨rfl, -⟩
  · exact Phase.next_waiting (by simp [Call.begins_of_isWorld hw]) (by simp [Call.closes_of_isWorld hw])
  · exact Phase.next_waiting hb hc

theorem Tracked.acted (h : Acted c s s') (hb : Call.begins c ≠ some u) (hc : Call.closes c ≠ some u)
    (ht : Tracked u s) : Tracked u s' :=
  ht.imp (Free.acted h (Call.ne_await hb) fun e => hc (by rw [e]; rfl)) (Awaits.acted h hb hc)

theorem Tracked.free (ht : Tracked u s) (hu : u ∉ s.pendingRestart) : Free u s :=
  ht.resolve_right fun ha => hu ha.restart

/-- An act of a unit itself, which does not wait. -/
theorem Tracked.own {name : Name} {c : Call} (h : Acted (some c) s s')
    (hc : c = .pump name ∨ c = .fail name ∨ c = .finished name) (hn : name = u → u ∉ s.pendingRestart)
    (ht : Tracked u s) : Tracked u s' := by
  by_cases e : name = u
  · refine .inl ((ht.free (hn e)).acted h ?_ ?_)
    · rcases hc with rfl | rfl | rfl <;> nofun
    · rcases hc with rfl | rfl | rfl <;> nofun
  · refine ht.acted h ?_ ?_
    · rcases hc with rfl | rfl | rfl <;> simp [Call.begins, e]
    · rcases hc with rfl | rfl | rfl <;> simp [Call.closes, e]

theorem Free.routines (h : Routines s s') (hf : Free u s) : Free u s' :=
  Framework.invariant (fun hf ⟨c, h, hc⟩ => hf.acted h
    (Call.ne_await (by simp [Call.begins_of_isChore (Call.isChore_of_isRoutine hc)]))
    fun e => by cases (Call.closes_of_isRoutine hc).symm.trans (by rw [e]; rfl : _ = some u)) h hf

theorem Tracked.routines (h : Routines s s') (ht : Tracked u s) : Tracked u s' :=
  Framework.invariant (fun ht ⟨c, h, hc⟩ => ht.acted h
    (by simp [Call.begins_of_isChore (Call.isChore_of_isRoutine hc)]) (by simp [Call.closes_of_isRoutine hc])) h ht

end

/-! ## Starts and ends -/

namespace Supervisor

variable {w : World} {s : Supervisor} {u name : Name} {i : Instance}

/-- What stops and the call that brings the unit up keep, a start keeps. -/
theorem start_keeps {I : Supervisor → Prop} (hI : I (s.note (.start name)))
    (hr : ∀ {s s'}, Routines s s' → I s → I s')
    (hc : ∀ {c s s'}, Acted (some c) s s' → Raises name c → I s → I s') : I (start w name s) := by
  by_cases hd : s.shuttingDown = true
  · rwa [start_goingDown w name hd]
  · have hx := hr (exclude_routines w name _) hI
    rcases start_raised w name (eq_false_of_ne_true hd) with ⟨-, e⟩ | ⟨c, s₁, hst, hm, ha, hc'⟩
    · rwa [e]
    · exact hc ha hc' (hr ((Acted.still hst hm).routines rfl) hx)

theorem start_free (hf : Free u (s.note (.start name))) : Free u (start w name s) := by
  refine start_keeps hf Free.routines fun ha hc => Free.acted ha ?_ ?_
  · rcases hc with rfl | rfl | rfl | rfl <;> nofun
  · rcases hc with rfl | rfl | rfl | rfl <;> nofun

/-- A start that nobody asked to wait for is tracked. -/
theorem start_tracked (ht : Tracked u s) (hn : name = u → u ∉ s.pendingRestart) : Tracked u (start w name s) := by
  have hmark := Acted.mark (c := .start name) rfl s
  by_cases e : name = u
  · exact .inl (start_free ((ht.free (hn e)).acted hmark nofun nofun))
  · refine start_keeps (ht.acted hmark (by simp [Call.begins, e]) nofun) Tracked.routines fun ha hc => ?_
    obtain ⟨hb, hc⟩ := Call.closes_of_raises hc e
    exact Tracked.acted ha hb hc

theorem pumpTurn_tracked (hd : s.shuttingDown = false) (h : s.nextStartable = some name) (ht : Tracked u s) :
    Tracked u (pumpTurn w name s) := by
  have ha := Acted.call (s := s) (c := .pump name) (f := (·.dequeue name)) rfl (.pump hd h)
  have hn : name = u → u ∉ s.pendingRestart := by
    rintro rfl hu
    rcases ht with hf | hw
    · exact hf.restart hu
    · exact hw.queue (List.mem_of_find?_eq_some h)
  have ht' := ht.own ha (.inl rfl) hn
  simp only [pumpTurn]
  split
  · exact ht'.own (fail_act name _) (.inr (.inl rfl)) hn
  · exact start_tracked ht' hn

/-- The stop of a unit that waits to be started again ends without a restart by the policy. -/
theorem endStop_awaits (hi : s.instances[u]? = some i) (ha : Awaits u s) :
    endStop w u i s = ((s.turn w).note (.finished u)).modify u fun i => (i.deactivated (s.turn w).kernel.now).2 := by
  obtain ⟨j, hj, -, -, hn⟩ := ha.stops
  cases hi.symm.trans hj
  simp only [endStop, Instance.deactivated_none hn]

/-- It is then started, once. -/
theorem again_free (hi : s.instances[u]? = some i) (ha : Awaits u s) :
    Free u (start w u (((endStop w u i s).update (·.takeRestart u)).note (.again u))) := by
  have ht : Awaits u (s.turn w) := ha.acted (Acted.turn w s) nofun nofun
  have hends : endsForGood u (s.turn w).toMachine = true := by
    obtain ⟨j, hj, -, -, hn⟩ := ht.stops
    rw [endsForGood, hj, Option.all_some, Instance.deactivated_none hn]
    rfl
  rw [endStop_awaits hi ha]
  refine start_free ⟨Finset.notMem_erase u _, ?_⟩
  have h₁ : phase u ((.finished u, (s.turn w).toMachine) :: (s.turn w).history) = some .stopped := by
    rw [phase, Framework.monitor_cons ht.log]
    simp [Phase.next, hends]
  have h₂ : ∀ m, phase u ((.again u, m) :: (.finished u, (s.turn w).toMachine) :: (s.turn w).history) = some .again := by
    intro m
    rw [phase, Framework.monitor_cons h₁]
    simp [Phase.next]
  show phase u ((.start u, _) :: (.again u, _) :: (.finished u, (s.turn w).toMachine) :: (s.turn w).history) = some .free
  rw [phase, Framework.monitor_cons (h₂ _)]
  simp [Phase.next]

end Supervisor

/-! ## Runs -/

section

variable {w : World} {a : Option Alarm} {s s' : Supervisor} {u name : Name}

/-- A unit that waits to be started again is started for no other reason. -/
theorem Origin.not_awaits (ho : Origin s name) (hok : ∀ e ∈ s.history, orderly e = true) (ha : Awaits name s) :
    False := by
  cases ho with
  | requested h hm hd =>
    have := hok _ h.mem
    simp only [orderly, hm, hd, Bool.false_or, decide_eq_true_eq] at this
    exact this ha.restart
  | restarted _ _ hi => exact ha.stops.not_idle hi
  | connection _ _ hi => exact ha.stops.not_idle hi
  | elapsed _ _ _ _ _ hi => exact ha.stops.not_idle hi
  | backoff hs => cases hs.symm.trans ha.stops.stateOf

/-- What a request to restart a unit has stopped, and is not down, has nothing else to come. -/
theorem StopOutcome.stopsQuietly {i j : Instance} (ho : Supervisor.StopOutcome .requested j i) (hs : isIdle i.state = false)
    (hok : j.state = .deactivating → j.comesBack = false) :
    i.unit.service ≠ none ∧ i.state = .deactivating ∧ i.comesBack = false := by
  cases ho with
  | cancelled hr =>
    rw [Instance.cancelRestart_state hr] at hs
    cases hs
  | instant t _ hsv => cases (Instance.instant_idle _ _ hsv).symm.trans hs
  | already hsv h =>
    rcases h with h | h | h
    · rw [h] at hs
      cases hs
    · rw [h] at hs
      cases hs
    · exact ⟨by simp [hsv], h, hok h⟩
  | terminated hsv => exact ⟨by simp [Instance.enteredDeactivating, hsv], rfl, rfl⟩

/-- A deed keeps track of restarts. -/
theorem Deed.tracked (h : Deed w a s s') (hok : ∀ e ∈ s.history, orderly e = true) (ht : Tracked u s) :
    Tracked u s' := by
  cases h with
  | act h hc => exact ht.routines (h.routines hc)
  | @fire c _ _ h hc hne =>
    obtain ⟨b, rfl⟩ := Option.ne_none_iff_exists'.mp hne
    exact ht.acted h (by simp [Call.begins_of_alarm hc]) (by simp [Call.closes_of_alarm hc])
  | pump hd h => exact Supervisor.pumpTurn_tracked hd h ht
  | start ho =>
    refine Supervisor.start_tracked ht fun e hu => ?_
    subst e
    exact ho.not_awaits hok (ht.resolve_left fun hf => hf.restart hu)
  | @await _ name m i j h hd hj hso hq hi hs =>
    by_cases e : name = u
    · subst e
      have hquiet := hok _ h.mem
      simp only [orderly, hd, hj, Bool.false_or, Option.all_some, Bool.or_eq_true, decide_eq_true_eq,
        Bool.not_eq_true'] at hquiet
      obtain ⟨hsv, hst, hn⟩ := StopOutcome.stopsQuietly hso hs fun hd => hquiet.resolve_left (not_not.mpr hd)
      refine .inr ⟨Finset.mem_insert_self .., hq, ⟨i, hi, hsv, hst, hn⟩, ?_⟩
      show phase name ((.await name, s.toMachine) :: s.history) = some .waiting
      rcases ht with hf | ha
      · rw [phase, Framework.monitor_cons hf.log]
        simp [Phase.next]
      · rw [phase, Framework.monitor_cons ha.log]
        rfl
    · exact ht.acted (Acted.call rfl (.awaitRestart hi hs)) (by simp [Call.begins, e]) nofun
  | @fail _ name hs =>
    refine ht.own (Supervisor.fail_act name s) (.inr (.inl rfl)) fun e hu => ?_
    subst e
    cases hs.symm.trans (ht.resolve_left fun hf => hf.restart hu).stops.stateOf
  | @finish _ name i hi hs hp =>
    have ha := Supervisor.endStop_act (w := w) hi hs
    exact ht.own ha (.inr (.inr rfl)) fun e hu => hp (ha.effect.finished_pendingRestart ▸ e ▸ hu)
  | @again _ name i hi hs hp =>
    have ha := Supervisor.endStop_act (w := w) hi hs
    by_cases e : name = u
    · subst e
      have hu := ha.effect.finished_pendingRestart ▸ hp
      exact .inl (Supervisor.again_free hi (ht.resolve_left fun hf => hf.restart hu))
    · have h₁ := ht.own ha (.inr (.inr rfl)) fun e' => absurd e' e
      have htake := Acted.now (f := (·.takeRestart name)) rfl (.takeRestart hp (Supervisor.endStop_over hi))
      have h₂ := h₁.acted htake nofun nofun
      exact Supervisor.start_tracked (h₂.acted (Acted.mark (c := .again name) rfl _) nofun (by simp [Call.closes, e]))
        fun e' => absurd e' e

theorem Deeds.tracked (h : Deeds w a s s') (hok : ∀ e ∈ s'.history, orderly e = true) (ht : Tracked u s) :
    Tracked u s' :=
  Framework.Grows.invariant (fun h => h.acts.grows)
    (fun hok ht h => h.tracked (fun e he => hok e (h.acts.grows.mem he)) ht) h hok ht

/-- An update of something else. -/
theorem Tracked.update {f : Manager → Manager} (hp : (f s.toManager).pendingRestart = s.pendingRestart)
    (hq : (f s.toManager).pending = s.pending) (hs : s.StopsQuietly u → (f s.toManager).StopsQuietly u)
    (ht : Tracked u s) : Tracked u (s.update f) := by
  rcases ht with hf | ha
  · exact .inl ⟨fun hu => hf.restart (hp ▸ hu), hf.log⟩
  · exact .inr ⟨hp.symm ▸ ha.restart, fun hu => ha.queue (hq ▸ hu), hs ha.stops, ha.log⟩

theorem Tour.tracked {r : Bool} (h : Tour w r s s') (hok : ∀ e ∈ s'.history, orderly e = true) (ht : Tracked u s) :
    Tracked u s' := by
  cases h with
  | deed h => exact h.tracked (fun e he => hok e (h.acts.grows.mem he)) ht
  | expire | expireWall | lose | addHandle => exact ht.update rfl rfl id
  | @alarm e rest =>
    exact (Supervisor.onAlarm_deeds w e.alarm _).tracked hok
      (ht.update (f := (·.setFired rest)) rfl rfl id)
  | shutdown hd =>
    obtain ⟨s₁, h₁, -, h₂⟩ := Supervisor.beginShutdown_routines w _ hd
    exact ((ht.routines h₁).update (f := (·.goDown _)) rfl rfl id).routines h₂
  | @insert name unit _ hidle =>
    -- What is being stopped is not replaced.
    refine ht.update rfl rfl fun hs => ?_
    have hn := hs.not_idle
    obtain ⟨i, hi, hst⟩ := hs
    have hne : name ≠ u := by
      rintro rfl
      rcases hidle with h | h
      · cases h.symm.trans hi
      · exact hn h
    exact ⟨i, by rw [Manager.get_insertUnit, if_neg hne, hi], hst⟩
  | @keep p _ hidle =>
    refine ht.update rfl rfl fun hs => ?_
    obtain ⟨i, hi, hsv, hst, hn⟩ := hs
    have hp : p u i = true := by
      by_contra hp
      have := hidle u i hi (eq_false_of_ne_true hp)
      rw [hst] at this
      cases this
    exact ⟨i, by simp [Manager.keep, hi, hp], hsv, hst, hn⟩

namespace Supervisor

theorem queued_free (w : World) (hierarchy : Bool) (kernel : Kernel) : Free u (queued w hierarchy kernel) := by
  refine ⟨by simp [(queued_fresh w hierarchy kernel).pendingRestart], ?_⟩
  have hmove : ∀ e ∈ (queued w hierarchy kernel).history, ∀ c : Call, c.isMove = false → e.1 ≠ c := by
    intro e he c hc h
    cases (h ▸ queued_moves w hierarchy kernel e he).symm.trans hc
  rw [phase, ← List.append_nil (queued w hierarchy kernel).history]
  exact Framework.monitor_append rfl fun e he => Phase.next_free (hmove e he _ rfl) (hmove e he _ rfl)

/-- They are tracked in every reachable state. -/
theorem Reachable.tracked (hr : Reachable w s) (hok : ∀ e ∈ s.history, orderly e = true) (u : Name) : Tracked u s :=
  hr.guarded hok (fun hierarchy kernel => .inl (queued_free w hierarchy kernel)) fun hok ht h => h.tracked hok ht

/-! ## Requests -/

end Supervisor

end

/-- `u` is started. -/
def Call.isStart (u : Name) : Call → Bool
  | .start v => v = u
  | _ => false

theorem Call.isStart_of_begins {c : Call} {u : Name} (h : Call.begins (some c) ≠ some u) : c.isStart u = false := by
  cases c with
  | start v => exact decide_eq_false fun e => h (by rw [e]; rfl)
  | _ => rfl

theorem Call.isStart_of_isStop {c : Call} {u : Name} (h : c.isStop = true) : c.isStart u = false := by
  cases c <;> first | rfl | cases h

namespace Supervisor

variable {w : World} {s s₀ : Supervisor} {u : Name}

/-- `u` has been started once since `s₀`. -/
def StartedOnce (u : Name) (s₀ s : Supervisor) : Prop :=
  ∃ new, s.history = new ++ s₀.history ∧ new.countP (fun e => e.1.isStart u) = 1

theorem StartedOnce.acted {c : Option Call} {s' : Supervisor} (h : Acted c s s')
    (hc : ∀ c', c = some c' → c'.isStart u = false) (ho : StartedOnce u s₀ s) : StartedOnce u s₀ s' := by
  obtain ⟨past, hp, hone⟩ := ho
  obtain ⟨new, hn, hnew⟩ := h.entries
  refine ⟨new ++ past, by rw [hn, hp, List.append_assoc], ?_⟩
  rw [List.countP_append, hone, List.countP_eq_zero.mpr fun e he => ?_]
  rcases hnew e he with hw | ⟨hc', -⟩
  · simp [Call.isStart_of_isStop (Call.isStop_of_isWorld hw)]
  · simp [hc e.1 hc']

/-- `start` starts a unit once. -/
theorem start_once (w : World) (u : Name) (s : Supervisor) : StartedOnce u s (start w u s) := by
  refine start_keeps ⟨[(.start u, s.toMachine)], rfl, by simp [Call.isStart]⟩ (fun hr ho => ?_) fun ha hc => ?_
  · refine Framework.invariant (fun ho ⟨c, h, hc⟩ => ho.acted h fun c' e => Call.isStart_of_begins ?_) hr ho
    rw [← e, Call.begins_of_isChore (Call.isChore_of_isRoutine hc)]
    nofun
  · refine StartedOnce.acted ha fun c' e => ?_
    cases e
    rcases hc with rfl | rfl | rfl | rfl <;> rfl

/-- A restart is accepted for a unit that is known, which is then asked to stop. -/
theorem restart_accepted {message : String} (h : (handle w (.restart u) s).1 = .accepted message) :
    (handle w (.restart u) s).2 = restartWhenStopped w u (stop w u .requested (s.note (.request (.restart u)))) ∧
      ∃ i, (s.note (.request (.restart u))).instances[u]? = some i := by
  have hk : (s.note (.request (.restart u))).knows u = true := by
    by_contra hk
    rw [handle, if_pos hk] at h
    cases h
  have hd : ¬(s.note (.request (.restart u))).shuttingDown = true := by
    intro hd
    rw [handle, if_neg (not_not.mpr hk), if_pos hd] at h
    cases h
  refine ⟨by rw [handle, if_neg (not_not.mpr hk), if_neg hd], ?_⟩
  rw [Manager.knows, Std.TreeMap.contains_eq_isSome_getElem?] at hk
  exact Option.isSome_iff_exists.mp hk

/-- The unit is started at once, or it waits to be started once it has stopped. -/
theorem restart_request {message : String} (ht : Tracked u s) (hacc : (handle w (.restart u) s).1 = .accepted message) :
    (since s (handle w (.restart u) s).2).countP (fun e => e.1.isStart u) =
      if u ∈ (handle w (.restart u) s).2.pendingRestart then 0 else 1 := by
  obtain ⟨he, j, hj⟩ := restart_accepted hacc
  obtain ⟨i, hi, -⟩ := stop_get_self (w := w) (c := .requested) hj
  obtain ⟨l, hl, hstop⟩ := stop_log w u .requested (s.note (.request (.restart u)))
  have ht₁ : Tracked u (stop w u .requested (s.note (.request (.restart u)))) :=
    (ht.acted (Acted.mark (c := .request (.restart u)) rfl s) (fun h => by cases h) fun h => by cases h).routines
      (stop_routines w u .requested _)
  have hnone : (l ++ [(Call.request (.restart u), s.toMachine)]).countP (fun e => e.1.isStart u) = 0 := by
    refine List.countP_eq_zero.mpr fun e he => ?_
    rcases List.mem_append.mp he with he | he
    · simp [Call.isStart_of_isStop (hstop e he)]
    · rw [List.mem_singleton.mp he]
      exact Bool.false_ne_true
  generalize hs₁ : stop w u .requested (s.note (.request (.restart u))) = s₁ at he hi hl ht₁
  have hl : s₁.history = (l ++ [(Call.request (.restart u), s.toMachine)]) ++ s.history := by
    rw [hl, List.append_assoc]
    rfl
  rw [he]
  simp only [restartWhenStopped, hi]
  split
  · rename_i hidle
    obtain ⟨new, hn, hone⟩ := start_once w u s₁
    have hf : Free u (start w u s₁) := by
      have hf₁ : Free u s₁ := ht₁.resolve_right fun ha => ha.stops.not_idle (by simpa [Manager.idle, hi])
      exact start_free (hf₁.acted (Acted.mark (c := .start u) rfl s₁) (by simp) (by simp))
    rw [if_neg hf.restart, since_eq (by rw [hn, hl, ← List.append_assoc]), List.countP_append, hone, hnone]
  · have hmem : u ∈ ((s₁.note (.await u)).update (·.awaitRestart u)).pendingRestart := Finset.mem_insert_self ..
    have hnew : ((s₁.note (.await u)).update (·.awaitRestart u)).history = (.await u, s₁.toMachine) ::
        (l ++ [(Call.request (.restart u), s.toMachine)]) ++ s.history := congrArg _ hl
    rw [if_pos hmem, since_eq hnew, List.countP_cons, hnone]
    rfl

/-- No restart by the policy comes with one that was asked for, and that has the unit started once. -/
structure RestartsOnce (w : World) (s : Supervisor) : Prop where
  phase : ∀ u, phase u s.history = some (if u ∈ s.pendingRestart then .waiting else .free)
  stopping : ∀ u ∈ s.pendingRestart, s.stateOf u = some .deactivating
  request : ∀ u message, (handle w (.restart u) s).1 = .accepted message →
    (since s (handle w (.restart u) s).2).countP (fun e => e.1.isStart u) =
      if u ∈ (handle w (.restart u) s).2.pendingRestart then 0 else 1

/-- In a run in which nothing asks for a second start of a unit that is to be
started again, the policy never has it come back too, and it is started once. -/
theorem requested_restart_is_the_only_one (hr : Reachable w s) (hok : ∀ e ∈ s.history, orderly e = true) :
    RestartsOnce w s := by
  refine ⟨fun u => ?_, fun u hu => ?_, fun u message => restart_request (hr.tracked hok u)⟩
  · rcases hr.tracked hok u with hf | ha
    · rw [if_neg hf.restart, hf.log]
    · rw [if_pos ha.restart, ha.log]
  · exact ((hr.tracked hok u).resolve_left fun hf => hf.restart hu).stops.stateOf

theorem requested_restart_is_the_only_one_sample :
    RestartsOnce (scripted [(9, [exits 2])]) (run (scripted [(9, [exits 2])])
      (booted (scripted [(9, [exits 2])]) [bootTarget ["a"], serviceUnit "a" {} .simple .always])
      [.request (.restart "a"), .sigchld]) :=
  requested_restart_is_the_only_one (run_reachable _ _ _) (by decide +kernel)

/-- A unit that did not start in time, and is to come back, is asked to restart
while it is being stopped: it is started, with its backoff still to come. And a
unit that waits to be started again is asked to start. -/
theorem restart_comes_twice :
    (∃ w, ∃ s, Reachable w s ∧ s.stateOf "a" = some .activating ∧ (∃ e ∈ s.timers.heap, e.alarm = .restart "a") ∧
      ¬RestartsOnce w s) ∧
    ∃ w, ∃ s, Reachable w s ∧ "a" ∈ s.pendingRestart ∧ s.stateOf "a" = some .active ∧ ¬RestartsOnce w s := by
  constructor
  · let w := scripted [(8, [.pass (Duration.fromSecs 100)]), (17, [exits 2])]
    refine ⟨w, run w (booted w [bootTarget ["a"], serviceUnit "a" {} .notify .always])
      [.sleep, .timer, .request (.restart "a"), .sigchld], run_reachable _ _ _, ?_⟩
    have hp : phase "a" (run w (booted w [bootTarget ["a"], serviceUnit "a" {} .notify .always])
        [.sleep, .timer, .request (.restart "a"), .sigchld]).history = none := by decide +kernel
    refine ⟨by decide +kernel, by decide +kernel, fun h => ?_⟩
    cases hp.symm.trans (h.phase "a")
  · refine ⟨calm, run calm (booted calm [bootTarget ["a"], serviceUnit "a" {} .simple .no])
      [.request (.restart "a"), .request (.start "a")], run_reachable _ _ _, ?_⟩
    have hp : "a" ∈ (run calm (booted calm [bootTarget ["a"], serviceUnit "a" {} .simple .no])
        [.request (.restart "a"), .request (.start "a")]).pendingRestart := by decide +kernel
    have hs : (run calm (booted calm [bootTarget ["a"], serviceUnit "a" {} .simple .no])
        [.request (.restart "a"), .request (.start "a")]).stateOf "a" = some .active := by decide +kernel
    refine ⟨hp, hs, fun h => ?_⟩
    cases hs.symm.trans (h.stopping "a" hp)

end Supervisor

end Oxinit
