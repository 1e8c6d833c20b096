import Oxinit.Model.Main
import Oxinit.Proof.EventLoop
import Oxinit.Proof.Replies
import Oxinit.Proof.Shutdown

/-!
# The loop of PID 1

A turn of the loop is a run of the events of `Loop.lean`, so that every state
of the loop is one they reach; and a signal is the only one of them that
begins a shutdown.
-/

namespace Oxinit

open Relation (ReflTransGen)

/-! ## Handlers that begin no shutdown -/

namespace Supervisor

variable {w : World} {s s' : Supervisor}

theorem dispatch_shutdown (w : World) (l : List Entry) (s : Supervisor) : (dispatch w l s).shutdown = s.shutdown := by
  induction l generalizing s with
  | nil => rfl
  | cons e rest ih => exact (ih _).trans (onAlarm_deeds w e.alarm (s.update (·.setFired rest))).acts.kept.shutdown

theorem dispatchWall_shutdown (w : World) (l : List Entry) (s : Supervisor) :
    (dispatchWall w l s).shutdown = s.shutdown := by
  induction l generalizing s with
  | nil => rfl
  | cons e rest ih =>
    refine (ih _).trans ?_
    simp only [onWallAlarm]
    split
    · next unit _ => exact (onAlarm_deeds w (.timerElapsed unit) (s.update (·.setFired rest))).acts.kept.shutdown
    · rfl

theorem expired_shutdown (w : World) (s : Supervisor) : (expired w s).shutdown = s.shutdown := by
  have h : (armTimer w ((s.turn w).update (·.takeExpired (s.turn w).kernel.now))).2.shutdown = s.shutdown := by
    rw [(armTimer_act w _).effect.kept.shutdown, update_toManager, Manager.takeExpired, turn_toManager]
  simp only [expired]
  split
  · exact h
  · exact h

theorem wallExpired_shutdown (w : World) (now : Nat) (s : Supervisor) :
    (wallExpired w now s).shutdown = s.shutdown := by
  have h : (armWall w ((s.turn w).update (·.takeWallExpired now))).2.shutdown = s.shutdown := by
    rw [(armWall_act w _).effect.kept.shutdown, update_toManager, Manager.takeWallExpired, turn_toManager]
  have hn : (armWall w (s.turn w)).2.shutdown = s.shutdown := by
    rw [(armWall_act w _).effect.kept.shutdown, turn_toManager]
  simp only [wallExpired]
  split
  · exact hn
  · split
    · exact h
    · exact h

theorem addUnit_shutdown (w : World) (name : Name) (unit : Unit) (s : Supervisor) :
    (addUnit w name unit s).shutdown = s.shutdown := by
  simp only [addUnit, addCgroup]
  split <;> simp [Manager.insertUnit, Manager.addHandle]

theorem reloadUnits_shutdown (w : World) (units : List (Name × Unit)) (acc : List Name × List Name × Supervisor) :
    (units.foldl (reloadUnit w) acc).2.2.shutdown = acc.2.2.shutdown := by
  induction units generalizing acc with
  | nil => rfl
  | cons p units ih =>
    obtain ⟨changed, skipped, s⟩ := acc
    refine (ih _).trans ?_
    simp only [reloadUnit]
    split
    · split
      · rfl
      · split
        · exact addUnit_shutdown ..
        · rfl
    · exact addUnit_shutdown ..

theorem reload_shutdown (w : World) (s : Supervisor) : (reload w s).2.shutdown = s.shutdown := by
  simp only [reload]
  split
  · exact (reloadUnits_shutdown w _ _).trans (by rw [turn_toManager])
  · rw [turn_toManager]

/-- Only a request to go down begins a shutdown. -/
theorem step_shutdown {e : Event} (he : ∀ action, e ≠ .shutdown action) : (step w s e).shutdown = s.shutdown := by
  cases e with
  | sigchld => exact (onSigchld_deeds (a := none) w s).acts.kept.shutdown
  | timer => exact (dispatch_shutdown w _ _).trans (expired_shutdown w s)
  | wallTimer =>
    refine (dispatchWall_shutdown w _ _).trans ((wallExpired_shutdown w _ _).trans ?_)
    rw [note_toMachine, turn_toManager]
  | notify => exact (onNotify_routines w s).chores.kept.shutdown
  | cgroup id => exact (onCgroup_deeds (a := none) w id s).acts.kept.shutdown
  | socket id => exact (onSocket_deeds (a := none) w id s).acts.kept.shutdown
  | request request =>
    by_cases hr : request = .reload
    · subst hr
      exact reload_shutdown w _
    · exact (handle_deeds (a := none) w s hr).acts.kept.shutdown
  | shutdown action => exact absurd rfl (he action)
  | pump => exact (pump_deeds (a := none) w s).acts.kept.shutdown
  | syncSockets => exact (syncSockets_routines w s).chores.kept.shutdown
  | sleep =>
    show (s.turn w).shutdown = _
    rw [turn_toManager]

/-- A request to go down does, unless the machine is going down already. -/
theorem beginShutdown_shutdown (w : World) (action : Action) (s : Supervisor) :
    (beginShutdown w action s).shutdown.map (·.action) = (s.shutdown.map (·.action)).or (some action) := by
  by_cases hd : s.shuttingDown = true
  · obtain ⟨sh, hsh⟩ := Option.isSome_iff_exists.mp hd
    simp only [beginShutdown]
    rw [if_pos (by exact hd)]
    simp [hsh]
  · obtain ⟨s₁, -, -, h⟩ := beginShutdown_acts w action (eq_false_of_ne_true hd)
    rw [h.kept.shutdown]
    have hn : s.shutdown = none := by simpa [Manager.shuttingDown] using hd
    simp [hn, Manager.goDown]

/-- A machine that goes down wakes up at its deadline. -/
theorem waitBound_eq {sd : Shutdown} (h : s.shutdown = some sd) :
    s.waitBound w = (some (sd.remaining (s.turn w).kernel.now), s.turn w) := by
  simp only [waitBound, h]

end Supervisor

namespace Main

variable {w : World} {j : Json} {k : Wake} {m m₁ m₂ : Main} {signals : List Nat}

/-- What a signal asks for, of the manager that hears it. -/
def asks (e : Environment) (signal : Nat) : Option Action :=
  if e.isUser then if signal ∈ [sigterm, sigint, sigpwr, sigusr1, sighup] then some .powerOff else none
  else if signal = sigterm ∨ signal = sigpwr then some .powerOff
  else if signal = sigint then some .reboot
  else if signal = sigusr1 then some .halt
  else none

/-- What the machine is going down for. -/
def goal (m : Main) : Option Action := m.supervisor.shutdown.map (·.action)

/-- What the supervisor has done from `m` to `m'` is a run of events, in which
`signals` were heard. -/
structure Follows (w : World) (signals : List Nat) (m m' : Main) : Prop where
  events : ∃ events, m'.supervisor = Supervisor.run w m.supervisor events
  environment : m'.environment = m.environment
  goal : m'.goal = m.goal.or (signals.filterMap (asks m.environment)).head?

theorem Follows.trans {signals' : List Nat} (h : Follows w signals m m₁) (h' : Follows w signals' m₁ m₂) :
    Follows w (signals ++ signals') m m₂ := by
  obtain ⟨l, hl⟩ := h.events
  obtain ⟨l', hl'⟩ := h'.events
  refine ⟨⟨l ++ l', ?_⟩, h'.environment.trans h.environment, ?_⟩
  · rw [hl', hl, Supervisor.run, Supervisor.run, Supervisor.run, List.foldl_append]
  · rw [h'.goal, h.goal, h.environment, List.filterMap_append, List.head?_append, Option.or_assoc]

/-- The loop has handled events, and the watchdog has had no turn. -/
structure Handled (w : World) (signals : List Nat) (m m' : Main) : Prop extends Follows w signals m m' where
  watchdog : m'.watchdog = m.watchdog
  outcome : m'.outcome = m.outcome

namespace Handled

theorem refl (w : World) (m : Main) : Handled w [] m m := ⟨⟨⟨[], rfl⟩, rfl, by simp⟩, rfl, rfl⟩

theorem trans {signals' : List Nat} (h : Handled w signals m m₁) (h' : Handled w signals' m₁ m₂) :
    Handled w (signals ++ signals') m m₂ :=
  ⟨h.toFollows.trans h'.toFollows, h'.watchdog.trans h.watchdog, h'.outcome.trans h.outcome⟩

/-- A handler that begins no shutdown. -/
theorem event (m : Main) {e : Event} (he : ∀ action, e ≠ .shutdown action) (control : Option (Clients Nat)) :
    Handled w [] m { m with supervisor := Supervisor.step w m.supervisor e, control } := by
  refine ⟨⟨⟨[e], rfl⟩, rfl, ?_⟩, rfl, rfl⟩
  simp only [Main.goal, Supervisor.step_shutdown he]
  simp

theorem supervise (m : Main) {e : Event} (he : ∀ action, e ≠ .shutdown action) :
    Handled w [] m (m.supervise fun s => Supervisor.step w s e) :=
  event m he m.control

theorem clients (w : World) (m : Main) (control : Option (Clients Nat)) : Handled w [] m { m with control } :=
  ⟨⟨⟨[], rfl⟩, rfl, by simp [Main.goal]⟩, rfl, rfl⟩

/-- A signal that asks for a shutdown. -/
theorem shutdown {signal : Nat} {action : Action} (h : asks m.environment signal = some action) :
    Handled w [signal] m (m.supervise (Supervisor.beginShutdown w action)) := by
  refine ⟨⟨⟨[.shutdown action], rfl⟩, rfl, ?_⟩, rfl, rfl⟩
  simp only [List.filterMap_cons, h, List.filterMap_nil, List.head?_cons]
  exact Supervisor.beginShutdown_shutdown w action m.supervisor

/-- A signal that asks for nothing. -/
theorem unasked {signal : Nat} (h : asks m.environment signal = none) (hm : Handled w [] m m₁) :
    Handled w [signal] m m₁ :=
  ⟨⟨hm.events, hm.environment, by simpa [h] using hm.goal⟩, hm.watchdog, hm.outcome⟩

end Handled

theorem onSignal_eq {signal : Nat} (h : signal ≠ sigchld) : onSignal w m signal =
    (asks m.environment signal).elim m fun action => m.supervise (Supervisor.beginShutdown w action) := by
  unfold onSignal asks
  rw [if_neg h]
  by_cases hu : m.environment.isUser = true
  · simp only [hu, true_and, ↓reduceIte]
    split
    · rfl
    · next hs =>
      -- What a user manager does not take for a request is none elsewhere either.
      simp only [List.mem_cons, List.not_mem_nil, or_false, not_or] at hs
      simp [hs]
  · simp only [hu, Bool.false_eq_true, false_and, ↓reduceIte]
    repeat' split
    all_goals rfl

theorem onSignal_handled (w : World) (m : Main) (signal : Nat) : Handled w [signal] m (onSignal w m signal) := by
  by_cases hc : signal = sigchld
  · subst hc
    refine .unasked ?_ (.supervise m (e := .sigchld) (by simp))
    unfold asks
    split <;> decide
  · rw [onSignal_eq hc]
    cases h : asks m.environment signal with
    | none => exact .unasked h (.refl w m)
    | some action => exact .shutdown h

theorem onSignals_handled (w : World) (k : Wake) (m : Main) : Handled w (k.signals.getD []) m (onSignals w k m) := by
  unfold onSignals
  cases k.signals with
  | none => exact .refl w m
  | some pending =>
    simp only [Option.getD_some]
    induction pending generalizing m with
    | nil => exact .refl w m
    | cons signal pending ih => exact (onSignal_handled w m signal).trans (ih _)

/-- A request of a client. -/
theorem onRequest_handled (w : World) (j : Json) (k : Wake) (m : Main) (id : UInt32) :
    Handled w [] m (onRequest w j k m id) := by
  unfold onRequest
  split
  · exact .refl w m
  · next control _ =>
    simp only [Clients.onRequest]
    cases control.recv k.messages id.toNat with
    | none => exact .clients w m _
    | some message =>
      cases hd : Ipc.decode j message with
      | error e =>
        simp only [hd]
        exact .clients w m _
      | ok request =>
        simp only [hd]
        exact .event m (e := .request request) (by simp) _

/-- What a source gives the loop to hear. -/
def hears (k : Wake) (source : EventLoop.Source) : List Nat := if source = .signals then k.signals.getD [] else []

theorem dispatch_handled (w : World) (j : Json) (k : Wake) (m : Main) (source : EventLoop.Source) :
    Handled w (hears k source) m (dispatch w j k m source) := by
  cases source with
  | signals => exact onSignals_handled w k m
  | timer => exact .supervise m (e := .timer) (by simp)
  | wallTimer => exact .supervise m (e := .wallTimer) (by simp)
  | notify => exact .supervise m (e := .notify) (by simp)
  | cgroup id => exact .supervise m (e := .cgroup id.toNat) (by simp)
  | socket id => exact .supervise m (e := .socket id.toNat) (by simp)
  | control => exact .clients w m _
  | client id => exact onRequest_handled w j k m id
  | logSocket => exact .refl w m
  | logShipper => exact .refl w m

/-- The signals that are read in a wake-up. -/
def heard (k : Wake) : List Nat := k.ready.flatMap (hears k)

/-- The sources of a wake-up are handled one after another. -/
theorem dispatched_handled (w : World) (j : Json) (k : Wake) (sources : List EventLoop.Source) (m : Main) :
    Handled w (sources.flatMap (hears k)) m (sources.foldl (dispatch w j k) m) := by
  induction sources generalizing m with
  | nil => exact .refl w m
  | cons source sources ih => exact (dispatch_handled w j k m source).trans (ih _)

/-- A wake-up hears its sources. -/
theorem serve_handled (w : World) (j : Json) (k : Wake) (m : Main) : Handled w (heard k) m (serve w j k m) := by
  unfold serve
  rw [EventLoop.wait_map_token]
  have h := ((dispatched_handled w j k k.ready m).trans (.supervise _ (e := .pump) (by simp))).trans
    (.supervise _ (e := .syncSockets) (by simp))
  rwa [List.append_nil, List.append_nil] at h

/-! ## A turn -/

theorem waitBound_handled (w : World) (m : Main) : Handled w [] m (m.waitBound w).2 := by
  have hturn : ∀ m : Main, Handled w [] m (m.supervise (·.turn w)) := fun m => .supervise m (e := .sleep) (by simp)
  have hbound : ∀ m : Main, Handled w [] m { m with supervisor := (m.supervisor.waitBound w).2 } := by
    intro m
    simp only [Supervisor.waitBound]
    split
    · exact .refl w m
    · exact hturn m
  obtain ⟨supervisor, control, environment, watchdog, outcome⟩ := m
  cases watchdog with
  | none => exact hbound _
  | some wd => exact (hturn ⟨supervisor, control, environment, some wd, outcome⟩).trans (hbound _)

theorem sleep_handled (w : World) (m : Main) : Handled w [] m (m.sleep w) :=
  (waitBound_handled w m).trans (.supervise _ (e := .sleep) (by simp))

/-- The machine that a wake-up leaves, before it is asked whether it has settled. -/
def awake (w : World) (j : Json) (k : Wake) (m : Main) : Main := feed w k (serve w j k (m.sleep w))

theorem feed_follows (w : World) (k : Wake) (m : Main) : Follows w [] m (feed w k m) := by
  unfold feed
  split
  · exact (Handled.refl w m).toFollows
  · exact { (Handled.supervise m (e := .sleep) (by simp)).toFollows with }

/-- A wake-up, and the watchdog's turn. -/
theorem awake_follows (w : World) (j : Json) (k : Wake) (m : Main) : Follows w (heard k) m (awake w j k m) := by
  have h := ((sleep_handled w m).trans (serve_handled w j k _)).toFollows.trans (feed_follows w k _)
  rwa [List.append_nil, List.nil_append] at h

/-- The machine once it has been asked. -/
def settle (w : World) (m : Main) : Main := { m with supervisor := (m.supervisor.settled w).2 }

theorem settle_follows (w : World) (m : Main) : Follows w [] m (m.settle w) := by
  have hturn : Handled w [] m (m.supervise (·.turn w)) := .supervise m (e := .sleep) (by simp)
  simp only [settle, Supervisor.settled]
  split
  · exact (Handled.refl w m).toFollows
  · split
    · exact (Handled.refl w m).toFollows
    · exact hturn.toFollows

/-- What becomes of a loop that has not ended. -/
inductive Turned (w : World) (j : Json) (k : Wake) (m : Main) : Main → Prop
  | failed (hk : k.waits = false) : Turned w j k m (m.sleep w).cannotContinue
  | again (hk : k.waits = true) (hs : ((awake w j k m).supervisor.settled w).1 = none) :
      Turned w j k m ((awake w j k m).settle w)
  | last {action : Action} (hk : k.waits = true) (hs : ((awake w j k m).supervisor.settled w).1 = some action) :
      Turned w j k m (finalize k ((awake w j k m).settle w) action)

/-- What a turn of the loop comes to. -/
theorem turn_turned (w : World) (j : Json) (k : Wake) (h : m.outcome = none) : Turned w j k m (turn w j k m) := by
  have hnone : m.outcome.isSome = false := by rw [h]; rfl
  simp only [turn, hnone, Bool.false_eq_true, ↓reduceIte]
  cases hk : k.waits with
  | false => exact .failed hk
  | true =>
    simp only [Bool.not_true, Bool.false_eq_true, ↓reduceIte]
    split
    · next supervisor hs =>
      have hs : (awake w j k m).supervisor.settled w = (none, supervisor) := hs
      have h := Turned.again (w := w) (j := j) (m := m) hk (congrArg Prod.fst hs)
      rwa [settle, hs] at h
    · next action supervisor hs =>
      have hs : (awake w j k m).supervisor.settled w = (some action, supervisor) := hs
      have h := Turned.last (w := w) (j := j) (m := m) hk (congrArg Prod.fst hs)
      rwa [settle, hs] at h

/-- The signals that a turn reads. -/
def reads (k : Wake) : List Nat := if k.waits then heard k else []

theorem Turned.follows (h : Turned w j k m m₁) : Follows w (reads k) m m₁ := by
  have hover : ∀ (m₁ : Main) (action : Action), (finalize k m₁ action).supervisor = m₁.supervisor ∧
      (finalize k m₁ action).environment = m₁.environment := by
    intro m₁ action
    unfold finalize
    repeat' split
    all_goals exact ⟨rfl, rfl⟩
  have hawake := (awake_follows w j k m).trans (settle_follows w (awake w j k m))
  rw [List.append_nil] at hawake
  unfold reads
  cases h with
  | failed hk =>
    rw [hk]
    exact { (sleep_handled w m).toFollows with }
  | again hk hs =>
    rw [hk]
    exact hawake
  | @last action hk hs =>
    obtain ⟨hs, he⟩ := hover ((awake w j k m).settle w) action
    rw [hk]
    exact ⟨hs ▸ hawake.events, he.trans hawake.environment, by rw [goal, hs]; exact hawake.goal⟩

/-- A loop that has ended does nothing more. -/
theorem turn_of_ended (h : m.outcome.isSome = true) : turn w j k m = m := by
  rw [turn, if_pos h]

/-! ## Runs -/

/-- The signals that the loop reads, for as long as it turns. -/
def signalsRead (w : World) (j : Json) : Main → List Wake → List Nat
  | _, [] => []
  | m, k :: ks => (if m.outcome.isSome then [] else reads k) ++ signalsRead w j (turn w j k m) ks

theorem turn_follows (w : World) (j : Json) (k : Wake) (m : Main) :
    Follows w (if m.outcome.isSome then [] else reads k) m (turn w j k m) := by
  cases ho : m.outcome with
  | none => exact (turn_turned w j k ho).follows
  | some outcome =>
    rw [turn_of_ended (by rw [ho]; rfl)]
    exact (Handled.refl w m).toFollows

/-- A run of the loop follows the signals it has read. -/
theorem run_follows (w : World) (j : Json) (m : Main) (ks : List Wake) :
    Follows w (signalsRead w j m ks) m (run w j m ks) := by
  induction ks generalizing m with
  | nil => exact (Handled.refl w m).toFollows
  | cons k ks ih => exact (turn_follows w j k m).trans (ih _)

variable {environment : Environment} {config : Option Watchdog.Config} {control hierarchy : Bool} {kernel : Kernel}

theorem boot_goal : (boot w environment config control hierarchy kernel).goal = none := by
  have h : ∀ e : Event, (∀ action, e ≠ .shutdown action) → ∀ s : Supervisor, s.shutdown = none →
      (Supervisor.step w s e).shutdown = none := fun e he s hs => (Supervisor.step_shutdown he).trans hs
  have hb : (Supervisor.boot w hierarchy kernel).shutdown = none :=
    (Supervisor.boot_deeds w (a := none) hierarchy kernel).acts.kept.shutdown.trans
      (Supervisor.queued_fresh w hierarchy kernel).shutdown
  rw [goal, boot, Option.map_eq_none_iff]
  exact h .sleep (by simp) _ (h .syncSockets (by simp) _ hb)

/-- How a machine goes down, a container ends, a user manager ends. -/
def ending : Environment → Action → Outcome
  | .machine, action => .down action
  | .container _, action => .exit action.status
  | .user _, _ => .exit 0

/-- No unit is up or on its way up or down, or none is waited for any longer. -/
def Over (m : Main) : Prop :=
  (∀ (n : Name) (i : Instance), m.supervisor.instances[n]? = some i → isIdle i.state = true) ∨
    ∃ sd, m.supervisor.shutdown = some sd ∧ sd.started + Shutdown.deadline < m.supervisor.kernel.now

/-- Why the loop has ended as it has. -/
inductive Ended (ks : List Wake) (m : Main) : Outcome → Prop
  | down {action : Action} (hg : m.goal = some action) (ho : m.Over) : Ended ks m (ending m.environment action)
  /-- The kernel refused. -/
  | refused {action : Action} (hg : m.goal = some action) (ho : m.Over) (hm : m.environment = .machine)
      (hk : ∃ k ∈ ks, k.reboots = false) : Ended ks m .fallback
  /-- The loop could not wait. -/
  | gaveUp (hk : ∃ k ∈ ks, k.waits = false) : Ended ks m (if m.environment.isUser then .exit 1 else .fallback)

/-- The loop settles when no unit is waited for. -/
theorem settled_over {s : Supervisor} {action : Action} (h : (Supervisor.settled w s).1 = some action) :
    s.shutdown.map (·.action) = some action ∧
      ((∀ (n : Name) (i : Instance), s.instances[n]? = some i → isIdle i.state = true) ∨
        ∃ sd, s.shutdown = some sd ∧ sd.started + Shutdown.deadline < (Supervisor.settled w s).2.kernel.now) := by
  simp only [Supervisor.settled] at h ⊢
  split at h
  · cases h
  · next sd hsd =>
    split at h
    · next hall =>
      refine ⟨by rw [hsd]; exact h, .inl fun n i hi => ?_⟩
      exact List.all_eq_true.mp hall (n, i) (Std.TreeMap.mem_toList_iff_getElem?_eq_some.mpr hi)
    · next hall =>
      simp only [hsd, hall, Bool.false_eq_true, ↓reduceIte]
      split at h
      · next hover =>
        refine ⟨h, .inr ⟨sd, rfl, ?_⟩⟩
        have := of_decide_eq_true hover
        omega
      · cases h

theorem settle_toManager (w : World) (m : Main) :
    (m.settle w).supervisor.toManager = m.supervisor.toManager := by
  simp only [settle, Supervisor.settled]
  split
  · rfl
  · split
    · rfl
    · exact Supervisor.turn_toManager w m.supervisor

theorem over_of_settled {action : Action} (h : (Supervisor.settled w m.supervisor).1 = some action) :
    (m.settle w).goal = some action ∧ (m.settle w).Over := by
  obtain ⟨hg, ho⟩ := settled_over h
  have hm := settle_toManager w m
  refine ⟨by rw [goal, hm]; exact hg, ?_⟩
  rcases ho with ho | ⟨sd, hsd, ho⟩
  · exact .inl fun n i hi => ho n i (hm ▸ hi)
  · exact .inr ⟨sd, hm ▸ hsd, ho⟩

/-- How the last turn ends. -/
theorem finalize_ended {ks : List Wake} {action : Action} {o : Outcome} (hg : m.goal = some action) (hover : m.Over)
    (hk : k ∈ ks) (h : (finalize k m action).outcome = some o) : Ended ks (finalize k m action) o := by
  obtain ⟨supervisor, control, environment, watchdog, outcome⟩ := m
  cases environment with
  | machine =>
    cases hr : k.reboots with
    | true =>
      simp only [finalize, hr, Environment.exits, ne_eq, not_true_eq_false, decide_false, Bool.false_eq_true,
        ↓reduceIte] at h ⊢
      cases h
      exact .down hg hover
    | false =>
      simp only [finalize, hr, Environment.exits, ne_eq, not_true_eq_false, decide_false, Bool.false_eq_true,
        ↓reduceIte] at h ⊢
      cases h
      exact .refused hg hover rfl ⟨k, hk, hr⟩
  | container runtime =>
    cases h
    exact .down hg hover
  | user name =>
    cases h
    exact .down hg hover

theorem awake_outcome (w : World) (j : Json) (k : Wake) (m : Main) : (awake w j k m).outcome = m.outcome := by
  rw [awake, feed]
  split <;> exact (serve_handled w j k _).outcome.trans (sleep_handled w m).outcome

theorem Turned.ended {ks : List Wake} {o : Outcome} (h : Turned w j k m m₁) (hm : m.outcome = none) (hk : k ∈ ks)
    (ho : m₁.outcome = some o) : Ended ks m₁ o := by
  have hnone := (awake_outcome w j k m).trans hm
  cases h with
  | failed hw =>
    cases ho
    exact .gaveUp ⟨k, hk, hw⟩
  | again hw hs => cases hnone.symm.trans ho
  | last hw hs =>
    obtain ⟨hg, hover⟩ := over_of_settled hs
    exact finalize_ended hg hover hk ho

/-- What the loop sees on `CLOCK_MONOTONIC`. -/
abbrev now (m : Main) : Nat := m.supervisor.kernel.now

/-- The loop stays among the reachable states. -/
theorem Follows.reachable {signals : List Nat} (h : Follows w signals m m₁) (hr : Supervisor.Reachable w m.supervisor) :
    Supervisor.Reachable w m₁.supervisor := by
  obtain ⟨events, he⟩ := h.events
  obtain ⟨hierarchy, kernel, before, hb⟩ := hr
  refine ⟨hierarchy, kernel, before ++ events, ?_⟩
  rw [he, hb, Supervisor.run, Supervisor.run, Supervisor.run, List.foldl_append]

/-- Its clock does not go back. -/
theorem Follows.now_le {signals : List Nat} (h : Follows w signals m m₁) (hr : Supervisor.Reachable w m.supervisor) :
    m.now ≤ m₁.now := by
  obtain ⟨events, he⟩ := h.events
  rw [now, now, he]
  exact (hr.after events).later.now

/-- A shutdown that has begun is never begun again. -/
theorem Follows.shutdown {signals : List Nat} {sd : Shutdown} (h : Follows w signals m m₁)
    (hr : Supervisor.Reachable w m.supervisor) (hs : m.supervisor.shutdown = some sd) :
    m₁.supervisor.shutdown = some sd := by
  obtain ⟨events, he⟩ := h.events
  rw [he, (hr.goingDown (by rw [Manager.shuttingDown, hs]; rfl) events).shutdown, hs]

/-- A loop that goes on has not waited past the deadline. -/
def InTime (m : Main) : Prop :=
  m.outcome = none → ∀ sd, m.supervisor.shutdown = some sd → m.now ≤ sd.started + Shutdown.deadline

/-- A loop that goes on is in time. -/
theorem settle_inTime (h : (m.supervisor.settled w).1 = none) : (m.settle w).InTime := by
  intro _ sd hsd
  rw [settle_toManager] at hsd
  simp only [settle, Supervisor.settled, hsd] at h ⊢
  split at h
  · cases h
  · next hall =>
    rw [if_neg hall]
    split at h
    · cases h
    · next hover =>
      rw [Shutdown.overdue, decide_eq_true_eq] at hover
      show (m.supervisor.turn w).kernel.now ≤ _
      omega

theorem turn_inTime (h : m.InTime) : (turn w j k m).InTime := by
  cases ho : m.outcome with
  | none =>
    have ht := turn_turned w j k ho
    generalize turn w j k m = m₁ at ht
    cases ht with
    | failed => exact fun h => nomatch h
    | again _ hs => exact settle_inTime hs
    | last =>
      intro h
      unfold finalize at h
      repeat' split at h
      all_goals cases h
  | some o =>
    rw [turn_of_ended (by rw [ho]; rfl)]
    exact h

theorem exists_min?_le {l : List Nat} {a : Nat} (h : a ∈ l) : ∃ b, l.min? = some b ∧ b ≤ a := by
  obtain ⟨b, hb⟩ := Option.ne_none_iff_exists'.mp (mt List.min?_eq_none_iff.mp (List.ne_nil_of_mem h))
  exact ⟨b, hb, (List.min?_eq_some_iff.mp hb).2 a h⟩

/-- The loop does not sleep past the deadline of a shutdown. -/
theorem waitBound_le {sd : Shutdown} (h : m.supervisor.shutdown = some sd) : ∃ b, (m.waitBound w).1 = some b ∧
    b ≤ sd.remaining (m.waitBound w).2.now := by
  obtain ⟨supervisor, control, environment, watchdog, outcome⟩ := m
  cases watchdog with
  | none =>
    simp only [waitBound, Supervisor.waitBound_eq (w := w) h]
    exact exists_min?_le (by simp)
  | some wd =>
    have h' : (supervisor.turn w).shutdown = some sd := by
      rw [Supervisor.turn_toManager]
      exact h
    simp only [waitBound, Supervisor.waitBound_eq (w := w) h']
    exact exists_min?_le (by simp)

/-- Whatever is going on, a machine that is going down is down in time: no turn
begins later than the deadline, none is to sleep past it, and one that finds
it passed is the last. -/
theorem goes_down_in_time (w : World) (j : Json) (environment : Environment) (config : Option Watchdog.Config)
    (control hierarchy : Bool) (kernel : Kernel) (ks : List Wake) (sd : Shutdown) :
    let m := run w j (boot w environment config control hierarchy kernel) ks
    m.outcome = none → m.supervisor.shutdown = some sd →
      m.now ≤ sd.started + Shutdown.deadline ∧
      (∃ b, (m.waitBound w).1 = some b ∧ (m.waitBound w).2.now + b ≤
        max (m.waitBound w).2.now (sd.started + Shutdown.deadline) + Duration.fromMillis 10) ∧
      ∀ k, k.waits = true → sd.started + Shutdown.deadline < (m.sleep w).now →
        (turn w j k m).outcome.isSome = true := by
  intro m ho hs
  have hr : Supervisor.Reachable w m.supervisor := by
    obtain ⟨events, he⟩ := (run_follows w j (boot w environment config control hierarchy kernel) ks).events
    exact ⟨hierarchy, kernel, .syncSockets :: .sleep :: events, by rw [he]; rfl⟩
  have htime : m.InTime := by
    refine List.foldlRecOn (motive := InTime) ks _ (fun _ sd h => ?_) fun m h k _ => turn_inTime h
    have hg : (boot w environment config control hierarchy kernel).goal = none := boot_goal
    rw [goal, h] at hg
    cases hg
  refine ⟨htime ho sd hs, ?_, fun k hk hlate => ?_⟩
  · obtain ⟨b, hb, hle⟩ := waitBound_le (w := w) hs
    refine ⟨b, hb, ?_⟩
    simp only [Shutdown.remaining] at hle
    have hstart : sd.started ≤ (m.waitBound w).2.now :=
      (hr.goesDown.started sd hs).trans ((waitBound_handled w m).toFollows.now_le hr)
    omega
  · have ht := turn_turned w j k ho
    generalize turn w j k m = m₁ at ht
    cases ht with
    | failed hw => cases hk.symm.trans hw
    | again _ hn =>
      have hsleep := (sleep_handled w m).toFollows
      have hwake := (serve_handled w j k (m.sleep w)).toFollows.trans (feed_follows w k _)
      have hsettled := Supervisor.settled_overdue (w := w) (hwake.shutdown (hsleep.reachable hr) (hsleep.shutdown hr hs))
        (hlate.trans_le (hwake.now_le (hsleep.reachable hr)))
      cases hsettled.symm.trans hn
    | last =>
      unfold finalize
      repeat' split
      all_goals rfl

/-- `SIGTERM`, and nothing else. -/
def terminated : Wake := { ready := [.signals], signals := some [sigterm] }

theorem goes_down_in_time_sample :
    let m := run calm plainJson (boot calm .machine none true true
      (holding [bootTarget ["a"], serviceUnit "a" {} .simple .no]))
      [terminated]
    ∃ b, (m.waitBound calm).1 = some b ∧ (m.waitBound calm).2.now + b ≤
      max (m.waitBound calm).2.now Shutdown.deadline + Duration.fromMillis 10 := by
  have h := goes_down_in_time calm plainJson .machine none true true
    (holding [bootTarget ["a"], serviceUnit "a" {} .simple .no]) [terminated] ⟨.powerOff, 0⟩ (by decide +kernel)
    (by decide +kernel)
  rw [Nat.zero_add] at h
  exact h.2.1

end Main

end Oxinit
