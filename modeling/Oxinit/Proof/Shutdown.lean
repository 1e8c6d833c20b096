import Oxinit.Proof.Reachable

/-!
# Going down

Once a shutdown has begun every unit is `Inactive`, `Failed` or
`Deactivating`, nothing is started, and the units that are not idle only
become fewer. `Downward m m'` says so of one change; every effect on a
machine that is going down is one.
-/

namespace Oxinit

open Relation (ReflTransGen)

/-- Every unit of `m'` is idle, or is `Deactivating` as it was in `m`. -/
def Downward (m m' : Manager) : Prop :=
  ∀ (v : Name) (i : Instance), m'.instances[v]? = some i →
    isIdle i.state = true ∨ i.state = .deactivating ∧ m.stateOf v = some .deactivating

/-- Every unit is idle or `Deactivating`. -/
def Manager.Down (m : Manager) : Prop :=
  ∀ (v : Name) (i : Instance), m.instances[v]? = some i → isIdle i.state = true ∨ i.state = .deactivating

theorem Manager.stateOf_of_get {m : Manager} {v : Name} {i : Instance} (h : m.instances[v]? = some i) :
    m.stateOf v = some i.state := by
  rw [stateOf, h, Option.map_some]

namespace Downward

variable {m m₁ m₂ : Manager} {name : Name} {f : Instance → Instance}

theorem refl (h : m.Down) : Downward m m := fun v i hi =>
  (h v i hi).imp_right fun hs => ⟨hs, by rw [Manager.stateOf_of_get hi, hs]⟩

/-- Down, and further down. -/
theorem trans (h₁ : Downward m m₁) (h₂ : Downward m₁ m₂) : Downward m m₂ := by
  intro v i hi
  rcases h₂ v i hi with h | ⟨hs, h⟩
  · exact .inl h
  · simp only [Manager.stateOf, Option.map_eq_some_iff] at h
    obtain ⟨i₁, hi₁, hs₁⟩ := h
    rcases h₁ v i₁ hi₁ with h | h
    · simp [isIdle, hs₁] at h
    · exact .inr ⟨hs, h.2⟩

theorem down (h : Downward m m₁) : m₁.Down := fun v i hi => (h v i hi).imp_right And.left

theorem of_instances (h : m.Down) (e : m₁.instances = m.instances) : Downward m m₁ := by
  intro v i hi
  rw [e] at hi
  exact refl h v i hi

/-- An instance that goes down. -/
theorem modify (h : m.Down) (hf : ∀ i, m.instances[name]? = some i →
    isIdle (f i).state = true ∨ (f i).state = .deactivating ∧ i.state = .deactivating) :
    Downward m (m.modify name f) := by
  intro v i hi
  rw [Manager.get_modify] at hi
  split at hi
  · rename_i e
    subst e
    simp only [Option.map_eq_some_iff] at hi
    obtain ⟨i₀, hi₀, rfl⟩ := hi
    exact (hf i₀ hi₀).imp_right fun h => ⟨h.1, by rw [Manager.stateOf_of_get hi₀, h.2]⟩
  · exact refl h v i hi

theorem busy (h : Downward m m₁) {u : Name} (hb : m₁.busy u = true) : m.busy u = true := by
  simp only [Manager.busy, Option.any_eq_true] at hb ⊢
  obtain ⟨i, hi, hb⟩ := hb
  rcases h u i hi with h | ⟨-, h⟩
  · simp [h] at hb
  · simp only [Manager.stateOf, Option.map_eq_some_iff] at h
    obtain ⟨i₀, hi₀, hs⟩ := h
    exact ⟨i₀, hi₀, by simp [hs, isIdle]⟩

end Downward

/-! ## Effects -/

/-- A machine that is going down keeps nothing in backoff. -/
theorem Restarts.downward {now : Nat} {name : Name} {m m' : Manager} {f : Instance → Instance} {r : Option Nat}
    {i : Instance} (hi : m.instances[name]? = some i) (hd : m.shuttingDown = true) (hm : m.Down)
    (h : Restarts now name (m.modify name f) r m')
    (hn : r = none → isIdle (f i).state = true ∨ (f i).state = .deactivating ∧ i.state = .deactivating)
    (hs : r ≠ none → (f i).state = .restarting) : Downward m m' := by
  cases h with
  | no =>
    refine .modify hm fun i' hi' => ?_
    rw [hi] at hi'
    cases hi'
    exact hn rfl
  | scheduled h => exact absurd (h.symm.trans hd) (by decide)
  | cancelled =>
    intro v i' hi'
    rw [Manager.get_modify] at hi'
    split at hi'
    · rename_i e
      subst e
      rw [Manager.get_modify_self hi, Option.map_some] at hi'
      cases hi'
      simp [Instance.cancelRestart, hs (by simp), isIdle]
    · rename_i e
      rw [Manager.get_modify_ne e] at hi'
      exact Downward.refl hm v i' hi'

/-- Every effect on a machine that is going down takes it further down. -/
theorem Effect.downward {now : Nat} {c : Option Call} {m m' : Manager} (hd : m.shuttingDown = true) (hm : m.Down)
    (h : Effect now c m m') : Downward m m' := by
  have hno : ∀ {v : Name} {i : Instance}, m.instances[v]? = some i → i.state ≠ .activating ∧ i.state ≠ .active ∧
      i.state ≠ .restarting := fun {v i} hi => by
    rcases hm v i hi with h | h
    · cases hs : i.state <;> simp_all [isIdle]
    · simp [h]
  have habs : m.shuttingDown ≠ false := by simp [hd]
  cases h with
  | turn | mark => exact .refl hm
  | armed | fd | wallFd | clear | pump | stop | awaitRestart | takeRestart | reaping | watched =>
    exact .of_instances hm rfl
  | cancel hi hs => exact absurd hs (hno hi).2.2
  | instant hi hsv =>
    refine .modify hm fun i hi' => .inl ?_
    rw [hi] at hi'
    cases hi'
    exact Instance.deactivated_idle _ hsv
  | terminate hi _ hs => exact (hs.elim (hno hi).1 (hno hi).2.1).elim
  | kill hi hs => exact .modify hm fun i hi' => .inr (by rw [hi] at hi'; cases hi'; exact ⟨hs, hs⟩)
  | up _ h | arm _ h | elapsed _ h | spawnSimple _ h | spawn _ h => exact absurd h habs
  | fail => exact .modify hm fun i _ => .inl rfl
  | finished hi hs _ h =>
    exact h.downward hi hd hm (fun e => .inl (Instance.deactivated_idle_of_none e)) Instance.deactivated_restarting
  | exited hi hc hf ht h =>
    rename_i name exit i pid t
    by_cases hs : i.state = .deactivating
    · refine h.downward hi hd hm (fun e => .inr ?_) fun e => ?_
      · rw [Instance.onExit_deactivating _ _ hs]
        exact ⟨hs, hs⟩
      · exact absurd (by rw [Instance.onExit_deactivating _ _ hs]) e
    · exact h.downward hi hd hm (fun e => .inl (Instance.onExit_idle hs e)) (Instance.onExit_restarting hs)
  | vanished hi hs | vanishedRestart hi hs => exact absurd hs (hno hi).2.1
  | forkedAway hi _ _ hs => exact absurd hs (hno hi).1
  | ready hi hs | readyWatched hi hs => exact absurd hs (hno hi).1
  | said | pinged =>
    exact .modify hm fun i hi => (hm _ i hi).imp_right fun h => ⟨h, h⟩

/-- No process is forked by a machine that is going down. -/
theorem Effect.running {now : Nat} {u : Name} {m m' : Manager} (h : Effect now (some (.spawn u)) m m') :
    m.shuttingDown = false := by
  cases h with
  | mark h => cases h
  | spawnSimple _ hd => exact hd
  | spawn _ hd => exact hd

/-! ## Runs of a machine that is going down -/

/-- What the states of one shutdown have in common with its first one. -/
structure GoingDown (s₀ s : Supervisor) : Prop where
  shutdown : s.shutdown = s₀.shutdown
  downward : Downward s₀.toManager s.toManager
  log : ∃ new, s.history = new ++ s₀.history ∧ ∀ e ∈ new, ∀ u, e.1 ≠ .spawn u

namespace GoingDown

variable {w : World} {s₀ s s' : Supervisor}

theorem refl (h : s₀.Down) : GoingDown s₀ s₀ := ⟨rfl, .refl h, [], rfl, by simp⟩

theorem shuttingDown (h : GoingDown s₀ s) (hd : s₀.shuttingDown = true) : s.shuttingDown = true := by
  rw [Manager.shuttingDown, h.shutdown]
  exact hd

theorem update {f : Manager → Manager} (h : GoingDown s₀ s) (hs : (f s.toManager).shutdown = s.shutdown)
    (hi : Downward s.toManager (f s.toManager)) : GoingDown s₀ (s.update f) :=
  ⟨hs.trans h.shutdown, h.downward.trans hi, h.log⟩

theorem act (hd : s₀.shuttingDown = true) (h : GoingDown s₀ s) (ha : Act s s') : GoingDown s₀ s' := by
  obtain ⟨c, ha⟩ := ha
  obtain ⟨new, hn, hnew⟩ := ha.entries
  have he := ha.effect
  obtain ⟨past, hp, hpast⟩ := h.log
  refine ⟨he.kept.shutdown.trans h.shutdown, h.downward.trans (he.downward (h.shuttingDown hd) h.downward.down),
    new ++ past, by rw [hn, hp, List.append_assoc], fun e hm u hu => ?_⟩
  rcases List.mem_append.mp hm with hm | hm
  · rcases hnew e hm with hw | ⟨rfl, -⟩
    · simp [hu, Call.isWorld] at hw
    · rw [hu] at he
      exact absurd (he.running.symm.trans (h.shuttingDown hd)) (by decide)
  · exact hpast e hm u hu

theorem acts (hd : s₀.shuttingDown = true) (h : GoingDown s₀ s) (ha : Acts s s') : GoingDown s₀ s' :=
  Framework.invariant (fun h a => act hd h a) ha h

theorem tour {r : Bool} (hd : s₀.shuttingDown = true) (h : GoingDown s₀ s) (ht : Tour w r s s') :
    GoingDown s₀ s' := by
  have hD := h.downward.down
  cases ht with
  | deed hdeed => exact h.acts hd hdeed.acts
  | expire | expireWall | lose | addHandle => exact h.update rfl (.of_instances hD rfl)
  | @alarm e rest hf =>
    exact (h.update (f := (·.setFired rest)) rfl (.of_instances hD rfl)).acts hd (Supervisor.onAlarm_deeds w _ _).acts
  | shutdown hd' => exact absurd (hd'.symm.trans (h.shuttingDown hd)) (by decide)
  | insert =>
    refine h.update rfl fun v i hi => ?_
    rw [Manager.get_insertUnit] at hi
    split at hi
    · cases hi
      exact .inl rfl
    · exact Downward.refl hD v i hi
  | keep => exact h.update rfl fun v i hi => Downward.refl hD v i (Manager.get_of_keep hi)

end GoingDown

/-! ## The beginning -/

theorem Manager.mem_stopOrder {m : Manager} {v : Name} {i : Instance} (h : m.instances[v]? = some i) :
    v ∈ m.stopOrder := by
  have key : ∀ (l acc : List Name), v ∈ acc ∨ v ∈ l →
      v ∈ l.foldl (fun names name => if names.contains name then names else names ++ [name]) acc := by
    intro l
    induction l with
    | nil => exact fun acc h => h.resolve_right (by simp)
    | cons a l ih =>
      intro acc h
      refine ih _ ?_
      dsimp only
      rcases h with h | h
      · left
        split
        · exact h
        · exact List.mem_append_left _ h
      · rcases List.mem_cons.mp h with rfl | h
        · left
          split
          · simpa using ‹acc.contains v = true›
          · simp
        · exact .inr h
  refine key _ _ (.inr ?_)
  rw [Std.TreeMap.mem_keys, Std.TreeMap.mem_iff_isSome_getElem?, h]
  rfl

namespace Supervisor

/-- A stop leaves a unit idle, or stopping. -/
theorem StopOutcome.down {cause : StopCause} {i i' : Instance} (h : StopOutcome cause i i') :
    isIdle i'.state = true ∨ i'.state = .deactivating := by
  cases h with
  | cancelled hs => exact .inl (by rw [Instance.cancelRestart_state hs]; rfl)
  | instant t _ hsv => exact .inl (Instance.deactivated_idle t hsv)
  | already _ hs =>
    rcases hs with hs | hs | hs
    · exact .inl (by rw [hs]; rfl)
    · exact .inl (by rw [hs]; rfl)
    · exact .inr hs
  | terminated => exact .inr rfl

/-- A unit that was asked to stop is idle or stopping. -/
theorem stop_down {w : World} {name : Name} {cause : StopCause} {s : Supervisor} {i : Instance}
    (hi : (stop w name cause s).instances[name]? = some i) : isIdle i.state = true ∨ i.state = .deactivating := by
  cases hs : s.instances[name]? with
  | none =>
    have : (stop w name cause s).instances[name]? = none := by
      simp only [stop]
      rw [show ((s.note (.stop name cause)).update (·.dequeue name)).instances[name]? = none from hs]
      exact hs
    rw [this] at hi
    cases hi
  | some i₀ =>
    obtain ⟨i', hi', ho⟩ := stop_get_self (w := w) (c := cause) hs
    rw [hi'] at hi
    cases hi
    exact ho.down

/-- Stopping every unit of a list leaves each of them down. -/
theorem stops_down (w : World) (names : List Name) (s : Supervisor) (v : Name) {i : Instance}
    (h : v ∈ names ∨ ∀ i, s.instances[v]? = some i → isIdle i.state = true ∨ i.state = .deactivating)
    (hi : (names.foldl (fun s name => stop w name .requested s) s).instances[v]? = some i) :
    isIdle i.state = true ∨ i.state = .deactivating := by
  induction names generalizing s with
  | nil => exact (h.resolve_left (by simp)) i hi
  | cons a names ih =>
    refine ih (stop w a .requested s) ?_ hi
    by_cases e : a = v
    · subst e
      exact .inr fun i hi => stop_down hi
    · rcases h with h | h
      · exact .inl ((List.mem_cons.mp h).resolve_left fun h => e h.symm)
      · exact .inr fun i hi => h i (by rwa [stop_get_ne e] at hi)

/-- Once a shutdown has begun every unit is idle, or stopping. -/
theorem beginShutdown_down (w : World) (action : Action) {s : Supervisor} (hd : s.shuttingDown = false) :
    (beginShutdown w action s).Down := by
  intro v i hi
  simp only [beginShutdown] at hi
  rw [if_neg (by rw [note_toMachine, hd]; decide)] at hi
  refine stops_down w _ _ v (or_iff_not_imp_right.mpr fun h => ?_) hi
  simp only [not_forall] at h
  obtain ⟨i₀, h₀, -⟩ := h
  exact Manager.mem_stopOrder h₀

theorem beginShutdown_started (w : World) (action : Action) {s : Supervisor} (hd : s.shuttingDown = false) :
    ∃ t, (beginShutdown w action s).shutdown = some { action, started := t } ∧
      t ≤ (beginShutdown w action s).kernel.now := by
  obtain ⟨s₁, -, -, h₂⟩ := beginShutdown_acts w action hd
  exact ⟨s₁.kernel.now, h₂.kept.shutdown, h₂.time⟩

/-- A machine that is going down has no unit up or on the way up, and its
shutdown began in the past. -/
structure GoesDown (s : Supervisor) : Prop where
  down : s.shuttingDown = true → s.Down
  started : ∀ sh, s.shutdown = some sh → sh.started ≤ s.kernel.now

theorem GoesDown.queued (w : World) (hierarchy : Bool) (kernel : Kernel) :
    GoesDown (queued w hierarchy kernel) := by
  have hf := (queued_fresh w hierarchy kernel).shutdown
  exact ⟨by simp [Manager.shuttingDown, hf], by simp [hf]⟩

theorem GoesDown.tour {w : World} {r : Bool} {s s' : Supervisor} (h : GoesDown s) (ht : Tour w r s s') :
    GoesDown s' := by
  rcases ht.shutdown_eq with e | ⟨hd, action, rfl⟩
  · refine ⟨fun hd => ?_, fun sh he => (h.started sh (e ▸ he)).trans ht.time⟩
    have hd' : s.shuttingDown = true := by rwa [Manager.shuttingDown, ← e]
    exact ((GoingDown.refl (h.down hd')).tour hd' ht).downward.down
  · obtain ⟨t, he, hle⟩ := beginShutdown_started w action hd
    exact ⟨fun _ => beginShutdown_down w action hd, fun sh hsh => by rw [he] at hsh; cases hsh; exact hle⟩

/-- A machine that goes down is down, in every reachable state. -/
theorem Reachable.goesDown {w : World} {s : Supervisor} (h : Reachable w s) : GoesDown s :=
  h.invariant (GoesDown.queued w) fun hI ht => hI.tour ht

theorem Reachable.goingDown {w : World} {s : Supervisor} (h : Reachable w s) (hd : s.shuttingDown = true)
    (events : List Event) : GoingDown s (run w s events) :=
  Framework.invariant (fun h ht => h.tour hd ht) (h.after events) (.refl (h.goesDown.down hd))

/-! ## The end -/

/-- Asked once the deadline has passed, `settled` gives the action. -/
theorem settled_overdue {w : World} {s : Supervisor} {sh : Shutdown} (h : s.shutdown = some sh)
    (ho : sh.started + Shutdown.deadline < s.kernel.now) : (settled w s).1 = some sh.action := by
  have hn := turn_now w s
  simp only [settled, h]
  split
  · rfl
  · rw [if_pos (by simp only [Shutdown.overdue, decide_eq_true_eq]; omega)]

/-- The loop of a machine that is going down, woken after `wait_bound`, has
reached the deadline. -/
theorem settled_after_sleep {w : World} {s : Supervisor} {sh : Shutdown} (h : s.shutdown = some sh)
    (hs : sh.started ≤ s.kernel.now) {d : Nat} (hd : (waitBound w s).1 = some d)
    (hsleep : (waitBound w s).2.kernel.now + d ≤ ((waitBound w s).2.turn w).kernel.now) :
    (settled w (syncSockets w (pump w ((waitBound w s).2.turn w)))).1 = some sh.action := by
  simp only [waitBound, h] at hd hsleep ⊢
  cases hd
  have hwake : Acts ((s.turn w).turn w) (syncSockets w (pump w ((s.turn w).turn w))) :=
    (pump_deeds (a := none) w ((s.turn w).turn w)).acts.trans (syncSockets_routines w _).chores.acts
  refine settled_overdue (hwake.kept.shutdown.trans (by simp [h])) ?_
  have h₁ := turn_now w s
  have h₂ := hwake.time
  simp only [Shutdown.remaining, Shutdown.deadline, Duration.fromSecs, Duration.fromMillis] at hsleep ⊢
  omega

/-- What a shutdown promises of a later state `s'`: no process has been
forked since, no unit is up or coming up, the units that are not idle have
only become fewer, and the action is the one first asked for, which `settled`
gives at the latest once the loop has slept `wait_bound` again. -/
structure OnlyGoesDown (w : World) (s s' : Supervisor) : Prop where
  log : ∃ new, s'.history = new ++ s.history ∧ ∀ e ∈ new, ∀ u, e.1 ≠ .spawn u
  state : ∀ (u : Name) (i : Instance), s'.instances[u]? = some i →
    i.state ≠ .activating ∧ i.state ≠ .active ∧ i.state ≠ .restarting
  busy : ∀ u, s'.busy u = true → s.busy u = true
  settles : ∃ action d, s.shutdown.map (·.action) = some action ∧ s'.shutdown.map (·.action) = some action ∧
    (waitBound w s').1 = some d ∧
    ((waitBound w s').2.kernel.now + d ≤ ((waitBound w s').2.turn w).kernel.now →
      (settled w (syncSockets w (pump w ((waitBound w s').2.turn w)))).1 = some action)

/-- Shutdown only goes down, and it always ends: from any state of a machine
that is going down, whatever happens next. -/
theorem shutdown_only_goes_down {w : World} {s : Supervisor} (hr : Reachable w s) (hd : s.shuttingDown = true)
    (events : List Event) : OnlyGoesDown w s (run w s events) := by
  have hg := hr.goingDown hd events
  obtain ⟨sh, hsh⟩ := Option.isSome_iff_exists.mp hd
  have hstart : sh.started ≤ (run w s events).kernel.now :=
    Framework.invariant (I := fun s' => sh.started ≤ s'.kernel.now) (fun h ht => h.trans ht.time) (hr.after events)
      (hr.goesDown.started sh hsh)
  have hsh' : (run w s events).shutdown = some sh := hg.shutdown.trans hsh
  refine ⟨hg.log, fun u i hi => ?_, fun u => hg.downward.busy, sh.action,
    sh.remaining ((run w s events).turn w).kernel.now, by rw [hsh]; rfl, by rw [hsh']; rfl,
    by simp only [waitBound, hsh'], settled_after_sleep hsh' hstart (by simp only [waitBound, hsh'])⟩
  rcases hg.downward.down u i hi with h | h
  · refine ⟨?_, ?_, ?_⟩ <;> intro hs <;> simp [hs, isIdle] at h
  · simp [h]

theorem shutdown_only_goes_down_sample :
    OnlyGoesDown calm (run calm (booted calm [bootTarget ["a"], serviceUnit "a" {} .simple .always]) [.shutdown .halt])
      (run calm (run calm (booted calm [bootTarget ["a"], serviceUnit "a" {} .simple .always]) [.shutdown .halt])
        [.request (.start "a"), .sigchld, .cgroup 0, .pump]) :=
  shutdown_only_goes_down (run_reachable _ _ _) (by decide +kernel) _

end Supervisor

end Oxinit
