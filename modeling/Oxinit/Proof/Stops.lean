import Oxinit.Proof.Rest

/-!
# Explicit stops

`Quiet u`: `u` is idle, or its stop will end without a restart. Nothing but a
start of `u` ends this, and there is a reason to start a quiet unit only when
something has asked for it since (`asksFor`).
-/

namespace Oxinit

open Relation (ReflTransGen)

/-- The stop in progress ends in a restart. -/
def Instance.comesBack (i : Instance) : Bool := i.stopCause = some .watchdog && shouldRestart i.policy .abnormal

/-- A stop that was asked for is followed by no restart. -/
theorem Instance.deactivated_none {i : Instance} (h : i.comesBack = false) (now : Nat) :
    (i.deactivated now).1 = none := by
  simp only [comesBack, Bool.and_eq_false_iff, decide_eq_false_iff_not] at h
  simp only [deactivated]
  split
  · rename_i hw
    have hp : shouldRestart i.policy .abnormal = false := h.resolve_left fun h => h hw
    rw [scheduleRestart, if_pos]
    rw [Instance.policy] at hp ⊢
    simpa using hp
  all_goals rfl

/-- The stop of `u` that a request would join or begin is not to be followed
by a start: a stop under way does not end in a restart, and none is awaited. -/
def Manager.stopsForGood (m : Manager) (u : Name) : Bool :=
  m.instances[u]?.all fun i => (i.state ≠ .deactivating || !i.comesBack) && (u ∉ m.pendingRestart || i.state.down)

/-- `u` is idle, or stops without a restart to come. -/
structure Quiet (u : Name) (m : Manager) : Prop where
  queue : u ∉ m.pending
  inst : ∀ i, m.instances[u]? = some i →
    isIdle i.state = true ∨ i.state = .deactivating ∧ i.comesBack = false ∧ u ∉ m.pendingRestart

/-- What a call asks to be started: by a request, a connection, or a timer. -/
def asksFor (u : Name) (e : Call × Machine) : Bool :=
  match e.1 with
  | .request (.start v) | .request (.restart v) | .connection v => v = u
  | .elapsed t => (e.2.timerOf t).any fun timer => timer.service = u
  | _ => false

/-- `u` is started, or a process of it is forked. -/
def Call.starts (u : Name) : Call → Bool
  | .start v | .spawn v => v = u
  | _ => false

/-- Nothing in `l` asks for `u`. -/
def Unasked (u : Name) (l : List (Call × Machine)) : Prop := ∀ e ∈ l, asksFor u e = false

/-- Nowhere in `l` is `u` started. -/
def NeverStarted (u : Name) (l : List (Call × Machine)) : Prop := ∀ e ∈ l, e.1.starts u = false

instance (u : Name) (l : List (Call × Machine)) : Decidable (Unasked u l) :=
  inferInstanceAs (Decidable (∀ e ∈ l, asksFor u e = false))

instance (u : Name) (l : List (Call × Machine)) : Decidable (NeverStarted u l) :=
  inferInstanceAs (Decidable (∀ e ∈ l, e.1.starts u = false))

theorem Call.begins_of_starts {u : Name} {c : Call} (h : c.starts u = true) : Call.begins (some c) = some u := by
  cases c with
  | start v => rw [of_decide_eq_true h]; rfl
  | spawn v => rw [of_decide_eq_true h]; rfl
  | _ => cases h

/-! ## Effects -/

/-- Only a restart request has a unit started again after its stop. -/
theorem Effect.pendingRestart {now : Nat} {c : Option Call} {m m' : Manager} {u : Name} (h : Effect now c m m')
    (hc : c ≠ some (.await u)) (hu : u ∈ m'.pendingRestart) : u ∈ m.pendingRestart := by
  cases h with
  | awaitRestart => exact (Finset.mem_insert.mp hu).resolve_left fun e => hc (by rw [e])
  | takeRestart => exact Finset.mem_of_mem_erase hu
  | arm _ _ _ _ _ h => rwa [h.frame.2.2] at hu
  | elapsed _ _ h => rwa [h.frame.2.2] at hu
  | finished _ _ _ h => rwa [h.pendingRestart] at hu
  | exited _ _ _ _ h => rwa [h.pendingRestart] at hu
  | _ => exact hu

theorem Call.ne_await {c : Option Call} {u : Name} (h : Call.begins c ≠ some u) : c ≠ some (.await u) :=
  fun e => h (by rw [e]; rfl)

theorem Chores.pendingRestart {s s' : Supervisor} {u : Name} (h : Chores s s') (hu : u ∈ s'.pendingRestart) :
    u ∈ s.pendingRestart :=
  Framework.invariant (I := fun s' => u ∈ s'.pendingRestart → u ∈ s.pendingRestart)
    (fun h ⟨_, ha, hc⟩ hu => h (ha.effect.pendingRestart (Call.ne_await (by simp [Call.begins_of_isChore hc])) hu)) h id hu

/-- A unit that nobody asks for stays down, or goes on stopping. -/
theorem Change.quiet {now : Nat} {v : Name} {c : Option Call} {i i' : Instance} (h : Change now v c i i')
    (hc : Call.begins c ≠ some v) (hs : i.state = .deactivating) (hb : i.comesBack = false) :
    isIdle i'.state = true ∨ i'.state = .deactivating ∧ i'.comesBack = false := by
  have hne : ∀ {s}, i.state = s → s = .deactivating := fun h => h.symm.trans hs
  cases h with
  | instant hsv => exact .inl (Instance.instant_idle _ _ hsv)
  | kill | said | pinged => exact .inr ⟨hs, hb⟩
  | fail => exact .inl rfl
  | finished => exact .inl (Instance.deactivated_idle_of_none (Instance.deactivated_none hb _))
  | finishedDown _ hr => exact absurd (Instance.deactivated_none hb _) hr
  | exited =>
    rw [Instance.onExit_deactivating _ _ hs]
    exact .inr ⟨hs, hb⟩
  | exitedDown _ _ hr => exact absurd (by rw [Instance.onExit_deactivating _ _ hs]) hr
  | up | arm | spawnSimple | spawn => exact absurd rfl hc
  | terminate _ hs => rcases hs with hs | hs <;> cases hne hs
  | cancel hs | vanished hs | forkedAway _ _ hs | ready hs => cases hne hs

theorem Effect.quiet {now : Nat} {c : Option Call} {m m' : Manager} {u : Name} (h : Effect now c m m')
    (hc : Call.begins c ≠ some u) (hm : m.Units fun _ => Instance.Childless) (hq : Quiet u m) : Quiet u m' := by
  refine ⟨fun hu => hq.queue (h.kept.pending.subset hu), fun i' hi' => ?_⟩
  rcases h.change u with e | ⟨i, j, hi, hj, hch⟩
  · rw [e] at hi'
    exact (hq.inst i' hi').imp_right fun ⟨hs, hb, hp⟩ => ⟨hs, hb, fun hu => hp (h.pendingRestart (Call.ne_await hc) hu)⟩
  · rw [hj] at hi'
    cases hi'
    rcases hq.inst i hi with hid | ⟨hs, hb, hp⟩
    · exact .inl ((hch.stays_down hc (hm u i hi) (State.down_of_idle hid)).2 hid)
    · exact (hch.quiet hc hs hb).imp_right fun ⟨hs, hb⟩ => ⟨hs, hb, fun hu => hp (h.pendingRestart (Call.ne_await hc) hu)⟩

/-! ## Runs -/

/-- From `s` to `s'` the unit `u` has been left alone. -/
structure LeftAlone (u : Name) (s s' : Supervisor) : Prop where
  log : ∃ new, s'.history = new ++ s.history ∧ NeverStarted u new
  quiet : Quiet u s'.toManager
  childless : s'.Units fun _ => Instance.Childless

namespace LeftAlone

variable {u : Name} {s s₁ s₂ : Supervisor}

theorem acted {c : Option Call} (h : LeftAlone u s s₁) (ha : Acted c s₁ s₂) (hc : Call.begins c ≠ some u) :
    LeftAlone u s s₂ := by
  obtain ⟨past, hp, hpast⟩ := h.log
  obtain ⟨new, hn, hnew⟩ := ha.entries
  refine ⟨⟨new ++ past, by rw [hn, hp, List.append_assoc], fun e he => ?_⟩,
    ha.effect.quiet hc h.childless h.quiet, ha.effect.units Change.childless h.childless⟩
  rcases List.mem_append.mp he with he | he
  · rcases hnew e he with hw | ⟨rfl, -⟩
    · cases hx : e.1 <;> first | rfl | simp [hx, Call.isWorld] at hw
    · exact eq_false_of_ne_true fun hs => hc (Call.begins_of_starts hs)
  · exact hpast e he

theorem chores (h : LeftAlone u s s₁) (hc : Chores s₁ s₂) : LeftAlone u s s₂ :=
  Framework.invariant (fun h ⟨_, ha, hb⟩ => h.acted ha (by simp [Call.begins_of_isChore hb])) hc h

/-- To start another unit leaves `u` alone. -/
theorem errands {name : Name} (h : LeftAlone u s s₁) (hne : name ≠ u) (he : Errands name s₁ s₂) :
    LeftAlone u s s₂ :=
  Framework.invariant (fun h ⟨_, ha, hb⟩ => h.acted ha fun hc => by
    rcases hb with hb | hb
    · simp [Call.begins_of_isChore hb] at hc
    · exact hne (Option.some.inj (hb.symm.trans hc))) he h

theorem update {f : Manager → Manager} (h : LeftAlone u s s₁) (hq : Quiet u (f s₁.toManager))
    (hc : (f s₁.toManager).Units fun _ => Instance.Childless) : LeftAlone u s (s₁.update f) :=
  ⟨h.log, hq, hc⟩

end LeftAlone

/-- A quiet unit for which nothing has asked since it was asked to stop is
not started. -/
theorem Reason.not_quiet {u : Name} {s s₀ : Supervisor} {m₀ : Machine} {new : List (Call × Machine)}
    (h : Reason s u) (hq : Quiet u s.toManager) (hn : s.history = new ++ s₀.history)
    (h₀ : Last s₀ (.request (.stop u), m₀)) (hno : Unasked u new) : False := by
  have hask : ∀ {e}, Last s e → asksFor u e = true → False := by
    intro e he ha
    rcases he.mem_or_eq h₀ hn with hm | rfl
    · simp [hno e hm] at ha
    · cases ha
  have hst : ∀ {st : State}, s.stateOf u = some st → isIdle st = true ∨ st = .deactivating := by
    intro st h
    simp only [Manager.stateOf, Option.map_eq_some_iff] at h
    obtain ⟨i, hi, rfl⟩ := h
    exact (hq.inst i hi).imp_right And.left
  cases h with
  | queued h => exact hq.queue h
  | awaited h => exact hask h (by simp [asksFor])
  | again hi hs hp =>
    rcases hq.inst _ hi with h | ⟨-, -, h⟩
    · simp [hs, isIdle] at h
    · exact h hp
  | origin h =>
    cases h with
    | requested h => exact hask h (by simp [asksFor])
    | restarted h => exact hask h (by simp [asksFor])
    | connection h => exact hask h (by simp [asksFor])
    | elapsed h htm hs => exact hask h (by simp [asksFor, htm, hs])
    | backoff hs => rcases hst hs with h | h <;> simp [isIdle] at h

/-- As long as nothing has asked for `u` since `s₀`, it has been left alone. -/
def Ignored (u : Name) (s₀ s : Supervisor) : Prop :=
  ∃ new, s.history = new ++ s₀.history ∧ (Unasked u new → LeftAlone u s₀ s)

theorem Ignored.step {u : Name} {s₀ s s' : Supervisor} (h : Ignored u s₀ s) (hg : s.history <:+ s'.history)
    (hs : ∀ new, s.history = new ++ s₀.history → Unasked u new → LeftAlone u s₀ s →
      LeftAlone u s₀ s') : Ignored u s₀ s' := by
  obtain ⟨past, hp, hI⟩ := h
  obtain ⟨new, hn⟩ := hg
  refine ⟨new ++ past, by rw [← hn, hp, List.append_assoc], fun hno => ?_⟩
  have hpast : Unasked u past := fun e he => hno e (List.mem_append_right _ he)
  exact hs past hp hpast (hI hpast)

/-- A deed does not start a unit that nobody asks for. -/
theorem Ignored.deed {w : World} {a : Option Alarm} {u : Name} {s₀ s s' : Supervisor} {m₀ : Machine}
    (h₀ : Last s₀ (.request (.stop u), m₀)) (h : Ignored u s₀ s) (hd : Deed w a s s') : Ignored u s₀ s' := by
  refine h.step hd.acts.grows fun past hp hno hl => ?_
  rcases hd.errands with hc | ⟨c, ha, hf, hn⟩ | ⟨name, hr, he⟩
  · exact hl.chores (.single hc)
  · obtain ⟨b, rfl⟩ := Option.ne_none_iff_exists'.mp hn
    exact hl.acted ha (by simp [Call.begins_of_alarm hf])
  · by_cases e : name = u
    · exact absurd (e ▸ hr) fun hr => hr.not_quiet hl.quiet hp h₀ hno
    · exact hl.errands e he

theorem Ignored.tour {w : World} {r : Bool} {u : Name} {s₀ s s' : Supervisor} {m₀ : Machine}
    (h₀ : Last s₀ (.request (.stop u), m₀)) (h : Ignored u s₀ s) (ht : Tour w r s s') : Ignored u s₀ s' := by
  have hsame : ∀ {f : Manager → Manager}, (f s.toManager).pending = s.pending →
      (f s.toManager).instances = s.instances → (f s.toManager).pendingRestart = s.pendingRestart →
      Ignored u s₀ (s.update f) := by
    intro f hp hi hr
    refine h.step List.suffix_rfl fun _ _ _ hl => hl.update ⟨hp ▸ hl.quiet.queue, fun i h => ?_⟩ fun v i h => ?_
    · rw [hi] at h
      rw [hr]
      exact hl.quiet.inst i h
    · rw [hi] at h
      exact hl.childless v i h
  cases ht with
  | deed hd => exact h.deed h₀ hd
  | expire | expireWall | lose | addHandle => exact hsame rfl rfl rfl
  | @alarm e rest hf =>
    exact Framework.invariant (fun h hd => h.deed h₀ hd) (Supervisor.onAlarm_deeds w e.alarm _)
      (hsame (f := (·.setFired rest)) rfl rfl rfl)
  | @shutdown action hd =>
    refine h.step (Tour.grows (w := w) (r := r) (.shutdown hd)) fun _ _ _ hl => ?_
    obtain ⟨s₁, h₁, hm, h₂⟩ := Supervisor.beginShutdown_chores w action hd
    have hl₁ := hl.chores h₁
    exact (hl₁.update (f := (·.goDown _)) ⟨hl₁.quiet.queue, hl₁.quiet.inst⟩ hl₁.childless).chores h₂
  | @insert name unit =>
    refine h.step List.suffix_rfl fun _ _ _ hl => hl.update ⟨hl.quiet.queue, fun i hi => ?_⟩ fun v i hi => ?_
    · rw [Manager.get_insertUnit] at hi
      split at hi
      · cases hi
        exact .inl rfl
      · exact hl.quiet.inst i hi
    · rw [Manager.get_insertUnit] at hi
      split at hi
      · cases hi
        exact fun _ => rfl
      · exact hl.childless v i hi
  | keep =>
    exact h.step List.suffix_rfl fun _ _ _ hl => hl.update
      ⟨hl.quiet.queue, fun i hi => hl.quiet.inst i (Manager.get_of_keep hi)⟩
      fun v i hi => hl.childless v i (Manager.get_of_keep hi)

namespace Supervisor

/-- What has been recorded since `s₀`. -/
def since (s₀ s : Supervisor) : List (Call × Machine) := s.history.take (s.history.length - s₀.history.length)

theorem since_eq {s₀ s : Supervisor} {new : List (Call × Machine)} (h : s.history = new ++ s₀.history) :
    since s₀ s = new := by
  simp [since, h]

/-- A request to stop leaves the unit quiet. -/
theorem stop_quiet {w : World} {s : Supervisor} {u : Name} {service : Service}
    (hsv : s.serviceOf u = some service)
    (hf : s.stopsForGood u = true) : Quiet u (stop w u .requested s).toManager := by
  simp only [Manager.serviceOf, Manager.unitOf, Option.bind_map, Option.bind_eq_some_iff] at hsv
  obtain ⟨i, hi, hsv⟩ := hsv
  obtain ⟨i', hi', ho⟩ := stop_get_self (w := w) (c := .requested) hi
  simp only [Manager.stopsForGood, hi, Option.all_some, Bool.and_eq_true, Bool.or_eq_true, decide_eq_true_eq,
    Bool.not_eq_true'] at hf
  obtain ⟨hcause, hawait⟩ := hf
  refine ⟨stop_dequeued w u .requested s, fun j hj => ?_⟩
  rw [hi'] at hj
  cases hj
  have hp : u ∉ s.pendingRestart → u ∉ (stop w u .requested s).pendingRestart :=
    mt (stop_chores w u .requested s).pendingRestart
  cases ho with
  | cancelled hs => exact .inl (by rw [Instance.cancelRestart_state hs]; rfl)
  | instant t _ hsv' => exact absurd (hsv.symm.trans hsv') (by simp)
  | already _ hs =>
    rcases hs with hs | hs | hs
    · exact .inl (by rw [hs]; rfl)
    · exact .inl (by rw [hs]; rfl)
    · refine .inr ⟨hs, hcause.resolve_left (by simp [hs]), hp (hawait.resolve_right ?_)⟩
      rw [hs]
      decide
  | terminated _ hs =>
    refine .inr ⟨rfl, rfl, hp (hawait.resolve_right ?_)⟩
    rcases hs with hs | hs <;> rw [hs] <;> decide

/-- An explicit stop is final, when the stop it joins or begins is not to be
followed by a start: unless something asks for the unit again, it is not
started, and no process of it is forked. -/
theorem stop_is_final {w : World} {s : Supervisor} {u : Name} {service : Service} (hr : Reachable w s)
    (hsv : s.serviceOf u = some service) (hf : s.stopsForGood u = true) (events : List Event)
    (hno : Unasked u (since (handle w (.stop u) s).2 (run w (handle w (.stop u) s).2 events))) :
    NeverStarted u (since (handle w (.stop u) s).2 (run w (handle w (.stop u) s).2 events)) := by
  have hk : (s.note (.request (.stop u))).knows u = true := by
    simp only [Manager.serviceOf, Manager.unitOf, Option.bind_map, Option.bind_eq_some_iff] at hsv
    obtain ⟨i, hi, -⟩ := hsv
    rw [Manager.knows, note_toMachine, Std.TreeMap.contains_eq_isSome_getElem?, hi]
    rfl
  have he : (handle w (.stop u) s).2 = stop w u .requested (s.note (.request (.stop u))) := by
    simp only [handle]
    rw [if_neg (not_not.mpr hk)]
  have hs : Reachable w (handle w (.stop u) s).2 := by
    obtain ⟨hierarchy, kernel, past, rfl⟩ := hr
    exact ⟨hierarchy, kernel, past ++ [.request (.stop u)], by simp [run, step]⟩
  generalize (handle w (.stop u) s).2 = s₀ at he hs hno ⊢
  obtain ⟨l, hl, hstop⟩ := stop_log w u .requested (s.note (.request (.stop u)))
  have h₀ : Last s₀ (.request (.stop u), s.toMachine) := by
    rw [he]
    exact (Last.note s (.request (.stop u)) rfl).append hl hstop
  have hq : Quiet u s₀.toManager := by
    rw [he]
    exact stop_quiet (s := s.note (.request (.stop u))) hsv hf
  have hI : Ignored u s₀ s₀ := ⟨[], rfl, fun _ =>
    ⟨⟨[], rfl, List.forall_mem_nil _⟩, hq, hs.units Change.childless fun _ _ _ => rfl⟩⟩
  obtain ⟨new, hn, h⟩ := Framework.invariant (fun h ht => Ignored.tour h₀ h ht) (hs.after events) hI
  rw [since_eq hn] at hno ⊢
  obtain ⟨new', hn', hnew⟩ := (h hno).log
  rwa [List.append_cancel_right (hn'.symm.trans hn)] at hnew

theorem stop_is_final_sample :
    NeverStarted "a" (since
      (handle calm (.stop "a") (booted calm [bootTarget ["a"], serviceUnit "a" {} .simple .always])).2
      (run calm (handle calm (.stop "a") (booted calm [bootTarget ["a"], serviceUnit "a" {} .simple .always])).2
        [.sigchld, .timer])) :=
  stop_is_final (booted_reachable _ _)
    (show _ = some ({ exec := ["/bin/a"], restart := .always } : Service) by decide +kernel) (by decide +kernel) _
    (by decide +kernel)

/-- A stop that joins the stop of a restart request does not take the restart
back: once the unit has stopped, it is started. -/
theorem stop_does_not_take_back_a_restart :
    let w := movesAt 11 [exits 2]
    let s := run w (booted w [bootTarget ["a"], serviceUnit "a" {} .simple .no]) [.request (.restart "a")]
    let s₀ := (handle w (.stop "a") s).2
    Reachable w s ∧ s.shuttingDown = false ∧ (handle w (.stop "a") s).1 = .accepted "stopping a" ∧
      Unasked "a" (since s₀ (run w s₀ [.sigchld])) ∧ ¬NeverStarted "a" (since s₀ (run w s₀ [.sigchld])) :=
  ⟨run_reachable _ _ _, by decide +kernel, by decide +kernel, by decide +kernel, by decide +kernel⟩

end Supervisor

end Oxinit
