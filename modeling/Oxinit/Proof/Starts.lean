import Oxinit.Proof.Rest

/-!
# One main process

A service that is started while it is down, and is not queued, has no process
of an earlier start; and then no unit of the queue has been started by another
path (`Sound`). `start` itself checks neither, so both are conditions on what
asks for it: `inTurn`.
-/

namespace Oxinit

open Relation (ReflTransGen)

/-- What a call asks to be started is down and not queued, if it is a service. -/
def inTurn (e : Call × Machine) : Bool :=
  match e.1 with
  | .request (.start u) => e.2.shuttingDown || (e.2.serviceOf u).isNone || e.2.isDown u && u ∉ e.2.pending
  | .connection u => e.2.shuttingDown || (e.2.serviceOf u).isNone || u ∉ e.2.pending
  | .elapsed t => (e.2.timerOf t).all fun timer =>
      (e.2.serviceOf timer.service).isNone || timer.service ∉ e.2.pending
  | _ => true

def InTurn (l : List (Call × Machine)) : Prop := ∀ e ∈ l, inTurn e = true

instance (l : List (Call × Machine)) : Decidable (InTurn l) := inferInstanceAs (Decidable (∀ e ∈ l, inTurn e = true))

/-- A unit a process is forked for is `Inactive`, `Failed` or `Restarting`,
and tracks none. -/
def spawnsAtRest (e : Call × Machine) : Bool :=
  match e.1 with
  | .spawn u => e.2.instances[u]?.any fun i => i.child.isNone && i.state.down
  | _ => true

/-- `start` forked a process only for a unit at rest, and none of the units
that `pump` came to had been forked a process before. -/
structure OneMain (l : List (Call × Machine)) : Prop where
  spawn : ∀ e ∈ l, spawnsAtRest e = true
  pump : ∀ newer older u m, l = newer ++ (Call.pump u, m) :: older → ∀ m', (Call.spawn u, m') ∉ older

theorem OneMain.append {l new : List (Call × Machine)} (h : OneMain l)
    (hs : ∀ e ∈ new, spawnsAtRest e = true)
    (hp : ∀ u m, (Call.pump u, m) ∈ new → ∀ m', (Call.spawn u, m') ∉ new ++ l) : OneMain (new ++ l) := by
  refine ⟨fun e he => (List.mem_append.mp he).elim (hs e) (h.spawn e), fun newer older u m e m' hm' => ?_⟩
  rcases List.append_eq_append_iff.mp e with ⟨a, ha, hl⟩ | ⟨a, ha, hl⟩
  · exact h.pump a older u m hl m' hm'
  · cases a with
    | nil => exact h.pump [] older u m (by simpa using hl.symm) m' hm'
    | cons x a =>
      obtain ⟨rfl, rfl⟩ : x = (Call.pump u, m) ∧ older = a ++ l := by simpa [eq_comm] using hl
      refine hp u m (by simp [ha]) m' (List.mem_append.mpr ((List.mem_append.mp hm').imp_left fun h => ?_))
      simp [ha, h]

/-- A service that is queued is idle and has not been started. -/
structure Sound (s : Supervisor) : Prop where
  childless : s.Units fun _ => Instance.Childless
  queue : ∀ u ∈ s.pending, ∀ i, s.instances[u]? = some i → i.unit.service ≠ none → isIdle i.state = true
  unspawned : ∀ u ∈ s.pending, ∀ m, (Call.spawn u, m) ∉ s.history
  one : OneMain s.history

/-- A start of `u` would fork a first process, or none. -/
def Ready (u : Name) (s : Supervisor) : Prop :=
  ∀ i, s.instances[u]? = some i → i.unit.service ≠ none → u ∉ s.pending ∧ i.state.down = true

variable {s s' : Supervisor} {u : Name}

/-- A unit that is down and not queued may be started. -/
theorem Ready.of_down (h : s.isDown u = true) (hq : u ∉ s.pending) : Ready u s := by
  intro i hi _
  rw [Manager.isDown, hi] at h
  exact ⟨hq, h⟩

/-- A service that is not idle is not queued. -/
theorem Sound.not_queued (h : Sound s) {i : Instance} (hi : s.instances[u]? = some i)
    (hsv : i.unit.service ≠ none) (hs : isIdle i.state = false) : u ∉ s.pending := fun hu => by
  simp [h.queue u hu i hi hsv] at hs

/-! ## Acts -/

theorem Effect.pump_mem {now : Nat} {m m' : Manager} (h : Effect now (some (.pump u)) m m') : u ∈ m.pending := by
  cases h with
  | mark h => cases h
  | pump _ h => exact List.mem_of_find?_eq_some h

/-- An act keeps the queue sound if it forks a process for a ready unit only. -/
theorem Acted.sound {c : Option Call} (h : Acted c s s') (hs : Sound s)
    (hready : ∀ u, c = some (.spawn u) → Ready u s) : Sound s' := by
  have he := h.effect
  have hspawn : ∀ u, c = some (.spawn u) → u ∉ s.pending ∧ ∃ i, s.instances[u]? = some i ∧ i.state.down = true := by
    intro u hc
    obtain ⟨i, hi, hsv⟩ := (hc ▸ he).spawn_get
    obtain ⟨hq, hd⟩ := hready u hc i hi hsv
    exact ⟨hq, i, hi, hd⟩
  obtain ⟨new, hn, hnew⟩ := h.entries
  have hcall : ∀ {c' m}, (c', m) ∈ new → c'.isWorld = false → c = some c' ∧ m.toManager = s.toManager := by
    intro c' m hm hw
    rcases hnew _ hm with h | ⟨h, hm, -⟩
    · exact absurd (hw.symm.trans h) (by decide)
    · exact ⟨h, hm⟩
  have hun : ∀ u ∈ s.pending, ∀ m, (Call.spawn u, m) ∉ new ++ s.history := by
    intro u hu m hm
    rcases List.mem_append.mp hm with hm | hm
    · exact (hspawn u (hcall hm rfl).1).1 hu
    · exact hs.unspawned u hu m hm
  refine ⟨he.units Change.childless hs.childless, fun u hu i' hi' hsv => ?_,
    fun u hu m => hn ▸ hun u (he.kept.pending.subset hu) m, hn ▸ hs.one.append (fun e he => ?_) fun u m hm => ?_⟩
  · have hu' := he.kept.pending.subset hu
    rcases he.change u with e | ⟨i, j, hi, hj, hch⟩
    · exact hs.queue u hu' i' (e ▸ hi') hsv
    · rw [hj] at hi'
      cases hi'
      have hunit := he.kept.unit_eq hi hj
      have hid := hs.queue u hu' i hi (hunit ▸ hsv)
      exact (hch.service_stays_down (hs.childless u i hi) (State.down_of_idle hid) hsv fun hc => (hspawn u hc).1 hu').2 hid
  · obtain ⟨c', m⟩ := e
    cases c' with
    | spawn u =>
      obtain ⟨hc, hm⟩ := hcall he rfl
      obtain ⟨-, i, hi, hd⟩ := hspawn u hc
      simp [spawnsAtRest, hm, hi, hd, hs.childless u i hi hd]
    | _ => rfl
  · exact hun u ((hcall hm rfl).1 ▸ he).pump_mem

/-- What is not about the unit leaves it so. -/
theorem Acted.ready {c : Option Call} (h : Acted c s s') (hs : Sound s) (hr : Ready u s) (hc : Call.begins c ≠ some u) :
    Ready u s' := by
  intro i' hi' hsv
  have he := h.effect
  rcases he.change u with e | ⟨i, j, hi, hj, hch⟩
  · exact (hr i' (e ▸ hi') hsv).imp_left fun hq hu => hq (he.kept.pending.subset hu)
  · rw [hj] at hi'
    cases hi'
    have hunit := he.kept.unit_eq hi hj
    obtain ⟨hq, hd⟩ := hr i hi (hunit ▸ hsv)
    exact ⟨fun hu => hq (he.kept.pending.subset hu), (hch.stays_down hc (hs.childless u i hi) hd).1⟩

theorem Chores.sound (h : Chores s s') (hs : Sound s) : Sound s' :=
  Framework.invariant (fun hs ⟨_, ha, hc⟩ => ha.sound hs fun u e => by simp [e, Call.isChore, Call.begins] at hc) h hs

theorem Chores.sound_ready (h : Chores s s') (hs : Sound s) (hr : Ready u s) : Sound s' ∧ Ready u s' :=
  Framework.invariant (I := fun s => Sound s ∧ Ready u s)
    (fun ⟨hs, hr⟩ ⟨c, ha, hc⟩ => ⟨Chores.sound (.single ⟨c, ha, hc⟩) hs,
      ha.ready hs hr (by simp [Call.begins_of_isChore hc])⟩) h ⟨hs, hr⟩

namespace Supervisor

variable {w : World} {name : Name}

/-- A start that is in turn forks one process. -/
theorem start_sound (hs : Sound s) (hr : s.shuttingDown = false → Ready name s) : Sound (start w name s) := by
  have h₁ := (Acted.mark (c := .start name) rfl s).sound hs (by simp)
  by_cases hd : s.shuttingDown = true
  · rwa [start_goingDown w name hd]
  · have hd' := eq_false_of_ne_true hd
    obtain ⟨hx, hrx⟩ := (exclude_chores w name (s.note (.start name))).sound_ready h₁ (u := name) (hr hd')
    rcases start_raised w name hd' with ⟨-, e⟩ | ⟨c, s₁, hst, hm, ha, hc⟩
    · rwa [e]
    · have hch : Chores (exclude w name (s.note (.start name))) s₁ := ((Acted.still hst hm).chores rfl)
      obtain ⟨h₂, hr₂⟩ := hch.sound_ready hx hrx
      refine ha.sound h₂ fun u e => ?_
      rcases hc with rfl | rfl | rfl | rfl <;> cases e
      exact hr₂

/-! ## Runs -/

/-- The queue's turn does too. -/
theorem pumpTurn_sound (hs : Sound s) (hd : s.shuttingDown = false) (h : s.nextStartable = some name) :
    Sound (pumpTurn w name s) := by
  have hmem : name ∈ s.pending := List.mem_of_find?_eq_some h
  have ha := (Acted.call (c := .pump name) (f := (·.dequeue name)) rfl (.pump hd h))
  have h₁ := ha.sound hs (by simp)
  simp only [pumpTurn]
  split
  · exact ((fail_act name _).chores rfl).sound h₁
  · refine start_sound h₁ fun _ i hi hsv => ⟨by simp [Manager.dequeue], ?_⟩
    exact State.down_of_idle (hs.queue name hmem i hi hsv)

end Supervisor

/-- What is started for a reason is ready, if what asked for it was in turn. -/
theorem Origin.ready {name : Name} (h : Origin s name) (hs : Sound s) (hok : InTurn s.history)
    (hd : s.shuttingDown = false) : Ready name s := by
  have hidle : s.idle name = true → s.isDown name = true := by
    simp only [Manager.idle, Manager.isDown, Option.any_eq_true]
    rintro ⟨i, hi, h⟩
    exact ⟨i, hi, State.down_of_idle h⟩
  have hsv : ∀ {m : Manager} {i}, m.instances[name]? = some i → i.unit.service ≠ none →
      (m.serviceOf name).isNone = false := by
    intro m i hi h
    obtain ⟨service, h⟩ := Option.ne_none_iff_exists'.mp h
    simp [Manager.serviceOf, Manager.unitOf, hi, h]
  cases h with
  | requested h hm =>
    have := hok _ h.mem
    simp only [inTurn, hm, hd, Bool.false_or, Bool.or_eq_true, Bool.and_eq_true, decide_eq_true_eq] at this
    intro i hi h
    obtain ⟨h₁, h₂⟩ := this.resolve_left (by simp [hsv hi h])
    exact Ready.of_down h₁ h₂ i hi h
  | restarted _ hq hi => exact .of_down (hidle hi) hq
  | connection h hm hi =>
    have := hok _ h.mem
    simp only [inTurn, hm, hd, Bool.false_or, Bool.or_eq_true, decide_eq_true_eq] at this
    exact fun i hi' h => Ready.of_down (hidle hi) (this.resolve_left (by simp [hsv hi' h])) i hi' h
  | elapsed h htm hs hu hq hi =>
    have := hok _ h.mem
    simp only [inTurn, htm, Option.all_some, hs, Bool.or_eq_true, decide_eq_true_eq, hq] at this
    exact fun i hi' h => Ready.of_down (hidle hi) (this.resolve_left (by simp [hsv (hu ▸ hi') h])) i hi' h
  | backoff hst =>
    intro i hi h
    rw [Manager.stateOf, hi, Option.map_some, Option.some.injEq] at hst
    exact ⟨hs.not_queued hi h (by rw [hst]; rfl), by rw [hst]; rfl⟩

/-- A deed keeps it, if what it answers was asked in turn. -/
theorem Deed.sound {w : World} {a : Option Alarm} (h : Deed w a s s') (hs : Sound s) (hok : InTurn s.history) :
    Sound s' := by
  cases h with
  | act h hc => exact (h.chores (Call.isChore_of_isRoutine hc)).sound hs
  | fail => exact ((Supervisor.fail_act _ s).chores rfl).sound hs
  | finish hi hst => exact ((Supervisor.endStop_act hi hst).chores rfl).sound hs
  | fire h hc ha => exact h.sound hs fun u e => absurd (by rw [← hc, e]; rfl) ha
  | pump hd h => exact Supervisor.pumpTurn_sound hs hd h
  | start h => exact Supervisor.start_sound hs (h.ready hs hok)
  | await _ _ _ _ _ hi hs' => exact (Acted.call rfl (.awaitRestart hi hs')).sound hs (by simp)
  | again hi hst hp =>
    rename_i name i
    have ha := Supervisor.endStop_act (w := w) hi hst
    have hch : Chores s (((Supervisor.endStop w name i s).update (·.takeRestart name)).note (.again name)) :=
      .head (ha.chore rfl)
        (.head ((Acted.now (f := (·.takeRestart _)) rfl (.takeRestart hp (Supervisor.endStop_over hi))).chore rfl)
          ((Acted.mark (c := .again _) rfl _).chores rfl))
    refine Supervisor.start_sound (hch.sound hs) fun _ j hj hsv => ?_
    have hunit := hch.kept.unit_eq hi hj
    have hdown := Supervisor.endStop_get (w := w) hi
    rw [Manager.isDown, show (Supervisor.endStop w name i s).instances[name]? = some j from hj] at hdown
    exact ⟨fun hu => hs.not_queued hi (hunit ▸ hsv) (by rw [hst]; rfl) (hch.kept.pending.subset hu), hdown⟩

theorem Sound.update {f : Manager → Manager} (hs : Sound s) (hp : (f s.toManager).pending = s.pending)
    (hi : ∀ (v : Name) (i : Instance), (f s.toManager).instances[v]? = some i →
      s.instances[v]? = some i ∨ i = Instance.new i.unit) : Sound (s.update f) := by
  refine ⟨fun v i h => ?_, fun u hu i h hsv => ?_, fun u hu => hs.unspawned u (hp ▸ hu), hs.one⟩
  · rcases hi v i h with h | h
    · exact hs.childless v i h
    · rw [h]
      exact fun _ => rfl
  · rcases hi u i h with h | h
    · exact hs.queue u (hp ▸ hu) i h hsv
    · rw [h]
      rfl

theorem Deeds.sound {w : World} {a : Option Alarm} (h : Deeds w a s s') (hs : Sound s) (hok : InTurn s'.history) :
    Sound s' :=
  Framework.Grows.invariant (fun h => h.acts.grows) (fun hok hs hd => hd.sound hs fun e he => hok e (hd.acts.grows.mem he))
    h hok hs

theorem Tour.sound {w : World} {r : Bool} (h : Tour w r s s') (hs : Sound s) (hok : InTurn s'.history) : Sound s' := by
  cases h with
  | deed h => exact h.deeds.sound hs hok
  | expire | expireWall | lose | addHandle => exact hs.update rfl fun _ _ h => .inl h
  | @alarm e rest hf =>
    exact (Supervisor.onAlarm_deeds w e.alarm _).sound (hs.update (f := (·.setFired rest)) rfl fun _ _ h => .inl h) hok
  | shutdown hd =>
    obtain ⟨s₁, h₁, -, h₂⟩ := Supervisor.beginShutdown_chores w _ hd
    exact h₂.sound ((h₁.sound hs).update rfl fun _ _ h => .inl h)
  | insert =>
    refine hs.update rfl fun v i hi => ?_
    rw [Manager.get_insertUnit] at hi
    split at hi
    · cases hi
      exact .inr rfl
    · exact .inl hi
  | keep => exact hs.update rfl fun _ _ h => .inl (Manager.get_of_keep h)

namespace Supervisor

/-- At most one main process per service: in a run in which what is asked for
is in turn, a process is forked only for a service that tracks none and is
down, and no service is started by another path and then by the queue. -/
theorem one_main_process {w : World} (hr : Reachable w s) (hok : InTurn s.history) : OneMain s.history := by
  refine (hr.guarded (I := Sound) hok (fun hierarchy kernel => ?_) fun hok hs ht => ht.sound hs hok).one
  have hw := queued_log w hierarchy kernel
  refine ⟨queued_units (fun _ _ _ => rfl) w hierarchy kernel, fun u _ i hi _ => ?_, fun u _ m hm => ?_, fun e he => ?_,
    fun newer older u m e => ?_⟩
  · rw [(queued_fresh w hierarchy kernel).inst u i hi]
    rfl
  · cases hw _ hm
  · obtain ⟨c, m⟩ := e
    cases c with
    | world | schedule | scheduleAt => rfl
    | _ => cases hw _ he
  · cases hw (.pump u, m) (by simp [e])

/-- A service that exits is started on request. -/
theorem one_main_process_sample :
    OneMain (run (movesAt 8 [exits 2]) (booted (movesAt 8 [exits 2]) [bootTarget ["a"], serviceUnit "a" {} .simple .no])
      [.sleep, .sigchld, .request (.start "a")]).history :=
  one_main_process (run_reachable _ _ _) (by decide +kernel)

/-- A start request for a service that runs forks a second process. -/
theorem start_forks_a_second_process :
    let s := run calm (booted calm [bootTarget ["a"], serviceUnit "a" {} .simple .no]) [.request (.start "a")]
    Reachable calm s ∧ ¬OneMain s.history := by
  refine ⟨run_reachable _ _ _, fun h => absurd h.spawn ?_⟩
  decide +kernel

end Supervisor

end Oxinit
