import Oxinit.Proof.Queue
import Oxinit.Proof.Shutdown
import Oxinit.Proof.Strides
import Oxinit.Proof.Waits

/-!
# The watchdog

While a watched service is up, a check of its watchdog is pending that is due
at most twice its interval after it was last heard of, and a check stops no
service that was heard of within its interval.
-/

namespace Oxinit

open Framework (Deadline)

/-- The time that passes before something is done. -/
def Turn.passing (t : Turn) : Nat :=
  (t.moves.map fun mv => match mv with
    | .pass d => d
    | _ => 0).sum

/-- What the clock says after `n` more turns. -/
def Machine.clock (w : World) (m : Machine) : Nat → Nat
  | 0 => m.kernel.now
  | n + 1 => m.clock w n + (w (m.ticks + n)).passing

/-- A unit is heard of at some time: it pings, or it becomes ready. -/
inductive HeardOf (w : World) (u : Name) : Call × Machine → Nat → Prop
  | ping {message m} (h : message.watchdog = true) : HeardOf w u (.message u message, m) (m.clock w 1)
  | ready {message m} (h : message.ready = true) (hs : m.stateOf u = some .activating) :
      HeardOf w u (.message u message, m) (m.clock w (message.watchdog.toNat + 2))

/-- When a unit was last heard of. -/
def LastHeard (w : World) (u : Name) (log : List (Call × Machine)) (p : Nat) : Prop :=
  (∃ e ∈ log, HeardOf w u e p) ∧ ∀ e ∈ log, ∀ t, HeardOf w u e t → t ≤ p

/-- A `notify` service with `watchdog-sec` that is up. -/
structure Minded (d : Nat) (i : Instance) : Prop where
  active : i.state = .active
  notify : ∃ service, i.unit.service = some service ∧ service.ty = .notify ∧ service.watchdogSec = some d

namespace Supervisor

variable {w : World} {e : Event} {s s' : Supervisor} {name u : Name} {i : Instance}

/-! ## The clock -/

theorem move_now (k : Kernel) (mv : Move) :
    (k.move mv).now = k.now + (match mv with | .pass d => d | _ => 0) := by
  cases mv with
  | pass | setWall | migrate | datagram | edit => rfl
  | fork parent =>
    simp only [Kernel.move, Kernel.notify, Kernel.next]
    split <;> rfl
  | exit pid status =>
    simp only [Kernel.move, Kernel.notify, Kernel.next]
    split <;> rfl

/-- The clock goes on by what passes in a turn. -/
theorem turn_clock (w : World) (s : Supervisor) : (s.turn w).kernel.now = s.kernel.now + (w s.ticks).passing := by
  have key : ∀ (mvs : List Move) (k : Kernel), (mvs.foldl Kernel.move k).now =
      k.now + (mvs.map fun mv => match mv with | .pass d => d | _ => 0).sum := by
    intro mvs
    induction mvs with
    | nil => exact fun k => rfl
    | cons mv mvs ih =>
      intro k
      rw [List.foldl_cons, ih, move_now, List.map_cons, List.sum_cons, Nat.add_assoc]
  rw [turn_kernel, key]
  rfl

/-- An alarm is scheduled for its delay after the time it is read at. -/
theorem schedule_due (w : World) (delay : Nat) (alarm : Alarm) (s : Supervisor) :
    ∃ tie fd, (schedule w delay alarm s).2.toManager =
      (s.toManager.push tie { due := s.kernel.now + (w s.ticks).passing + delay, alarm }).setFd fd := by
  obtain ⟨fd, h⟩ := armTimer_manager w (((s.note (.schedule alarm delay)).turn w).update
    (·.push (w s.ticks).tie { due := ((s.note (.schedule alarm delay)).turn w).kernel.now + delay, alarm }))
  exact ⟨_, fd, by rw [schedule, h, update_toManager, turn_toManager, turn_clock]; rfl⟩

theorem schedule_ticks (w : World) (delay : Nat) (alarm : Alarm) (s : Supervisor) :
    (schedule w delay alarm s).2.ticks = s.ticks + 3 :=
  armTimer_ticks w _

/-- To schedule an alarm adds moves of the world to the history alone. -/
theorem schedule_log (w : World) (delay : Nat) (alarm : Alarm) (s : Supervisor) :
    ∃ new, (schedule w delay alarm s).2.history = new ++ s.history ∧ ∀ x ∈ new, x.1.isWorld = true := by
  obtain ⟨n₁, e₁, p₁, -⟩ := turn_log w (s.note (.schedule alarm delay))
  have ha : ∀ s : Supervisor, ∃ new, (armTimer w s).2.history = new ++ s.history ∧ ∀ x ∈ new, x.1.isMove = true := by
    intro s
    obtain ⟨n₁, e₁, p₁, -⟩ := turn_log w s
    obtain ⟨n₂, e₂, p₂, -⟩ := turn_log w (s.turn w)
    refine ⟨n₂ ++ n₁, by rw [armTimer_history, e₂, e₁, List.append_assoc], fun x hx => ?_⟩
    exact (List.mem_append.mp hx).elim (p₂ x) (p₁ x)
  obtain ⟨n₂, e₂, p₂⟩ := ha (((s.note (.schedule alarm delay)).turn w).update (·.push (w s.ticks).tie
    { due := ((s.note (.schedule alarm delay)).turn w).kernel.now + delay, alarm }))
  refine ⟨n₂ ++ (n₁ ++ [(.schedule alarm delay, s.toMachine)]), ?_, fun x hx => ?_⟩
  · rw [schedule, e₂, update_history, e₁]
    simp
  · rcases List.mem_append.mp hx with hx | hx
    · exact Call.isWorld_of_isMove (p₂ x hx)
    · rcases List.mem_append.mp hx with hx | hx
      · exact Call.isWorld_of_isMove (p₁ x hx)
      · cases List.mem_singleton.mp hx
        rfl

theorem schedule_drifts (w : World) (delay : Nat) (alarm : Alarm) (s : Supervisor) :
    s.kernel.Drifts (schedule w delay alarm s).2.kernel := by
  refine (turn_drifts w (s.note (.schedule alarm delay))).trans ?_
  exact (Still.armTimer none w (((s.note (.schedule alarm delay)).turn w).update _)).kernel

theorem clock_mono (w : World) (m : Machine) {a b : Nat} (h : a ≤ b) : m.clock w a ≤ m.clock w b := by
  induction h with
  | refl => exact le_rfl
  | step _ ih => exact ih.trans (Nat.le_add_right ..)

/-! ## Messages -/

/-- What a message has done to the unit it comes from, which was `i`. -/
structure Served (w : World) (name : Name) (message : Message) (i : Instance) (s s' : Supervisor) : Prop where
  log : ∃ new, s'.history = new ++ (.message name message, s.toMachine) :: s.history ∧ ∀ x ∈ new, x.1.isWorld = true
  ne : ∀ v, name ≠ v → s'.instances[v]? = s.instances[v]?
  ticks : s.ticks ≤ s'.ticks
  heap : s.timers.heap ⊆ s'.timers.heap
  drifts : s.kernel.Drifts s'.kernel
  ready : message.ready = true → s'.stateOf name ≠ some .activating
  inst : ∃ j, s'.instances[name]? = some j ∧ j.unit = i.unit ∧ j.child = i.child ∧
    (j.state = i.state ∨ i.state = .activating ∧ j.state = .active) ∧
    ((j.state = i.state ∧ j.lastPing = i.lastPing ∧ ∀ t, ¬HeardOf w name (.message name message, s.toMachine) t) ∨
      ∃ p, j.lastPing = some p ∧ HeardOf w name (.message name message, s.toMachine) p ∧ s.kernel.now ≤ p ∧
        p ≤ s'.kernel.now ∧ (∀ t, HeardOf w name (.message name message, s.toMachine) t → t ≤ p) ∧
        (j.state = i.state ∨ ∀ d, i.unit.service.bind (·.watchdogSec) = some d →
          ∃ x ∈ s'.timers.heap, x.alarm = .watchdogCheck name ∧ ∃ n < s'.ticks, x.due = p + (w n).passing + d))

theorem attended_frame (w : World) (name : Name) (message : Message) (s : Supervisor) :
    (∃ new, (attended w name message s).history = new ++ (.message name message, s.toMachine) :: s.history ∧
        ∀ x ∈ new, x.1.isWorld = true) ∧
      (attended w name message s).kernel.now = s.clock w message.watchdog.toNat ∧
      (attended w name message s).ticks = s.ticks + message.watchdog.toNat ∧
      (attended w name message s).timers = s.timers ∧ s.kernel.Drifts (attended w name message s).kernel := by
  -- `STATUS=` changes none of this.
  have key : ∀ {s₁ : Supervisor}, s₁.history = (.message name message, s.toMachine) :: s.history →
      s₁.kernel = s.kernel → s₁.ticks = s.ticks → s₁.timers = s.timers →
      (∃ new, (if message.watchdog then ping w name s₁ else s₁).history =
          new ++ (.message name message, s.toMachine) :: s.history ∧ ∀ x ∈ new, x.1.isWorld = true) ∧
        (if message.watchdog then ping w name s₁ else s₁).kernel.now = s.clock w message.watchdog.toNat ∧
        (if message.watchdog then ping w name s₁ else s₁).ticks = s.ticks + message.watchdog.toNat ∧
        (if message.watchdog then ping w name s₁ else s₁).timers = s.timers ∧
        s.kernel.Drifts (if message.watchdog then ping w name s₁ else s₁).kernel := by
    intro s₁ hh hk ht htm
    cases message.watchdog with
    | false => exact ⟨⟨[], hh, by simp⟩, by rw [if_neg Bool.false_ne_true, hk]; rfl, ht, htm, hk ▸ .refl _⟩
    | true =>
      obtain ⟨new, hn, hm, -⟩ := turn_log w s₁
      refine ⟨⟨new, hh ▸ hn, fun x hx => Call.isWorld_of_isMove (hm x hx)⟩, ?_, congrArg (· + 1) ht, ?_,
        hk ▸ turn_drifts w s₁⟩
      · rw [if_pos rfl]
        exact (turn_clock w s₁).trans (by rw [hk, ht]; rfl)
      · rw [if_pos rfl]
        exact (congrArg Manager.timers (turn_toManager w s₁)).trans htm
  simp only [attended]
  cases message.status with
  | none => exact key rfl rfl rfl rfl
  | some status => exact key rfl rfl rfl rfl

/-- `READY=1`, from a unit that is activating. -/
theorem ready_served (w : World) (hi : s.instances[name]? = some i) :
    (∃ new, (ready w name s).history = new ++ s.history ∧ ∀ x ∈ new, x.1.isWorld = true) ∧
      (∀ v, name ≠ v → (ready w name s).instances[v]? = s.instances[v]?) ∧
      s.ticks ≤ (ready w name s).ticks ∧ s.timers.heap ⊆ (ready w name s).timers.heap ∧
      s.clock w 2 ≤ (ready w name s).kernel.now ∧ s.kernel.Drifts (ready w name s).kernel ∧
      (∃ since, (ready w name s).instances[name]? = some (i.enteredActive since (s.clock w 2))) ∧
      ∀ d, i.unit.service.bind (·.watchdogSec) = some d →
        ∃ x ∈ (ready w name s).timers.heap, x.alarm = .watchdogCheck name ∧
          ∃ n < (ready w name s).ticks, x.due = s.clock w 2 + (w n).passing + d := by
  obtain ⟨n₁, e₁, p₁, -⟩ := turn_log w s
  obtain ⟨n₂, e₂, p₂, -⟩ := turn_log w (s.turn w)
  have hnow : (enterActive w name s).kernel.now = s.clock w 2 :=
    (turn_clock w (s.turn w)).trans (by rw [turn_clock]; rfl)
  have hinst : (enterActive w name s).instances[name]? =
      some (i.enteredActive (s.turn w).kernel.now (s.clock w 2)) := by
    rw [← hnow]
    refine Manager.get_modify_self ?_
    rw [turn_toManager, turn_toManager, hi]
  have hne : ∀ v, name ≠ v → (enterActive w name s).instances[v]? = s.instances[v]? := fun v hv =>
    (Manager.get_modify_ne hv).trans (by rw [turn_toManager, turn_toManager])
  have hlog : (enterActive w name s).history = (n₂ ++ n₁) ++ s.history :=
    e₂.trans (by rw [e₁, List.append_assoc])
  have hworld : ∀ x ∈ n₂ ++ n₁, x.1.isWorld = true := fun x hx =>
    Call.isWorld_of_isMove ((List.mem_append.mp hx).elim (p₂ x) (p₁ x))
  have htimers : (enterActive w name s).timers = s.timers :=
    (congrArg Manager.timers (turn_toManager w (s.turn w))).trans (congrArg Manager.timers (turn_toManager w s))
  have hsv : (enterActive w name s).serviceOf name = i.unit.service := by
    rw [Manager.serviceOf, Manager.unitOf, hinst]
    rfl
  have hticks : (enterActive w name s).ticks = s.ticks + 2 := rfl
  have hdrifts : s.kernel.Drifts (enterActive w name s).kernel := (turn_drifts w s).trans (turn_drifts w _)
  simp only [ready, hsv]
  generalize enterActive w name s = s₁ at *
  split
  · rename_i interval hw
    obtain ⟨n₃, e₃, p₃⟩ := schedule_log w interval (.watchdogCheck name) s₁
    obtain ⟨tie, fd, e⟩ := schedule_due w interval (.watchdogCheck name) s₁
    have hheap : (schedule w interval (.watchdogCheck name) s₁).2.timers.heap =
        Deadline.insert tie { due := s₁.kernel.now + (w s₁.ticks).passing + interval, alarm := .watchdogCheck name }
          s.timers.heap := by
      rw [e, ← htimers]
      rfl
    have hinsts : (schedule w interval (.watchdogCheck name) s₁).2.instances = s₁.instances := by rw [e]; rfl
    have ht := schedule_ticks w interval (.watchdogCheck name) s₁
    refine ⟨⟨n₃ ++ (n₂ ++ n₁), ?_, fun x hx => (List.mem_append.mp hx).elim (p₃ x) (hworld x)⟩, fun v hv => ?_, ?_,
      fun x hx => ?_, hnow ▸ (schedule_drifts w interval _ s₁).now, hdrifts.trans (schedule_drifts w interval _ s₁),
      ⟨(s.turn w).kernel.now, ?_⟩, fun d hd => ?_⟩
    · rw [armWatchdog, e₃, hlog, ← List.append_assoc]
    · rw [armWatchdog, hinsts, hne v hv]
    · rw [armWatchdog, ht]
      omega
    · rw [armWatchdog, hheap]
      exact Deadline.mem_insert.mpr (.inr hx)
    · rw [armWatchdog, hinsts]
      exact hinst
    · cases hw.symm.trans hd
      rw [armWatchdog, hheap, ht]
      exact ⟨_, Deadline.mem_insert.mpr (.inl rfl), rfl, s₁.ticks, by omega, by rw [hnow]⟩
  · rename_i hw
    refine ⟨⟨_, hlog, hworld⟩, hne, by omega, fun x hx => htimers ▸ hx, hnow.ge, hdrifts, ⟨_, hinst⟩, fun d hd => ?_⟩
    rw [hw] at hd
    cases hd

theorem onMessage_served (w : World) {message : Message} (hu : s.unitForPid message.pid = some name)
    (hi : s.instances[name]? = some i) : Served w name message i s (onMessage w message s) := by
  obtain ⟨⟨n₁, e₁, p₁⟩, hnow, hticks, htimers, hdrifts⟩ := attended_frame w name message s
  have hget := attended_get w message hi
  have hst : s.stateOf name = some i.state := by rw [Manager.stateOf, hi]; rfl
  rw [onMessage_some hu]
  split
  · rename_i hr
    obtain ⟨hr, hs⟩ := hr
    rw [attended_stateOf] at hs
    obtain ⟨⟨n₂, e₂, p₂⟩, hne, ht, hheap, hle, hd, ⟨since, hinst⟩, hcheck⟩ := ready_served w hget
    have hclock : (attended w name message s).clock w 2 = s.clock w (message.watchdog.toNat + 2) := by
      simp only [Machine.clock, hnow, hticks, Nat.add_assoc, Nat.add_zero]
    rw [hclock] at hle hinst hcheck
    have h₀ : s.kernel.now ≤ s.clock w (message.watchdog.toNat + 2) := clock_mono w s.toMachine (Nat.zero_le _)
    refine ⟨⟨n₂ ++ n₁, by rw [e₂, e₁, List.append_assoc], fun x hx => (List.mem_append.mp hx).elim (p₂ x) (p₁ x)⟩,
      fun v hv => (hne v hv).trans (attended_get_ne w message hv), by omega, fun x hx => hheap (htimers ▸ hx),
      hdrifts.trans hd, fun _ => ?_,
      _, hinst, rfl, rfl, .inr ⟨Option.some.inj (hst.symm.trans hs), rfl⟩,
      .inr ⟨_, rfl, .ready hr hs, h₀, hle, fun t h => ?_, .inr hcheck⟩⟩
    · rw [Manager.stateOf, hinst]
      intro h
      cases h
    · cases h with
      | ping hw => exact clock_mono w s.toMachine (by omega)
      | ready => exact le_rfl
  · rename_i hr
    rw [attended_stateOf] at hr
    have h₀ : s.kernel.now ≤ s.clock w message.watchdog.toNat := clock_mono w s.toMachine (Nat.zero_le _)
    refine ⟨⟨n₁, e₁, p₁⟩, fun v hv => attended_get_ne w message hv, by omega, fun x hx => htimers ▸ hx, hdrifts,
      fun hready hs => hr ⟨hready, (attended_stateOf w name message s).symm.trans hs⟩, _, hget, rfl, rfl, .inl rfl, ?_⟩
    have hnr : ∀ {t}, HeardOf w name (.message name message, s.toMachine) t → message.watchdog = true ∧ t = s.clock w 1 := by
      intro t h
      cases h with
      | ping hw => exact ⟨hw, rfl⟩
      | ready h hs => exact absurd ⟨h, hs⟩ hr
    cases hwd : message.watchdog with
    | false => exact .inl ⟨rfl, rfl, fun t h => by simpa [hwd] using (hnr h).1⟩
    | true =>
      rw [hwd] at hnow h₀
      refine .inr ⟨_, by rw [hnow]; rfl, .ping hwd, h₀, hnow.ge, fun t h => (hnr h).2.le, .inl rfl⟩

/-- Apart from the message only the world's moves and alarms are recorded. -/
theorem Served.entries {message : Message} {s' : Supervisor} (h : Served w name message i s s') :
    ∃ new, s'.history = new ++ s.history ∧
      ∀ x ∈ new, x.1.isWorld = true ∨ x = (.message name message, s.toMachine) := by
  obtain ⟨new, hh, hn⟩ := h.log
  refine ⟨new ++ [(.message name message, s.toMachine)], by rw [hh, List.append_cons], fun x hx => ?_⟩
  rcases List.mem_append.mp hx with hx | hx
  · exact .inl (hn x hx)
  · exact .inr (List.mem_singleton.mp hx)

/-- A message is nobody's, or is served. -/
theorem onMessage_cases (w : World) (message : Message) (s : Supervisor) : onMessage w message s = s ∨
    ∃ name i, s.instances[name]? = some i ∧ Served w name message i s (onMessage w message s) := by
  cases hu : s.unitForPid message.pid with
  | none => exact .inl (onMessage_none hu)
  | some name =>
    obtain ⟨i, hi, -⟩ := Manager.unitForPid_get hu
    exact .inr ⟨name, i, hi, onMessage_served w hu hi⟩

end Supervisor

/-! ## When a unit was last heard of -/

/-- A unit that is up knows when it was last heard of, and none that was heard
of within its interval has been stopped for hanging. -/
structure Listened (w : World) (s : Supervisor) : Prop where
  time : ∀ {e u t}, e ∈ s.history → HeardOf w u e t → t ≤ s.kernel.now
  last : ∀ {u i}, s.instances[u]? = some i → i.state = .active →
    ∃ p, i.lastPing = some p ∧ p ≤ s.kernel.now ∧ ∀ e ∈ s.history, ∀ t, HeardOf w u e t → t ≤ p
  said : ∀ {u i service p}, s.instances[u]? = some i → i.state = .active → i.unit.service = some service →
    service.ty = .notify → i.lastPing = some p → ∃ e ∈ s.history, HeardOf w u e p
  hung : ∀ {u m older}, (.hung u, m) :: older <:+ s.history → ∃ d, (m.serviceOf u).bind (·.watchdogSec) = some d ∧
    ∀ e ∈ older, ∀ t, HeardOf w u e t → t + d < m.kernel.now

theorem HeardOf.name_eq {w : World} {u v : Name} {message : Message} {m : Machine} {t : Nat}
    (h : HeardOf w u (.message v message, m) t) : v = u := by
  cases h <;> rfl

/-- Calls about what has been heard of a unit, or that nothing has been. -/
def Call.isWatch : Call → Bool
  | .message .. | .hung _ => true
  | _ => false

theorem Call.isWatch_of_isGuarded {c : Call} (h : c.isGuarded = false) : c.isWatch = false := by
  cases c <;> first | rfl | cases h

theorem Call.isWatch_of_isWorld {c : Call} (h : c.isWorld = true) : c.isWatch = false := by
  cases c <;> first | rfl | cases h

theorem HeardOf.isWatch {w : World} {u : Name} {e : Call × Machine} {t : Nat} (h : HeardOf w u e t) :
    e.1.isWatch = true := by
  cases h <;> rfl

namespace Listened

variable {w : World} {s s' : Supervisor} {name : Name} {f : Instance → Instance}

/-- Nothing is heard of any unit. -/
theorem frame (h : Listened w s) (new : List (Call × Machine)) (hh : s'.history = new ++ s.history)
    (hn : ∀ x ∈ new, x.1.isWatch = false) (ht : s.kernel.now ≤ s'.kernel.now)
    (hi : ∀ {u : Name} {j : Instance}, s'.instances[u]? = some j → Supervisor.Becomes s s' u j) : Listened w s' := by
  have hold : ∀ {e u t}, e ∈ s'.history → HeardOf w u e t → e ∈ s.history := by
    intro e u t he h
    rw [hh] at he
    refine (List.mem_append.mp he).resolve_left fun he => ?_
    exact Bool.false_ne_true ((hn e he).symm.trans h.isWatch)
  refine ⟨fun he h' => (h.time (hold he h') h').trans ht, fun {u j} hj hs => ?_,
    fun {u j service p} hj hs hsv hty hp => ?_,
    fun {u m older} hsuf => ?_⟩
  · cases hi hj with
    | kept hj =>
      obtain ⟨p, hp, hle, hmax⟩ := h.last hj hs
      exact ⟨p, hp, hle.trans ht, fun e he t h' => hmax e (hold he h') t h'⟩
    | raised _ hp => exact ⟨_, hp, le_rfl, fun e he t h' => (h.time (hold he h') h').trans ht⟩
    | lowered hs' => exact absurd hs hs'.1
    | forked hs' => cases hs.symm.trans hs'
  · cases hi hj with
    | kept hj =>
      obtain ⟨e, he, h'⟩ := h.said hj hs hsv hty hp
      exact ⟨e, hh ▸ List.mem_append_right _ he, h'⟩
    | raised _ _ hn => exact absurd hty (hn service hsv)
    | lowered hs' => exact absurd hs hs'.1
    | forked hs' => cases hs.symm.trans hs'
  · rw [hh] at hsuf
    refine h.hung ((Framework.cons_suffix_append hsuf).resolve_right fun ⟨k, _, hk⟩ => ?_)
    cases hn _ (hk.subset (List.mem_cons_self ..))

/-- A check finds that a unit hangs. -/
theorem stops (h : Listened w s) {i : Instance} {d : Nat} (hi : s.instances[name]? = some i)
    (hw : i.unit.service.bind (·.watchdogSec) = some d) (hx : i.watchdogExpired s.kernel.now d = true) :
    Listened w (s.note (.hung name)) := by
  have hold : ∀ {e u t}, e ∈ (s.note (.hung name)).history → HeardOf w u e t → e ∈ s.history := by
    intro e u t he h
    refine (List.mem_cons.mp he).resolve_left fun e => ?_
    subst e
    cases h
  refine ⟨fun he h' => h.time (hold he h') h', fun hj hs => ?_, fun hj hs hsv hty hp => ?_, fun {u m older} hsuf => ?_⟩
  · obtain ⟨p, hp, hle, hmax⟩ := h.last hj hs
    exact ⟨p, hp, hle, fun e he t h' => hmax e (hold he h') t h'⟩
  · obtain ⟨e, he, h'⟩ := h.said hj hs hsv hty hp
    exact ⟨e, List.mem_cons_of_mem _ he, h'⟩
  · rcases List.suffix_cons_iff.mp hsuf with e | hsuf
    · cases e
      simp only [Instance.watchdogExpired, Bool.and_eq_true, decide_eq_true_eq] at hx
      obtain ⟨hs, hx⟩ := hx
      obtain ⟨p, hp, -, hmax⟩ := h.last hi hs
      refine ⟨d, ?_, fun e he t h' => ?_⟩
      · rw [Manager.serviceOf, Manager.unitOf, show s.instances[name]? = some i from hi]
        exact hw
      · rw [hp, Option.any_some, decide_eq_true_eq] at hx
        have := hmax e he t h'
        omega
    · exact h.hung hsuf

/-- A message is heard of its unit. -/
theorem served (h : Listened w s) {message : Message} {i : Instance} (hi : s.instances[name]? = some i)
    (hs : Supervisor.Served w name message i s s') : Listened w s' := by
  obtain ⟨new, hh, hn⟩ := hs.log
  obtain ⟨j, hj, hu, -, -, hc⟩ := hs.inst
  have hmsg : (Call.message name message, s.toMachine) ∈ s'.history := hh ▸ List.mem_append_right _ (List.mem_cons_self ..)
  have hold : ∀ {e u t}, e ∈ s'.history → HeardOf w u e t →
      e ∈ s.history ∨ (e = (Call.message name message, s.toMachine) ∧ name = u) := by
    intro e u t he h
    rw [hh] at he
    rcases List.mem_append.mp he with he | he
    · cases (Call.isWatch_of_isWorld (hn e he)).symm.trans h.isWatch
    · rcases List.mem_cons.mp he with rfl | he
      · exact .inr ⟨rfl, h.name_eq⟩
      · exact .inl he
  have hnow := hs.drifts.now
  refine ⟨fun {e u t} he h' => ?_, fun {u k} hk hst => ?_, fun {u k service p} hk hst hsv hty hp => ?_,
    fun {u m older} hsuf => ?_⟩
  · rcases hold he h' with he | ⟨rfl, rfl⟩
    · exact (h.time he h').trans hnow
    · rcases hc with ⟨-, -, hc⟩ | ⟨p, -, -, -, hle, hmax, -⟩
      · exact absurd h' (hc t)
      · exact (hmax t h').trans hle
  · by_cases e : name = u
    · subst e
      cases hj.symm.trans hk
      rcases hc with ⟨hst', hp, hc⟩ | ⟨p, hp, -, hge, hle, hmax, -⟩
      · obtain ⟨p, hp', hle, hmax⟩ := h.last hi (hst' ▸ hst)
        refine ⟨p, hp.trans hp', hle.trans hnow, fun e he t h' => ?_⟩
        rcases hold he h' with he | ⟨rfl, -⟩
        · exact hmax e he t h'
        · exact absurd h' (hc t)
      · refine ⟨p, hp, hle, fun e he t h' => ?_⟩
        rcases hold he h' with he | ⟨rfl, -⟩
        · exact (h.time he h').trans hge
        · exact hmax t h'
    · rw [hs.ne u e] at hk
      obtain ⟨p, hp, hle, hmax⟩ := h.last hk hst
      exact ⟨p, hp, hle.trans hnow, fun x hx t h' => hmax x ((hold hx h').resolve_right fun hx => e hx.2) t h'⟩
  · by_cases e : name = u
    · subst e
      cases hj.symm.trans hk
      rcases hc with ⟨hst', hp', -⟩ | ⟨q, hq, h', -⟩
      · obtain ⟨e, he, h'⟩ := h.said hi (hst' ▸ hst) (hu ▸ hsv) hty (hp'.symm.trans hp)
        exact ⟨e, hh ▸ List.mem_append_right _ (List.mem_cons_of_mem _ he), h'⟩
      · cases hq.symm.trans hp
        exact ⟨_, hmsg, h'⟩
    · rw [hs.ne u e] at hk
      obtain ⟨e, he, h'⟩ := h.said hk hst hsv hty hp
      exact ⟨e, hh ▸ List.mem_append_right _ (List.mem_cons_of_mem _ he), h'⟩
  · rw [hh] at hsuf
    rcases Framework.cons_suffix_append hsuf with hsuf | ⟨k, -, hk⟩
    · rcases List.suffix_cons_iff.mp hsuf with e | hsuf
      · cases e
      · exact h.hung hsuf
    · cases hn _ (hk.subset (List.mem_cons_self ..))

/-- Every stride keeps it. -/
theorem stride {e : Event} (h : Listened w s) (hs : Stride w e s s') : Listened w s' := by
  by_cases hmsg : ∃ message, s' = Supervisor.onMessage w message s
  · obtain ⟨message, rfl⟩ := hmsg
    rcases Supervisor.onMessage_cases w message s with e | ⟨name, i, hi, hv⟩
    · rwa [e]
    · exact h.served hi hv
  have hb : ∀ {u : Name} {j : Instance}, s'.instances[u]? = some j → Supervisor.Becomes s s' u j := fun hj =>
    (Supervisor.stride_becomes hs hj).resolve_right fun h => hmsg h.2
  have hnow := Supervisor.stride_now hs
  cases hs with
  | turn =>
    obtain ⟨new, hn, hm, -⟩ := Supervisor.turn_log w s
    exact h.frame new hn (fun x hx => Call.isWatch_of_isWorld (Call.isWorld_of_isMove (hm x hx))) hnow hb
  | note hc => exact h.frame [(_, s.toMachine)] rfl (by simpa using Call.isWatch_of_isGuarded hc) hnow hb
  | late => exact h.frame [(_, s.toMachine)] rfl (by simp [Call.isWatch]) hnow hb
  | finished | spawn => exact h.frame [(_, s.toMachine)] rfl (by simp [Call.isWatch]) hnow hb
  | hung _ hi hw hx => exact h.stops hi hw hx
  | message _ message => exact absurd ⟨message, rfl⟩ hmsg
  | signal | read | reaped | drained | update | push | expire | lower | active | forkedAway | insert | keep =>
    exact h.frame [] rfl (by simp) hnow hb

end Listened

/-! ## The checks -/

/-- Nothing but a message brings a watched service up, or changes it while it is up. -/
theorem Stride.minded {w : World} {e : Event} {s s' : Supervisor} {u : Name} {j : Instance} {d : Nat}
    (h : Stride w e s s') (hj : s'.instances[u]? = some j) (hm : Minded d j) :
    s.instances[u]? = some j ∨ e = .notify ∧ ∃ message, s' = Supervisor.onMessage w message s := by
  obtain ⟨hs, service, hsv, hty, -⟩ := hm
  refine (Supervisor.stride_becomes h hj).imp_left fun hb => ?_
  cases hb with
  | kept hj => exact hj
  | lowered hs' => exact absurd hs hs'.1
  | forked hs' => cases hs.symm.trans hs'
  | raised _ _ hn => exact absurd hty (hn service hsv)

theorem Stride.ticks {w : World} {e : Event} {s s' : Supervisor} (h : Stride w e s s') : s.ticks ≤ s'.ticks := by
  cases h with
  | turn => exact Nat.le_succ _
  | message _ message =>
    rcases Supervisor.onMessage_cases w message s with e | ⟨_, _, -, hv⟩
    · rw [e]
    · exact hv.ticks
  | signal | read | reaped | drained | note | update | push | expire | late | hung | lower | finished | spawn | active
    | forkedAway | insert | keep => exact le_rfl

/-- Only the deadlines that have passed leave the heap. -/
theorem Stride.heap {w : World} {e : Event} {s s' : Supervisor} (h : Stride w e s s') (he : e ≠ .timer) :
    s.timers.heap ⊆ s'.timers.heap := by
  cases h with
  | turn => rw [Supervisor.turn_toManager]; exact List.Subset.refl _
  | update _ hh => rw [Supervisor.update_toManager, hh]; exact List.Subset.refl _
  | push => exact fun x hx => Deadline.mem_insert.mpr (.inr hx)
  | expire he' | late he' | hung he' => exact absurd he' he
  | message _ message =>
    rcases Supervisor.onMessage_cases w message s with e | ⟨_, _, -, hv⟩
    · rw [e]
      exact List.Subset.refl _
    · exact hv.heap
  | signal | read | reaped | drained | note | lower | finished | spawn | active | forkedAway | insert | keep =>
    exact List.Subset.refl _

/-- Every watched service that is up has a check in `q` that is due in time. -/
def Checked (w : World) (q : List Entry) (s : Supervisor) : Prop :=
  ∀ (u : Name) (i : Instance) (d p : Nat), s.instances[u]? = some i → Minded d i → i.lastPing = some p →
    ∃ x ∈ q, x.alarm = .watchdogCheck u ∧ ∃ n < s.ticks, x.due ≤ p + 2 * d + (w n).passing

namespace Checked

variable {w : World} {s s' : Supervisor} {q q' : List Entry}

/-- No watched service comes up, and no check is taken. -/
theorem frame (h : Checked w q s) (hq : q ⊆ q') (ht : s.ticks ≤ s'.ticks)
    (hi : ∀ {u : Name} {i : Instance} {d : Nat}, s'.instances[u]? = some i → Minded d i → s.instances[u]? = some i) :
    Checked w q' s' := by
  intro u i d p hu hm hp
  obtain ⟨x, hx, ha, n, hn, hd⟩ := h u i d p (hi hu hm) hm hp
  exact ⟨x, hq hx, ha, n, hn.trans_le ht, hd⟩

/-- A unit that is heard of has its next check. -/
theorem served {name : Name} {message : Message} {i : Instance} (h : Checked w s.timers.heap s) (hl : Listened w s)
    (hi : s.instances[name]? = some i) (hs : Supervisor.Served w name message i s s') :
    Checked w s'.timers.heap s' := by
  intro u k d p hk hm hp
  by_cases e : name = u
  · subst e
    obtain ⟨j, hj, hu, -, -, hc⟩ := hs.inst
    cases hj.symm.trans hk
    have hold : ∀ {p₀}, k.state = i.state → i.lastPing = some p₀ → p₀ ≤ p →
        ∃ x ∈ s'.timers.heap, x.alarm = .watchdogCheck name ∧ ∃ n < s'.ticks, x.due ≤ p + 2 * d + (w n).passing := by
      intro p₀ hst hp₀ hle
      obtain ⟨x, hx, ha, n, hn, hd⟩ := h name i d p₀ hi ⟨hst ▸ hm.active, hu ▸ hm.notify⟩ hp₀
      exact ⟨x, hs.heap hx, ha, n, hn.trans_le hs.ticks, by omega⟩
    rcases hc with ⟨hst, hp', -⟩ | ⟨p', hp', -, hge, -, -, hst | hcheck⟩
    · exact hold hst (hp'.symm.trans hp) le_rfl
    · cases hp'.symm.trans hp
      obtain ⟨p₀, hp₀, hle, -⟩ := hl.last hi (hst ▸ hm.active)
      exact hold hst hp₀ (hle.trans hge)
    · cases hp'.symm.trans hp
      obtain ⟨service, hsv, -, hw⟩ := hm.notify
      obtain ⟨x, hx, ha, n, hn, hd⟩ := hcheck d (by rw [← hu, hsv]; exact hw)
      exact ⟨x, hx, ha, n, hn, by omega⟩
  · rw [hs.ne u e] at hk
    obtain ⟨x, hx, ha, n, hn, hd⟩ := h u k d p hk hm hp
    exact ⟨x, hs.heap hx, ha, n, hn.trans_le hs.ticks, hd⟩

theorem stride {e : Event} (h : Checked w s.timers.heap s) (hl : Listened w s) (he : e ≠ .timer)
    (hs : Stride w e s s') : Checked w s'.timers.heap s' := by
  by_cases hmsg : ∃ message, s' = Supervisor.onMessage w message s
  · obtain ⟨message, rfl⟩ := hmsg
    rcases Supervisor.onMessage_cases w message s with e | ⟨name, i, hi, hv⟩
    · rwa [e]
    · exact h.served hl hi hv
  · exact h.frame (hs.heap he) hs.ticks fun hj hm => (hs.minded hj hm).resolve_right fun h => hmsg h.2

end Checked

namespace Supervisor

variable {w : World} {e : Event} {s s' : Supervisor} {u : Name} {i : Instance} {d p : Nat}

theorem Acts.heap (h : Acts s s') : s.timers.heap ⊆ s'.timers.heap := by
  refine Framework.invariant (I := fun s' => s.timers.heap ⊆ s'.timers.heap) (fun hs ⟨_, h⟩ => ?_) h (List.Subset.refl _)
  obtain ⟨_, hp, -⟩ := h.effect.begins .stop
  cases hp with
  | same h => exact fun x hx => h ▸ hs hx
  | one h => exact fun x hx => h ▸ Deadline.mem_insert.mpr (.inr (hs hx))

theorem Acts.sorted (h : Acts s s') (hs : s.timers.heap.Pairwise (·.due ≤ ·.due)) :
    s'.timers.heap.Pairwise (·.due ≤ ·.due) := by
  refine Framework.invariant (I := fun s => s.timers.heap.Pairwise (·.due ≤ ·.due)) (fun hs ⟨_, h⟩ => ?_) h hs
  obtain ⟨_, hp, -⟩ := h.effect.begins .stop
  cases hp with
  | same h => exact h ▸ hs
  | one h => exact h ▸ Deadline.insert_sorted hs

theorem Strides.listened (h : Strides w e s s') (hs : Listened w s) : Listened w s' :=
  Framework.invariant (I := Listened w) Listened.stride h hs

theorem Strides.ticks (h : Strides w e s s') : s.ticks ≤ s'.ticks :=
  Framework.invariant (I := fun s' => s.ticks ≤ s'.ticks) (fun hs h => hs.trans h.ticks) h le_rfl

/-- What happens between two firings of the timerfd keeps the checks. -/
theorem Strides.checked (h : Strides w e s s') (he : e ≠ .timer) (hl : Listened w s)
    (hs : Checked w s.timers.heap s) : Listened w s' ∧ Checked w s'.timers.heap s' :=
  Framework.invariant (I := fun s => Listened w s ∧ Checked w s.timers.heap s)
    (fun hs h => ⟨hs.1.stride h, hs.2.stride hs.1 he h⟩) h ⟨hl, hs⟩

/-- Handling a timer changes no watched service that stays up. -/
theorem Strides.minded (h : Strides w .timer s s') {j : Instance} (hj : s'.instances[u]? = some j)
    (hm : Minded d j) : s.instances[u]? = some j := by
  induction h with
  | refl => exact hj
  | tail _ h ih => exact ih ((h.minded hj hm).resolve_right fun h => nomatch h.1)

/-- A check stops a watched service that has not been heard of for longer than
its interval, and otherwise the next one is due in time. -/
theorem checkWatchdog_checked {j : Instance} (hj : (checkWatchdog w u s).instances[u]? = some j)
    (hm : Minded d j) (hi : s.instances[u]? = some j) (hp : j.lastPing = some p) :
    s.kernel.now ≤ p + d ∧ ∃ x ∈ (checkWatchdog w u s).timers.heap, x.alarm = .watchdogCheck u ∧
      ∃ n < (checkWatchdog w u s).ticks, x.due ≤ p + 2 * d + (w n).passing := by
  obtain ⟨service, hsv, -, hw⟩ := hm.notify
  have hnow := turn_now w s
  simp only [checkWatchdog, hi, hsv, Option.bind_some, hw, hm.active, ne_eq, not_true, if_false] at hj ⊢
  split at hj
  · rcases stop_down hj with h | h <;> simp [hm.active, isIdle] at h
  · rename_i hx
    simp only [Instance.watchdogExpired, hm.active, hp, decide_true, Option.any_some, Bool.true_and,
      decide_eq_true_eq] at hx
    rw [if_neg (by simpa [Instance.watchdogExpired, hm.active, hp] using hx)]
    obtain ⟨tie, fd, e⟩ := schedule_due w d (.watchdogCheck u) (s.turn w)
    have ht := schedule_ticks w d (.watchdogCheck u) (s.turn w)
    refine ⟨by omega, { due := (s.turn w).kernel.now + (w (s.turn w).ticks).passing + d, alarm := .watchdogCheck u }, ?_,
      rfl, (s.turn w).ticks, ?_, ?_⟩
    · rw [armWatchdog, e]
      exact Deadline.mem_insert.mpr (.inl rfl)
    · rw [armWatchdog, ht]
      omega
    · show (s.turn w).kernel.now + (w (s.turn w).ticks).passing + d ≤ _
      omega

/-- Handling the alarms that fired, one by one. -/
theorem dispatch_checked (w : World) (l : List Entry) (s : Supervisor) (h : Checked w (s.timers.heap ++ l) s) :
    Checked w (dispatch w l s).timers.heap (dispatch w l s) := by
  induction l generalizing s with
  | nil => rwa [List.append_nil] at h
  | cons x l ih =>
    refine ih _ fun u j d p hj hm hp => ?_
    have hs := onAlarm_strides w x.alarm (s.update (·.setFired l))
    have ht : (s.update (·.setFired l)).ticks ≤ (onAlarm w x.alarm (s.update (·.setFired l))).ticks := Strides.ticks hs
    have hheap := Acts.heap (onAlarm_deeds w x.alarm (s.update (·.setFired l))).acts
    have hi := Strides.minded hs hj hm
    obtain ⟨y, hy, ha, n, hn, hd⟩ := h u j d p hi hm hp
    rcases List.mem_append.mp hy with hy | hy
    · exact ⟨y, List.mem_append_left _ (hheap hy), ha, n, hn.trans_le ht, hd⟩
    · rcases List.mem_cons.mp hy with rfl | hy
      · rw [ha] at hj ⊢
        obtain ⟨-, z, hz, h⟩ := checkWatchdog_checked hj hm hi hp
        exact ⟨z, List.mem_append_left _ hz, h⟩
      · exact ⟨y, List.mem_append_right _ hy, ha, n, hn.trans_le ht, hd⟩

/-- A check that fired stops a service that has not been heard of for longer
than its interval. -/
theorem dispatch_stops (w : World) (l : List Entry) (s : Supervisor) {x : Entry} (hx : x ∈ l)
    (ha : x.alarm = .watchdogCheck u) (hm : Minded d i) (hp : i.lastPing = some p) (hnow : p + d < s.kernel.now) :
    (dispatch w l s).instances[u]? ≠ some i := by
  induction l generalizing s with
  | nil => cases hx
  | cons y l ih =>
    intro hi
    have hs := onAlarm_strides w y.alarm (s.update (·.setFired l))
    have hj := Strides.minded (dispatch_strides w l _) hi hm
    rcases List.mem_cons.mp hx with rfl | hx
    · have hi₀ := Strides.minded hs hj hm
      rw [ha] at hj
      have := (checkWatchdog_checked hj hm hi₀ hp).1
      exact absurd hnow (Nat.not_lt.mpr this)
    · exact ih _ hx (hnow.trans_le (onAlarm_deeds w y.alarm (s.update (·.setFired l))).acts.time) hi

/-- What has expired is taken when the timerfd can be set. -/
theorem expired_manager (hw : ∀ n, (w n).timerfd = true) (s : Supervisor) :
    ∃ fd, (expired w s).toManager = (s.toManager.takeExpired (s.turn w).kernel.now).setFd fd := by
  obtain ⟨fd, h⟩ := armTimer_manager w ((s.turn w).update (·.takeExpired (s.turn w).kernel.now))
  refine ⟨fd, ?_⟩
  have hok : (armTimer w ((s.turn w).update (·.takeExpired (s.turn w).kernel.now))).1 = true := hw _
  rw [expired]
  simp only [hok, if_true]
  rw [h, update_toManager, turn_toManager]

theorem expired_now (hw : ∀ n, (w n).timerfd = true) (s : Supervisor) :
    (s.turn w).kernel.now ≤ (expired w s).kernel.now := by
  have hok : (armTimer w ((s.turn w).update (·.takeExpired (s.turn w).kernel.now))).1 = true := hw _
  rw [expired]
  simp only [hok, if_true]
  exact (Still.armTimer none w ((s.turn w).update _)).now

/-- A check that is due is made, and the next one is scheduled. -/
theorem onTimer_checked (hw : ∀ n, (w n).timerfd = true) (h : Checked w s.timers.heap s) :
    Checked w (onTimer w s).timers.heap (onTimer w s) := by
  obtain ⟨fd, e⟩ := expired_manager hw s
  refine dispatch_checked w _ _ (h.frame (fun x hx => ?_) (Strides.ticks (expired_strides w s)) fun hj hm =>
    Strides.minded (expired_strides w s) hj hm)
  rw [e]
  exact List.mem_append.mpr (Deadline.mem_expired_or_later.mpr hx).symm

/-! ## Every run -/

/-- In every reachable state each watched unit has its check. -/
theorem Reachable.checked (hw : ∀ n, (w n).timerfd = true) (hr : Reachable w s) :
    Listened w s ∧ Checked w s.timers.heap s := by
  obtain ⟨hierarchy, kernel, events, rfl⟩ := hr
  have hq : ∀ {u : Name} {i : Instance}, (queued w hierarchy kernel).instances[u]? = some i → i.state ≠ .active := by
    intro u i hi
    rw [(queued_fresh w hierarchy kernel).inst u i hi]
    nofun
  have hlog : ∀ {e : Call × Machine}, e ∈ (queued w hierarchy kernel).history → e.1.isWatch = false := fun he =>
    Call.isWatch_of_isWorld (queued_log w hierarchy kernel _ he)
  have h₀ : Listened w (queued w hierarchy kernel) := by
    refine ⟨fun he h => ?_, fun hi hs => absurd hs (hq hi), fun hi hs => absurd hs (hq hi), fun hsuf => ?_⟩
    · cases (hlog he).symm.trans h.isWatch
    · cases hlog (hsuf.subset (List.mem_cons_self ..))
  have hb : Listened w (boot w hierarchy kernel) ∧
      Checked w (boot w hierarchy kernel).timers.heap (boot w hierarchy kernel) :=
    Strides.checked (boot_strides w hierarchy kernel) nofun h₀ fun u i d p hi hm => absurd hm.active (hq hi)
  generalize boot w hierarchy kernel = s at hb
  induction events generalizing s with
  | nil => exact hb
  | cons e events ih =>
    refine ih _ ?_
    by_cases he : e = .timer
    · subst he
      exact ⟨Strides.listened (Supervisor.step_strides w .timer s) hb.1, onTimer_checked hw hb.2⟩
    · exact Strides.checked (Supervisor.step_strides w e s) he hb.1 hb.2

/-- The alarms stand in the order they are due. -/
theorem Reachable.sorted (hr : Reachable w s) : s.timers.heap.Pairwise (·.due ≤ ·.due) := by
  refine hr.invariant (I := fun s => s.timers.heap.Pairwise (·.due ≤ ·.due)) (fun hierarchy kernel => ?_)
    fun hs ht => ?_
  · rw [(queued_fresh w hierarchy kernel).heap]
    exact .nil
  · cases ht with
    | deed h => exact Acts.sorted h.acts hs
    | expire => exact Deadline.later_sorted hs
    | alarm => exact Acts.sorted (onAlarm_deeds w _ _).acts hs
    | shutdown hd =>
      obtain ⟨s₁, -, hm, h₂⟩ := beginShutdown_acts w _ hd
      refine Acts.sorted h₂ ?_
      rw [update_toManager, hm]
      exact hs
    | expireWall | lose | addHandle | insert | keep => exact hs

/-- A check that is due stops a service that has not been heard of for longer
than its interval. -/
theorem onTimer_stops (hw : ∀ n, (w n).timerfd = true) (hr : Reachable w s) (hi : s.instances[u]? = some i)
    (hm : Minded d i) (hp : i.lastPing = some p) {x : Entry} (hx : x ∈ s.timers.heap)
    (ha : x.alarm = .watchdogCheck u) (hd : x.due ≤ (s.turn w).kernel.now) (hnow : p + d < (s.turn w).kernel.now) :
    (onTimer w s).stateOf u ≠ some .active := by
  intro hs
  obtain ⟨j, hj, hs⟩ := Option.map_eq_some_iff.mp hs
  have hsteady := (run_tours w (r := false) s hr.fired hr.wall (show ∀ e ∈ [Event.timer], _ by simp)).1.steady.units u
  have hunit : j.unit = i.unit := by
    rw [show run w s [.timer] = onTimer w s from rfl, Manager.unitOf, Manager.unitOf, hi, hj] at hsteady
    exact Option.some.inj hsteady
  have hm' : Minded d j := ⟨hs, hunit ▸ hm.notify⟩
  obtain ⟨fd, e⟩ := expired_manager hw s
  cases hi.symm.trans (Strides.minded (onTimer_strides w s) hj hm')
  refine dispatch_stops w _ (expired w s) (x := x) ?_ ha hm hp (hnow.trans_le ?_) hj
  · rw [e]
    exact (Deadline.mem_expired_or_later.mpr hx).resolve_right fun h =>
      absurd hd (not_le.mpr (Deadline.lt_due_of_mem_later hr.sorted h))
  · exact expired_now hw s

/-- For a watched service that is up, some check is pending that is due at most
twice its interval, and one delay, after it was last heard of; and once a check
that is due is handled later than the interval after that, the service is not
up. No check stops a service that was heard of within its interval. -/
theorem hang_is_detected (hw : ∀ n, (w n).timerfd = true) (hr : Reachable w s) :
    (∀ (u : Name) (i : Instance) (d : Nat), s.instances[u]? = some i → Minded d i →
      ∃ p, LastHeard w u s.history p ∧ ∃ x ∈ s.timers.heap, x.alarm = .watchdogCheck u ∧
        (∃ n < s.ticks, x.due ≤ p + 2 * d + (w n).passing) ∧
          (x.due ≤ (s.turn w).kernel.now → p + d < (s.turn w).kernel.now →
            (step w s .timer).stateOf u ≠ some .active)) ∧
      ∀ {u m older}, (.hung u, m) :: older <:+ s.history → ∃ d, (m.serviceOf u).bind (·.watchdogSec) = some d ∧
        ∀ e ∈ older, ∀ t, HeardOf w u e t → t + d < m.kernel.now := by
  obtain ⟨hl, hc⟩ := hr.checked hw
  refine ⟨fun u i d hi hm => ?_, fun hsuf => hl.hung hsuf⟩
  obtain ⟨service, hsv, hty, -⟩ := hm.notify
  obtain ⟨p, hp, -, hmax⟩ := hl.last hi hm.active
  obtain ⟨x, hx, ha, hdue⟩ := hc u i d p hi hm hp
  exact ⟨p, ⟨hl.said hi hm.active hsv hty hp, hmax⟩, x, hx, ha, hdue, onTimer_stops hw hr hi hm hp hx ha⟩

/-- A `notify` service that is to be heard of every ten seconds. -/
def watchedUnit (name : Name) : Unit :=
  { name, description := "", kind := .service
      { ty := .notify, exec := ["/bin/" ++ name], restart := .no, watchdogSec := some (Duration.fromSecs 10) } }

/-- The service `a` becomes ready, and time passes until its watchdog check. -/
def silent : World :=
  scripted [(8, [.datagram { pid := 2, ready := true }]), (14, [.pass (Duration.fromSecs 11)])]

theorem hang_is_detected_sample :
    let s := run silent (booted silent [bootTarget ["a"], watchedUnit "a"]) [.notify]
    (∀ (u : Name) (i : Instance) (d : Nat), s.instances[u]? = some i → Minded d i →
      ∃ p, LastHeard silent u s.history p ∧ ∃ x ∈ s.timers.heap, x.alarm = .watchdogCheck u ∧
        (∃ n < s.ticks, x.due ≤ p + 2 * d + (silent n).passing) ∧
          (x.due ≤ (s.turn silent).kernel.now → p + d < (s.turn silent).kernel.now →
            (step silent s .timer).stateOf u ≠ some .active)) ∧
      ∀ {u m older}, (.hung u, m) :: older <:+ s.history → ∃ d, (m.serviceOf u).bind (·.watchdogSec) = some d ∧
        ∀ e ∈ older, ∀ t, HeardOf silent u e t → t + d < m.kernel.now :=
  hang_is_detected (fun _ => rfl) (run_reachable _ _ _)

/-- It is up, and stopped at that check. -/
example :
    let s := run silent (booted silent [bootTarget ["a"], watchedUnit "a"]) [.notify]
    s.stateOf "a" = some .active ∧ (step silent s .timer).stateOf "a" = some .deactivating := by
  decide +kernel

end Supervisor

end Oxinit
