import Oxinit.Proof.Arrivals
import Oxinit.Proof.Main

/-!
# The watchdog in the loop

What a tick does to the device (`Ticked`), and from it what a loop that comes
round in time does (`a_lively_loop_feeds_the_watchdog`): its writes are no
further apart than the driver allows, until the boot is found overdue. That is
judged by the turns of the loop (`the_loop_judges_the_boot`), and a device that
starves is never written to again.
-/

namespace Oxinit

namespace Hardware.Watchdog

open Oxinit.Watchdog (Policy Boot)

variable {wd : Watchdog} {a : Answer} {clock now latency f : Nat} {booted shuttingDown : Bool}

/-! ## A tick -/

/-- The policy as it is when the device's turn has come. -/
def judged (now : Nat) (booted shuttingDown : Bool) (p : Policy) : Policy :=
  ((if shuttingDown then p.beginShutdown else p).updateBoot now booted).2

theorem judged_eq (now : Nat) (booted shuttingDown : Bool) (p : Policy) :
    ∃ b s, judged now booted shuttingDown p = { p with boot := b, shuttingDown := s } := by
  unfold judged
  split
  · obtain ⟨b, h⟩ := Policy.updateBoot_snd p.beginShutdown now booted
    exact ⟨b, true, h⟩
  · obtain ⟨b, h⟩ := Policy.updateBoot_snd p now booted
    exact ⟨b, p.shuttingDown, h⟩

/-- What a tick does, `q` being what the policy has come to. -/
inductive Ticked (a : Answer) (now : Nat) (q : Policy) (wd : Watchdog) : Watchdog → Prop
  | opened (ho : q.isOpen = false) (ha : a.opens = true) : Ticked a now q wd
      { wd.touch .opened now with policy := (q.done now .open).opened now (applied a), device := true }
  | missing (ho : q.isOpen = false) : Ticked a now q wd
      { wd with policy := (q.done now .open).openFailed now, reportedMissing := true }
  | petted (ho : q.isOpen = true) (hb : q.boot ≠ .overdue) :
      Ticked a now q wd (pet { wd with policy := q.done now .pet } a now)
  | quiet (hd : q.isOpen = true → q.boot ≠ .overdue → q.due q.lastPet now = false) :
      Ticked a now q wd { wd with policy := q }

/-- What a tick does. -/
theorem tick_ticked (wd : Watchdog) (a : Answer) (clock : Nat) (booted shuttingDown : Bool) :
    Ticked a (clock - wd.started) (judged (clock - wd.started) booted shuttingDown wd.policy) wd
      (wd.tick a clock booted shuttingDown) := by
  unfold tick judged
  simp only [Policy.tick_eq]
  generalize clock - wd.started = now
  generalize (Policy.updateBoot now booted (if shuttingDown then wd.policy.beginShutdown else wd.policy)).2 = q
  cases hd : q.duty now with
  | nothing =>
    refine .quiet fun ho hb => ?_
    rw [← Bool.not_eq_true]
    exact fun h => by simp [Policy.duty_eq_pet.mpr ⟨ho, hb, h⟩] at hd
  | pet =>
    obtain ⟨ho, hb, -⟩ := Policy.duty_eq_pet.mp hd
    exact .petted ho hb
  | «open» =>
    have ho : q.isOpen = false := by
      unfold Policy.duty at hd
      grind
    simp only [«open»]
    split
    · next ha => exact .opened ho ha
    · exact .missing ho

/-! ## A device that is fed -/

/-- The last feeding was at `f`. A device that is open has been written to, and
is not due before an interval has passed; writes are that far apart, and
`latency`. -/
structure Fed (latency f : Nat) (wd : Watchdog) : Prop where
  device : wd.device = wd.policy.isOpen
  shut : wd.policy.isOpen = false → wd.touches = []
  held : wd.policy.isOpen = true → 0 < wd.policy.interval ∧ ∃ touch t rest, wd.touches = (touch, t) :: rest ∧
    wd.policy.lastPet = some t ∧ t ≤ f ∧ (wd.policy.boot ≠ .overdue → f < t + wd.policy.interval)
  spaced : wd.touches.IsChain fun next last => next.2 ≤ last.2 + wd.policy.interval + latency

/-- A tick comes no later than `latency` after a write is due. -/
def Timely (latency now : Nat) (p : Policy) : Prop :=
  p.isOpen = true → p.boot ≠ .overdue → ∀ t ∈ p.lastPet, now ≤ t + p.interval + latency

/-- How far apart writes are meant to be to a driver with this timeout. -/
def intervalFor : Option Nat → Nat
  | some secs => if 0 < secs then Watchdog.petInterval secs else Watchdog.unknownTimeoutInterval
  | none => Watchdog.unknownTimeoutInterval

theorem opened_interval (now : Nat) (applied : Option Nat) (p : Policy) :
    (p.opened now applied).interval = intervalFor applied := by
  cases applied <;> rfl

theorem intervalFor_pos (applied : Option Nat) : 0 < intervalFor applied := by
  unfold intervalFor
  simp only [Watchdog.petInterval, Watchdog.unknownTimeoutInterval, Duration.fromSecs]
  repeat' split
  all_goals omega

/-- A boot that is overdue stays so. -/
theorem judged_overdue (now : Nat) (booted shuttingDown : Bool) (h : wd.policy.boot = .overdue) :
    (judged now booted shuttingDown wd.policy).boot = .overdue := by
  have hq := Watchdog.beginShutdown_boot wd.policy shuttingDown
  unfold judged
  rw [Policy.updateBoot_of_settled (by rw [hq, h]; decide), hq, h]

/-- A tick that comes in time keeps the device fed. -/
theorem fed_tick (h : Fed latency f wd) (ha : a.writes = true) (hf : f ≤ clock - wd.started)
    (hl : Timely latency (clock - wd.started) wd.policy) :
    Fed latency (clock - wd.started) (wd.tick a clock booted shuttingDown) := by
  have ht := tick_ticked wd a clock booted shuttingDown
  have hover : wd.policy.boot = .overdue → _ := judged_overdue (clock - wd.started) booted shuttingDown
  obtain ⟨b, s, hq⟩ := judged_eq (clock - wd.started) booted shuttingDown wd.policy
  rw [hq] at ht hover
  generalize wd.tick a clock booted shuttingDown = wd' at ht
  generalize clock - wd.started = now at *
  cases ht with
  | opened ho =>
    have hnil := h.shut ho
    refine ⟨rfl, fun hc => (by cases hc), fun _ => ⟨intervalFor_pos _, .opened, now, [], ?_, rfl, le_rfl, fun _ => ?_⟩, ?_⟩
    · rw [touch, hnil]
    · exact Nat.lt_add_of_pos_right (intervalFor_pos _)
    · rw [touch, hnil]
      exact .singleton _
  | missing ho => exact ⟨h.device, h.shut, fun hc => (by cases hc.symm.trans ho), h.spaced⟩
  | petted ho hb =>
    have hdev : wd.device = true := h.device.trans ho
    obtain ⟨hi, touch, t, rest, htouch, hlast, -, -⟩ := h.held ho
    have hno : wd.policy.boot ≠ .overdue := mt hover hb
    have hdue := hl ho hno t hlast
    rw [pet, if_pos (by simp [hdev, ha])]
    refine ⟨hdev.trans ho.symm, fun hc => (by cases hc.symm.trans ho),
      fun _ => ⟨hi, .petted, now, wd.touches, rfl, rfl, le_rfl, fun _ => Nat.lt_add_of_pos_right hi⟩, ?_⟩
    have hs := h.spaced
    simp only [Watchdog.touch, htouch] at hs ⊢
    exact .cons_cons hdue hs
  | quiet hd =>
    refine ⟨h.device, h.shut, fun ho => ?_, h.spaced⟩
    obtain ⟨hi, touch, t, rest, htouch, hlast, hle, -⟩ := h.held ho
    refine ⟨hi, touch, t, rest, htouch, hlast, hle.trans hf, fun hb => ?_⟩
    have := hd ho hb
    simp only [Policy.due, hlast, Option.all_some, decide_eq_false_iff_not] at this
    dsimp only
    omega

/-- The interval is the one that the driver answered when it was opened. -/
theorem tick_interval (wd : Watchdog) (a : Answer) (clock : Nat) (booted shuttingDown : Bool) :
    (wd.tick a clock booted shuttingDown).started = wd.started ∧
      ((wd.tick a clock booted shuttingDown).policy.isOpen = true →
        wd.policy.isOpen = false ∧ (wd.tick a clock booted shuttingDown).policy.interval = intervalFor (applied a) ∨
          wd.policy.isOpen = true ∧ (wd.tick a clock booted shuttingDown).policy.interval = wd.policy.interval) := by
  have ht := tick_ticked wd a clock booted shuttingDown
  obtain ⟨b, s, hq⟩ := judged_eq (clock - wd.started) booted shuttingDown wd.policy
  rw [hq] at ht
  generalize wd.tick a clock booted shuttingDown = wd' at ht
  cases ht with
  | opened ho => exact ⟨rfl, fun _ => .inl ⟨ho, opened_interval ..⟩⟩
  | missing ho => exact ⟨rfl, fun h => .inr ⟨h, rfl⟩⟩
  | quiet => exact ⟨rfl, fun h => .inr ⟨h, rfl⟩⟩
  | petted ho =>
    unfold pet
    split
    · exact ⟨rfl, fun h => .inr ⟨ho, rfl⟩⟩
    · exact ⟨rfl, fun h => .inr ⟨ho, rfl⟩⟩

/-! ## A device that starves -/

/-- A tick judges the boot, whatever comes of the device. -/
theorem tick_judged (wd : Watchdog) (a : Answer) (clock : Nat) (booted shuttingDown : Bool) :
    (wd.tick a clock booted shuttingDown).policy.boot = (judged (clock - wd.started) booted shuttingDown wd.policy).boot ∧
      (wd.tick a clock booted shuttingDown).policy.config = wd.policy.config ∧
      (wd.tick a clock booted shuttingDown).policy.shuttingDown =
        (judged (clock - wd.started) booted shuttingDown wd.policy).shuttingDown := by
  have ht := tick_ticked wd a clock booted shuttingDown
  obtain ⟨b, s, hq⟩ := judged_eq (clock - wd.started) booted shuttingDown wd.policy
  rw [hq] at ht ⊢
  generalize wd.tick a clock booted shuttingDown = wd' at ht
  cases ht with
  | opened | missing | quiet => exact ⟨rfl, rfl, rfl⟩
  | petted =>
    unfold pet
    split <;> exact ⟨rfl, rfl, rfl⟩

/-- Nothing has been done to the device but, if that had yet to be, to open it. -/
inductive Starved (wd : Watchdog) : Watchdog → Prop
  | quiet {wd' : Watchdog} (ho : wd.policy.isOpen = true → wd'.policy.isOpen = true) (ht : wd'.touches = wd.touches) :
      Starved wd wd'
  | opened {wd' : Watchdog} {t : Nat} (ho : wd.policy.isOpen = false) (ho' : wd'.policy.isOpen = true)
      (ht : wd'.touches = (.opened, t) :: wd.touches) : Starved wd wd'

theorem Starved.trans {wd₁ wd₂ : Watchdog} (h : Starved wd wd₁) (h' : Starved wd₁ wd₂) : Starved wd wd₂ := by
  cases h with
  | quiet ho ht =>
    cases h' with
    | quiet ho' ht' => exact .quiet (ho' ∘ ho) (ht'.trans ht)
    | opened ho' ho'' ht' =>
      refine .opened ?_ ho'' (ht'.trans (by rw [ht]))
      rw [← Bool.not_eq_true] at ho' ⊢
      exact mt ho ho'
  | opened ho ho' ht =>
    cases h' with
    | quiet ho'' ht' => exact .opened ho (ho'' ho') (ht'.trans ht)
    | opened ho'' => cases ho'.symm.trans ho''

/-- A tick of an overdue device writes nothing. -/
theorem starved_tick (h : wd.policy.boot = .overdue) : Starved wd (wd.tick a clock booted shuttingDown) := by
  have ht := tick_ticked wd a clock booted shuttingDown
  have hover := judged_overdue (clock - wd.started) booted shuttingDown h
  obtain ⟨b, s, hq⟩ := judged_eq (clock - wd.started) booted shuttingDown wd.policy
  rw [hq] at ht hover
  generalize wd.tick a clock booted shuttingDown = wd' at ht
  cases ht with
  | opened ho => exact .opened ho rfl rfl
  | missing ho => exact .quiet id rfl
  | petted ho hb => exact absurd hover hb
  | quiet => exact .quiet id rfl

/-! ## A device that is held -/

/-- What is open has been opened, and has not been closed. -/
structure Held (wd : Watchdog) : Prop where
  device : wd.device = wd.policy.isOpen
  shut : wd.policy.isOpen = false → wd.touches = []
  kept : ∀ e ∈ wd.touches, e.1 = .opened ∨ e.1 = .petted

theorem Held.pet {wd : Watchdog} (h : Held wd) (a : Answer) (now : Nat) : Held (wd.pet a now) := by
  unfold Watchdog.pet
  split
  · next hd =>
    have hd : wd.device = true := (Bool.and_eq_true_iff.mp hd).1
    exact ⟨h.device, fun hs => (by cases hd.symm.trans (h.device.trans hs)), List.forall_mem_cons.mpr ⟨.inr rfl, h.kept⟩⟩
  · exact h

/-- A tick holds what is open. -/
theorem held_tick (h : Held wd) : Held (wd.tick a clock booted shuttingDown) := by
  have ht := tick_ticked wd a clock booted shuttingDown
  obtain ⟨b, s, hq⟩ := judged_eq (clock - wd.started) booted shuttingDown wd.policy
  rw [hq] at ht
  generalize wd.tick a clock booted shuttingDown = wd' at ht
  cases ht with
  | opened ho => exact ⟨rfl, fun hs => (by cases hs), List.forall_mem_cons.mpr ⟨.inl rfl, h.kept⟩⟩
  | missing ho => exact ⟨h.device, h.shut, h.kept⟩
  | petted ho hb =>
    apply Held.pet
    exact ⟨h.device, h.shut, h.kept⟩
  | quiet => exact ⟨h.device, h.shut, h.kept⟩

/-- How a device is left. -/
def Left (action : Action) (writes : Bool) (wd : Watchdog) : Prop :=
  if action = .reboot then Held wd ∧ (wd.device = true → writes = true → ∃ t rest, wd.touches = (.petted, t) :: rest)
  else wd.device = false ∧ (wd.touches = [] ∨ ∃ t rest, wd.touches = (if writes then .stopped else .closed, t) :: rest)

/-- How a release leaves the device. -/
theorem Held.release (h : Held wd) (action : Action) (a : Answer) (clock : Nat) :
    Left action a.writes (wd.release action a clock) := by
  unfold Left Watchdog.release Hardware.release
  by_cases hr : action = .reboot
  · simp only [hr, decide_true, ↓reduceIte]
    refine ⟨h.pet a _, fun hd hw => ?_⟩
    unfold Watchdog.pet at hd ⊢
    rw [hw, Bool.and_true] at hd ⊢
    split at hd
    · next hd' =>
      rw [if_pos hd']
      exact ⟨_, _, rfl⟩
    · next hd' => exact absurd hd hd'
  · simp only [hr, decide_false, Bool.false_eq_true, ↓reduceIte]
    split
    · exact ⟨rfl, .inr ⟨_, _, rfl⟩⟩
    · next hd =>
      rw [Bool.not_eq_true] at hd
      exact ⟨hd, .inl (h.shut (h.device.symm.trans hd))⟩

/-- How long an open and fed device lets the loop sleep. -/
theorem waitBound_le (clock : Nat) {t : Nat} (ho : wd.policy.isOpen = true) (hb : wd.policy.boot ≠ .overdue)
    (hl : wd.policy.lastPet = some t) :
    ∃ d, wd.waitBound clock = some d ∧ d ≤ t + wd.policy.interval - (clock - wd.started) := by
  have hn : wd.waitBound clock ≠ none := fun hn => hb (Policy.nextWake_eq_none.mp hn).2
  obtain ⟨d, hd⟩ := Option.ne_none_iff_exists'.mp hn
  refine ⟨d, hd, ?_⟩
  rw [waitBound, Policy.nextWake_eq, List.min?_eq_some_iff] at hd
  refine hd.2 _ (List.mem_map_of_mem (f := (· - (clock - wd.started))) (List.mem_append_left _ ?_))
  simp [Policy.deviceDeadline, Policy.dueAt, ho, hb, hl]

end Hardware.Watchdog

namespace Main

open Hardware (Answer)

variable {w : World} {j : Json} {k : Wake} {m : Main} {wd : Hardware.Watchdog} {latency f : Nat}

/-- The device's turn at the end of a wake-up. -/
theorem feed_watchdog (h : m.watchdog = some wd) : (feed w k m).watchdog = some (wd.tick k.device (feed w k m).now
    (wd.awaiting.any (feed w k m).supervisor.reached) (feed w k m).supervisor.shuttingDown) := by
  simp only [feed, h]
  rw [Supervisor.turn_toManager]

/-- The device's turn in a wake-up. -/
theorem awake_watchdog (h : m.watchdog = some wd) : (awake w j k m).watchdog =
    some (wd.tick k.device (awake w j k m).now (wd.awaiting.any (awake w j k m).supervisor.reached)
      (awake w j k m).supervisor.shuttingDown) :=
  feed_watchdog (((serve_handled w j k _).watchdog.trans (sleep_handled w m).watchdog).trans h)

/-- A turn after which the loop goes on. -/
theorem turn_eq (h : (turn w j k m).outcome = none) : m.outcome = none ∧ turn w j k m = (awake w j k m).settle w := by
  cases ho : m.outcome with
  | some o =>
    rw [turn_of_ended (by rw [ho]; rfl), ho] at h
    cases h
  | none =>
    have ht := turn_turned w j k ho
    generalize turn w j k m = m₁ at h ht
    cases ht with
    | failed => cases h
    | again => exact ⟨rfl, rfl⟩
    | last =>
      unfold finalize at h
      repeat' split at h
      all_goals cases h

theorem turn_watchdog (h : m.watchdog = some wd) (ho : (turn w j k m).outcome = none) : (turn w j k m).watchdog =
    some (wd.tick k.device (awake w j k m).now (wd.awaiting.any (awake w j k m).supervisor.reached)
      (awake w j k m).supervisor.shuttingDown) := by
  rw [(turn_eq ho).2]
  exact awake_watchdog h

theorem run_of_ended (h : m.outcome.isSome = true) (ks : List Wake) : run w j m ks = m :=
  List.foldlRecOn (motive := (· = m)) ks _ rfl fun m' hm k _ => by rw [hm, turn_of_ended h]

/-- A loop that still goes on has gone on after every turn. -/
theorem turn_outcome {ks : List Wake} (h : (run w j m (k :: ks)).outcome = none) : (turn w j k m).outcome = none := by
  rw [← Option.not_isSome_iff_eq_none]
  intro hs
  change (run w j (turn w j k m) ks).outcome = none at h
  rw [run_of_ended hs] at h
  rw [h] at hs
  cases hs

/-! ## A loop that comes round in time -/

/-- From one feeding to the next the loop takes no more than what it asked to
sleep, and `latency`; and the device takes what is written. The last feeding
was at `f`. -/
def Lively (w : World) (j : Json) (latency : Nat) : Nat → Main → List Wake → Prop
  | _, _, [] => True
  | f, m, k :: ks => (k.device.writes = true ∧ ∀ b ∈ (m.waitBound w).1, (awake w j k m).now ≤ f + b + latency) ∧
      Lively w j latency (awake w j k m).now (turn w j k m) ks

/-- The time of the last feeding. -/
def fedAt (w : World) (j : Json) : Nat → Main → List Wake → Nat
  | f, _, [] => f
  | _, m, k :: ks => fedAt w j (awake w j k m).now (turn w j k m) ks

def holds (m : Main) : Bool := m.watchdog.any (·.device)

/-- The wake-up in whose turn the device was opened last, and before it `o`. -/
def openedBy (w : World) (j : Json) : Option Wake → Main → List Wake → Option Wake
  | o, _, [] => o
  | o, m, k :: ks => openedBy w j (if !m.holds && (turn w j k m).holds then some k else o) (turn w j k m) ks

theorem mem_of_openedBy {o : Option Wake} {ks : List Wake} (h : openedBy w j o m ks = some k) :
    o = some k ∨ k ∈ ks := by
  induction ks generalizing o m with
  | nil => exact .inl h
  | cons k' ks ih =>
    rcases ih h with ho | hk
    · split at ho
      · exact .inr (Option.some.inj ho ▸ List.mem_cons_self ..)
      · exact .inl ho
    · exact .inr (List.mem_cons_of_mem _ hk)

/-- The device has been fed by a loop that goes on, at the interval that the
driver's answer makes to who opened it. -/
structure Feeds (latency f : Nat) (o : Option Wake) (wd : Hardware.Watchdog) (m : Main) : Prop where
  watchdog : m.watchdog = some wd
  started : wd.started ≤ f
  now : f ≤ m.now
  fed : wd.Fed latency (f - wd.started)
  interval : wd.policy.isOpen = true →
    ∃ k, o = some k ∧ wd.policy.interval = Hardware.Watchdog.intervalFor (Hardware.Watchdog.applied k.device)

theorem waitBound_watchdog {d : Nat} (h : m.watchdog = some wd)
    (hd : wd.waitBound (m.supervisor.turn w).kernel.now = some d) : ∃ b, (m.waitBound w).1 = some b ∧ b ≤ d := by
  simp only [waitBound, h, hd]
  exact exists_min?_le (by simp)

variable {o : Option Wake}

theorem Feeds.holds (h : Feeds latency f o wd m) : m.holds = wd.policy.isOpen := by
  rw [Main.holds, h.watchdog, Option.any_some, h.fed.device]

/-- A loop that comes round in time ticks in time. -/
theorem Feeds.timely (h : Feeds latency f o wd m)
    (hk : ∀ b ∈ (m.waitBound w).1, (awake w j k m).now ≤ f + b + latency) :
    Hardware.Watchdog.Timely latency ((awake w j k m).now - wd.started) wd.policy := by
  intro ho hb t ht
  obtain ⟨hi, touch, t', rest, htouch, hlast, hle, hdue⟩ := h.fed.held ho
  cases hlast.symm.trans ht
  obtain ⟨d, hd, hdle⟩ := Hardware.Watchdog.waitBound_le (m.supervisor.turn w).kernel.now ho hb hlast
  obtain ⟨b, hbound, hble⟩ := waitBound_watchdog h.watchdog hd
  have hlate := hk b hbound
  have hsleep := Supervisor.turn_now w m.supervisor
  have hnow := h.now
  have hstart := h.started
  have hdue := hdue hb
  simp only [Main.now] at hnow hlate ⊢
  omega

theorem Feeds.turn (h : Feeds latency f o wd m) (hr : Supervisor.Reachable w m.supervisor)
    (hw : k.device.writes = true) (hk : ∀ b ∈ (m.waitBound w).1, (awake w j k m).now ≤ f + b + latency)
    (ho : (turn w j k m).outcome = none) :
    Feeds latency (awake w j k m).now (if !m.holds && (turn w j k m).holds then some k else o)
      (wd.tick k.device (awake w j k m).now (wd.awaiting.any (awake w j k m).supervisor.reached)
        (awake w j k m).supervisor.shuttingDown) (turn w j k m) := by
  have hawake := awake_follows w j k m
  have hnow : f ≤ (awake w j k m).now := h.now.trans (hawake.now_le hr)
  obtain ⟨hstarted, hinterval⟩ := Hardware.Watchdog.tick_interval wd k.device (awake w j k m).now
    (wd.awaiting.any (awake w j k m).supervisor.reached) (awake w j k m).supervisor.shuttingDown
  have hfed : Hardware.Watchdog.Fed latency ((awake w j k m).now - wd.started)
      (wd.tick k.device (awake w j k m).now (wd.awaiting.any (awake w j k m).supervisor.reached)
        (awake w j k m).supervisor.shuttingDown) :=
    Hardware.Watchdog.fed_tick h.fed hw (Nat.sub_le_sub_right hnow _) (h.timely hk)
  rw [h.holds, (turn_eq ho).2]
  have hwatchdog : ((awake w j k m).settle w).watchdog = _ := awake_watchdog h.watchdog
  refine ⟨hwatchdog, ?_, (settle_follows w _).now_le (hawake.reachable hr), ?_, fun hopen => ?_⟩
  · rw [hstarted]
    exact h.started.trans hnow
  · rw [hstarted]
    exact hfed
  · rcases hinterval hopen with ⟨hshut, e⟩ | ⟨hheld, e⟩
    · refine ⟨k, if_pos ?_, e⟩
      rw [Main.holds, hwatchdog, Option.any_some, hfed.device, hopen, hshut]
      rfl
    · rw [if_neg (by simp [hheld]), e]
      exact h.interval hheld

theorem Feeds.run {ks : List Wake} (h : Feeds latency f o wd m) (hr : Supervisor.Reachable w m.supervisor)
    (hl : Lively w j latency f m ks) (ho : (run w j m ks).outcome = none) :
    ∃ wd, Feeds latency (fedAt w j f m ks) (openedBy w j o m ks) wd (run w j m ks) := by
  induction ks generalizing f m wd o with
  | nil => exact ⟨wd, h⟩
  | cons k ks ih =>
    obtain ⟨⟨hw, hk⟩, hl⟩ := hl
    exact ih (h.turn hr hw hk (turn_outcome ho)) ((turn_follows w j k m).reachable hr) hl ho

variable {config : Watchdog.Config} {control hierarchy : Bool} {kernel : Kernel}

theorem boot_reachable (environment : Environment) (config : Option Watchdog.Config) :
    Supervisor.Reachable w (boot w environment config control hierarchy kernel).supervisor :=
  ⟨hierarchy, kernel, [.syncSockets, .sleep], rfl⟩

/-- A machine's watchdog as it is configured. -/
theorem boot_feeds : Feeds latency (boot w .machine (some config) control hierarchy kernel).now none
    { policy := .new config, started := (boot w .machine (some config) control hierarchy kernel).now }
    (boot w .machine (some config) control hierarchy kernel) :=
  ⟨rfl, le_rfl, le_rfl, ⟨rfl, fun _ => rfl, fun h => (by cases h), .nil⟩, fun h => (by cases h)⟩

/-- A loop that comes round in time is not reset: its writes are no further
apart than an interval, half of what the driver took when the device was opened,
and as long as the boot is not overdue the next one is due before that. -/
theorem a_lively_loop_feeds_the_watchdog (w : World) (j : Json) (config : Watchdog.Config) (control hierarchy : Bool)
    (kernel : Kernel) (latency : Nat) (ks : List Wake) :
    let m₀ := boot w .machine (some config) control hierarchy kernel
    Lively w j latency m₀.now m₀ ks → (run w j m₀ ks).outcome = none →
      ∃ wd, (run w j m₀ ks).watchdog = some wd ∧ wd.Fed latency (fedAt w j m₀.now m₀ ks - wd.started) ∧
        (wd.device = true → ∃ k ∈ ks, openedBy w j none m₀ ks = some k ∧
          wd.policy.interval = Hardware.Watchdog.intervalFor (Hardware.Watchdog.applied k.device)) := by
  intro m₀ hl ho
  have hboot : Feeds latency m₀.now none { policy := .new config, started := m₀.now } m₀ := boot_feeds
  obtain ⟨wd, h⟩ := hboot.run (boot_reachable _ _) hl ho
  refine ⟨wd, h.watchdog, h.fed, fun hd => ?_⟩
  obtain ⟨k, hk, hi⟩ := h.interval (h.fed.device.symm.trans hd)
  exact ⟨k, (mem_of_openedBy hk).resolve_left nofun, hk, hi⟩

/-- Half a minute, which the driver takes. -/
def halfAMinute : Wake := { device := { setTimeout := some 30 } }

/-- Opened, and written to a quarter of a minute later. -/
theorem a_lively_loop_feeds_the_watchdog_sample :
    let w := scripted [(8, [.pass 15000000000])]
    let m₀ := boot w .machine (some ⟨"/dev/watchdog", 30, none⟩) true true (holding [bootTarget []])
    ∃ wd, (run w plainJson m₀ [halfAMinute, halfAMinute]).watchdog = some wd ∧
      wd.Fed 0 (fedAt w plainJson m₀.now m₀ [halfAMinute, halfAMinute] - wd.started) ∧
      (wd.device = true →
        ∃ k ∈ [halfAMinute, halfAMinute], openedBy w plainJson none m₀ [halfAMinute, halfAMinute] = some k ∧
        wd.policy.interval = Hardware.Watchdog.intervalFor (Hardware.Watchdog.applied k.device)) :=
  a_lively_loop_feeds_the_watchdog (scripted [(8, [.pass 15000000000])]) plainJson ⟨"/dev/watchdog", 30, none⟩ true true
    (holding [bootTarget []]) 0 [halfAMinute, halfAMinute]
    ⟨⟨rfl, by decide +kernel⟩, ⟨rfl, by decide +kernel⟩, trivial⟩ (by decide +kernel)

/-! ## The verdict -/

/-- What a turn has to say of the boot, if none before it has. -/
def judge (b : Watchdog.Boot) (started : Nat) (m : Main) : Option Watchdog.Event :=
  if m.supervisor.reached b.unit then some .bootConfirmed
  else if !m.supervisor.shuttingDown ∧ b.within ≤ m.now - started then some .bootOverdue
  else none

/-- The first turn that has something to say. -/
def verdict (w : World) (j : Json) (b : Watchdog.Boot) (started : Nat) : Main → List Wake → Option Watchdog.Event
  | _, [] => none
  | m, k :: ks => (judge b started (awake w j k m)).or (verdict w j b started (turn w j k m) ks)

/-- The policy has come to the verdict `v`. -/
structure Judges (b : Watchdog.Boot) (started : Nat) (v : Option Watchdog.Event) (wd : Hardware.Watchdog) (m : Main) :
    Prop where
  watchdog : m.watchdog = some wd
  started : wd.started = started
  config : wd.policy.config.boot = some b
  events : wd.policy.boot.events = v.toList
  shuttingDown : wd.policy.shuttingDown = true → m.supervisor.shuttingDown = true

theorem Follows.shuttingDown {signals : List Nat} {m' : Main} (h : Follows w signals m m')
    (hr : Supervisor.Reachable w m.supervisor) (hs : m.supervisor.shuttingDown = true) :
    m'.supervisor.shuttingDown = true := by
  obtain ⟨sd, hsd⟩ := Option.isSome_iff_exists.mp hs
  rw [Manager.shuttingDown, h.shutdown hr hsd]
  rfl

theorem awaiting_any {b : Watchdog.Boot} (hp : wd.policy.boot = .pending) (hc : wd.policy.config.boot = some b)
    (reached : Name → Bool) : wd.awaiting.any reached = reached b.unit := by
  rw [Hardware.Watchdog.awaiting, Watchdog.Policy.awaiting, hp, hc, Option.any_some]

/-- A turn judges the boot once. -/
theorem Judges.turn {b : Watchdog.Boot} {started : Nat} {v : Option Watchdog.Event} (h : Judges b started v wd m)
    (hr : Supervisor.Reachable w m.supervisor) (ho : (turn w j k m).outcome = none) :
    Judges b started (v.or (judge b started (awake w j k m))) (wd.tick k.device (awake w j k m).now
      (wd.awaiting.any (awake w j k m).supervisor.reached) (awake w j k m).supervisor.shuttingDown) (turn w j k m) := by
  have hdown := (awake_follows w j k m).shuttingDown hr
  rw [(turn_eq ho).2]
  have hwatchdog : ((awake w j k m).settle w).watchdog = _ := awake_watchdog h.watchdog
  have hsettle : ((awake w j k m).settle w).supervisor.shuttingDown = (awake w j k m).supervisor.shuttingDown := by
    rw [settle_toManager]
  generalize awake w j k m = m' at hdown hwatchdog hsettle ⊢
  obtain ⟨hboot, hconfig, hshut⟩ := Hardware.Watchdog.tick_judged wd k.device m'.now
    (wd.awaiting.any m'.supervisor.reached) m'.supervisor.shuttingDown
  obtain ⟨hstarted, -⟩ := Hardware.Watchdog.tick_interval wd k.device m'.now
    (wd.awaiting.any m'.supervisor.reached) m'.supervisor.shuttingDown
  -- The policy hears of a shutdown first.
  have hqb := Watchdog.beginShutdown_boot wd.policy m'.supervisor.shuttingDown
  have hqc : (if m'.supervisor.shuttingDown then wd.policy.beginShutdown else wd.policy).config.boot = some b := by
    rw [← h.config]
    split <;> rfl
  have hqs : (if m'.supervisor.shuttingDown then wd.policy.beginShutdown else wd.policy).shuttingDown =
      m'.supervisor.shuttingDown := by
    split
    · next hs => rw [hs]; rfl
    · next hs =>
      rw [Bool.not_eq_true] at hs
      rw [hs, ← Bool.not_eq_true]
      exact fun hp => by simp [hdown (h.shuttingDown hp)] at hs
  unfold Hardware.Watchdog.judged at hboot hshut
  generalize (if m'.supervisor.shuttingDown then wd.policy.beginShutdown else wd.policy) = q at hboot hshut hqb hqc hqs
  refine ⟨hwatchdog, hstarted.trans h.started, by rw [hconfig]; exact h.config, ?_, fun hs => ?_⟩
  · rw [hboot, Watchdog.Policy.updateBoot_events, hqb, h.events,
      Watchdog.Policy.updateBoot_fst hqc (a := ⟨.nothing, none⟩), hqb]
    cases v with
    | none =>
      have hp : wd.policy.boot = .pending := Watchdog.BootState.events_eq_nil.mp h.events
      rw [if_pos hp, awaiting_any hp h.config, hqs, h.started, Option.toList_none, List.append_nil, Option.none_or]
      rfl
    | some e =>
      have hp : wd.policy.boot ≠ .pending := fun hp => by
        have := h.events
        rw [hp] at this
        cases this
      rw [if_neg hp]
      rfl
  · rw [hshut] at hs
    obtain ⟨b', hb'⟩ := Watchdog.Policy.updateBoot_snd q (m'.now - wd.started) (wd.awaiting.any m'.supervisor.reached)
    rw [hb'] at hs
    rw [hsettle, ← hqs]
    exact hs

/-- The verdict of a run stands. -/
theorem Judges.run {b : Watchdog.Boot} {started : Nat} {v : Option Watchdog.Event} {ks : List Wake}
    (h : Judges b started v wd m) (hr : Supervisor.Reachable w m.supervisor) (ho : (run w j m ks).outcome = none) :
    ∃ wd, Judges b started (v.or (verdict w j b started m ks)) wd (run w j m ks) := by
  induction ks generalizing v m wd with
  | nil => exact ⟨wd, by rw [verdict, Option.or_none]; exact h⟩
  | cons k ks ih =>
    rw [verdict, ← Option.or_assoc]
    exact ih (h.turn hr (turn_outcome ho)) ((turn_follows w j k m).reachable hr) ho

/-- Nothing feeds a device again once the boot has been found overdue. -/
theorem starved_run {ks : List Wake} (h : m.watchdog = some wd) (hb : wd.policy.boot = .overdue)
    (ho : (run w j m ks).outcome = none) :
    ∃ wd', (run w j m ks).watchdog = some wd' ∧ wd.Starved wd' := by
  induction ks generalizing m wd with
  | nil => exact ⟨wd, h, .quiet id rfl⟩
  | cons k ks ih =>
    have hturn := turn_watchdog h (turn_outcome ho)
    obtain ⟨hboot, -⟩ := Hardware.Watchdog.tick_judged wd k.device (awake w j k m).now
      (wd.awaiting.any (awake w j k m).supervisor.reached) (awake w j k m).supervisor.shuttingDown
    obtain ⟨wd', hwd', hs⟩ := ih hturn (hboot.trans (Hardware.Watchdog.judged_overdue _ _ _ hb)) ho
    exact ⟨wd', hwd', (Hardware.Watchdog.starved_tick hb).trans hs⟩

/-- The first turn with something to say of the boot has the last word on it:
it is confirmed if the unit has come up by then, and if it is overdue nothing
is done to the device any more but, if that had yet to be, to open it. -/
theorem the_loop_judges_the_boot (w : World) (j : Json) (config : Watchdog.Config) (b : Watchdog.Boot)
    (hc : config.boot = some b) (control hierarchy : Bool) (kernel : Kernel) (ks : List Wake) :
    let m₀ := boot w .machine (some config) control hierarchy kernel
    let v := verdict w j b m₀.now m₀ ks
    (run w j m₀ ks).outcome = none → ∃ wd, (run w j m₀ ks).watchdog = some wd ∧ wd.policy.boot.events = v.toList ∧
      (v = some .bootOverdue → ∀ later, (run w j (run w j m₀ ks) later).outcome = none →
        ∃ wd', (run w j (run w j m₀ ks) later).watchdog = some wd' ∧ wd.Starved wd') := by
  intro m₀ v ho
  have hboot : (Watchdog.Policy.new config).boot.events = (none : Option Watchdog.Event).toList := by
    simp [Watchdog.Policy.new, hc, Watchdog.BootState.events]
  have h₀ : Judges b m₀.now none { policy := .new config, started := m₀.now } m₀ :=
    ⟨rfl, rfl, hc, hboot, fun h => (by cases h)⟩
  obtain ⟨wd, h⟩ := h₀.run (boot_reachable _ _) ho
  rw [Option.none_or] at h
  refine ⟨wd, h.watchdog, h.events, fun hv later hl => starved_run h.watchdog ?_ hl⟩
  rw [← Watchdog.BootState.mem_events, h.events, show verdict w j b m₀.now m₀ ks = _ from hv]
  exact List.mem_singleton_self _

/-- The unit that is waited for does not exist. -/
theorem the_loop_judges_the_boot_sample :
    let w := scripted [(8, [.pass 60000000000])]
    let m := run w plainJson (boot w .machine (some Supervisor.withinAMinute) true true (holding [bootTarget []]))
      [halfAMinute, halfAMinute]
    ∃ wd, m.watchdog = some wd ∧ wd.policy.boot.events = [.bootOverdue] := by
  intro w m
  obtain ⟨wd, hwd, he, -⟩ := the_loop_judges_the_boot w plainJson Supervisor.withinAMinute ⟨"a", 60000000000⟩ rfl true
    true (holding [bootTarget []]) [halfAMinute, halfAMinute] (by decide +kernel)
  exact ⟨wd, hwd, he.trans (by decide +kernel)⟩

/-! ## The end -/

/-- The wake-up `k` is the one in whose turn the loop ends. -/
def EndsAt (w : World) (j : Json) (m : Main) (ks : List Wake) (k : Wake) : Prop :=
  ∃ before after, ks = before ++ k :: after ∧ (run w j m before).outcome = none ∧
    (turn w j k (run w j m before)).outcome.isSome = true ∧ run w j m ks = turn w j k (run w j m before)

/-- A loop that has ended has ended at one of its wake-ups. -/
theorem exists_endsAt {ks : List Wake} (h : m.outcome = none) (he : (run w j m ks).outcome.isSome = true) :
    ∃ k, EndsAt w j m ks k := by
  induction ks generalizing m with
  | nil =>
    change m.outcome.isSome = true at he
    rw [h] at he
    cases he
  | cons k ks ih =>
    cases ho : (turn w j k m).outcome with
    | none =>
      obtain ⟨k', before, after, rfl, hb, ht, hrun⟩ := ih ho he
      exact ⟨k', k :: before, after, rfl, hb, ht, hrun⟩
    | some o =>
      have ho : (turn w j k m).outcome.isSome = true := by rw [ho]; rfl
      exact ⟨k, [], ks, rfl, h, ho, run_of_ended ho ks⟩

/-- The device of a loop that goes on is held. -/
theorem held_run {ks : List Wake} (h : m.watchdog = some wd) (hw : wd.Held) (ho : (run w j m ks).outcome = none) :
    ∃ wd', (run w j m ks).watchdog = some wd' ∧ wd'.Held := by
  induction ks generalizing m wd with
  | nil => exact ⟨wd, h, hw⟩
  | cons k ks ih =>
    exact ih (turn_watchdog h (turn_outcome ho)) (Hardware.Watchdog.held_tick hw) ho

theorem cannotContinue_outcome (m : Main) (action : Action) : m.cannotContinue.outcome ≠ some (.down action) := by
  intro h
  have h : (if m.environment.isUser then Outcome.exit 1 else .fallback) = .down action := Option.some.inj h
  split at h <;> cases h

/-- What `finalize` leaves of the device. -/
theorem finalize_leaves {action last : Action} (h : m.watchdog = some wd) (hw : wd.Held)
    (ho : (finalize k m action).outcome = some (.down last)) :
    ∃ wd', (finalize k m action).watchdog = some wd' ∧ Hardware.Watchdog.Left last k.device.writes wd' := by
  unfold finalize at ho ⊢
  split at ho
  · cases ho
  · next he =>
    rw [if_neg he]
    split at ho
    · next hr =>
      cases ho
      rw [if_pos hr]
      exact ⟨_, by rw [h]; rfl, hw.release ..⟩
    · exact absurd ho (cannotContinue_outcome _ _)

/-- A machine that has powered off or halted has stopped its watchdog; one that
reboots has left it running, and written to it last. -/
theorem the_watchdog_is_left_in_order (w : World) (j : Json) (config : Watchdog.Config) (control hierarchy : Bool)
    (kernel : Kernel) (ks : List Wake) (action : Action) :
    let m₀ := boot w .machine (some config) control hierarchy kernel
    (run w j m₀ ks).outcome = some (.down action) →
      ∃ k ∈ ks, EndsAt w j m₀ ks k ∧ ∃ wd, (run w j m₀ ks).watchdog = some wd ∧
        Hardware.Watchdog.Left action k.device.writes wd := by
  intro m₀ ho
  have h₀ : ({ policy := .new config, started := m₀.now } : Hardware.Watchdog).Held :=
    ⟨rfl, fun _ => rfl, fun _ he => (by cases he)⟩
  obtain ⟨k, before, after, hks, hb, hs, hrun⟩ := exists_endsAt (m := m₀) rfl (by rw [ho]; rfl)
  obtain ⟨wd, hwd, hheld⟩ := held_run (m := m₀) rfl h₀ hb
  refine ⟨k, by simp [hks], ⟨before, after, hks, hb, hs, hrun⟩, ?_⟩
  have hawake := awake_watchdog (w := w) (j := j) (k := k) hwd
  have ht := turn_turned w j k hb
  rw [hrun] at ho ⊢
  generalize Main.turn w j k (run w j m₀ before) = m₁ at ht ho
  cases ht with
  | failed => exact absurd ho (cannotContinue_outcome _ _)
  | again => cases ((awake_outcome w j k _).trans hb).symm.trans ho
  | last => exact finalize_leaves hawake (Hardware.Watchdog.held_tick hheld) ho

theorem the_watchdog_is_left_in_order_sample :
    let m₀ := boot calm .machine (some ⟨"/dev/watchdog", 30, none⟩) true true (holding [bootTarget []])
    ∃ k ∈ [halfAMinute, terminated], EndsAt calm plainJson m₀ [halfAMinute, terminated] k ∧
      ∃ wd, (run calm plainJson m₀ [halfAMinute, terminated]).watchdog = some wd ∧
        Hardware.Watchdog.Left .powerOff k.device.writes wd :=
  the_watchdog_is_left_in_order calm plainJson ⟨"/dev/watchdog", 30, none⟩ true true (holding [bootTarget []])
    [halfAMinute, terminated] .powerOff (by decide +kernel)

end Main

end Oxinit
