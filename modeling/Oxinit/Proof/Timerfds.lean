import Oxinit.Proof.Calendar
import Oxinit.Proof.Reachable

/-!
# Deadlines and their timerfds

Any sequence of calls of `Timers`, on both clocks. Nothing is lost from the
heaps or taken from them early, and a heap with a deadline in it has its
timerfd armed for it: the monotonic one later than the deadline by the time
between reading the clock and setting it (`lag`), which is set to a delay.
-/

namespace Oxinit

open Framework (Deadline)

/-- A call of `Timers`. -/
inductive TimersCall
  | schedule (delay : Nat) (alarm : Alarm)
  | scheduleAt (moment : Nat) (alarm : Alarm)
  | expired
  | wallExpired (now : Nat)

namespace TimersCall

variable (w : World)

def call (s : Supervisor) : TimersCall → Supervisor
  | .schedule delay alarm => (Supervisor.schedule w delay alarm s).2
  | .scheduleAt moment alarm => (Supervisor.scheduleAt w moment alarm s).2
  | .expired => Supervisor.expired w s
  | .wallExpired now => Supervisor.wallExpired w now s

/-- What the call puts on the monotonic clock, which it reads in its first turn. -/
def scheduled (s : Supervisor) : TimersCall → List Entry
  | .schedule delay alarm => [{ due := (s.turn w).kernel.now + delay, alarm }]
  | _ => []

/-- What the call puts on the wall clock. -/
def scheduledAt : TimersCall → List Entry
  | .scheduleAt moment alarm => [{ due := moment, alarm }]
  | _ => []

/-- What the call answers of the monotonic clock. -/
def returned (s : Supervisor) : TimersCall → List Entry
  | .expired => (Supervisor.expired w s).fired
  | _ => []

/-- What the call answers of the wall clock. -/
def wallReturned (s : Supervisor) : TimersCall → List Entry
  | .wallExpired now => (Supervisor.wallExpired w now s).fired
  | _ => []

/-- How long it takes from reading the clock to setting the monotonic timerfd, in
the last call that does: the two are its second and third turn. -/
def lag (s : Supervisor) (lag₀ : Nat) : TimersCall → Nat
  | .schedule .. | .expired => (((s.turn w).turn w).turn w).kernel.now - ((s.turn w).turn w).kernel.now
  | .scheduleAt .. | .wallExpired _ => lag₀

def run (s : Supervisor) (calls : List TimersCall) : Supervisor := calls.foldl (call w) s

/-- What a run collects, from one call after the other. -/
def along (f : Supervisor → TimersCall → List Entry) : Supervisor → List TimersCall → List Entry
  | _, [] => []
  | s, c :: calls => f s c ++ along f (c.call w s) calls

/-- The lag once a run is over. -/
def lags : Supervisor → Nat → List TimersCall → Nat
  | _, lag₀, [] => lag₀
  | s, lag₀, c :: calls => lags (c.call w s) (c.lag w s lag₀) calls

/-- Each alarm is in the answers or in its heap as often as it was scheduled. -/
def LosesNothing (s : Supervisor) (calls : List TimersCall) : Prop :=
  (along w (scheduled w) s calls).Perm (along w (returned w) s calls ++ (run w s calls).timers.heap)
    ∧ (along w (fun _ => scheduledAt) s calls).Perm
        (along w (wallReturned w) s calls ++ (run w s calls).timers.wallHeap)

/-- One call takes what is due and nothing else, in order, and leaves each heap
with its timerfd armed for every deadline in it, on the monotonic clock but for
the lag; a deadline that has passed fires at once. -/
structure Sound (s : Supervisor) (lag₀ : Nat) (c : TimersCall) : Prop where
  due : ∀ e ∈ c.returned w s, e.due ≤ (s.turn w).kernel.now
  wallDue : ∀ now, c = .wallExpired now → ∀ e ∈ c.wallReturned w s, e.due ≤ now
  order : (c.returned w s).Pairwise (·.due ≤ ·.due)
  wallOrder : (c.wallReturned w s).Pairwise (·.due ≤ ·.due)
  left : c = .expired → ∀ e ∈ (c.call w s).timers.heap, (s.turn w).kernel.now < e.due
  wallLeft : ∀ now, c = .wallExpired now → (w s.ticks).cancelled = false →
    ∀ e ∈ (c.call w s).timers.wallHeap, now < e.due
  fires : ∀ e ∈ (c.call w s).timers.heap, ∃ t, (c.call w s).timers.fd = some t
    ∧ t ≤ max (e.due + c.lag w s lag₀) ((c.call w s).kernel.now + 1)
  wallFires : ∀ e ∈ (c.call w s).timers.wallHeap, ∃ t, (c.call w s).timers.wallFd = some t ∧ t ≤ e.due

end TimersCall

namespace Supervisor

/-- The monotonic heap is in order, and its timerfd armed, later by `lag` than
the deadlines. -/
structure Ticking (s : Supervisor) (lag : Nat) : Prop where
  order : s.timers.heap.Pairwise (·.due ≤ ·.due)
  fires : ∀ e ∈ s.timers.heap, ∃ t, s.timers.fd = some t ∧ t ≤ max (e.due + lag) (s.kernel.now + 1)

/-- The wall clock's heap is in order, without the moment zero, and its timerfd armed. -/
structure WallTicking (s : Supervisor) : Prop where
  order : s.timers.wallHeap.Pairwise (·.due ≤ ·.due)
  positive : ∀ e ∈ s.timers.wallHeap, e.due ≠ 0
  fires : ∀ e ∈ s.timers.wallHeap, ∃ t, s.timers.wallFd = some t ∧ t ≤ e.due

end Supervisor

namespace Timers

variable {t : Timers} {e : Entry}

/-- The earliest deadline is at the front. -/
theorem head_le {q : List Entry} (h : q.Pairwise (·.due ≤ ·.due)) (he : e ∈ q) :
    ∃ x, q.head? = some x ∧ x ∈ q ∧ x.due ≤ e.due := by
  cases q with
  | nil => cases he
  | cons x q =>
    refine ⟨x, rfl, List.mem_cons_self .., ?_⟩
    rcases List.mem_cons.mp he with rfl | he
    · exact Nat.le_refl _
    · exact (List.pairwise_cons.mp h).1 e he

theorem delay_fires (h : t.heap.Pairwise (·.due ≤ ·.due)) (he : e ∈ t.heap) (now : Nat) :
    ∃ d, t.delay now = some d ∧ d ≤ max (e.due - now) 1 := by
  obtain ⟨x, hx, -, hle⟩ := head_le h he
  exact ⟨_, by rw [delay, hx, Option.map_some], by omega⟩

/-- The moment zero would disarm the timerfd. -/
theorem earliestWall_fires (h : t.wallHeap.Pairwise (·.due ≤ ·.due)) (hpos : ∀ x ∈ t.wallHeap, x.due ≠ 0)
    (he : e ∈ t.wallHeap) : ∃ fires, t.earliestWall = some fires ∧ fires ≤ e.due := by
  obtain ⟨x, hx, hmem, hle⟩ := head_le h he
  exact ⟨x.due, by simp [earliestWall, hx, hpos x hmem], hle⟩

end Timers

namespace Supervisor

variable {w : World} {s : Supervisor}

/-! ## What each call does -/

/-- What setting the timerfd leaves. -/
theorem setTimer_timers (hw : ∀ n, (w n).timerfd = true) (delay : Option Nat) (s : Supervisor) :
    (setTimer w delay s).1 = true
      ∧ (setTimer w delay s).2.timers = { s.timers with fd := delay.map ((s.turn w).kernel.now + ·) }
      ∧ (setTimer w delay s).2.fired = s.fired := by
  simp only [setTimer, hw, if_true]
  exact ⟨trivial, by rw [update_toManager, Manager.setFd, turn_toManager],
    by rw [update_toManager, Manager.setFd, turn_toManager]⟩

theorem armTimer_timers (hw : ∀ n, (w n).timerfd = true) (s : Supervisor) :
    (armTimer w s).1 = true
      ∧ (armTimer w s).2.timers
          = { s.timers with fd := (s.timers.delay (s.turn w).kernel.now).map (((s.turn w).turn w).kernel.now + ·) }
      ∧ (armTimer w s).2.fired = s.fired := by
  obtain ⟨hok, ht, hf⟩ := setTimer_timers hw ((s.turn w).timers.delay (s.turn w).kernel.now) (s.turn w)
  simp only [turn_toManager] at ht hf
  exact ⟨hok, by rw [armTimer, turn_toManager]; exact ht, by rw [armTimer, turn_toManager]; exact hf⟩

theorem armWall_timers (hw : ∀ n, (w n).timerfd = true) (s : Supervisor) :
    (armWall w s).1 = true
      ∧ (armWall w s).2.timers = { s.timers with wallFd := s.timers.earliestWall }
      ∧ (armWall w s).2.fired = s.fired ∧ (armWall w s).2.kernel = (s.turn w).kernel := by
  simp only [armWall, hw, if_true]
  exact ⟨trivial, by rw [update_toManager, Manager.setWallFd, turn_toManager],
    by rw [update_toManager, Manager.setWallFd, turn_toManager], rfl⟩

/-- It fires in time for what is in the heap. -/
theorem armTimer_ticking (hw : ∀ n, (w n).timerfd = true) (h : s.timers.heap.Pairwise (·.due ≤ ·.due)) :
    Ticking (armTimer w s).2 (((s.turn w).turn w).kernel.now - (s.turn w).kernel.now) := by
  obtain ⟨-, ht, -⟩ := armTimer_timers hw s
  refine ⟨by rwa [ht], fun e he => ?_⟩
  rw [ht] at he ⊢
  rw [armTimer_kernel]
  obtain ⟨d, hd, hle⟩ := Timers.delay_fires h he (s.turn w).kernel.now
  have hset := turn_now w (s.turn w)
  exact ⟨_, by rw [hd, Option.map_some], by omega⟩

theorem armWall_ticking (hw : ∀ n, (w n).timerfd = true) (h : s.timers.wallHeap.Pairwise (·.due ≤ ·.due))
    (hpos : ∀ e ∈ s.timers.wallHeap, e.due ≠ 0) : WallTicking (armWall w s).2 := by
  obtain ⟨-, ht, -, -⟩ := armWall_timers hw s
  refine ⟨by rwa [ht], by rwa [ht], fun e he => ?_⟩
  rw [ht] at he ⊢
  exact Timers.earliestWall_fires h hpos he

/-- Time passing only brings a deadline nearer. -/
theorem Ticking.later {s' : Supervisor} {lag : Nat} (h : Ticking s lag) (ht : s'.timers.heap = s.timers.heap)
    (hfd : s'.timers.fd = s.timers.fd) (hnow : s.kernel.now ≤ s'.kernel.now) : Ticking s' lag := by
  refine ⟨ht ▸ h.order, fun e he => ?_⟩
  obtain ⟨t, hfires, hle⟩ := h.fires e (ht ▸ he)
  exact ⟨t, hfd.trans hfires, by omega⟩

theorem WallTicking.same {s' : Supervisor} (h : WallTicking s) (ht : s'.timers.wallHeap = s.timers.wallHeap)
    (hfd : s'.timers.wallFd = s.timers.wallFd) : WallTicking s' :=
  ⟨ht ▸ h.order, ht ▸ h.positive, fun e he => hfd ▸ h.fires e (ht ▸ he)⟩

theorem turn_kernel_congr {s' : Supervisor} (hk : s.kernel = s'.kernel) (ht : s.ticks = s'.ticks) :
    (s.turn w).kernel = (s'.turn w).kernel := by
  rw [turn_kernel, turn_kernel, hk, ht]

/-- What `schedule` leaves of the heap. -/
theorem schedule_timers (hw : ∀ n, (w n).timerfd = true) (delay : Nat) (alarm : Alarm) (s : Supervisor) :
    (∃ tie, (schedule w delay alarm s).2.timers.heap
        = Deadline.insert tie { due := (s.turn w).kernel.now + delay, alarm } s.timers.heap)
      ∧ (schedule w delay alarm s).2.timers.wallHeap = s.timers.wallHeap
      ∧ (schedule w delay alarm s).2.timers.wallFd = s.timers.wallFd
      ∧ ∀ lag, s.Ticking lag → Ticking (schedule w delay alarm s).2 (TimersCall.lag w s lag (.schedule delay alarm)) := by
  have hs : ∀ x, (((s.note (.schedule alarm delay)).turn w).update (·.push (w s.ticks).tie x)).timers
      = { s.timers with heap := Deadline.insert (w s.ticks).tie x s.timers.heap } := fun x => by
    rw [update_toManager, Manager.push, turn_toManager, note_toMachine]
  have hk : ((s.note (.schedule alarm delay)).turn w).kernel = (s.turn w).kernel := turn_kernel_congr rfl rfl
  simp only [schedule, hk]
  generalize hx : ({ due := (s.turn w).kernel.now + delay, alarm } : Entry) = x
  have hk₁ : ((((s.note (.schedule alarm delay)).turn w).update (·.push (w s.ticks).tie x)).turn w).kernel
      = ((s.turn w).turn w).kernel := turn_kernel_congr hk rfl
  have hk₂ : (((((s.note (.schedule alarm delay)).turn w).update (·.push (w s.ticks).tie x)).turn w).turn w).kernel
      = (((s.turn w).turn w).turn w).kernel := turn_kernel_congr hk₁ rfl
  obtain ⟨-, ht, -⟩ :=
    armTimer_timers hw (((s.note (.schedule alarm delay)).turn w).update (·.push (w s.ticks).tie x))
  rw [ht, hs]
  refine ⟨⟨_, rfl⟩, rfl, rfl, fun lag h => ?_⟩
  rw [TimersCall.lag, ← hk₁, ← hk₂]
  refine armTimer_ticking hw ?_
  rw [hs]
  exact Deadline.insert_sorted h.order

/-- What `schedule_at` leaves of the other. -/
theorem scheduleAt_timers (hw : ∀ n, (w n).timerfd = true) (moment : Nat) (alarm : Alarm) (s : Supervisor) :
    (∃ tie, (scheduleAt w moment alarm s).2.timers.wallHeap
        = Deadline.insert tie { due := moment, alarm } s.timers.wallHeap)
      ∧ (scheduleAt w moment alarm s).2.timers.heap = s.timers.heap
      ∧ (scheduleAt w moment alarm s).2.timers.fd = s.timers.fd
      ∧ s.kernel.now ≤ (scheduleAt w moment alarm s).2.kernel.now
      ∧ (s.WallTicking → moment ≠ 0 → WallTicking (scheduleAt w moment alarm s).2) := by
  obtain ⟨-, ht, -, hk⟩ := armWall_timers hw
    ((s.note (.scheduleAt alarm moment)).update (·.pushWall (w s.ticks).tie { due := moment, alarm }))
  simp only [scheduleAt]
  rw [ht, hk]
  refine ⟨⟨_, rfl⟩, rfl, rfl, turn_now w ((s.note _).update _), fun h h0 => ?_⟩
  refine armWall_ticking hw (Deadline.insert_sorted h.order) fun e he => ?_
  rcases Deadline.mem_insert.mp he with rfl | he
  · exact h0
  · exact h.positive e he

theorem expired_timers (hw : ∀ n, (w n).timerfd = true) (s : Supervisor) :
    (expired w s).timers.heap = Deadline.later (s.turn w).kernel.now s.timers.heap
      ∧ (expired w s).fired = Deadline.expired (s.turn w).kernel.now s.timers.heap
      ∧ (expired w s).timers.wallHeap = s.timers.wallHeap ∧ (expired w s).timers.wallFd = s.timers.wallFd
      ∧ ∀ lag, s.Ticking lag → Ticking (expired w s) (TimersCall.lag w s lag .expired) := by
  obtain ⟨hok, ht, hf⟩ := armTimer_timers hw ((s.turn w).update (·.takeExpired (s.turn w).kernel.now))
  simp only [expired, hok, if_true]
  have hs : ((s.turn w).update (·.takeExpired (s.turn w).kernel.now)).toManager
      = s.toManager.takeExpired (s.turn w).kernel.now := by
    rw [update_toManager, turn_toManager]
  rw [ht, hf, hs]
  refine ⟨rfl, rfl, rfl, rfl, fun lag h => ?_⟩
  have hk₁ : (((s.turn w).update (·.takeExpired (s.turn w).kernel.now)).turn w).kernel = ((s.turn w).turn w).kernel :=
    turn_kernel_congr rfl rfl
  have hk₂ : ((((s.turn w).update (·.takeExpired (s.turn w).kernel.now)).turn w).turn w).kernel
      = (((s.turn w).turn w).turn w).kernel := turn_kernel_congr hk₁ rfl
  rw [TimersCall.lag, ← hk₁, ← hk₂]
  refine armTimer_ticking hw ?_
  rw [hs]
  exact Deadline.later_sorted h.order

theorem wallExpired_timers (hw : ∀ n, (w n).timerfd = true) (now : Nat) (s : Supervisor) :
    ((w s.ticks).cancelled = false ∧ (wallExpired w now s).timers.wallHeap = Deadline.later now s.timers.wallHeap
        ∧ (wallExpired w now s).fired = Deadline.expired now s.timers.wallHeap
      ∨ (w s.ticks).cancelled = true ∧ (wallExpired w now s).timers.wallHeap = s.timers.wallHeap
        ∧ (wallExpired w now s).fired = [])
      ∧ (wallExpired w now s).timers.heap = s.timers.heap ∧ (wallExpired w now s).timers.fd = s.timers.fd
      ∧ s.kernel.now ≤ (wallExpired w now s).kernel.now
      ∧ (s.WallTicking → WallTicking (wallExpired w now s)) := by
  have hs : (s.turn w).timers = s.timers := by rw [turn_toManager]
  unfold wallExpired
  cases hc : (w s.ticks).cancelled with
  | true =>
    obtain ⟨-, ht, -, hk⟩ := armWall_timers hw (s.turn w)
    simp only [if_true]
    rw [update_toManager, update_kernel, Manager.setFired, hk]
    dsimp only
    rw [ht, hs]
    refine ⟨.inr ⟨trivial, rfl, rfl⟩, rfl, rfl, Nat.le_trans (turn_now w s) (turn_now w _), fun h => ?_⟩
    have harm := armWall_ticking hw (hs ▸ h.order) (hs ▸ h.positive)
    exact harm.same rfl rfl
  | false =>
    obtain ⟨hok, ht, hf, hk⟩ := armWall_timers hw ((s.turn w).update (·.takeWallExpired now))
    have htaken : ((s.turn w).update (·.takeWallExpired now)).toManager = s.toManager.takeWallExpired now := by
      rw [update_toManager, turn_toManager]
    simp only [hok, Bool.false_eq_true, if_true, if_false]
    rw [ht, hf, hk, htaken]
    refine ⟨.inl ⟨trivial, rfl, rfl⟩, rfl, rfl,
      Nat.le_trans (turn_now w s) (turn_now w ((s.turn w).update _)), fun h => armWall_ticking hw ?_ ?_⟩
    · rw [htaken]
      exact Deadline.later_sorted h.order
    · rw [htaken]
      exact fun e he => h.positive e (Deadline.mem_expired_or_later.mp (.inr he))

/-! ## Runs -/

/-- Every call keeps the monotonic timerfd armed. -/
theorem Ticking.call (hw : ∀ n, (w n).timerfd = true) {lag : Nat} (h : s.Ticking lag) (c : TimersCall) :
    (c.call w s).Ticking (c.lag w s lag) := by
  cases c with
  | schedule delay alarm => exact (schedule_timers hw delay alarm s).2.2.2 lag h
  | scheduleAt moment alarm =>
    obtain ⟨-, ht, hfd, hnow, -⟩ := scheduleAt_timers hw moment alarm s
    exact h.later ht hfd hnow
  | expired => exact (expired_timers hw s).2.2.2.2 lag h
  | wallExpired now =>
    obtain ⟨-, ht, hfd, hnow, -⟩ := wallExpired_timers hw now s
    exact h.later ht hfd hnow

/-- So does every call the other, but for the moment zero. -/
theorem WallTicking.call (hw : ∀ n, (w n).timerfd = true) (h : s.WallTicking) {c : TimersCall}
    (hc : ∀ alarm, c ≠ .scheduleAt 0 alarm) : (c.call w s).WallTicking := by
  cases c with
  | schedule delay alarm =>
    obtain ⟨-, ht, hfd, -⟩ := schedule_timers hw delay alarm s
    exact h.same ht hfd
  | scheduleAt moment alarm =>
    obtain ⟨-, -, -, -, hkeeps⟩ := scheduleAt_timers hw moment alarm s
    exact hkeeps h fun h0 => hc alarm (by rw [h0])
  | expired =>
    obtain ⟨-, -, ht, hfd, -⟩ := expired_timers hw s
    exact h.same ht hfd
  | wallExpired now => exact (wallExpired_timers hw now s).2.2.2.2 h

end Supervisor

namespace TimersCall

open Supervisor

variable {w : World} {s : Supervisor} {c : TimersCall} {calls : List TimersCall}

theorem sound (hw : ∀ n, (w n).timerfd = true) {lag : Nat} (h : s.Ticking lag) (hwall : s.WallTicking)
    (hc : ∀ alarm, c ≠ .scheduleAt 0 alarm) : c.Sound w s lag where
  due e he := by
    cases c with
    | expired =>
      rw [returned, (expired_timers hw s).2.1] at he
      exact Deadline.due_of_mem_expired he
    | _ => cases he
  wallDue now hnow e he := by
    subst hnow
    rw [wallReturned] at he
    rcases (wallExpired_timers hw now s).1 with ⟨-, -, hf⟩ | ⟨-, -, hf⟩
    · rw [hf] at he
      exact Deadline.due_of_mem_expired he
    · rw [hf] at he
      cases he
  order := by
    cases c with
    | expired =>
      rw [returned, (expired_timers hw s).2.1]
      exact h.order.sublist (List.takeWhile_sublist _)
    | _ => exact .nil
  wallOrder := by
    cases c with
    | wallExpired now =>
      rw [wallReturned]
      rcases (wallExpired_timers hw now s).1 with ⟨-, -, hf⟩ | ⟨-, -, hf⟩
      · rw [hf]
        exact hwall.order.sublist (List.takeWhile_sublist _)
      · rw [hf]
        exact .nil
    | _ => exact .nil
  left he := by
    subst he
    rw [call, (expired_timers hw s).1]
    exact fun e he => Deadline.lt_due_of_mem_later h.order he
  wallLeft now he hset := by
    subst he
    rcases (wallExpired_timers hw now s).1 with ⟨-, hleft, -⟩ | ⟨ht, -⟩
    · rw [call, hleft]
      exact fun e he => Deadline.lt_due_of_mem_later hwall.order he
    · rw [hset] at ht
      cases ht
  fires := (h.call hw c).fires
  wallFires := (hwall.call hw hc).fires

/-- What is taken and what is left is what was there and what is added. -/
theorem perm (hw : ∀ n, (w n).timerfd = true) (s : Supervisor) (c : TimersCall) :
    (c.scheduled w s ++ s.timers.heap).Perm (c.returned w s ++ (c.call w s).timers.heap) := by
  cases c with
  | schedule delay alarm =>
    obtain ⟨⟨tie, hheap⟩, -⟩ := schedule_timers hw delay alarm s
    exact hheap ▸ (Deadline.insert_perm tie _ _).symm
  | scheduleAt moment alarm =>
    obtain ⟨-, hheap, -⟩ := scheduleAt_timers hw moment alarm s
    exact hheap ▸ .refl _
  | expired =>
    obtain ⟨hleft, hf, -⟩ := expired_timers hw s
    simp only [scheduled, returned, call, hleft, hf, Deadline.expired_append_later, List.nil_append, List.Perm.refl]
  | wallExpired now =>
    obtain ⟨-, hheap, -⟩ := wallExpired_timers hw now s
    exact hheap ▸ .refl _

theorem wall_perm (hw : ∀ n, (w n).timerfd = true) (s : Supervisor) (c : TimersCall) :
    (c.scheduledAt ++ s.timers.wallHeap).Perm (c.wallReturned w s ++ (c.call w s).timers.wallHeap) := by
  cases c with
  | schedule delay alarm =>
    obtain ⟨-, hheap, -⟩ := schedule_timers hw delay alarm s
    exact hheap ▸ .refl _
  | scheduleAt moment alarm =>
    obtain ⟨⟨tie, hheap⟩, -⟩ := scheduleAt_timers hw moment alarm s
    exact hheap ▸ (Deadline.insert_perm tie _ _).symm
  | expired =>
    obtain ⟨-, -, hheap, -⟩ := expired_timers hw s
    exact hheap ▸ .refl _
  | wallExpired now =>
    simp only [scheduledAt, wallReturned, call, List.nil_append]
    rcases (wallExpired_timers hw now s).1 with ⟨-, hleft, hf⟩ | ⟨-, hleft, hf⟩
    · rw [hleft, hf, Deadline.expired_append_later]
    · rw [hleft, hf, List.nil_append]

/-- What no call loses, no run loses. -/
theorem along_perm {f g : Supervisor → TimersCall → List Entry} {heap : Supervisor → List Entry}
    (h : ∀ s c, (f s c ++ heap s).Perm (g s c ++ heap (c.call w s))) (calls : List TimersCall) (s : Supervisor) :
    (along w f s calls ++ heap s).Perm (along w g s calls ++ heap (run w s calls)) := by
  induction calls generalizing s with
  | nil => exact .refl _
  | cons c calls ih =>
    simp only [along, List.append_assoc]
    have hone := (h s c).append_left (along w f (c.call w s) calls)
    have hrest := (ih (c.call w s)).append_left (g s c)
    exact (List.perm_append_comm_assoc ..).trans (hone.trans ((List.perm_append_comm_assoc ..).trans hrest))

/-- After every run of calls both timerfds fire in time. -/
theorem run_ticking (hw : ∀ n, (w n).timerfd = true) {lag : Nat} (h : s.Ticking lag) (hwall : s.WallTicking)
    (hc : ∀ alarm, .scheduleAt 0 alarm ∉ calls) :
    (run w s calls).Ticking (lags w s lag calls) ∧ (run w s calls).WallTicking := by
  induction calls generalizing s lag with
  | nil => exact ⟨h, hwall⟩
  | cons c calls ih =>
    refine ih (h.call hw c) (hwall.call hw fun alarm he => hc alarm ?_) fun alarm hm => hc alarm ?_
    · exact he ▸ List.mem_cons_self ..
    · exact List.mem_cons_of_mem _ hm

/-- No deadline is lost, early or out of order, as long as none is for the
moment zero, which nothing schedules (`Supervisor.Reachable.moments`). -/
theorem no_deadline_is_lost (hw : ∀ n, (w n).timerfd = true) (hs : s.timers = {}) (before : List TimersCall)
    (c : TimersCall) (hc : ∀ alarm, .scheduleAt 0 alarm ∉ before ++ [c]) :
    c.Sound w (run w s before) (lags w s 0 before) ∧ LosesNothing w s (before ++ [c]) := by
  have hticking : s.Ticking 0 := ⟨by simp [hs], by simp [hs]⟩
  have hwall : s.WallTicking := ⟨by simp [hs], by simp [hs], by simp [hs]⟩
  obtain ⟨hb, hbw⟩ := run_ticking hw hticking hwall fun alarm hm => hc alarm (List.mem_append_left _ hm)
  have hperm := along_perm (perm hw) (before ++ [c]) s
  have hwperm := along_perm (wall_perm hw) (before ++ [c]) s
  rw [hs, List.append_nil] at hperm hwperm
  exact ⟨sound hw hb hbw fun alarm he => hc alarm (by simp [he]), hperm, hwperm⟩

theorem no_deadline_is_lost_sample :
    let before := [schedule 5 (.restart "a"), scheduleAt 7 (.timerElapsed "t"), expired]
    Sound calm (run calm {} before) (lags calm {} 0 before) (wallExpired 9)
      ∧ LosesNothing calm {} (before ++ [wallExpired 9]) :=
  no_deadline_is_lost (fun _ => rfl) rfl _ (wallExpired 9) (by simp)

/-- A nanosecond passes between reading the clock and setting the timerfd to a
delay, and it fires a nanosecond after the deadline. -/
theorem armed_after_the_deadline :
    let w := movesAt 2 [.pass 1]
    let s := call w {} (schedule 5 (.restart "a"))
    (∀ n, (w n).timerfd = true) ∧ s.timers.heap = [{ due := 5, alarm := .restart "a" }] ∧ s.timers.fd = some 6
      ∧ ¬∀ e ∈ s.timers.heap, ∃ t, s.timers.fd = some t ∧ t ≤ max e.due (s.kernel.now + 1) := by
  refine ⟨fun n => ?_, rfl, rfl, fun h => ?_⟩
  · simp only [movesAt]
    split <;> rfl
  · obtain ⟨t, ht, hle⟩ := h { due := 5, alarm := .restart "a" } (List.mem_singleton_self _)
    cases ht
    exact absurd hle (by decide)

end TimersCall

/-! ## What is scheduled -/

theorem Schedule.sooner_moment {delay moment : Option Nat} {now t : Nat} (h : sooner delay moment now = some (.at t)) :
    moment = some t := by
  unfold sooner at h
  split at h
  · split at h <;> cases h
    rfl
  · cases h
  · cases h
    rfl
  · cases h

theorem Schedule.calendarAt_pos {s : Schedule} {now t : Nat} (h : s.calendarAt now = some t) : 0 < t := by
  obtain ⟨c, -, rfl⟩ := Option.map_eq_some_iff.mp h
  exact Nat.lt_of_lt_of_le (by simp [saturatingAdd]) (c.le_nextAt (saturatingAdd now 1))

/-- The moments for which alarms are scheduled are after the epoch. -/
theorem Supervisor.Reachable.moments {w : World} {s : Supervisor} (h : Reachable w s) {e : Call × Machine}
    (he : e ∈ s.history) {alarm : Alarm} {moment : Nat} (hc : e.1 = .scheduleAt alarm moment) : 0 < moment := by
  obtain ⟨newer, older, hl⟩ := List.append_of_mem he
  have hasked := h.asked e.1 e.2 older (hl ▸ List.suffix_append newer _)
  rw [hc] at hasked
  cases alarm with
  | timerElapsed unit =>
    obtain ⟨timer, m, -, ⟨-, hnext⟩ | ⟨-, hnext⟩⟩ := hasked
    · exact Schedule.calendarAt_pos (Schedule.sooner_moment hnext)
    · exact Schedule.calendarAt_pos (Schedule.sooner_moment hnext)
  | restart | watchdogCheck | stopTimeout | startTimeout => cases hasked

end Oxinit
