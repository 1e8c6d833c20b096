import Oxinit.Proof.Rest
import Oxinit.Proof.Shutdown

/-!
# One schedule per timer unit

An `Active` timer unit has one firing pending, as long as none is pending
when it is started, stopped or failed: nothing but a firing takes an alarm
from the heaps, and a firing arms its timer again. The one that is pending is
due when the schedule says (`Paced`), and a timer elapses no sooner.
-/

namespace Oxinit

open Framework (Deadline)
open Relation (ReflTransGen)

/-- The pending firings of `t`, on both clocks. -/
def Manager.firings (m : Manager) (t : Name) : Nat :=
  (m.timers.heap ++ m.timers.wallHeap ++ m.fired).countP fun e => e.alarm = .timerElapsed t

/-- `t` is a timer unit, and `Active`. -/
def Manager.ticking (m : Manager) (t : Name) : Bool := (m.timerOf t).isSome && m.stateOf t = some .active

/-- What takes a timer unit up or down finds no firing of it pending. -/
def unscheduled (e : Call × Machine) : Bool :=
  match e.1 with
  | .arm t | .down t | .fail t | .vanished t => e.2.shuttingDown || e.2.firings t = 0
  | _ => true

def Unscheduled (l : List (Call × Machine)) : Prop := ∀ e ∈ l, unscheduled e = true

instance (l : List (Call × Machine)) : Decidable (Unscheduled l) :=
  inferInstanceAs (Decidable (∀ e ∈ l, unscheduled e = true))

/-- One timer unit and its pending firings. -/
structure Manager.Scheduled (m : Manager) (t : Name) : Prop where
  off : m.ticking t = false → m.firings t = 0
  most : m.firings t ≤ 1
  due : ∀ timer, m.timerOf t = some timer → m.stateOf t = some .active →
    timer.schedule.recurs = true ∨ m.nextElapse.contains t = true → m.firings t = 1

/-! ## Effects -/

variable {now : Nat} {m m' : Manager} {name t : Name}

/-- A firing that is scheduled is one more. -/
theorem Manager.firings_push (m : Manager) (tie : Nat) (e : Entry) (t : Name) :
    (m.push tie e).firings t = m.firings t + if e.alarm = .timerElapsed t then 1 else 0 := by
  simp only [firings, push, List.countP_append, Deadline.countP_insert, List.countP_cons, decide_eq_true_eq]
  omega

theorem Manager.firings_pushWall (m : Manager) (tie : Nat) (e : Entry) (t : Name) :
    (m.pushWall tie e).firings t = m.firings t + if e.alarm = .timerElapsed t then 1 else 0 := by
  simp only [firings, pushWall, List.countP_append, Deadline.countP_insert, List.countP_cons, decide_eq_true_eq]
  omega

/-- The timer unit a call arms. -/
def Call.arms : Option Call → Option Name
  | some (.arm t) | some (.elapsed t) => some t
  | _ => none

/-- The firings of `t`, and whether it is armed, are the same. -/
def SameFirings (t : Name) (m m' : Manager) : Prop :=
  m'.firings t = m.firings t ∧ m'.nextElapse.contains t = m.nextElapse.contains t

theorem SameFirings.push {tie : Nat} {e : Entry} {fd : Option Nat} (h : SameFirings t m m')
    (he : e.alarm ≠ .timerElapsed t) : SameFirings t m ((m'.push tie e).setFd fd) :=
  ⟨by rw [← h.1]; exact (m'.firings_push tie e t).trans (by rw [if_neg he]; rfl), h.2⟩

theorem Armed.sameFirings {next : Option Next} (h : Armed now name m next m') (hne : name ≠ t) :
    SameFirings t m m' := by
  have hp : ∀ {tie due fd}, SameFirings t m ((m.push tie { due, alarm := .timerElapsed name }).setFd fd) :=
    SameFirings.push ⟨rfl, rfl⟩ (by simpa using hne)
  have hw : ∀ {tie due fd}, SameFirings t m ((m.pushWall tie { due, alarm := .timerElapsed name }).setWallFd fd) :=
    ⟨(m.firings_pushWall _ _ t).trans (by rw [if_neg (by simpa using hne)]; rfl), rfl⟩
  have hset : ∀ {m' : Manager} {next}, SameFirings t m m' → SameFirings t m (m'.setNext name next) :=
    fun h => ⟨h.1, by simp [Manager.setNext, Std.TreeMap.contains_insert, hne, h.2]⟩
  cases h with
  | none => exact ⟨rfl, by simp [Manager.clearNext, hne]⟩
  | after _ h => exact hset (h ▸ hp)
  | afterFailed _ h => exact h ▸ hp
  | «at» h => exact hset (h ▸ hw)
  | atFailed h => exact h ▸ hw

/-- Arming a timer adds one firing, if its schedule has one. -/
theorem Armed.firings_self {next : Option Next} (h : Armed now name m next m') :
    next.isSome = false ∧ m'.firings name = m.firings name ∧ m'.nextElapse.contains name = false ∨
      next.isSome = true ∧ m'.firings name = m.firings name + 1 := by
  cases h with
  | none => exact .inl ⟨rfl, rfl, by simp [Manager.clearNext]⟩
  | after _ h => exact .inr ⟨rfl, h ▸ (m.firings_push _ _ name).trans (by simp)⟩
  | afterFailed _ h => exact .inr ⟨rfl, h ▸ (m.firings_push _ _ name).trans (by simp)⟩
  | «at» h => exact .inr ⟨rfl, h ▸ (m.firings_pushWall _ _ name).trans (by simp)⟩
  | atFailed h => exact .inr ⟨rfl, h ▸ (m.firings_pushWall _ _ name).trans (by simp)⟩

theorem Restarts.sameFirings {r : Option Nat} (h : Restarts now name m r m') : SameFirings t m m' := by
  cases h with
  | no => exact ⟨rfl, rfl⟩
  | scheduled => exact SameFirings.push ⟨rfl, rfl⟩ (by simp)
  | cancelled => exact ⟨rfl, rfl⟩

/-- No call but a timer's own adds or takes one of its firings. -/
theorem Effect.sameFirings {c : Option Call} (h : Effect now c m m') (hc : Call.arms c ≠ some t) :
    SameFirings t m m' := by
  cases h with
  | arm _ _ _ _ _ h => exact h.sameFirings fun e => hc (by rw [e]; rfl)
  | elapsed _ _ h => exact h.sameFirings fun e => hc (by rw [e]; rfl)
  | finished _ _ _ h => exact h.sameFirings (t := t)
  | exited _ _ _ _ h => exact h.sameFirings (t := t)
  | terminate | spawn | vanishedRestart | readyWatched => exact SameFirings.push ⟨rfl, rfl⟩ (by simp)
  | watched => exact SameFirings.push ⟨rfl, rfl⟩ (by simp)
  | _ => exact ⟨rfl, rfl⟩

/-- A timer unit changes its state only when it is armed, stopped or failed. -/
theorem Change.timer {v : Name} {c : Option Call} {i i' : Instance} (h : Change now v c i i') (hp : i.Plain)
    (hsv : i.unit.service = none) (hc : Call.arms c ≠ some v) (htm : i.unit.timer ≠ none) :
    i'.state = i.state ∨ (c = some (.down v) ∨ c = some (.fail v) ∨ c = some (.vanished v)) ∧ i'.state ≠ .active := by
  have hplain := (hp hsv).2
  have hidle : ∀ {st}, isIdle st = true → st ≠ State.active := fun h e => by rw [e] at h; cases h
  cases h with
  | cancel hs | kill hs | finished hs | finishedDown hs | forkedAway _ _ hs | ready hs =>
    exact absurd hplain (by simp [hs])
  | instant => exact .inr ⟨.inl rfl, hidle (Instance.instant_idle _ _ hsv)⟩
  | terminate h | spawnSimple h | spawn h => exact absurd (hsv.symm.trans h) (by simp)
  | up _ h => exact absurd h htm
  | arm => exact absurd rfl hc
  | fail => exact .inr ⟨.inr (.inl rfl), by simp [Instance.failedToStart]⟩
  | exited h | exitedDown h => exact absurd ((hp hsv).1.symm.trans h) (by simp)
  | vanished hs =>
    have hd := hs.trans_ne (show State.active ≠ .deactivating by decide)
    exact .inr ⟨.inr (.inr rfl), hidle (Instance.onExit_idle hd (Instance.onExit_plain _ _ hsv hd))⟩
  | said | pinged => exact .inl rfl

/-- What does not arm `t`, and what takes it down while no firing of it is
pending, keeps it on schedule. -/
theorem Effect.scheduled {c : Option Call} (h : Effect now c m m') (hp : m.Units fun _ => Instance.Plain)
    (hc : Call.arms c ≠ some t)
    (hok : c = some (.down t) ∨ c = some (.fail t) ∨ c = some (.vanished t) → m.firings t = 0)
    (hs : m.Scheduled t) : m'.Scheduled t := by
  obtain ⟨hf, hn⟩ := h.sameFirings hc
  have htm : m'.timerOf t = m.timerOf t := by rw [Manager.timerOf, h.kept.units]; rfl
  have hst : m.timerOf t = none ∨ m'.stateOf t = m.stateOf t ∨ m.firings t = 0 ∧ m'.stateOf t ≠ some .active := by
    rcases h.change t with e | ⟨i, i', hi, hi', hch⟩
    · exact .inr (.inl (by rw [Manager.stateOf, Manager.stateOf, e]))
    · by_cases ht : m.timerOf t = none
      · exact .inl ht
      · have ht' : i.unit.timer ≠ none := by simpa [Manager.timerOf, Manager.unitOf, hi] using ht
        obtain ⟨timer, h'⟩ := Option.ne_none_iff_exists'.mp ht'
        rcases hch.timer (hp t i hi) (Unit.service_of_timer h') hc ht' with e | ⟨hd, hne⟩
        · exact .inr (.inl (by simp [Manager.stateOf, hi, hi', e]))
        · exact .inr (.inr ⟨hok hd, by simpa [Manager.stateOf, hi'] using hne⟩)
  rcases hst with h0 | e | ⟨h0, hne⟩
  · refine ⟨fun _ => hf ▸ hs.off (by simp [Manager.ticking, h0]), hf ▸ hs.most, fun timer h => ?_⟩
    simp [htm, h0] at h
  · refine ⟨fun ho => hf ▸ hs.off ?_, hf ▸ hs.most, fun timer h h' hr => hf ▸ hs.due timer (htm ▸ h) (e ▸ h') (hn ▸ hr)⟩
    rwa [Manager.ticking, htm, e] at ho
  · exact ⟨fun _ => hf.trans h0, by omega, fun _ _ h => absurd h hne⟩

/-- A timer with no firing pending is on schedule once it is armed. -/
theorem Armed.scheduled {next : Option Next} {timer : Timer} (h : Armed now name m next m')
    (htm : m.timerOf name = some timer) (hst : m.stateOf name = some .active) (h0 : m.firings name = 0)
    (hr : timer.schedule.recurs = true → next.isSome = true) : m'.Scheduled name := by
  have htm' : m'.timerOf name = some timer := by rw [Manager.timerOf, h.kept.units]; exact htm
  have hst' : m'.stateOf name = some .active := by rw [Manager.stateOf, h.frame.1]; exact hst
  have ho : m'.ticking name = true := by simp [Manager.ticking, htm', hst']
  rcases h.firings_self with ⟨hn, hf, hc⟩ | ⟨hn, hf⟩
  · refine ⟨by simp [ho], by omega, fun timer' ht _ hd => ?_⟩
    cases htm'.symm.trans ht
    rcases hd with hd | hd
    · simp [hr hd] at hn
    · simp [hc] at hd
  · exact ⟨by simp [ho], by omega, fun _ _ _ _ => by omega⟩

/-- A timer that is armed has one firing, when its schedule says. -/
theorem Effect.arm_scheduled (h : Effect now (some (.arm name)) m m') (h0 : m.firings name = 0) :
    m'.Scheduled name := by
  cases h with
  | mark h => cases h
  | arm hi _ htm _ _ h =>
    refine h.scheduled ?_ ?_ h0 fun hr => Schedule.first_isSome hr _
    · simp only [Manager.timerOf, Manager.unitOf]
      rw [Manager.get_modify_self hi]
      exact htm
    · rw [Manager.stateOf, Manager.get_modify_self hi]
      rfl

theorem Effect.elapsed_scheduled (h : Effect now (some (.elapsed name)) m m') (hst : m.stateOf name = some .active)
    (h0 : m.firings name = 0) : m'.Scheduled name := by
  cases h with
  | mark h => cases h
  | elapsed htm _ h => exact h.scheduled htm hst h0 fun hr => by rwa [Schedule.next_isSome]

/-! ## The pace of a timer -/

/-- When the firing of `t` that a call schedules is due. -/
def Call.next (t : Name) : Call → Option Next
  | .schedule (.timerElapsed u) delay => if u = t then some (.after delay) else none
  | .scheduleAt (.timerElapsed u) moment => if u = t then some (.at moment) else none
  | _ => none

/-- A firing of `t` is scheduled, or happens. -/
def Call.paces (t : Name) (c : Call) : Bool :=
  match c with
  | .elapsed u => u = t
  | _ => (c.next t).isSome

/-- The last call that scheduled a firing of `t`, unless it has happened since. -/
def pace (t : Name) (l : List (Call × Machine)) : Option (Call × Machine) := l.find? fun e => e.1.paces t

/-- The firing of `t` that was scheduled last has not happened, and is due: at
`now`, or since the wall clock has shown its moment. -/
def reached (t : Name) (now : Nat) (l : List (Call × Machine)) : Bool :=
  (pace t l).any fun e =>
    match e.1.next t with
    | some (.after delay) => e.2.kernel.now + delay ≤ now
    | some (.at moment) => (l.takeWhile fun e => !e.1.paces t).any fun e => moment ≤ e.2.kernel.wall
    | none => false

/-- The firing of `t` that was scheduled last, on the monotonic clock, is due by `due`. -/
def DueBy (t : Name) (due : Nat) (l : List (Call × Machine)) : Prop :=
  ∃ e delay, pace t l = some e ∧ e.1.next t = some (.after delay) ∧ e.2.kernel.now + delay ≤ due

/-- The firing of `t` that was scheduled last is due at `moment`. -/
def DueAt (t : Name) (moment : Nat) (l : List (Call × Machine)) : Prop :=
  ∃ e, pace t l = some e ∧ e.1.next t = some (.at moment)

/-- Every firing that is pending was scheduled last, and is not due before;
those that are being handled are due, as those that have happened were. -/
structure Paced (s : Supervisor) : Prop where
  heap : ∀ t, ∀ e ∈ s.timers.heap, e.alarm = .timerElapsed t → DueBy t e.due s.history
  wallHeap : ∀ t, ∀ e ∈ s.timers.wallHeap, e.alarm = .timerElapsed t → DueAt t e.due s.history
  fired : ∀ t, ∀ e ∈ s.fired, e.alarm = .timerElapsed t → reached t s.kernel.now s.history = true
  log : ∀ t m older, (.elapsed t, m) :: older <:+ s.history → reached t m.kernel.now older = true

section

variable {l new : List (Call × Machine)} {n n' due moment : Nat}

theorem Call.paces_of_next {c : Call} (h : (c.next t).isSome = true) : c.paces t = true := by
  cases c <;> first | exact h | cases h

theorem Call.paces_of_isMove {c : Call} (h : c.isMove = true) : c.paces t = false := by
  cases c <;> first | rfl | cases h

theorem pace_append (h : ∀ e ∈ new, e.1.paces t = false) : pace t (new ++ l) = pace t l := by
  rw [pace, List.find?_append, List.find?_eq_none.mpr fun e he => by simp [h e he], Option.none_or]
  rfl

/-- A clock that has come to a moment has come to it. -/
theorem reached_append (h : ∀ e ∈ new, e.1.paces t = false) (hn : n ≤ n') (hl : reached t n l = true) :
    reached t n' (new ++ l) = true := by
  simp only [reached, pace_append h] at hl ⊢
  obtain ⟨e, he, hr⟩ := (Option.any_eq_true _ _).mp hl
  refine (Option.any_eq_true _ _).mpr ⟨e, he, ?_⟩
  have htake : (new ++ l).takeWhile (fun e => !e.1.paces t) = new ++ l.takeWhile fun e => !e.1.paces t :=
    List.takeWhile_append_of_pos fun e he => by simp [h e he]
  rw [htake]
  split at hr
  · exact decide_eq_true ((of_decide_eq_true hr).trans hn)
  · rw [List.any_append, hr, Bool.or_true]
  · cases hr

theorem DueBy.append (h : ∀ e ∈ new, e.1.paces t = false) (hl : DueBy t due l) : DueBy t due (new ++ l) := by
  rwa [DueBy, pace_append h]

theorem DueAt.append (h : ∀ e ∈ new, e.1.paces t = false) (hl : DueAt t moment l) : DueAt t moment (new ++ l) := by
  rwa [DueAt, pace_append h]

theorem DueBy.reached (h : DueBy t due l) (hn : due ≤ n) : reached t n l = true := by
  obtain ⟨e, delay, hp, hnext, hdue⟩ := h
  simp only [Oxinit.reached, hp, Option.any_some, hnext]
  exact decide_eq_true (hdue.trans hn)

/-- The wall clock has shown the moment since. -/
theorem DueAt.reached {e : Call × Machine} (h : DueAt t moment l) (hnew : ∀ e ∈ new, e.1.paces t = false)
    (he : e ∈ new) (hw : moment ≤ e.2.kernel.wall) : reached t n (new ++ l) = true := by
  obtain ⟨x, hp, hnext⟩ := h
  have htake : (new ++ l).takeWhile (fun e => !e.1.paces t) = new ++ l.takeWhile fun e => !e.1.paces t :=
    List.takeWhile_append_of_pos fun e he => by simp [hnew e he]
  simp only [Oxinit.reached, pace_append hnew, hp, Option.any_some, hnext, htake, List.any_append, Bool.or_eq_true,
    List.any_eq_true, decide_eq_true_eq]
  exact .inl ⟨e, he, hw⟩

end

/-- What schedules a firing of `t` adds it. -/
theorem Queues.firings {c : Call} (h : Queues now m m' c) :
    m'.firings t = m.firings t + if (c.next t).isSome = true then 1 else 0 := by
  have hf : ∀ m : Manager, m.firings t =
      (m.alarms.1 ++ m.alarms.2.2 ++ m.alarms.2.1).countP fun e => e.alarm = .timerElapsed t := fun _ => rfl
  cases h with
  | @heap alarm delay tie due hdue h =>
    rw [hf, hf, h]
    simp only [List.countP_append, Deadline.countP_insert, List.countP_cons, decide_eq_true_eq]
    have e : (((Call.schedule alarm delay).next t).isSome = true) ↔ alarm = .timerElapsed t := by
      cases alarm <;> simp [Call.next, Option.isSome_ite]
    simp only [e]
    omega
  | @wallHeap alarm moment tie h =>
    rw [hf, hf, h]
    simp only [List.countP_append, Deadline.countP_insert, List.countP_cons, decide_eq_true_eq]
    have e : (((Call.scheduleAt alarm moment).next t).isSome = true) ↔ alarm = .timerElapsed t := by
      cases alarm <;> simp [Call.next, Option.isSome_ite]
    simp only [e]
    omega

/-! ## Runs -/

/-- The entries of the heaps that are for `t`. -/
def Manager.KeepsFirings (t : Name) (m m' : Manager) : Prop :=
  (∀ e ∈ m'.timers.heap, e.alarm = .timerElapsed t → e ∈ m.timers.heap) ∧
    ∀ e ∈ m'.timers.wallHeap, e.alarm = .timerElapsed t → e ∈ m.timers.wallHeap

theorem Manager.KeepsFirings.of_alarms (h : m'.alarms = m.alarms) : KeepsFirings t m m' := by
  have hheap : m'.timers.heap = m.timers.heap := congrArg Prod.fst h
  have hwall : m'.timers.wallHeap = m.timers.wallHeap := congrArg (·.2.2) h
  exact ⟨fun _ he _ => hheap ▸ he, fun _ he _ => hwall ▸ he⟩

theorem Manager.not_firing (h : m.firings t = 0) {e : Entry}
    (he : e ∈ m.timers.heap ∨ e ∈ m.timers.wallHeap ∨ e ∈ m.fired) : e.alarm ≠ .timerElapsed t := by
  have := List.countP_eq_zero.mp h e (by simp only [List.mem_append]; tauto)
  simpa using this

/-- What is in a heap was there, or is what the call adds. -/
theorem Queues.entries {c : Call} (h : Queues now m m' c) :
    (∀ e ∈ m'.timers.heap, e ∈ m.timers.heap ∨ ∃ delay, c = .schedule e.alarm delay ∧ now + delay ≤ e.due) ∧
      ∀ e ∈ m'.timers.wallHeap, e ∈ m.timers.wallHeap ∨ c = .scheduleAt e.alarm e.due := by
  cases h with
  | @heap alarm delay tie due hdue h =>
    have hheap : m'.timers.heap = Deadline.insert tie { due, alarm } m.timers.heap := congrArg Prod.fst h
    have hwall : m'.timers.wallHeap = m.timers.wallHeap := congrArg (·.2.2) h
    refine ⟨fun e he => ?_, fun e he => .inl (hwall ▸ he)⟩
    rcases Deadline.mem_insert.mp (hheap ▸ he) with rfl | he
    · exact .inr ⟨delay, rfl, hdue⟩
    · exact .inl he
  | @wallHeap alarm moment tie h =>
    have hheap : m'.timers.heap = m.timers.heap := congrArg Prod.fst h
    have hwall : m'.timers.wallHeap = Deadline.insert tie { due := moment, alarm } m.timers.wallHeap :=
      congrArg (·.2.2) h
    refine ⟨fun e he => .inl (hheap ▸ he), fun e he => ?_⟩
    rcases Deadline.mem_insert.mp (hwall ▸ he) with rfl | he
    · exact .inr rfl
    · exact .inl he

/-- What is scheduled for others leaves the firings. -/
theorem Queues.keepsFirings {c : Call} (h : Queues now m m' c) (hc : (c.next t).isSome = false) :
    m.KeepsFirings t m' := by
  refine ⟨fun e he ha => (h.entries.1 e he).resolve_right ?_, fun e he ha => (h.entries.2 e he).resolve_right ?_⟩
  · rintro ⟨delay, rfl, -⟩
    simp [Call.next, ha] at hc
  · rintro rfl
    simp [Call.next, ha] at hc

theorem Queues.paces_eq {c : Call} (h : Queues now m m' c) : c.paces t = (c.next t).isSome := by
  cases h <;> rfl

/-- An act schedules a firing of `t`, after all else it records but moves, or
leaves its firings. -/
theorem Acted.firing {c : Option Call} {s s' : Supervisor} (h : Acted c s s') (t : Name) :
    (∃ new, s'.history = new ++ s.history ∧ (∀ e ∈ new, e.1.paces t = true → c = some e.1) ∧
        s.KeepsFirings t s'.toManager) ∨
      ∃ c' new, ∃ s₁ : Supervisor, Queues s₁.kernel.now s.toManager s'.toManager c' ∧ (c'.next t).isSome = true ∧
        s'.history = new ++ (c', s₁.toMachine) :: s₁.history ∧ ∀ e ∈ new, e.1.paces t = false := by
  obtain ⟨x, s₁, s₂, hl⟩ := h.logged
  obtain ⟨n₁, e₁, p₁⟩ := hl.before.log
  obtain ⟨n₂, e₂, p₂⟩ : ∃ n₂, s₂.history = n₂ ++ s.history ∧ ∀ e ∈ n₂, e.1.paces t = true → c = some e.1 := by
    refine ⟨_, by rw [hl.call, e₁, ← List.append_assoc], fun e he hp => ?_⟩
    rcases List.mem_append.mp he with he | he
    · obtain ⟨c', hc, rfl⟩ := List.mem_map.mp he
      exact Option.mem_toList.mp hc
    · rw [Call.paces_of_isMove (p₁ e he).1] at hp
      cases hp
  cases hl.rest with
  | still hr =>
    obtain ⟨n₃, e₃, p₃⟩ := hr.log
    refine .inl ⟨n₃ ++ n₂, by rw [e₃, e₂, List.append_assoc], fun e he hp => ?_, .of_alarms (hr.alarms.trans hl.alarms)⟩
    rcases List.mem_append.mp he with he | he
    · rw [Call.paces_of_isMove (p₃ e he).1] at hp
      cases hp
    · exact p₂ e he hp
  | @scheduled c' s₃ h₁ h₂ =>
    obtain ⟨n₃, e₃, p₃⟩ := h₁.log
    obtain ⟨n₄, e₄, p₄⟩ := h₂.log
    have hq := h₂.queues.of_alarms (h₁.alarms.trans hl.alarms) rfl
    cases hn : (c'.next t).isSome with
    | true => exact .inr ⟨c', n₄, s₃, hq, hn, e₄, fun e he => Call.paces_of_isMove (p₄ e he).1⟩
    | false =>
      refine .inl ⟨n₄ ++ (c', s₃.toMachine) :: (n₃ ++ n₂), by simp [e₄, e₃, e₂], fun e he hp => ?_,
        hq.keepsFirings hn⟩
      rcases List.mem_append.mp he with he | he
      · rw [Call.paces_of_isMove (p₄ e he).1] at hp
        cases hp
      · rcases List.mem_cons.mp he with rfl | he
        · rw [hq.paces_eq, hn] at hp
          cases hp
        · rcases List.mem_append.mp he with he | he
          · rw [Call.paces_of_isMove (p₃ e he).1] at hp
            cases hp
          · exact p₂ e he hp

/-- An act records nothing else that paces `t`, unless `t` elapses in it. -/
theorem Acted.paces_nothing {c : Option Call} {s s' : Supervisor} (h : Acted c s s') {new : List (Call × Machine)}
    (hnew : ∀ e ∈ new, e.1.paces t = true → c = some e.1) (hc : c ≠ some (.elapsed t)) :
    ∀ e ∈ new, e.1.paces t = false := by
  intro e he
  refine eq_false_of_ne_true fun hp => ?_
  have he' := h.effect
  obtain ⟨c', m⟩ := e
  rw [hnew _ he hp] at hc he'
  cases c' with
  | elapsed u => exact hc (by rw [of_decide_eq_true hp])
  | schedule | scheduleAt => exact absurd he'.call_not_world (by simp [Call.isWorld])
  | _ => cases hp

/-- Only what arms a timer schedules a firing of it. -/
theorem Acted.arms_of_queues {c : Option Call} {s s' : Supervisor} (h : Acted c s s') {c' : Call}
    (hq : Queues now s.toManager s'.toManager c') (hn : (c'.next t).isSome = true) : Call.arms c = some t := by
  refine by_contra fun hc => ?_
  have h₁ := (h.effect.sameFirings hc).1
  have h₂ := hq.firings (t := t)
  rw [if_pos hn] at h₂
  omega

/-- A firing that has just been scheduled is the one that was scheduled last. -/
theorem pace_of_next {new older : List (Call × Machine)} (hnew : ∀ e ∈ new, e.1.paces t = false) {e : Call × Machine}
    (hn : (e.1.next t).isSome = true) : pace t (new ++ e :: older) = some e := by
  rw [pace_append hnew]
  exact List.find?_cons_of_pos (Call.paces_of_next hn)

/-- What arms a timer of which no firing is pending has it paced. -/
theorem Acted.paced {c : Option Call} {s s' : Supervisor} (h : Acted c s s') (hs : Paced s)
    (hz : ∀ t, Call.arms c = some t → s.firings t = 0)
    (hr : ∀ t, c = some (.elapsed t) → reached t s.kernel.now s.history = true) : Paced s' := by
  refine ⟨fun t e he ha => ?_, fun t e he ha => ?_, fun t e he ha => ?_, fun t m older ht => ?_⟩
  · rcases h.firing t with ⟨new, hn, hnew, hkeep⟩ | ⟨c', new, s₁, hq, hnext, hn, hnew⟩
    · have he := hkeep.1 e he ha
      by_cases hc : c = some (.elapsed t)
      · exact absurd ha (Manager.not_firing (hz t (by rw [hc]; rfl)) (.inl he))
      · exact hn ▸ (hs.heap t e he ha).append (h.paces_nothing hnew hc)
    · have h0 := hz t (h.arms_of_queues hq hnext)
      rcases hq.entries.1 e he with he | ⟨delay, rfl, hdue⟩
      · exact absurd ha (Manager.not_firing h0 (.inl he))
      · exact ⟨_, delay, hn ▸ pace_of_next hnew hnext, by simp [Call.next, ha], hdue⟩
  · rcases h.firing t with ⟨new, hn, hnew, hkeep⟩ | ⟨c', new, s₁, hq, hnext, hn, hnew⟩
    · have he := hkeep.2 e he ha
      by_cases hc : c = some (.elapsed t)
      · exact absurd ha (Manager.not_firing (hz t (by rw [hc]; rfl)) (.inr (.inl he)))
      · exact hn ▸ (hs.wallHeap t e he ha).append (h.paces_nothing hnew hc)
    · have h0 := hz t (h.arms_of_queues hq hnext)
      rcases hq.entries.2 e he with he | rfl
      · exact absurd ha (Manager.not_firing h0 (.inr (.inl he)))
      · exact ⟨_, hn ▸ pace_of_next hnew hnext, by simp [Call.next, ha]⟩
  · rw [h.effect.kept.fired] at he
    rcases h.firing t with ⟨new, hn, hnew, -⟩ | ⟨c', new, s₁, hq, hnext, -, -⟩
    · by_cases hc : c = some (.elapsed t)
      · exact absurd ha (Manager.not_firing (hz t (by rw [hc]; rfl)) (.inr (.inr he)))
      · exact hn ▸ reached_append (h.paces_nothing hnew hc) h.act.later.now (hs.fired t e he ha)
    · exact absurd ha (Manager.not_firing (hz t (h.arms_of_queues hq hnext)) (.inr (.inr he)))
  · rcases h.before ht rfl with hold | ⟨hc, -, hnow, new, rfl, hnew⟩
    · exact hs.log t m older hold
    · exact reached_append (fun e he => Call.paces_of_isMove (hnew e he).1) hnow (hr t hc)

/-- A timer that elapses is `Active`, and the firing was its only one. -/
def firesOnce (e : Call × Machine) : Bool :=
  match e.1 with
  | .elapsed t => e.2.ticking t && e.2.firings t = 0
  | _ => true

structure OnTime (s : Supervisor) : Prop where
  plain : s.Units fun _ => Instance.Plain
  scheduled : ∀ t, s.Scheduled t
  log : ∀ e ∈ s.history, firesOnce e = true
  paced : Paced s

theorem firesOnce_world (e : Call × Machine) (h : e.1.isWorld = true) : firesOnce e = true := by
  obtain ⟨c, m⟩ := e
  cases c with
  | world | schedule | scheduleAt => rfl
  | _ => cases h

/-- An act keeps timers on time. -/
theorem Acted.onTime {s s' : Supervisor} {c : Option Call} (h : Acted c s s') (hc : ∀ u, c ≠ some (.elapsed u))
    (hd : s.shuttingDown = false) (hs : OnTime s) (hok : Unscheduled s'.history) : OnTime s' := by
  have he := h.effect
  have hzero : ∀ {c' t}, c = some c' → c' = .arm t ∨ c' = .down t ∨ c' = .fail t ∨ c' = .vanished t →
      s.firings t = 0 := by
    intro c' t e hcs
    subst e
    obtain ⟨m, hm, e, -⟩ := h.recorded
    have := hok _ hm
    rcases hcs with rfl | rfl | rfl | rfl <;> simpa [unscheduled, e, hd] using this
  have harm : ∀ {t}, Call.arms c = some t → c = some (.arm t) := by
    intro t ha
    rcases c with _ | c
    · cases ha
    · cases c with
      | arm => rw [show _ = t from Option.some.inj ha]
      | elapsed u => exact absurd rfl (hc u)
      | _ => cases ha
  refine ⟨he.units Change.plain hs.plain, fun t => ?_, h.log hs.log firesOnce_world fun c' m e _ => ?_,
    h.paced hs.paced (fun t ha => hzero (harm ha) (.inl rfl)) fun t e => absurd e (hc t)⟩
  · by_cases ha : Call.arms c = some t
    · obtain rfl := harm ha
      exact he.arm_scheduled (hzero rfl (.inl rfl))
    · refine he.scheduled hs.plain ha (fun hcs => ?_) (hs.scheduled t)
      rcases hcs with e | e | e
      · exact hzero e (.inr (.inl rfl))
      · exact hzero e (.inr (.inr (.inl rfl)))
      · exact hzero e (.inr (.inr (.inr rfl)))
  · subst e
    cases c' with
    | elapsed u => exact absurd rfl (hc u)
    | _ => rfl

variable {w : World} {s s' : Supervisor}

/-- A machine that is not going down is on time. -/
def RunsOnTime (s : Supervisor) : Prop := s.shuttingDown = true ∨ OnTime s

theorem RunsOnTime.dues {a : Option Alarm} (hs : RunsOnTime s) (h : Dues a s s') (ha : ∀ u, a ≠ some (.timerElapsed u))
    (hok : Unscheduled s'.history) : RunsOnTime s' := by
  refine Framework.Grows.invariant (fun h => h.act.grows) (fun {s s'} hok hs h => ?_) h hok hs
  obtain ⟨c, h, hc⟩ := h
  by_cases hd : s.shuttingDown = true
  · exact .inl (h.effect.kept.shuttingDown.trans hd)
  · refine .inr (h.onTime (fun u e => ?_) (eq_false_of_ne_true hd) (hs.resolve_left hd) hok)
    rw [e] at hc
    exact hc.elim (by simp [Call.alarm]) fun hc => ha u hc.symm

/-- What touches neither a unit nor its firings keeps it on schedule. -/
theorem Manager.Scheduled.of_same (h : m.Scheduled t) (hf : m'.firings t = m.firings t)
    (hn : m'.nextElapse = m.nextElapse) (hi : m'.instances[t]? = m.instances[t]?) : m'.Scheduled t := by
  have htm : m'.timerOf t = m.timerOf t := by rw [timerOf, timerOf, unitOf, unitOf, hi]
  have hst : m'.stateOf t = m.stateOf t := by rw [stateOf, stateOf, hi]
  refine ⟨fun ho => hf ▸ h.off (by rwa [ticking, htm, hst] at ho), hf ▸ h.most, fun timer ht hs hr => ?_⟩
  rw [hf]
  exact h.due timer (htm ▸ ht) (hst ▸ hs) (hn ▸ hr)

/-- An idle unit is on schedule when it has no firing pending. -/
theorem Manager.Scheduled.of_idle (h0 : m.firings t = 0) (hs : m.stateOf t ≠ some .active) : m.Scheduled t :=
  ⟨fun _ => h0, by omega, fun _ _ h => absurd h hs⟩

theorem Manager.Scheduled.firings_idle (h : m.Scheduled t) (hs : m.stateOf t ≠ some .active) : m.firings t = 0 :=
  h.off (by simp [ticking, hs])

theorem OnTime.update {f : Manager → Manager} (h : OnTime s) (hi : (f s.toManager).instances = s.instances)
    (hn : (f s.toManager).nextElapse = s.nextElapse) (hf : ∀ t, (f s.toManager).firings t = s.firings t)
    (hp : Paced (s.update f)) : OnTime (s.update f) :=
  ⟨fun v i hv => h.plain v i (by rwa [Supervisor.update_toManager, hi] at hv),
    fun t => (h.scheduled t).of_same (hf t) hn (by rw [Supervisor.update_toManager, hi]), h.log, hp⟩

/-- An alarm that is taken from those that fired is no longer handled. -/
theorem Paced.pop {e : Entry} {rest : List Entry} (h : Paced s) (hf : s.fired = e :: rest) :
    Paced (s.update (·.setFired rest)) :=
  ⟨h.heap, h.wallHeap, fun t x hx => h.fired t x (hf ▸ List.mem_cons_of_mem _ hx), h.log⟩

/-- A timer that elapses is armed again before anything else. -/
theorem OnTime.elapsed {u : Name} {rest : List Entry} {e : Entry} (h : OnTime s) (hd : s.shuttingDown = false)
    (hf : s.fired = e :: rest) (he : e.alarm = .timerElapsed u)
    (hok : Unscheduled (Supervisor.timerElapsed w u (s.update (·.setFired rest))).history) :
    RunsOnTime (Supervisor.timerElapsed w u (s.update (·.setFired rest))) := by
  have hfir : ∀ t, s.firings t = (s.update (·.setFired rest)).firings t + if e.alarm = .timerElapsed t then 1 else 0 := by
    intro t
    simp [Manager.firings, Manager.setFired, hf, List.countP_cons]
    omega
  have hu := hfir u
  have hmost := (h.scheduled u).most
  rw [if_pos he] at hu
  have h0 : (s.update (·.setFired rest)).firings u = 0 := by omega
  have ht : s.ticking u = true := eq_true_of_ne_false fun ho => by
    have := (h.scheduled u).off ho
    omega
  obtain ⟨htm, hst⟩ : (s.timerOf u).isSome = true ∧ s.stateOf u = some .active := by
    simpa [Manager.ticking] using ht
  obtain ⟨timer, htm⟩ := Option.isSome_iff_exists.mp htm
  have ha := Supervisor.rearm_act (w := w) (s := s.update (·.setFired rest)) htm hd
  have hrest := Supervisor.timerElapsed_rest (w := w) (a := none) (s := s.update (·.setFired rest)) htm hd
  have hpop := h.paced.pop hf
  refine RunsOnTime.dues (.inr ⟨ha.effect.units Change.plain h.plain, fun t => ?_, ?_,
    ha.paced hpop (fun t ht => Option.some.inj ht ▸ h0) fun t ht => ?_⟩) hrest.dues (by simp) hok
  · by_cases e' : u = t
    · subst e'
      exact ha.effect.elapsed_scheduled hst h0
    · refine ha.effect.scheduled h.plain (by simpa [Call.arms] using e') (by simp) ?_
      have := hfir t
      rw [if_neg (by simpa [he] using e')] at this
      exact (h.scheduled t).of_same this.symm rfl rfl
  · refine ha.log h.log firesOnce_world fun c' m e hm => ?_
    cases e
    simp only [firesOnce, hm, Bool.and_eq_true, decide_eq_true_eq]
    exact ⟨ht, h0⟩
  · obtain rfl : u = t := by simpa using ht
    exact h.paced.fired u e (hf ▸ List.mem_cons_self ..) he

/-- A timer that a reload replaces was idle, and had no firing. -/
theorem OnTime.insert {name : Name} {unit : Unit} (h : OnTime s) (hi : s.instances[name]? = none ∨ s.idle name = true) :
    OnTime (s.update (·.insertUnit name unit)) := by
  refine ⟨Tour.units Change.plain (fun _ _ _ => ⟨rfl, .inl rfl⟩) (.insert (w := calm) rfl hi) h.plain, fun t => ?_, h.log,
    h.paced.heap, h.paced.wallHeap, h.paced.fired, h.paced.log⟩
  have hget := Manager.get_insertUnit s.toManager name t unit
  by_cases e : name = t
  · subst e
    have hst : s.stateOf name ≠ some .active := fun hs => by
      simp only [Manager.stateOf, Option.map_eq_some_iff] at hs
      obtain ⟨i, hi', hs⟩ := hs
      simp [Manager.idle, hi', hs, isIdle] at hi
    rw [if_pos rfl] at hget
    exact .of_idle ((h.scheduled name).firings_idle hst) (by simp [Manager.stateOf, hget, Instance.new])
  · rw [if_neg e] at hget
    exact (h.scheduled t).of_same rfl rfl hget

theorem OnTime.keep {p : Name → Instance → Bool} (h : OnTime s)
    (hk : ∀ name i, s.instances[name]? = some i → p name i = false → isIdle i.state = true) :
    OnTime (s.update (·.keep p)) := by
  refine ⟨Tour.units Change.plain (fun _ _ _ => ⟨rfl, .inl rfl⟩) (.keep (w := calm) rfl hk) h.plain, fun t => ?_, h.log,
    h.paced.heap, h.paced.wallHeap, h.paced.fired, h.paced.log⟩
  have hget : (s.keep p).instances[t]? = s.instances[t]?.filter (p t) := by
    simp [Manager.keep]
  cases hi : s.instances[t]? with
  | none => exact (h.scheduled t).of_same rfl rfl (by rw [Supervisor.update_toManager, hget, hi]; rfl)
  | some i =>
    by_cases hp : p t i = true
    · exact (h.scheduled t).of_same rfl rfl (by rw [Supervisor.update_toManager, hget, hi]; simp [hp])
    · have hid := hk t i hi (eq_false_of_ne_true hp)
      refine .of_idle ((h.scheduled t).firings_idle ?_) ?_
      · rw [Manager.stateOf_of_get hi]
        intro hs
        cases h' : i.state <;> simp [h', isIdle] at hid hs
      · rw [Supervisor.update_toManager, Manager.stateOf, hget, hi]
        simp [hp]

/-- Those that are taken off the heap are due. -/
theorem OnTime.expire (h : OnTime s) (hf : s.fired = []) : OnTime (s.update (·.takeExpired s.kernel.now)) := by
  refine h.update rfl rfl (fun t => ?_) ⟨fun t e he => ?_, h.paced.wallHeap, fun t e he ha => ?_, h.paced.log⟩
  · have := Deadline.countP_expired_add_later (fun e : Entry => decide (e.alarm = .timerElapsed t)) s.kernel.now
      s.timers.heap
    simp only [Manager.firings, Manager.takeExpired, List.countP_append, hf, List.countP_nil]
    omega
  · exact h.paced.heap t e (Deadline.mem_expired_or_later.mp (.inr he))
  · exact (h.paced.heap t e (Deadline.mem_expired_or_later.mp (.inl he)) ha).reached (Deadline.due_of_mem_expired he)

/-- On the other heap they are due by what the clock read when its timer fired. -/
theorem OnTime.expireWall {now : Nat} {m : Machine} (h : OnTime s) (hf : s.fired = [])
    (hc : s.lastCall = some (.wallTimer, m)) (hm : m.kernel.wall = now) :
    OnTime (s.update (·.takeWallExpired now)) := by
  refine h.update rfl rfl (fun t => ?_) ⟨h.paced.heap, fun t e he => ?_, fun t e he ha => ?_, h.paced.log⟩
  · have := Deadline.countP_expired_add_later (fun e : Entry => decide (e.alarm = .timerElapsed t)) now
      s.timers.wallHeap
    simp only [Manager.firings, Manager.takeWallExpired, List.countP_append, hf, List.countP_nil]
    omega
  · exact h.paced.wallHeap t e (Deadline.mem_expired_or_later.mp (.inr he))
  · obtain ⟨-, new, older, hl, hnew⟩ := List.find?_eq_some_iff_append.mp hc
    have hmove : ∀ x ∈ new ++ [(Call.wallTimer, m)], x.1.paces t = false := by
      intro x hx
      rcases List.mem_append.mp hx with hx | hx
      · exact Call.paces_of_isMove (by simpa using hnew x hx)
      · cases List.mem_singleton.mp hx
        rfl
    rw [List.append_cons] at hl
    have hdue := h.paced.wallHeap t e (Deadline.mem_expired_or_later.mp (.inl he)) ha
    rw [hl, DueAt, pace_append hmove] at hdue
    show reached t s.kernel.now s.history = true
    rw [hl]
    exact DueAt.reached (e := (.wallTimer, m)) hdue hmove (by simp) (hm ▸ Deadline.due_of_mem_expired he)

theorem Tour.runsOnTime (hw : ∀ n, (w n).timerfd = true) (h : Tour w true s s') (hs : RunsOnTime s)
    (hok : Unscheduled s'.history) : RunsOnTime s' := by
  by_cases hd : s.shuttingDown = true
  · rcases h.shutdown_eq with e | ⟨hd', -⟩
    · exact .inl (by rw [Manager.shuttingDown, e]; exact hd)
    · exact absurd (hd'.symm.trans hd) (by decide)
  · have hs := hs.resolve_left hd
    have hd := eq_false_of_ne_true hd
    cases h with
    | deed h => exact RunsOnTime.dues (.inr hs) h.dues (by simp) hok
    | expire hf => exact .inr (hs.expire hf)
    | expireWall hf hc hm => exact .inr (hs.expireWall hf hc hm)
    | lose hl =>
      rcases hl with ⟨n, hn⟩ | hf
      · exact absurd (hn.symm.trans (hw n)) (by decide)
      · exact .inr (hs.update rfl rfl (fun t => by simp [Manager.firings, Manager.setFired, hf])
          ⟨hs.paced.heap, hs.paced.wallHeap, fun _ _ he => absurd he List.not_mem_nil, hs.paced.log⟩)
    | @alarm e rest hf =>
      by_cases he : ∃ u, e.alarm = .timerElapsed u
      · obtain ⟨u, he⟩ := he
        rw [he] at hok ⊢
        exact hs.elapsed hd hf he hok
      · have hpop : OnTime (s.update (·.setFired rest)) := by
          refine hs.update rfl rfl (fun t => ?_) (hs.paced.pop hf)
          have : e.alarm ≠ .timerElapsed t := fun h => he ⟨t, h⟩
          simp [Manager.firings, Manager.setFired, hf, this]
        exact RunsOnTime.dues (.inr hpop) (Supervisor.onAlarm_deeds w _ _).dues
          (fun u h => he ⟨u, Option.some.inj h⟩) hok
    | @shutdown action hd' =>
      obtain ⟨t, he, -⟩ := Supervisor.beginShutdown_started w action hd'
      exact .inl (by rw [Manager.shuttingDown, he]; rfl)
    | addHandle =>
      exact .inr (hs.update rfl rfl (fun _ => rfl) ⟨hs.paced.heap, hs.paced.wallHeap, hs.paced.fired, hs.paced.log⟩)
    | insert _ hi => exact .inr (hs.insert hi)
    | keep _ hk => exact .inr (hs.keep hk)

/-- The firings of `unit` on the two heaps. -/
def Timers.firings (t : Timers) (unit : Name) : Nat :=
  (t.heap ++ t.wallHeap).countP fun e => e.alarm = .timerElapsed unit

/-- A timer unit that is `Active` and has a next firing has one alarm for it,
what is not an `Active` timer unit has none, and whatever elapsed was an
`Active` timer unit that had no other. The alarm is due when the last call that
scheduled one for the unit says, no timer elapses before that, nor twice for
one such call, and each such call is for what the schedule of the unit says: to
begin with when the unit is started, and after a firing when it has elapsed. -/
structure OneSchedule (s : Supervisor) : Prop where
  active : ∀ t timer, s.timerOf t = some timer → s.stateOf t = some .active →
    timer.schedule.recurs = true ∨ s.nextElapse.contains t = true → s.timers.firings t = 1
  most : ∀ t, s.timers.firings t ≤ 1
  inactive : ∀ t, s.ticking t = false → s.timers.firings t = 0
  elapsed : ∀ e ∈ s.history, firesOnce e = true
  due : ∀ t, ∀ e ∈ s.timers.heap, e.alarm = .timerElapsed t → DueBy t e.due s.history
  wallDue : ∀ t, ∀ e ∈ s.timers.wallHeap, e.alarm = .timerElapsed t → DueAt t e.due s.history
  reached : ∀ t m older, (.elapsed t, m) :: older <:+ s.history → reached t m.kernel.now older = true
  asked : ∀ t c m older next, (c, m) :: older <:+ s.history → c.next t = some next →
    ({ toMachine := m, history := older } : Supervisor).plans t next

theorem Supervisor.plans_of_asks {c : Call} {next : Next} (h : s.asks c) (hn : c.next t = some next) :
    s.plans t next := by
  cases c with
  | schedule alarm delay =>
    cases alarm with
    | timerElapsed u =>
      obtain ⟨rfl, rfl⟩ : u = t ∧ Next.after delay = next := by simpa [Call.next] using hn
      exact h
    | _ => cases hn
  | scheduleAt alarm moment =>
    cases alarm with
    | timerElapsed u =>
      obtain ⟨rfl, rfl⟩ : u = t ∧ Next.at moment = next := by simpa [Call.next] using hn
      exact h
    | _ => cases hn
  | _ => cases hn

namespace Supervisor

/-- One schedule per timer unit: as long as none is started, stopped or
failed with a firing pending, and the timerfds can be set. -/
theorem one_schedule (hw : ∀ n, (w n).timerfd = true) (hr : Reachable w s) (hd : s.shuttingDown = false)
    (hok : Unscheduled s.history) : OneSchedule s := by
  have h : RunsOnTime s := by
    refine hr.guarded hok (fun hierarchy kernel => .inr ?_) fun hok hs ht => ht.runsOnTime hw hs hok
    have hf := queued_fresh w hierarchy kernel
    refine ⟨queued_units (fun _ _ _ => ⟨rfl, .inl rfl⟩) w hierarchy kernel, fun t => .of_idle ?_ fun hst => ?_,
      fun e he => ?_, fun t e he => ?_, fun t e he => ?_, fun t e he => ?_, fun t m older hl => ?_⟩
    · simp [Manager.firings, hf.heap, hf.wallHeap, hf.fired]
    · simp only [Manager.stateOf, Option.map_eq_some_iff] at hst
      obtain ⟨i, hi, hst⟩ := hst
      rw [hf.inst t i hi] at hst
      cases hst
    · exact firesOnce_world e (queued_log w hierarchy kernel e he)
    · rw [hf.heap] at he
      cases he
    · rw [hf.wallHeap] at he
      cases he
    · rw [hf.fired] at he
      cases he
    · cases queued_log w hierarchy kernel _ (hl.mem (List.mem_cons_self ..))
  have h := h.resolve_left (by simp [hd])
  have hfir : ∀ t, s.timers.firings t = s.firings t := fun t => by
    simp [Manager.firings, Timers.firings, hr.fired]
  refine ⟨fun t timer htm hst hn => ?_, fun t => ?_, fun t ho => ?_, h.log, h.paced.heap, h.paced.wallHeap, h.paced.log,
    fun t c m older next hl hn => plans_of_asks (hr.asked c m older hl) hn⟩
  · exact (hfir t).trans ((h.scheduled t).due timer htm hst hn)
  · exact hfir t ▸ (h.scheduled t).most
  · exact (hfir t).trans ((h.scheduled t).off ho)

theorem one_schedule_sample :
    OneSchedule (run (movesAt 13 [.pass 100]) (booted (movesAt 13 [.pass 100])
      [bootTarget ["a", "t"], serviceUnit "a" {} .simple .no, timerUnit "t" 90 "a"]) [.timer]) :=
  one_schedule (by intro n; simp only [movesAt]; split <;> rfl) (run_reachable _ _ _) (by decide +kernel)
    (by decide +kernel)

/-- A timer unit that is stopped leaves its alarm behind. -/
theorem stopped_timer_keeps_its_alarm :
    let s := run calm (booted calm [bootTarget ["t"], timerUnit "t" 90 "a"]) [.request (.stop "t")]
    Reachable calm s ∧ s.shuttingDown = false ∧ ¬OneSchedule s := by
  refine ⟨run_reachable _ _ _, by decide +kernel, fun h => absurd (h.inactive "t" ?_) ?_⟩
  · decide +kernel
  · decide +kernel

end Supervisor

end Oxinit
