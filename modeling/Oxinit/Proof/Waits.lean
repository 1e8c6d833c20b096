import Oxinit.Proof.Change
import Oxinit.Proof.Reachable

/-!
# Waits

A unit that is `Activating`, `Deactivating` or `Restarting` waits for an alarm
(`Wait`). The alarm carries nothing but the name of the unit, and so it ends
whatever wait of its kind the unit is in when it fires. It ends none before
its time as long as no alarm that is left from an earlier wait is due before
the one that is scheduled for the wait itself (`Wait.alone`).
-/

namespace Oxinit

open Framework (Deadline)
open Relation (ReflTransGen)

/-- The delay with which a call schedules the alarm `a`. -/
def Call.sets (a : Alarm) : Call → Option Nat
  | .schedule b delay => if b = a then some delay else none
  | _ => none

/-- The unit an alarm is about. -/
def Alarm.unit : Alarm → Name
  | .restart u | .watchdogCheck u | .stopTimeout u | .timerElapsed u | .startTimeout u => u

namespace Wait

/-- The unit whose wait a call ends because its alarm has fired. -/
def ended : Wait → Call → Option Name
  | .start, .late u => some u
  | .stop, .kill u => some u
  | .backoff, .backoff u => some u
  | _, _ => none

/-- The alarm for `u` was scheduled, the delay it was scheduled with is over
at `now`, and `u` has been waiting since. -/
def waited (x : Wait) (u : Name) (now : Nat) : List (Call × Machine) → Bool
  | [] => false
  | e :: older =>
    decide (e.2.stateOf u = some x.state) &&
      match e.1.sets (x.alarm u) with
      | some delay => decide (e.2.kernel.now + delay ≤ now)
      | none => waited x u now older

/-- If the last call ends a wait, it does so in time. -/
def inTime (x : Wait) : List (Call × Machine) → Bool
  | [] => true
  | e :: older =>
    (x.ended e.1).all fun u => decide (e.2.stateOf u = some x.state) && x.waited u e.2.kernel.now older

/-- No wait is ended before its time. -/
def Honoured (x : Wait) (l : List (Call × Machine)) : Prop := ∀ t ∈ l.tails, x.inTime t = true

/-- When the alarm of a wait is scheduled, none that is pending for the same
unit is due before it. -/
def alone (x : Wait) (e : Call × Machine) : Bool :=
  match e.1 with
  | .schedule a delay =>
    decide (a ≠ x.alarm a.unit) ||
      (e.2.timers.heap ++ e.2.fired).all fun y => decide (y.alarm = a → e.2.kernel.now + delay ≤ y.due)
  | _ => true

def Alone (x : Wait) (l : List (Call × Machine)) : Prop := ∀ e ∈ l, x.alone e = true

instance (x : Wait) (l : List (Call × Machine)) : Decidable (x.Honoured l) :=
  inferInstanceAs (Decidable (∀ t ∈ l.tails, x.inTime t = true))

instance (x : Wait) (l : List (Call × Machine)) : Decidable (x.Alone l) :=
  inferInstanceAs (Decidable (∀ e ∈ l, x.alone e = true))

variable {x : Wait} {u v : Name}

theorem alarm_unit (x : Wait) (u : Name) : (x.alarm u).unit = u := by
  cases x <;> rfl

theorem alarm_of_ended {c : Call} (h : x.ended c = some u) : Call.alarm (some c) = some (x.alarm u) := by
  cases x <;> cases c <;> first | (cases h; rfl) | cases h

theorem isWorld_of_ended {c : Call} (h : x.ended c = some u) : c.isWorld = false := by
  cases x <;> cases c <;> first | rfl | cases h

end Wait

/-! ## Effects -/

/-- The alarm that is added to the monotonic heap, if one is. -/
inductive Pushes (m m' : Manager) : Option Alarm → Prop
  | same (h : m'.timers.heap = m.timers.heap) : Pushes m m' none
  | one {tie due alarm} (h : m'.timers.heap = Deadline.insert tie { due, alarm } m.timers.heap) :
      Pushes m m' (some alarm)

theorem Pushes.of_heap {m m₁ m' : Manager} {p : Option Alarm} (h : Pushes m₁ m' p)
    (hm : m₁.timers.heap = m.timers.heap) : Pushes m m' p := by
  cases h with
  | same h => exact .same (h.trans hm)
  | one h => exact .one (hm ▸ h)

/-- A unit that comes to wait has an alarm added for that, and none is added
for one that has been waiting. -/
def Begins (x : Wait) (m m' : Manager) (p : Option Alarm) : Prop :=
  ∀ u, m'.stateOf u = some x.state →
    p = some (x.alarm u) ∨ m.stateOf u = some x.state ∧ p ≠ some (x.alarm u)

namespace Begins

variable {x : Wait} {m m' : Manager} {p : Option Alarm} {name : Name} {f : Instance → Instance}

theorem same (h : m'.instances = m.instances) (hp : ∀ u, p ≠ some (x.alarm u)) : Begins x m m' p := fun u hu =>
  .inr ⟨by rwa [Manager.stateOf, h] at hu, hp u⟩

/-- One unit changes. -/
theorem one {i j : Instance} (hne : ∀ v, name ≠ v → m'.instances[v]? = m.instances[v]?)
    (hi : m.instances[name]? = some i) (hj : m'.instances[name]? = some j)
    (hf : j.state = x.state → p = some (x.alarm name) ∨ i.state = x.state ∧ p ≠ some (x.alarm name))
    (hp : ∀ u, name ≠ u → p ≠ some (x.alarm u)) : Begins x m m' p := by
  intro u hu
  rw [Manager.stateOf] at hu
  by_cases e : name = u
  · subst e
    rw [hj] at hu
    refine (hf (Option.some.inj hu)).imp_right fun h => ⟨?_, h.2⟩
    rw [Manager.stateOf, hi, Option.map_some, h.1]
  · rw [hne u e] at hu
    exact .inr ⟨hu, hp u e⟩

theorem set {i : Instance} (h : m'.instances = (m.modify name f).instances) (hi : m.instances[name]? = some i)
    (hf : (f i).state = x.state → p = some (x.alarm name) ∨ i.state = x.state ∧ p ≠ some (x.alarm name))
    (hp : ∀ u, name ≠ u → p ≠ some (x.alarm u)) : Begins x m m' p :=
  one (fun v e => by rw [h]; exact Manager.get_modify_ne e) hi (by rw [h]; exact Manager.get_modify_self hi) hf hp

/-- No alarm is added, and no unit comes to wait. -/
theorem modify (h : m'.instances = (m.modify name f).instances)
    (hf : ∀ i, (f i).state = x.state → i.state = x.state) : Begins x m m' none := by
  cases hi : m.instances[name]? with
  | none =>
    intro u hu
    rw [Manager.stateOf, h, Manager.get_modify] at hu
    split at hu
    · rename_i e
      subst e
      simp [hi] at hu
    · exact .inr ⟨hu, by simp⟩
  | some i => exact set h hi (fun hs => .inr ⟨hf i hs, by simp⟩) (by simp)

end Begins

theorem Wait.state_ne_active (x : Wait) : State.active ≠ x.state := by
  cases x <;> decide

theorem Wait.state_ne_idle (x : Wait) {s : State} (h : isIdle s = true) : s ≠ x.state := by
  cases x <;> rintro rfl <;> cases h

theorem Armed.pushes {now : Nat} {name : Name} {m m' : Manager} {next : Option Next} (h : Armed now name m next m') :
    Pushes m m' Option.none ∨ Pushes m m' (some (.timerElapsed name)) := by
  cases h with
  | none => exact .inl (.same rfl)
  | after _ h => subst h; exact .inr (.one rfl)
  | afterFailed _ h => subst h; exact .inr (.one rfl)
  | «at» h => subst h; exact .inl (.same rfl)
  | atFailed h => subst h; exact .inl (.same rfl)

theorem Restarts.begins {now : Nat} {name : Name} {m m' : Manager} {f : Instance → Instance} {r : Option Nat}
    {i : Instance} (h : Restarts now name (m.modify name f) r m') (hi : m.instances[name]? = some i)
    (hn : r = none → isIdle (f i).state = true ∨ (f i).state = i.state) (hs : r ≠ none → (f i).state = .restarting)
    (x : Wait) :
    ∃ p, Pushes m m' p ∧ Begins x m m' p := by
  cases h with
  | no =>
    refine ⟨none, .same rfl, .set rfl hi (fun h => .inr ⟨?_, by simp⟩) (by simp)⟩
    exact (hn rfl).elim (fun hd => absurd h (x.state_ne_idle hd)) fun e => e ▸ h
  | scheduled =>
    refine ⟨_, .one rfl, .set rfl hi (fun h => .inl ?_) fun u hu => ?_⟩
    · have := hs (by simp)
      cases x <;> simp_all [Wait.state, Wait.alarm]
    · cases x <;> simp [Wait.alarm, hu]
  | cancelled =>
    have hs := hs (by simp)
    have hj := Manager.get_modify_self (f := f) hi
    refine ⟨none, .same rfl, .one (fun v e => (Manager.get_modify_ne e).trans (Manager.get_modify_ne e)) hi
      (Manager.get_modify_self hj) (fun h => ?_) (by simp)⟩
    rw [Instance.cancelRestart_state hs] at h
    exact absurd h (x.state_ne_idle rfl)

/-- A unit that begins to wait has its alarm scheduled in the same call. -/
theorem Effect.begins {now : Nat} {c : Option Call} {m m' : Manager} (h : Effect now c m m') (x : Wait) :
    ∃ p, Pushes m m' p ∧ Begins x m m' p := by
  -- A unit that is put in a state in which it does not wait.
  have hset : ∀ {name : Name} {i j : Instance} {m' : Manager},
      (∀ v, name ≠ v → m'.instances[v]? = m.instances[v]?) → m.instances[name]? = some i →
      m'.instances[name]? = some j → isIdle j.state = true ∨ j.state = .active ∨ j.state = i.state →
      m'.timers.heap = m.timers.heap → ∃ p, Pushes m m' p ∧ Begins x m m' p := by
    intro name i j m' hne hi hj hs hh
    refine ⟨none, .same hh, .one hne hi hj (fun h => .inr ⟨?_, by simp⟩) (by simp)⟩
    rcases hs with hs | hs | hs
    · exact absurd h (x.state_ne_idle hs)
    · exact absurd (hs ▸ h) x.state_ne_active
    · exact hs ▸ h
  have hne : ∀ {name : Name} {f : Instance → Instance} (v : Name), name ≠ v →
      (m.modify name f).instances[v]? = m.instances[v]? := fun v => Manager.get_modify_ne
  cases h with
  | turn | mark | armed | fd | wallFd | clear | pump | stop | awaitRestart | takeRestart | reaping =>
    exact ⟨none, .same rfl, .same rfl (by simp)⟩
  | cancel hi hs =>
    exact hset hne hi (Manager.get_modify_self hi) (.inl (by rw [Instance.cancelRestart_state hs]; rfl)) rfl
  | instant hi hsv => exact hset hne hi (Manager.get_modify_self hi) (.inl (Instance.instant_idle _ _ hsv)) rfl
  | terminate hi =>
    refine ⟨_, .one rfl, .set rfl hi (fun h => .inl ?_) fun u hu => ?_⟩
    · cases x <;> first | rfl | cases h
    · cases x <;> simp [Wait.alarm, hu]
  | spawn hi =>
    refine ⟨_, .one rfl, .set rfl hi (fun h => .inl ?_) fun u hu => ?_⟩
    · cases x <;> first | rfl | cases h
    · cases x <;> simp [Wait.alarm, hu]
  | kill hi => exact hset hne hi (Manager.get_modify_self hi) (.inr (.inr rfl)) rfl
  | said | pinged => exact ⟨none, .same rfl, .modify rfl fun _ h => h⟩
  | fail => exact ⟨none, .same rfl, .modify rfl fun _ h => absurd h (x.state_ne_idle rfl)⟩
  | up hi | forkedAway hi | ready hi => exact hset hne hi (Manager.get_modify_self hi) (.inr (.inl rfl)) rfl
  | arm hi _ _ _ _ h =>
    have hb : ∀ {p}, (∀ u, p ≠ some (x.alarm u)) → Begins x m m' p := fun hp =>
      .set h.frame.1 hi (fun h => absurd h x.state_ne_active) fun u _ => hp u
    rcases h.pushes with hp | hp
    · exact ⟨_, hp.of_heap rfl, hb (by simp)⟩
    · exact ⟨_, hp.of_heap rfl, hb (by cases x <;> simp [Wait.alarm])⟩
  | elapsed _ _ h =>
    rcases h.pushes with hp | hp
    · exact ⟨_, hp, .same h.frame.1 (by simp)⟩
    · exact ⟨_, hp, .same h.frame.1 (by cases x <;> simp [Wait.alarm])⟩
  | spawnSimple hi =>
    exact hset (fun v e => (Manager.get_modify_ne e).trans (hne v e)) hi
      (Manager.get_modify_self (Manager.get_modify_self hi)) (.inr (.inl rfl)) rfl
  | finished hi hs _ h =>
    exact h.begins hi (fun hr => .inl (Instance.deactivated_idle_of_none hr)) Instance.deactivated_restarting x
  | @exited _ _ _ _ i _ _ hi hc hf _ h =>
    by_cases hs : i.state = .deactivating
    · exact h.begins hi (fun _ => .inr (by rw [Instance.onExit_deactivating _ _ hs]))
        (fun hr => absurd (by rw [Instance.onExit_deactivating _ _ hs]) hr) x
    · exact h.begins hi (fun hr => .inl (Instance.onExit_idle hs hr)) (Instance.onExit_restarting hs) x
  | vanished hi hs _ _ h =>
    have hd := hs.trans_ne (show State.active ≠ .deactivating by decide)
    exact hset hne hi (Manager.get_modify_self hi) (.inl (Instance.onExit_idle hd h)) rfl
  | vanishedRestart hi hs _ _ h =>
    have hd := hs.trans_ne (show State.active ≠ .deactivating by decide)
    have hr := Instance.onExit_restarting hd (h.trans_ne (by simp))
    refine ⟨_, .one rfl, .set rfl hi (fun h => .inl ?_) fun u hu => ?_⟩
    · have h := hr.symm.trans h
      cases x <;> first | rfl | cases h
    · cases x <;> simp [Wait.alarm, hu]
  | readyWatched hi =>
    refine ⟨_, .one rfl, .set rfl hi (fun h => absurd h x.state_ne_active) fun u hu => ?_⟩
    cases x <;> simp [Wait.alarm]
  | watched => exact ⟨_, .one rfl, .same rfl (by cases x <;> simp [Wait.alarm])⟩

theorem Pushes.alarm_eq {m m' : Manager} {p : Option Alarm} {tie due : Nat} {alarm : Alarm} (h : Pushes m m' p)
    (hh : m'.timers.heap = Deadline.insert tie { due, alarm } m.timers.heap) : p = some alarm := by
  cases h with
  | same h =>
    have := congrArg List.length (h.symm.trans hh)
    rw [Deadline.length_insert] at this
    omega
  | one h =>
    have := Deadline.insert_inj (h.symm.trans hh)
    simp only [Deadline.mk.injEq] at this
    rw [this.2]

/-! ## Acts -/

theorem Call.sets_of_isMove {a : Alarm} {c : Call} (h : c.isMove = true) : c.sets a = none := by
  cases c <;> first | rfl | cases h

theorem Call.sets_of_not_world {a : Alarm} {c : Call} (h : c.isWorld = false) : c.sets a = none := by
  cases c <;> first | rfl | cases h

/-- What is scheduled is due no sooner than its delay from now. -/
theorem Queues.pushed_of_sets {now delay : Nat} {m m' : Manager} {c : Call} {a : Alarm} (h : Queues now m m' c)
    (hset : c.sets a = some delay) :
    ∃ tie due, now + delay ≤ due ∧ m'.timers.heap = Deadline.insert tie { due, alarm := a } m.timers.heap := by
  cases h with
  | wallHeap => cases hset
  | heap hdue h =>
    simp only [Call.sets, Option.ite_none_right_eq_some, Option.some.injEq] at hset
    obtain ⟨rfl, rfl⟩ := hset
    exact ⟨_, _, hdue, congrArg Prod.fst h⟩

theorem Scheduled.pushed {alarm : Alarm} {delay : Nat} {s s' : Supervisor} (h : Scheduled (.schedule alarm delay) s s') :
    ∃ tie due, s.kernel.now + delay ≤ due ∧ s'.timers.heap = Deadline.insert tie { due, alarm } s.timers.heap :=
  h.queues.pushed_of_sets (if_pos rfl)

namespace Wait

variable {x : Wait} {u : Name} {l new : List (Call × Machine)}

/-- A wait goes on while nothing is said of it. -/
theorem waited_append {now : Nat}
    (h : ∀ e ∈ new, e.1.sets (x.alarm u) = none ∧ e.2.stateOf u = some x.state) :
    x.waited u now (new ++ l) = x.waited u now l := by
  induction new with
  | nil => rfl
  | cons e new ih =>
    obtain ⟨h₁, h₂⟩ := h e (List.mem_cons_self ..)
    simp only [List.cons_append, waited, h₁, h₂, decide_true, Bool.true_and]
    exact ih fun e he => h e (List.mem_cons_of_mem _ he)

theorem waited_mono {n n' : Nat} (hn : n ≤ n') (h : x.waited u n l = true) : x.waited u n' l = true := by
  induction l with
  | nil => cases h
  | cons e l ih =>
    simp only [waited, Bool.and_eq_true] at h ⊢
    refine ⟨h.1, ?_⟩
    have h := h.2
    split at h
    · exact decide_eq_true ((of_decide_eq_true h).trans hn)
    · exact ih h

end Wait

/-- An alarm that is pending for a unit that waits is not due before the wait
is over, and so far no wait has been ended too early. -/
structure Orderly (x : Wait) (s : Supervisor) : Prop where
  wall : s.WallTimers
  due : ∀ u, s.stateOf u = some x.state → ∀ y ∈ s.timers.heap ++ s.fired, y.alarm = x.alarm u →
    x.waited u y.due s.history = true
  fired : ∀ u, ∀ y ∈ s.fired, y.alarm = x.alarm u → y.due ≤ s.kernel.now
  log : x.Honoured s.history

variable {x : Wait} {c : Option Call} {s s' : Supervisor}

/-- A unit whose alarm is scheduled begins to wait then, and alone: its alarms
are due once the wait is over. -/
theorem Acted.due_of_push (h : Acted c s s') (hok : x.Alone s'.history) {u : Name} (hu : s'.stateOf u = some x.state)
    (hp : Pushes s.toManager s'.toManager (some (x.alarm u))) {y : Entry} (hy : y ∈ s'.timers.heap ++ s.fired)
    (ha : y.alarm = x.alarm u) : x.waited u y.due s'.history = true := by
  cases hp with
  | one hh =>
    obtain ⟨z, s₁, s₂, hl⟩ := h.logged
    have hh₂ : s₂.timers.heap = s.timers.heap := congrArg Prod.fst hl.alarms
    obtain ⟨delay, s₃, hst, hsch⟩ := hl.rest.of_push (hh₂ ▸ hh)
    have hal : s₃.alarms = s.alarms := hst.alarms.trans hl.alarms
    obtain ⟨new, hn, hnew⟩ := hsch.log
    have hu₃ : s₃.stateOf u = some x.state := by
      rw [Manager.stateOf, ← hsch.inst u]
      exact hu
    have hw : ∀ now, s₃.kernel.now + delay ≤ now → x.waited u now s'.history = true := by
      intro now hnow
      rw [hn, Wait.waited_append fun e he => ⟨Call.sets_of_isMove (hnew e he).1, ?_⟩]
      · simp [Wait.waited, Call.sets, hu₃, hnow]
      · rw [Manager.stateOf, (hnew e he).2 u]
        exact hu₃
    refine hw _ ?_
    obtain ⟨tie, due, hdue, hh'⟩ := hsch.pushed
    have hmem : y = { due, alarm := x.alarm u } ∨ y ∈ s₃.timers.heap ++ s₃.fired := by
      rw [hh', List.mem_append, Deadline.mem_insert] at hy
      rcases hy with (hy | hy) | hy
      · exact .inl hy
      · exact .inr (List.mem_append_left _ hy)
      · refine .inr (List.mem_append_right _ ?_)
        rwa [show s₃.fired = s.fired from congrArg (·.2.1) hal]
    rcases hmem with rfl | hmem
    · exact hdue
    · have := hok _ (hn ▸ List.mem_append_right _ (List.mem_cons_self ..))
      simp only [Wait.alone, Wait.alarm_unit, ne_eq, not_true_eq_false, decide_false, Bool.false_or,
        List.all_eq_true, decide_eq_true_eq] at this
      exact this y hmem ha

/-- A unit that was waiting, and for which nothing is scheduled, still waits for
what it waited for. -/
theorem Acted.due_of_waiting (h : Acted c s s') (hs : Orderly x s) {u : Name} (hu₀ : s.stateOf u = some x.state)
    (hu : s'.stateOf u = some x.state) {p : Option Alarm} (hp : Pushes s.toManager s'.toManager p)
    (hne : p ≠ some (x.alarm u)) {y : Entry} (hy : y ∈ s'.timers.heap ++ s.fired) (ha : y.alarm = x.alarm u) :
    x.waited u y.due s'.history = true := by
  have hy₀ : y ∈ s.timers.heap ++ s.fired := by
    cases hp with
    | same hh => rwa [hh] at hy
    | one hh =>
      rw [hh, List.mem_append, Deadline.mem_insert] at hy
      rcases hy with (rfl | hy) | hy
      · exact absurd (congrArg some ha) hne
      · exact List.mem_append_left _ hy
      · exact List.mem_append_right _ hy
  obtain ⟨new, hn, hst⟩ := h.between (.inr fun e => x.state_ne_active (Option.some.inj e).symm) hu₀ hu
  obtain ⟨new', hn', hnew⟩ := h.asides
  obtain rfl := List.append_cancel_right (hn'.symm.trans hn)
  rw [hn, Wait.waited_append fun e he => ⟨?_, hst e he⟩]
  · exact hs.due u hu₀ y hy₀ ha
  · rcases hnew e he with hw | ⟨rfl, -⟩
    · cases hw with
      | move hm => exact Call.sets_of_isMove hm
      | schedule hqueues =>
        refine Option.eq_none_iff_forall_ne_some.mpr fun delay hset => ?_
        obtain ⟨tie, due, -, hh⟩ := hqueues.pushed_of_sets hset
        exact hne (hp.alarm_eq hh)
    · exact Call.sets_of_not_world h.effect.call_not_world

/-- A unit that begins to wait has only alarms that are due once the wait is
over, if those it had before are. -/
theorem Acted.due (h : Acted c s s') (hs : Orderly x s) (hok : x.Alone s'.history) {u : Name}
    (hu : s'.stateOf u = some x.state) {y : Entry} (hy : y ∈ s'.timers.heap ++ s'.fired) (ha : y.alarm = x.alarm u) :
    x.waited u y.due s'.history = true := by
  rw [h.effect.kept.fired] at hy
  obtain ⟨p, hp, hb⟩ := h.effect.begins x
  rcases hb u hu with rfl | ⟨hu₀, hne⟩
  · exact h.due_of_push hok hu hp hy ha
  · exact h.due_of_waiting hs hu₀ hu hp hne hy ha

/-- An act that ends a wait, if at all, in time. -/
theorem Acted.orderly (h : Acted c s s') (hs : Orderly x s) (hok : x.Alone s'.history)
    (hc : ∀ c' u, c = some c' → x.ended c' = some u →
      s.stateOf u = some x.state ∧ x.waited u s.kernel.now s.history = true) : Orderly x s' := by
  refine ⟨h.effect.kept.wall hs.wall, fun u hu y hy ha => h.due hs hok hu hy ha, fun u y hy ha => ?_, fun t ht => ?_⟩
  · rw [h.effect.kept.fired] at hy
    exact (hs.fired u y hy ha).trans h.act.later.now
  · rw [List.mem_tails] at ht
    cases t with
    | nil => rfl
    | cons e older =>
      obtain ⟨c', m⟩ := e
      cases hu : x.ended c' with
      | none => simp [Wait.inTime, hu]
      | some u =>
        rcases h.before ht (Wait.isWorld_of_ended hu) with hold | ⟨rfl, hm, hnow, new, rfl, hnew⟩
        · exact hs.log _ ((List.mem_tails ..).mpr hold)
        · obtain ⟨hst, hw⟩ := hc c' u rfl hu
          have hm' : m.stateOf u = some x.state := by rw [hm]; exact hst
          simp only [Wait.inTime, hu, Option.all_some, hm', decide_true, Bool.true_and]
          rw [Wait.waited_append fun e he => ⟨Call.sets_of_isMove (hnew e he).1, ?_⟩]
          · exact Wait.waited_mono hnow hw
          · rw [Manager.stateOf, (hnew e he).2 u]
            exact hst

theorem Orderly.dues (hs : Orderly x s) (h : Dues none s s') (hok : x.Alone s'.history) : Orderly x s' := by
  refine Framework.Grows.invariant (fun h => h.act.grows) (fun hok hs h => ?_) h hok hs
  obtain ⟨c, ha, hc⟩ := h
  refine ha.orderly hs hok fun c' u e hu => ?_
  rw [e, Wait.alarm_of_ended hu] at hc
  simp at hc

theorem Orderly.update {f : Manager → Manager} (hs : Orderly x s) (hw : (f s.toManager).WallTimers)
    (hst : ∀ u, (f s.toManager).stateOf u = some x.state → s.stateOf u = some x.state)
    (hp : ∀ y ∈ (f s.toManager).timers.heap ++ (f s.toManager).fired, ∀ u, y.alarm = x.alarm u →
      y ∈ s.timers.heap ++ s.fired)
    (hf : ∀ y ∈ (f s.toManager).fired, ∀ u, y.alarm = x.alarm u → y.due ≤ s.kernel.now) : Orderly x (s.update f) :=
  ⟨hw, fun u hu y hy ha => hs.due u (hst u hu) y (hp y hy u ha) ha, fun u y hy ha => hf y hy u ha, hs.log⟩

/-- What is taken from the heaps keeps the order. -/
theorem Orderly.alarm {w : World} {e : Entry} {rest : List Entry} (hs : Orderly x s) (hf : s.fired = e :: rest)
    (hok : x.Alone (Supervisor.onAlarm w e.alarm (s.update (·.setFired rest))).history) :
    Orderly x (Supervisor.onAlarm w e.alarm (s.update (·.setFired rest))) := by
  have hmem : ∀ y ∈ rest, y ∈ s.fired := fun y hy => hf ▸ List.mem_cons_of_mem _ hy
  have hpop : Orderly x (s.update (·.setFired rest)) :=
    hs.update hs.wall (fun _ h => h)
      (fun y hy _ _ => List.mem_append.mpr ((List.mem_append.mp hy).imp_right (hmem y)))
      fun y hy u ha => hs.fired u y (hmem y hy) ha
  rcases Supervisor.onAlarm_fires w e.alarm (s.update (·.setFired rest)) with h | ⟨c, s₁, hc, hst, ha, h⟩
  · exact hpop.dues h.dues hok
  · have hok₁ : x.Alone s₁.history := fun e he => hok e (h.acts.grows.mem he)
    refine (ha.orderly hpop hok₁ fun c' u ec hu => ?_).dues h.dues hok
    cases ec
    have he : e.alarm = x.alarm u := Option.some.inj (hc.symm.trans (Wait.alarm_of_ended hu))
    have hy : e ∈ s.fired := hf ▸ List.mem_cons_self ..
    exact ⟨hst x u he, Wait.waited_mono (hs.fired u e hy he)
      (hs.due u (hst x u he) e (List.mem_append_right _ hy) he)⟩

theorem Tour.orderly {w : World} {r : Bool} (h : Tour w r s s') (hs : Orderly x s) (hok : x.Alone s'.history) :
    Orderly x s' := by
  have hwall := h.wall hs.wall
  cases h with
  | deed h => exact hs.dues h.dues hok
  | expire hf =>
    refine hs.update hwall (fun _ h => h) (fun y hy _ _ => List.mem_append_left _ ?_)
      fun y hy _ _ => Deadline.due_of_mem_expired hy
    exact Deadline.mem_expired_or_later.mp (List.mem_append.mp hy).symm
  | @expireWall now hf =>
    have hne : ∀ y ∈ Deadline.expired now s.timers.wallHeap, ∀ u, y.alarm ≠ x.alarm u := by
      intro y hy u ha
      obtain ⟨v, hv⟩ := hs.wall y (Deadline.mem_expired_or_later.mp (.inl hy))
      rw [hv] at ha
      cases x <;> cases ha
    refine hs.update hwall (fun _ h => h) (fun y hy u ha => ?_) fun y hy u ha => absurd ha (hne y hy u)
    rcases List.mem_append.mp hy with hy | hy
    · exact List.mem_append_left _ hy
    · exact absurd ha (hne y hy u)
  | lose =>
    refine hs.update hwall (fun _ h => h) (fun y hy u _ => ?_) fun y hy => by cases hy
    rw [show ((s.setFired []).fired) = [] from rfl, List.append_nil] at hy
    exact List.mem_append_left _ hy
  | alarm hf => exact hs.alarm hf hok
  | shutdown hd =>
    obtain ⟨s₁, h₁, -, h₂⟩ := Supervisor.beginShutdown_chores w _ hd
    have hs₁ : Orderly x s₁ := hs.dues (h₁.dues none) fun e he => hok e (h₂.acts.grows.mem he)
    exact (hs₁.update hs₁.wall (fun _ h => h) (fun _ hy _ _ => hy) fun y hy u ha => hs₁.fired u y hy ha).dues
      (h₂.dues none) hok
  | addHandle =>
    exact hs.update hwall (fun _ h => h) (fun _ hy _ _ => hy) fun y hy u ha => hs.fired u y hy ha
  | @insert name unit =>
    refine hs.update hwall (fun u hu => ?_) (fun _ hy _ _ => hy) fun y hy u ha => hs.fired u y hy ha
    rw [Manager.stateOf, Manager.get_insertUnit] at hu
    split at hu
    · exact absurd (Option.some.inj hu) (x.state_ne_idle rfl)
    · exact hu
  | keep =>
    refine hs.update hwall (fun u hu => ?_) (fun _ hy _ _ => hy) fun y hy u ha => hs.fired u y hy ha
    simp only [Manager.stateOf, Option.map_eq_some_iff] at hu ⊢
    obtain ⟨i, hi, hst⟩ := hu
    exact ⟨i, Manager.get_of_keep hi, hst⟩

/-- The alarm that ends a backoff is scheduled at the moment the unit ends, with
the delay that its policy announces then. -/
def AsAnnounced (l : List (Call × Machine)) : Prop :=
  ∀ u delay m older, (.schedule (.restart u) delay, m) :: older <:+ l →
    ({ toMachine := m, history := older } : Supervisor).announces u delay

/-- What guards a unit has been scheduled with the delay that the unit asks for. -/
def AsAsked (l : List (Call × Machine)) : Prop :=
  ∀ e ∈ l, ∀ alarm delay, e.1 = .schedule alarm delay → e.2.asks delay alarm

namespace Supervisor

theorem Reachable.asAsked {w : World} (hr : Reachable w s) : AsAsked s.history := by
  intro e he alarm delay hc
  obtain ⟨newer, older, hl⟩ := List.append_of_mem he
  have h := hr.asked e.1 e.2 older (hl ▸ List.suffix_append newer _)
  rw [hc] at h
  exact asks_manager h

/-- Every wait is honoured, in every reachable state. -/
theorem Reachable.honoured {w : World} (hr : Reachable w s) (hok : x.Alone s.history) : x.Honoured s.history := by
  refine (hr.guarded hok (I := Orderly x) (fun hierarchy kernel => ?_) fun hok hs ht => ht.orderly hs hok).log
  have hf := queued_fresh w hierarchy kernel
  refine ⟨fun y hy => ?_, fun u _ y hy _ => ?_, fun u y hy _ => ?_, fun t ht => ?_⟩
  · rw [hf.wallHeap] at hy
    cases hy
  · rw [hf.heap, hf.fired] at hy
    cases hy
  · rw [hf.fired] at hy
    cases hy
  · cases t with
    | nil => rfl
    | cons e older =>
      have hw := queued_log w hierarchy kernel e (((List.mem_tails ..).mp ht).mem (List.mem_cons_self ..))
      cases hu : x.ended e.1 with
      | none => simp [Wait.inTime, hu]
      | some u => exact absurd (hw.symm.trans (Wait.isWorld_of_ended hu)) (by decide)

/-! ## The three waits -/

/-- `stop_timed_out` kills a unit only once it has been `Deactivating`, without
interruption, for its `stop-sec` since the `SIGTERM` of its stop, after which
the alarm is scheduled: as long as no alarm of an earlier stop is due before. -/
theorem stop_sec_honoured {w : World} (hr : Reachable w s) (hok : Wait.stop.Alone s.history) :
    Wait.stop.Honoured s.history ∧ AsAsked s.history :=
  ⟨hr.honoured hok, hr.asAsked⟩

theorem stop_sec_honoured_sample :
    let w := scripted [(12, [.pass (Duration.fromSecs 30)])]
    let s := run w (booted w [bootTarget ["a"], serviceUnit "a" {} .simple .no]) [.request (.stop "a"), .timer]
    Wait.stop.Honoured s.history ∧ AsAsked s.history :=
  stop_sec_honoured (run_reachable _ _ _) (by decide +kernel)

/-- A service is stopped, exits, is started and stopped again: it is killed
when the first stop would have been over. -/
theorem earlier_stop_kills_early :
    let w := scripted [(12, [exits 2]), (19, [.pass (Duration.fromSecs 10)]), (24, [.pass (Duration.fromSecs 20)])]
    let s := run w (booted w [bootTarget ["a"], serviceUnit "a" {} .simple .no])
      [.request (.stop "a"), .sigchld, .request (.start "a"), .request (.stop "a"), .timer]
    Reachable w s ∧ ¬Wait.stop.Honoured s.history :=
  ⟨run_reachable _ _ _, by decide +kernel⟩

/-- `start_timed_out` stops a unit only once it has been `Activating`, without
interruption, for its `start-sec` since its main process was forked: as long
as no alarm of an earlier start is due before. -/
theorem start_sec_honoured {w : World} (hr : Reachable w s) (hok : Wait.start.Alone s.history) :
    Wait.start.Honoured s.history ∧ AsAsked s.history :=
  ⟨hr.honoured hok, hr.asAsked⟩

theorem start_sec_honoured_sample :
    let w := scripted [(8, [.pass (Duration.fromSecs 90)])]
    let s := run w (booted w [bootTarget ["a"], serviceUnit "a" {} .notify .no]) [.timer]
    Wait.start.Honoured s.history ∧ AsAsked s.history :=
  start_sec_honoured (run_reachable _ _ _) (by decide +kernel)

/-- A service exits before it is ready and is started again: it is stopped
when the first start would have been late. -/
theorem earlier_start_times_out_early :
    let w := scripted [(8, [exits 2]), (9, [.pass (Duration.fromSecs 10)]), (14, [.pass (Duration.fromSecs 80)])]
    let s := run w (booted w [bootTarget ["a"], serviceUnit "a" {} .notify .no])
      [.sigchld, .request (.start "a"), .timer]
    Reachable w s ∧ ¬Wait.start.Honoured s.history :=
  ⟨run_reachable _ _ _, by decide +kernel⟩

/-- A restart alarm starts a unit only once it has been `Restarting`, without
interruption, for the delay that was announced when it ended: as long as no
alarm of an earlier backoff is due before. -/
theorem backoff_honoured {w : World} (hr : Reachable w s) (hok : Wait.backoff.Alone s.history) :
    Wait.backoff.Honoured s.history ∧ AsAnnounced s.history :=
  ⟨hr.honoured hok, fun _ _ m older h => hr.asked _ m older h⟩

theorem backoff_honoured_sample :
    let w := scripted [(7, [exits 2]), (12, [.pass (Duration.fromMillis 100)])]
    let s := run w (booted w [bootTarget ["a"], serviceUnit "a" {} .simple .always]) [.sigchld, .timer]
    Wait.backoff.Honoured s.history ∧ AsAnnounced s.history :=
  backoff_honoured (run_reachable _ _ _) (by decide +kernel)

/-- A service exits, is started on request during its backoff and exits again:
it is back when the first backoff would have been over. -/
theorem earlier_backoff_restarts_early :
    let w := scripted [(7, [exits 2]), (15, [exits 3]), (20, [.pass (Duration.fromMillis 100)])]
    let s := run w (booted w [bootTarget ["a"], serviceUnit "a" {} .simple .always])
      [.sigchld, .request (.start "a"), .sigchld, .timer]
    Reachable w s ∧ ¬Wait.backoff.Honoured s.history :=
  ⟨run_reachable _ _ _, by decide +kernel⟩

end Supervisor

end Oxinit
