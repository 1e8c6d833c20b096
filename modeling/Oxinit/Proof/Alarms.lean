import Oxinit.Proof.Rest
import Oxinit.Proof.Shutdown

/-!
# Pending alarms

Alarms are never cancelled, so no operation but the one that takes an alarm
can leave a unit without the alarm that guards it: `Effect.safe` says so of
every effect. While an alarm is handled it is owed (`Safe (some alarm)`), and
its handler either pends it again or leaves no unit that needs it.
-/

namespace Oxinit

open Framework (Deadline)
open Relation (ReflTransGen)

/-- An alarm is in the monotonic heap, or has been taken from a heap and not
been handled. -/
def Manager.Pending (m : Manager) (a : Alarm) : Prop := ∃ e ∈ m.timers.heap ++ m.fired, e.alarm = a

/-- A unit in need of an alarm has it. -/
structure Guarded (P : Alarm → Prop) (v : Name) (i : Instance) : Prop where
  activating : i.state = .activating → P (.startTimeout v)
  restarting : i.state = .restarting → P (.restart v)
  deactivating : i.state = .deactivating → i.killed = true ∨ P (.stopTimeout v)
  watched : ∀ {service d}, i.unit.service = some service → service.ty = .notify →
    service.watchdogSec = some d → i.state = .active → P (.watchdogCheck v)

/-- Every unit is guarded, by the alarms that are pending and the one that is
being handled. -/
def Manager.Safe (a : Option Alarm) (m : Manager) : Prop :=
  ∀ (v : Name) (i : Instance), m.instances[v]? = some i → i.Plain ∧ Guarded (fun b => m.Pending b ∨ a = some b) v i

namespace Guarded

variable {P Q : Alarm → Prop} {v : Name} {i j : Instance}

theorem mono (h : Guarded P v i) (hpq : ∀ a, P a → Q a) : Guarded Q v i :=
  ⟨fun hs => hpq _ (h.activating hs), fun hs => hpq _ (h.restarting hs),
    fun hs => (h.deactivating hs).imp_right (hpq _), fun hsv hty hd hs => hpq _ (h.watched hsv hty hd hs)⟩

theorem idle (h : isIdle i.state = true) : Guarded P v i := by
  refine ⟨?_, ?_, ?_, ?_⟩ <;> intros <;> simp_all [isIdle]

theorem like (h : Guarded P v i) (hu : j.unit = i.unit) (hs : j.state = i.state) (hk : j.killed = i.killed) :
    Guarded P v j := by
  refine ⟨fun h' => h.activating (hs ▸ h'), fun h' => h.restarting (hs ▸ h'), fun h' => ?_,
    fun hsv hty hd h' => h.watched (hu ▸ hsv) hty hd (hs ▸ h')⟩
  rw [hk]
  exact h.deactivating (hs ▸ h')

theorem unwatched (hs : i.state = .active)
    (hw : ∀ {service d}, i.unit.service = some service → service.ty = .notify → service.watchdogSec ≠ some d) :
    Guarded P v i := by
  refine ⟨?_, ?_, ?_, fun hsv hty hd _ => absurd hd (hw hsv hty)⟩ <;> intro h <;> simp [hs] at h

end Guarded

/-! ## Effects keep every unit guarded -/

namespace Manager

variable {m m' : Manager} {a : Option Alarm} {name : Name} {f : Instance → Instance}

/-- Nothing but the instance of `name` is modified, and no alarm is taken. -/
theorem Safe.modify (h : m.Safe a) (name : Name) (hne : ∀ v, name ≠ v → m'.instances[v]? = m.instances[v]?)
    (hp : ∀ b, m.Pending b → m'.Pending b)
    (hf : ∀ i, m'.instances[name]? = some i → i.Plain ∧ Guarded (fun b => m'.Pending b ∨ a = some b) name i) :
    m'.Safe a := by
  intro v i hi
  by_cases e : name = v
  · subst e
    exact hf i hi
  · rw [hne v e] at hi
    exact ⟨(h v i hi).1, (h v i hi).2.mono fun b => Or.imp_left (hp b)⟩

theorem Safe.of_instances (h : m.Safe a) (hm : m'.instances = m.instances)
    (hp : ∀ b, m.Pending b → m'.Pending b) : m'.Safe a := by
  intro v i hi
  rw [hm] at hi
  exact ⟨(h v i hi).1, (h v i hi).2.mono fun b => Or.imp_left (hp b)⟩

theorem Pending.push {b : Alarm} (h : m.Pending b) (tie : Nat) (e : Entry) (fd : Option Nat) :
    ((m.push tie e).setFd fd).Pending b := by
  obtain ⟨x, hx, hb⟩ := h
  refine ⟨x, ?_, hb⟩
  simp only [List.mem_append] at hx ⊢
  exact hx.imp_left fun hx => Deadline.mem_insert.mpr (.inr hx)

theorem pending_push (m : Manager) (tie : Nat) (e : Entry) (fd : Option Nat) :
    ((m.push tie e).setFd fd).Pending e.alarm :=
  ⟨e, List.mem_append_left _ (Deadline.mem_insert.mpr (.inl rfl)), rfl⟩

end Manager

theorem Armed.pending {now : Nat} {name : Name} {m m' : Manager} {next : Option Next} (h : Armed now name m next m')
    {b : Alarm} (hb : m.Pending b) : m'.Pending b := by
  cases h with
  | none => exact hb
  | after hdue h => subst h; exact hb.push ..
  | afterFailed hdue h => subst h; exact hb.push ..
  | «at» h => subst h; exact hb
  | atFailed h => subst h; exact hb

/-- A unit that ended is idle or in a backoff it has an alarm for. -/
theorem Restarts.safe {now : Nat} {name : Name} {m m' : Manager} {f : Instance → Instance} {r : Option Nat}
    {a : Option Alarm} {i : Instance} (h : Restarts now name (m.modify name f) r m') (hm : m.Safe a)
    (hi : m.instances[name]? = some i) (hp : (f i).Plain)
    (hn : r = none → Guarded (fun b => m.Pending b ∨ a = some b) name (f i))
    (hs : r ≠ none → (f i).state = .restarting) : m'.Safe a := by
  have hf := Manager.get_modify_self (f := f) hi
  cases h with
  | no =>
    refine hm.modify name (fun v => Manager.get_modify_ne) (fun _ => id) fun j hj => ?_
    rw [hf] at hj
    cases hj
    exact ⟨hp, hn rfl⟩
  | scheduled =>
    refine hm.modify name (fun v => Manager.get_modify_ne)
      (fun _ h => Manager.Pending.push (m := m.modify name f) h ..) fun j hj => ?_
    have hj' := hf.symm.trans hj
    cases hj'
    have hs := hs (by simp)
    refine ⟨hp, ?_, fun _ => .inl (Manager.pending_push ..), ?_, ?_⟩ <;> intros <;> simp_all
  | cancelled =>
    refine hm.modify name
      (fun v e => (Manager.get_modify_ne e).trans (Manager.get_modify_ne e)) (fun _ => id) fun j hj => ?_
    rw [Manager.get_modify_self hf] at hj
    cases hj
    have hs := hs (by simp)
    obtain ⟨service, hsv⟩ := hp.service (.inr (.inr hs))
    exact ⟨.of_service (by rw [Instance.cancelRestart_unit, hsv]),
      .idle (by rw [Instance.cancelRestart_state hs]; rfl)⟩

/-- No effect takes the alarm that guards a unit. -/
theorem Effect.safe {now : Nat} {c : Option Call} {m m' : Manager} {a : Option Alarm} (h : Effect now c m m')
    (hm : m.Safe a) : m'.Safe a := by
  have hset : ∀ {name : Name} {j : Instance} {m' : Manager},
      (∀ v, name ≠ v → m'.instances[v]? = m.instances[v]?) → m'.instances[name]? = some j →
      (∀ b, m.Pending b → m'.Pending b) → j.Plain → Guarded (fun b => m'.Pending b ∨ a = some b) name j →
      m'.Safe a := by
    intro name j m' hne hj hp hpl hg
    refine hm.modify name hne hp fun i hi => ?_
    rw [hj] at hi
    cases hi
    exact ⟨hpl, hg⟩
  have hmap : ∀ {name : Name} {f : Instance → Instance}, (∀ i, i.Plain → (f i).Plain) →
      (∀ i, Guarded (fun b => m.Pending b ∨ a = some b) name i → Guarded (fun b => m.Pending b ∨ a = some b) name (f i)) →
      (m.modify name f).Safe a := by
    intro name f hpl hg
    refine hm.modify name (fun v => Manager.get_modify_ne) (fun _ => id) fun j hj => ?_
    rw [Manager.get_modify, if_pos rfl, Option.map_eq_some_iff] at hj
    obtain ⟨i, hi, rfl⟩ := hj
    exact ⟨hpl i (hm _ i hi).1, hg i (hm _ i hi).2⟩
  have hne : ∀ {name : Name} {f : Instance → Instance} (v : Name), name ≠ v →
      (m.modify name f).instances[v]? = m.instances[v]? := fun v => Manager.get_modify_ne
  cases h with
  | turn | mark => exact hm
  | armed | fd | wallFd | clear | pump | stop | awaitRestart | takeRestart | reaping =>
    exact hm.of_instances rfl fun _ => id
  | cancel hi hs =>
    obtain ⟨service, hsv⟩ := (hm _ _ hi).1.service (.inr (.inr hs))
    exact hset hne (Manager.get_modify_self hi) (fun _ => id)
      (.of_service (by rw [Instance.cancelRestart_unit, hsv])) (.idle (by rw [Instance.cancelRestart_state hs]; rfl))
  | instant hi hsv =>
    exact hset hne (Manager.get_modify_self hi) (fun _ => id)
      (.of_idle (Instance.deactivated_child ..) (Instance.instant_idle _ _ hsv)) (.idle (Instance.instant_idle _ _ hsv))
  | terminate hi hsv =>
    refine hset hne (Manager.get_modify_self hi) (fun _ h => h.push ..) (.of_service hsv)
      ⟨?_, ?_, fun _ => .inr (.inl (Manager.pending_push ..)), ?_⟩
    all_goals simp [Instance.enteredDeactivating]
  | kill hi hs =>
    refine hset hne (Manager.get_modify_self hi) (fun _ => id) ((hm _ _ hi).1.like rfl rfl (.inl rfl))
      ⟨?_, ?_, fun _ => .inl rfl, ?_⟩
    all_goals simp [Instance.stopTimedOut, hs]
  | up hi _ hsv =>
    exact hset hne (Manager.get_modify_self hi) (fun _ => id)
      (fun h => ⟨((hm _ _ hi).1 h).1, .inr (.inr rfl)⟩) (.unwatched rfl (by simp [Instance.enteredActive, hsv]))
  | arm hi _ htm _ _ h =>
    rename_i i timer since ping _ _ _ _
    have hsv := Unit.service_of_timer htm
    refine hset (j := i.enteredActive since ping) (fun v e => by rw [h.frame.1]; exact hne v e)
      (by rw [h.frame.1]; exact Manager.get_modify_self hi)
      (fun _ hb => h.pending hb) (fun h => ⟨((hm _ _ hi).1 h).1, .inr (.inr rfl)⟩)
      (.unwatched rfl (by simp [Instance.enteredActive, hsv]))
  | elapsed _ _ h => exact hm.of_instances h.frame.1 fun _ => h.pending
  | fail => exact hmap (fun i _ => .of_idle rfl rfl) fun i _ => .idle rfl
  | spawnSimple hi _ hsv hty =>
    refine hset (fun v e => (Manager.get_modify_ne e).trans (hne v e))
      (Manager.get_modify_self (Manager.get_modify_self hi)) (fun _ => id) (.of_service hsv) (.unwatched rfl ?_)
    intro service d hsv' hty'
    cases hsv.symm.trans hsv'
    simp [hty] at hty'
  | spawn hi _ hsv =>
    refine hset hne (Manager.get_modify_self hi) (fun _ h => h.push ..) (.of_service hsv)
      ⟨fun _ => .inl (Manager.pending_push ..), ?_, ?_, ?_⟩
    all_goals simp [Instance.enteredActivating]
  | finished hi hs _ h =>
    obtain ⟨service, hsv⟩ := (hm _ _ hi).1.service (.inr (.inl hs))
    exact h.safe hm hi (.of_service (by rw [Instance.deactivated_unit, hsv]))
      (fun e => .idle (Instance.deactivated_idle_of_none e)) Instance.deactivated_restarting
  | exited hi hc hf ht h =>
    rename_i name exit i pid t
    have hsv : ∃ service, i.unit.service = some service := by
      cases hsv : i.unit.service with
      | some service => exact ⟨service, rfl⟩
      | none => exact absurd ((hm _ _ hi).1 hsv).1 (by simp [hc])
    obtain ⟨service, hsv⟩ := hsv
    by_cases hs : i.state = .deactivating
    · have e := Instance.onExit_deactivating t exit hs
      refine h.safe hm hi (.of_service (by rw [Instance.onExit_unit, hsv])) (fun _ => ?_) fun h => ?_
      · simp only [e]
        exact (hm _ _ hi).2.like rfl rfl rfl
      · exact absurd (by rw [e]) h
    · exact h.safe hm hi (.of_service (by rw [Instance.onExit_unit, hsv]))
        (fun e => .idle (Instance.onExit_idle hs e)) (Instance.onExit_restarting hs)
  | vanished hi hs hc ht h =>
    have hd := hs.trans_ne (show State.active ≠ .deactivating by decide)
    have hid := Instance.onExit_idle hd h
    exact hset hne (Manager.get_modify_self hi) (fun _ => id) (.of_idle (Instance.onExit_child ..) hid) (.idle hid)
  | vanishedRestart hi hs hc ht h =>
    have hd := hs.trans_ne (show State.active ≠ .deactivating by decide)
    have hr := Option.ne_none_iff_exists'.mpr ⟨_, h⟩
    have hst := Instance.onExit_restarting hd hr
    refine hset hne (Manager.get_modify_self hi) (fun _ h => h.push ..) (fun hsv => ?_)
      ⟨?_, fun _ => .inl (Manager.pending_push ..), ?_, ?_⟩
    · rw [Instance.onExit_unit] at hsv
      exact absurd (Instance.onExit_plain _ _ hsv hd) hr
    all_goals simp [hst]
  | forkedAway hi hsv hty =>
    refine hset hne (Manager.get_modify_self hi) (fun _ => id) (.of_service hsv) (.unwatched rfl ?_)
    intro service d hsv' hty'
    cases hsv.symm.trans hsv'
    simp [hty] at hty'
  | said => exact hmap (fun i h => h.like rfl rfl (.inl rfl)) fun i h => h.like rfl rfl rfl
  | pinged => exact hmap (fun i h => h.like rfl rfl (.inl rfl)) fun i h => h.like rfl rfl rfl
  | ready hi hs hw =>
    obtain ⟨service, hsv⟩ := (hm _ _ hi).1.service (.inl hs)
    refine hset hne (Manager.get_modify_self hi) (fun _ => id) (.of_service hsv) (.unwatched rfl ?_)
    intro service' d hsv' _
    cases hsv.symm.trans hsv'
    rw [hsv, Option.bind_some] at hw
    simp [hw]
  | readyWatched hi hs hw =>
    obtain ⟨service, hsv⟩ := (hm _ _ hi).1.service (.inl hs)
    refine hset hne (Manager.get_modify_self hi) (fun _ h => h.push ..) (.of_service hsv)
      ⟨?_, ?_, ?_, fun _ _ _ _ => .inl (Manager.pending_push ..)⟩
    all_goals simp [Instance.enteredActive]
  | watched => exact hm.of_instances rfl fun _ h => h.push ..

theorem Acts.safe {s s' : Supervisor} {a : Option Alarm} (h : Acts s s') (hs : s.Safe a) : s'.Safe a :=
  Framework.invariant (I := fun s => s.Safe a) (fun hs ⟨_, h⟩ => h.effect.safe hs) h hs

/-! ## Handling an alarm -/

/-- An alarm that is handled need not be kept. -/
theorem Guarded.settle {P : Alarm → Prop} {a : Alarm} {v : Name} {i : Instance}
    (h : Guarded (fun b => P b ∨ some a = some b) v i) (hn : Guarded (· ≠ a) v i) :
    Guarded (fun b => P b ∨ none = some b) v i := by
  have key : ∀ {b}, P b ∨ some a = some b → b ≠ a → P b ∨ none = some b :=
    fun hb hne => .inl (hb.resolve_right fun e => hne (Option.some.inj e).symm)
  exact ⟨fun hs => key (h.activating hs) (hn.activating hs), fun hs => key (h.restarting hs) (hn.restarting hs),
    fun hs => (h.deactivating hs).elim .inl fun hb => (hn.deactivating hs).imp_right (key hb),
    fun hsv hty hd hs => key (h.watched hsv hty hd hs) (hn.watched hsv hty hd hs)⟩

/-- An alarm is done with once it pends again, or no unit needs it. -/
theorem Manager.Safe.settle {m : Manager} {a : Alarm} (h : m.Safe (some a))
    (hs : m.Pending a ∨ ∀ (v : Name) (i : Instance), m.instances[v]? = some i → Guarded (· ≠ a) v i) :
    m.Safe none := by
  intro v i hi
  refine ⟨(h v i hi).1, ?_⟩
  rcases hs with hs | hs
  · exact (h v i hi).2.mono fun b hb => .inl (hb.elim id fun e => Option.some.inj e ▸ hs)
  · exact (h v i hi).2.settle (hs v i hi)

namespace Supervisor

variable {w : World} {s : Supervisor} {name : Name}

/-- Once it has been brought up, a unit is up, coming up or `Failed`. -/
theorem Raised.state {s' : Supervisor} {i : Instance} (h : Raised name s s') (hi : s'.instances[name]? = some i) :
    i.state = .active ∨ i.state = .activating ∨ i.state = .failed := by
  obtain ⟨c, s₁, -, -, ha, hc⟩ := h
  have key : ∀ {m m' : Manager} {now : Nat}, Effect now (some c) m m' → m'.instances[name]? = some i →
      i.state = .active ∨ i.state = .activating ∨ i.state = .failed := by
    intro m m' now he hi
    have hmod : ∀ {m : Manager} {f : Instance → Instance}, (m.modify name f).instances[name]? = some i →
        ∃ i₀, i = f i₀ := by
      intro m f hi
      rw [Manager.get_modify, if_pos rfl, Option.map_eq_some_iff] at hi
      obtain ⟨i₀, -, e⟩ := hi
      exact ⟨i₀, e.symm⟩
    rcases hc with rfl | rfl | rfl | rfl
    · cases he with
      | mark h => cases h
      | up => obtain ⟨i₀, rfl⟩ := hmod hi; exact .inl rfl
    · cases he with
      | mark h => cases h
      | arm _ _ _ _ _ h => rw [h.frame.1] at hi; obtain ⟨i₀, rfl⟩ := hmod hi; exact .inl rfl
    · cases he with
      | mark h => cases h
      | fail => obtain ⟨i₀, rfl⟩ := hmod hi; exact .inr (.inr rfl)
    · cases he with
      | mark h => cases h
      | spawnSimple => obtain ⟨i₀, rfl⟩ := hmod hi; exact .inl rfl
      | spawn => obtain ⟨i₀, rfl⟩ := hmod hi; exact .inr (.inl rfl)
  exact key ha.effect hi

/-- A unit that has been started is not waiting to be restarted. -/
theorem start_not_restarting {i : Instance} (hd : s.shuttingDown = false)
    (hi : (start w name s).instances[name]? = some i) : i.state ≠ .restarting := by
  rcases start_raised w name hd with ⟨hn, e⟩ | h
  · rw [e, hn] at hi
    cases hi
  · rcases h.state hi with h | h | h <;> simp [h]

/-- A watchdog that is armed has its alarm. -/
theorem armWatchdog_pending (w : World) (name : Name) (interval : Nat) (s : Supervisor) :
    (armWatchdog w name interval s).Pending (.watchdogCheck name) := by
  obtain ⟨tie, due, fd, -, e⟩ := schedule_manager w interval (.watchdogCheck name) s
  rw [armWatchdog, e]
  exact Manager.pending_push ..

/-- Handling an alarm leaves every unit guarded. -/
theorem onAlarm_safe {a : Alarm} (hd : s.shuttingDown = true → s.Down) (h : s.Safe (some a)) :
    (onAlarm w a s).Safe none := by
  refine ((onAlarm_deeds w a s).acts.safe h).settle ?_
  cases a with
  | restart u =>
    refine .inr fun v i hi => ⟨by simp, fun hs e => ?_, fun _ => .inr (by simp), fun _ _ _ _ => by simp⟩
    cases e
    simp only [onAlarm] at hi
    split at hi
    · rename_i hr
      have hd' : s.shuttingDown = false := eq_false_of_ne_true fun ht => by
        simp only [Manager.stateOf, Option.map_eq_some_iff] at hr
        obtain ⟨i₀, hi₀, hr⟩ := hr
        have := hd ht u i₀ hi₀
        simp [hr, isIdle] at this
      exact start_not_restarting (s := s.note (.backoff u)) hd' hi hs
    · rename_i hr
      exact hr (by rw [Manager.stateOf_of_get hi, hs])
  | watchdogCheck u =>
    have hn : ∀ {m : Manager}, (∀ i, m.instances[u]? = some i → i.state = .active →
          i.unit.service.bind (·.watchdogSec) = none) →
        ∀ (v : Name) (i : Instance), m.instances[v]? = some i → Guarded (· ≠ .watchdogCheck u) v i :=
      fun h v i hi => ⟨by simp, by simp, fun _ => .inr (by simp), fun hsv _ hw hs e => by
        cases e
        simpa [hsv, hw] using h i hi hs⟩
    simp only [onAlarm, checkWatchdog]
    split
    · rename_i hi
      exact .inr (hn fun i hi' => by simp [hi] at hi')
    · rename_i i hi
      split
      · rename_i hw
        exact .inr (hn fun j hj _ => by rw [hi] at hj; cases hj; exact hw)
      · split
        · rename_i hs
          exact .inr (hn fun j hj hs' => by rw [hi] at hj; cases hj; exact absurd hs' hs)
        · split
          · refine .inr (hn fun j hj hs' => ?_)
            rcases stop_down hj with h' | h' <;> simp [hs', isIdle] at h'
          · exact .inl (armWatchdog_pending w u _ _)
  | stopTimeout u =>
    refine .inr fun v i hi => ⟨by simp, by simp, fun hs => or_iff_not_imp_right.mpr fun e => ?_, fun _ _ _ _ => by simp⟩
    cases not_not.mp e
    simp only [onAlarm, stopTimedOut] at hi
    split at hi
    · rename_i h'
      rw [h'] at hi
      cases hi
    · rename_i i₀ hi₀
      split at hi
      · rename_i hs'
        rw [hi₀] at hi
        cases hi
        exact absurd hs hs'
      · rw [sigkill_toManager, modify_toManager, Manager.get_modify_self (by exact hi₀)] at hi
        cases hi
        rfl
  | timerElapsed u =>
    exact .inr fun v i _ => ⟨by simp, by simp, fun _ => .inr (by simp), fun _ _ _ _ => by simp⟩
  | startTimeout u =>
    refine .inr fun v i hi => ⟨fun hs e => ?_, by simp, fun _ => .inr (by simp), fun _ _ _ _ => by simp⟩
    cases e
    simp only [onAlarm, startTimedOut] at hi
    split at hi
    · rename_i h'
      rw [h'] at hi
      cases hi
    · rename_i i₀ hi₀
      split at hi
      · rename_i hs'
        rw [hi₀] at hi
        cases hi
        exact absurd hs hs'
      · rcases stop_down hi with h' | h' <;> simp [hs, isIdle] at h'

/-! ## Every run -/

theorem Safe.expired {m : Manager} {now : Nat} (hf : m.fired = []) (h : m.Safe none) :
    (m.takeExpired now).Safe none := by
  refine h.of_instances rfl fun b ⟨e, he, hb⟩ => ⟨e, ?_, hb⟩
  simp only [hf, List.append_nil] at he
  simp only [Manager.takeExpired, List.mem_append]
  exact (Deadline.mem_expired_or_later.mpr he).symm

/-- Between two handlings, no alarm is owed. -/
theorem safe_tour {r : Bool} {s' : Supervisor} (hw : ∀ n, (w n).timerfd = true) (hg : GoesDown s)
    (h : s.Safe none) (ht : Tour w r s s') : s'.Safe none := by
  have hpop : ∀ {e rest}, s.fired = e :: rest → (s.update (·.setFired rest)).Safe (some e.alarm) := by
    intro e rest hf v i hi
    refine ⟨(h v i hi).1, (h v i hi).2.mono fun b hb => ?_⟩
    obtain ⟨x, hx, hb⟩ := hb.resolve_right (by simp)
    rw [hf, List.mem_append, List.mem_cons] at hx
    rcases hx with hx | rfl | hx
    · exact .inl ⟨x, List.mem_append_left _ hx, hb⟩
    · exact .inr (by rw [hb])
    · exact .inl ⟨x, List.mem_append_right _ hx, hb⟩
  cases ht with
  | deed hdeed => exact hdeed.acts.safe h
  | expire hf => exact Safe.expired hf h
  | expireWall hf =>
    refine h.of_instances rfl fun b ⟨e, he, hb⟩ => ⟨e, ?_, hb⟩
    rw [hf, List.append_nil] at he
    exact List.mem_append_left _ he
  | lose hl =>
    rcases hl with ⟨n, hn⟩ | hf
    · exact absurd (hn.symm.trans (hw n)) (by decide)
    · exact h.of_instances rfl fun b hb => by rwa [Manager.Pending, hf] at hb
  | alarm hf => exact onAlarm_safe hg.down (hpop hf)
  | shutdown hd =>
    obtain ⟨s₁, -, hm, h₂⟩ := beginShutdown_acts w _ hd
    refine h₂.safe ?_
    rw [update_toManager, hm]
    exact h.of_instances rfl fun _ => id
  | addHandle => exact h.of_instances rfl fun _ => id
  | @insert name unit =>
    intro v i hi
    rw [update_toManager, Manager.get_insertUnit] at hi
    split at hi
    · cases hi
      exact ⟨.of_idle rfl rfl, .idle rfl⟩
    · exact h v i hi
  | keep => exact fun v i hi => h v i (Manager.get_of_keep hi)

/-- A unit that waits for something has an alarm pending that will end the
wait, and what runs no process never waits. -/
structure NotStranded (m : Manager) (u : Name) (i : Instance) : Prop where
  activating : i.state = .activating → ∃ e ∈ m.timers.heap, e.alarm = .startTimeout u
  restarting : i.state = .restarting → ∃ e ∈ m.timers.heap, e.alarm = .restart u
  deactivating : i.state = .deactivating → (∃ e ∈ m.timers.heap, e.alarm = .stopTimeout u) ∨ i.killed = true
  watched : ∀ {service d}, i.unit.service = some service → service.ty = .notify → service.watchdogSec = some d →
    i.state = .active → ∃ e ∈ m.timers.heap, e.alarm = .watchdogCheck u
  plain : i.unit.service = none → i.state ≠ .activating ∧ i.state ≠ .deactivating ∧ i.state ≠ .restarting

/-- No unit is stranded. -/
def NoneStranded (m : Manager) : Prop := ∀ (u : Name) (i : Instance), m.instances[u]? = some i → NotStranded m u i

/-- No unit is ever stranded: between two handlers, whatever happened before. -/
theorem no_unit_is_stranded (hw : ∀ n, (w n).timerfd = true) (hr : Reachable w s) :
    NoneStranded s.toManager := by
  have hs : GoesDown s ∧ s.Safe none := by
    refine hr.invariant (I := fun s => GoesDown s ∧ s.Safe none) (fun hierarchy kernel => ?_)
      fun h ht => ⟨h.1.tour ht, safe_tour hw h.1 h.2 ht⟩
    refine ⟨GoesDown.queued w hierarchy kernel, fun v i hi => ?_⟩
    rw [(queued_fresh w hierarchy kernel).inst v i hi]
    exact ⟨.of_idle rfl rfl, .idle rfl⟩
  intro u i hi
  obtain ⟨hp, hg⟩ := hs.2 u i hi
  have key : ∀ {a}, s.Pending a ∨ none = some a → ∃ e ∈ s.timers.heap, e.alarm = a := by
    intro a h
    obtain ⟨e, he, ha⟩ := h.resolve_right (by simp)
    exact ⟨e, by simpa [hr.fired] using he, ha⟩
  refine ⟨fun h => key (hg.activating h), fun h => key (hg.restarting h),
    fun h => (hg.deactivating h).symm.imp_left key, fun hsv hty hd h => key (hg.watched hsv hty hd h), fun hsv => ?_⟩
  have := (hp hsv).2
  refine ⟨?_, ?_, ?_⟩ <;> rintro h <;> simp [h] at this

theorem no_unit_is_stranded_sample :
    NoneStranded (run calm (booted calm [bootTarget ["a"], serviceUnit "a" {} .oneshot .always])
      [.request (.stop "a")]).toManager :=
  no_unit_is_stranded (by intro n; rfl) (run_reachable _ _ _)

end Supervisor

end Oxinit
