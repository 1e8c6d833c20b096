import Oxinit.Model.Wakeup
import Oxinit.Proof.Change
import Oxinit.Proof.Queue
import Oxinit.Proof.Refresh
import Oxinit.Proof.Watchdog

/-!
# Having come up

No event but a reload forgets that a unit has come up: of the changes to an
instance none does, and a reload replaces the instance of a unit that is down
and whose file has changed. As long as none does, a wake-up in which the boot
unit comes up confirms the boot.
-/

namespace Oxinit

open Framework (Each)

/-! ## What forgets it -/

namespace Instance

variable {i : Instance} {now t : Nat} {exit : Exit}

theorem scheduleRestart_reached : (i.scheduleRestart now exit).2.reached = i.reached := by
  have hf : (i.forget now).reached = i.reached := by
    rw [forget]
    repeat' first | rfl | split
  rw [← hf, scheduleRestart]
  dsimp only
  split <;> rfl

theorem deactivated_reached : (i.deactivated now).2.reached = i.reached := by
  simp only [deactivated]
  split
  · exact scheduleRestart_reached
  all_goals rfl

theorem cancelRestart_reached : i.cancelRestart.reached = i.reached := by
  simp only [cancelRestart]
  split <;> rfl

/-- An end does not forget that the unit came up. -/
theorem onExit_reached (h : i.reached = true) : (i.onExit now exit).2.reached = true := by
  simp only [onExit]
  split
  · exact h
  · rw [scheduleRestart_reached]
    split
    · rfl
    · exact h

end Instance

open Instance in
/-- No change of an instance forgets that its unit came up. -/
theorem Change.keeps_reached {now : Nat} {v : Name} {c : Option Call} {i i' : Instance} (h : Change now v c i i')
    (hr : i.reached = true) : i'.reached = true := by
  cases h with
  | up | arm | spawnSimple | forkedAway | ready => rfl
  | terminate | kill | fail | spawn | said | pinged => exact hr
  | cancel => exact cancelRestart_reached.trans hr
  | instant => exact deactivated_reached.trans hr
  | finished => exact deactivated_reached.trans hr
  | finishedDown => exact cancelRestart_reached.trans (deactivated_reached.trans hr)
  | exited => exact onExit_reached hr
  | exitedDown => exact cancelRestart_reached.trans (onExit_reached hr)
  | vanished => exact onExit_reached hr

theorem Manager.reached_iff {m : Manager} {n : Name} :
    m.reached n = true ↔ ∃ i, m.instances[n]? = some i ∧ i.reached = true := by
  rw [reached, Option.any_eq_true]

theorem Effect.keeps_reached {now : Nat} {c : Option Call} {m m' : Manager} {n : Name} (h : Effect now c m m')
    (hr : m.reached n = true) : m'.reached n = true := by
  obtain ⟨i, hi, hri⟩ := Manager.reached_iff.mp hr
  apply Manager.reached_iff.mpr
  rcases h.change n with he | ⟨j, j', hj, hj', hc⟩
  · exact ⟨i, he.trans hi, hri⟩
  · cases hj.symm.trans hi
    exact ⟨j', hj', hc.keeps_reached hri⟩

/-- No event but a reload does. -/
theorem Tour.keeps_reached {w : World} {s s' : Supervisor} {n : Name} (h : Tour w false s s')
    (hr : s.reached n = true) : s'.reached n = true := by
  refine h.keeps (I := fun s => s.reached n = true) (fun hr ⟨_, ha⟩ => ha.effect.keeps_reached hr)
    (fun {s f} hr hi _ _ => ?_) hr
  rw [Manager.reached, Supervisor.update_toManager, hi]
  exact hr

namespace Supervisor

variable {w : World} {s : Supervisor} {n : Name} {e : Event}

/-- `n` is still among the unit files if they are read. -/
def Stays (w : World) (n : Name) (s : Supervisor) (e : Event) : Prop :=
  e = .request .reload → (onDisk w s).errors = [] → n ∈ (onDisk w s).units

/-- A reload replaces `n`, which has come up and is down, and whose file has changed. -/
def Forgets (w : World) (n : Name) (s : Supervisor) (e : Event) : Prop :=
  e = .request .reload ∧ (onDisk w s).errors = [] ∧
    ∃ i, s.instances[n]? = some i ∧ i.reached = true ∧ isIdle i.state = true ∧ (onDisk w s).units[n]? ≠ some i.unit

theorem step_reached (h : Reachable w s) (he : e ≠ .request .reload) (hr : s.reached n = true) :
    (step w s e).reached n = true := by
  have ht := (step_tours (r := false) w s h.fired h.wall (.inr he)).1
  exact Framework.invariant (I := fun s => s.reached n = true) (fun hr ht => ht.keeps_reached hr) ht hr

/-- A reload leaves a unit that has come up as it is, or replaces it. -/
theorem reload_reached (hs : Stays w n s (.request .reload)) (hr : s.reached n = true) :
    (reload w s).2.reached n = true ↔ ¬Forgets w n s (.request .reload) := by
  obtain ⟨i, hi, hri⟩ := Manager.reached_iff.mp hr
  by_cases he : (onDisk w s).errors = []
  · obtain ⟨u, hu⟩ := Graph.get_of_mem (hs rfl he)
    have hf : Forgets w n s (.request .reload) ↔ ¬(i.unit = u ∨ isIdle i.state = false) := by
      simp only [Forgets, he, hi, hu, Option.some.injEq, ne_eq, exists_eq_left', hri, true_and, eq_comm (a := u)]
      rw [not_or, Bool.not_eq_false, and_comm]
    have hget := reload_inst (n := n) he
    rw [hu] at hget
    rw [hf, not_not, Manager.reached, hget]
    simp only [Manager.refreshed, hi, Option.any_some]
    split
    · rename_i hc
      exact iff_of_true hri hc
    · rename_i hc
      exact iff_of_false (by simp [Instance.new]) hc
  · rw [reload_error he, turn_toManager]
    exact iff_of_true hr fun hf => he hf.2.1

/-- An event forgets that a unit came up exactly if it is a reload that replaces it. -/
theorem step_keeps_reached_iff (h : Reachable w s) (hs : Stays w n s e) :
    (s.reached n = true → (step w s e).reached n = true) ↔ ¬Forgets w n s e := by
  by_cases he : e = .request .reload
  · subst he
    have hd := onDisk_note (w := w) (s := s) (.request .reload)
    have hstay : Stays w n (s.note (.request .reload)) (.request .reload) := by
      rw [Stays, hd]
      exact hs
    have hf : Forgets w n (s.note (.request .reload)) (.request .reload) ↔ Forgets w n s (.request .reload) := by
      rw [Forgets, Forgets, hd]
      rfl
    rw [← hf]
    refine ⟨fun hk hc => ?_, fun hn hr => (reload_reached hstay hr).mpr hn⟩
    obtain ⟨i, hi, hri, -⟩ := hc.2.2
    have hr := Manager.reached_iff.mpr ⟨i, hi, hri⟩
    exact (reload_reached hstay hr).mp (hk hr) hc
  · exact iff_of_true (step_reached h he) fun hf => he hf.1

end Supervisor

/-! ## The boot unit -/

namespace Watchdog

variable {p : Policy} {now : Nat} {booted shuttingDown : Bool} {device : Option (Option Nat)} {boot : Boot}

/-- A tick judges the boot, whatever comes of the device. -/
theorem tick_boot (now : Nat) (booted shuttingDown : Bool) (device : Option (Option Nat)) (p : Policy) :
    let q := if shuttingDown then p.beginShutdown else p
    (tick now booted shuttingDown device p).1.event = (q.updateBoot now booted).1 ∧
      (tick now booted shuttingDown device p).2.boot = (q.updateBoot now booted).2.boot ∧
      (tick now booted shuttingDown device p).2.config = p.config := by
  intro q
  obtain ⟨b, hb⟩ := Policy.updateBoot_snd q now booted
  have hq : q.config = p.config := by
    simp only [q]
    split <;> rfl
  have ht : (q.tick now booted).1.event = (q.updateBoot now booted).1 ∧
      (q.tick now booted).2.boot = (q.updateBoot now booted).2.boot ∧ (q.tick now booted).2.config = p.config := by
    rw [Policy.tick_eq, hb, ← hq]
    dsimp only
    generalize Policy.duty now { q with boot := b } = action
    cases action <;> exact ⟨rfl, rfl, rfl⟩
  unfold tick
  dsimp only
  split <;> exact ht

theorem beginShutdown_boot (p : Policy) (shuttingDown : Bool) :
    (if shuttingDown then p.beginShutdown else p).boot = p.boot := by
  split <;> rfl

/-- A tick that finds the boot unit up confirms the boot, unless it is overdue. -/
theorem tick_confirms (hb : p.boot ≠ .overdue) (hup : p.boot = .pending → booted = true) :
    (tick now booted shuttingDown device p).2.boot = .confirmed ∧
      (p.boot = .pending → (tick now booted shuttingDown device p).1.event = some .bootConfirmed) := by
  obtain ⟨he, hbt, -⟩ := tick_boot now booted shuttingDown device p
  have hq := beginShutdown_boot p shuttingDown
  generalize (if shuttingDown then p.beginShutdown else p) = q at he hbt hq
  rw [he, hbt]
  cases hp : p.boot with
  | overdue => exact absurd hp hb
  | confirmed =>
    have hc : q.boot = .confirmed := hq.trans hp
    rw [Policy.updateBoot_of_settled (by rw [hc]; decide)]
    exact ⟨hc, nofun⟩
  | pending =>
    simp [Policy.updateBoot, hq.trans hp, hup hp]

/-- Only a tick at the deadline, or past it, finds it passed. -/
theorem tick_overdue (hc : p.config.boot = some boot)
    (h : (tick now booted shuttingDown device p).2.boot = .overdue) : p.boot = .overdue ∨ boot.within ≤ now := by
  obtain ⟨-, hbt, -⟩ := tick_boot now booted shuttingDown device p
  have hq := beginShutdown_boot p shuttingDown
  have hqc : (if shuttingDown then p.beginShutdown else p).config.boot = some boot := by
    rw [← hc]
    split <;> rfl
  generalize (if shuttingDown then p.beginShutdown else p) = q at hbt hq hqc
  rw [hbt] at h
  cases hp : p.boot with
  | overdue => exact .inl rfl
  | confirmed =>
    rw [Policy.updateBoot_of_settled (by rw [hq, hp]; decide), hq, hp] at h
    cases h
  | pending =>
    right
    rw [Policy.updateBoot, hqc] at h
    simp only [hq.trans hp, ne_eq, not_true_eq_false, ↓reduceIte] at h
    split at h
    · cases h
    · split at h
      · rename_i hd
        exact hd.2
      · cases (hq.trans hp).symm.trans h

end Watchdog

namespace Pid1

open Supervisor

variable {w : World} {p : Pid1} {k : Wakeup} {config : Watchdog.Config} {boot : Watchdog.Boot}

/-- The clock, as the watchdog reads it. -/
def now (p : Pid1) : Nat := p.supervisor.kernel.now - p.started

/-- How PID 1 is between two wake-ups. -/
structure Sound (w : World) (boot : Watchdog.Boot) (p : Pid1) : Prop where
  reachable : Reachable w p.supervisor
  config : p.watchdog.config.boot = some boot
  overdue : p.watchdog.boot = .overdue → boot.within ≤ p.now

/-- What the supervisor does in a wake-up is a run of events. -/
theorem wakeUp_supervisor (w : World) (p : Pid1) (k : Wakeup) :
    (wakeUp w p k).2.supervisor = Supervisor.run w p.supervisor (k.events ++ [.sleep]) := by
  rw [Supervisor.run, List.foldl_append]
  rfl

theorem init_sound {hierarchy : Bool} {kernel : Kernel} (h : config.boot = some boot) :
    Sound w boot (init w hierarchy kernel config) where
  reachable := ⟨hierarchy, kernel, [.syncSockets, .sleep], rfl⟩
  config := h
  overdue hb := by simp [init, Watchdog.Policy.new, h] at hb

theorem wakeUp_now (h : Reachable w p.supervisor) : p.now ≤ (wakeUp w p k).2.now := by
  have hl := (h.after (k.events ++ [.sleep])).later.now
  rw [← wakeUp_supervisor] at hl
  exact Nat.sub_le_sub_right hl _

theorem wakeUp_sound (h : Sound w boot p) : Sound w boot (wakeUp w p k).2 where
  reachable := by
    rw [wakeUp_supervisor]
    obtain ⟨hierarchy, kernel, events, he⟩ := h.reachable
    exact ⟨hierarchy, kernel, events ++ (k.events ++ [.sleep]), by simp only [he, Supervisor.run, List.foldl_append]⟩
  config := (congrArg Watchdog.Config.boot (Watchdog.tick_boot ..).2.2).trans h.config
  overdue hb := by
    rcases Watchdog.tick_overdue h.config hb with ho | ho
    · exact (h.overdue ho).trans (wakeUp_now h.reachable)
    · exact ho

/-- PID 1 is sound after every wake-up. -/
theorem run_sound {ks : List Wakeup} (h : Sound w boot p) : Sound w boot (run w p ks) :=
  List.foldlRecOn ks _ h fun _ hp _ _ => wakeUp_sound hp

/-- A wake-up that forgets nothing of the boot unit confirms the boot if the unit has come up. -/
theorem wakeUp_confirms {m : Nat} (h : Sound w boot p) (hlt : (wakeUp w p k).2.now < boot.within)
    (hup : (Supervisor.run w p.supervisor (k.events.take m)).reached boot.unit = true)
    (hk : Each (step w) (fun s e => s.reached boot.unit = true → (step w s e).reached boot.unit = true)
      p.supervisor k.events) :
    (wakeUp w p k).2.watchdog.boot = .confirmed ∧
      (p.watchdog.boot = .pending → (wakeUp w p k).1.event = some .bootConfirmed) := by
  have hend : (Supervisor.run w p.supervisor k.events).reached boot.unit = true := by
    have := Each.lasting.mpr hk (k.events.take m) (k.events.drop m) (by rw [List.take_append_drop]) hup
    rwa [List.take_append_drop] at this
  have hnot : p.watchdog.boot ≠ .overdue := fun ho =>
    absurd ((h.overdue ho).trans (wakeUp_now h.reachable)) (Nat.not_le.mpr hlt)
  refine Watchdog.tick_confirms hnot fun hp => ?_
  rw [Watchdog.Policy.awaiting, hp, h.config]
  rwa [Option.any_some, turn_toManager]

end Pid1

namespace Supervisor

/-- Having come up is remembered as long as no reload replaces the unit while
it is down; and if none does, a wake-up in which the boot unit comes up
confirms the boot, whatever else is handled in it. -/
theorem having_come_up_is_remembered_iff (w : World) (n : Name) :
    (∀ s, Reachable w s → ∀ events, Each (step w) (Stays w n) s events →
      ((∀ l₁ l₂, l₁ ++ l₂ <+: events → (run w s l₁).reached n = true → (run w s (l₁ ++ l₂)).reached n = true) ↔
        Each (step w) (fun s e => ¬Forgets w n s e) s events)) ∧
      ∀ hierarchy kernel config within, config.boot = some ⟨n, within⟩ → ∀ ks k m,
        let p := (Pid1.init w hierarchy kernel config).run w ks
        Each (step w) (fun s e => Stays w n s e ∧ ¬Forgets w n s e) p.supervisor k.events →
        (p.wakeUp w k).2.now < within →
        (run w p.supervisor (k.events.take m)).reached n = true →
        (p.wakeUp w k).2.watchdog.boot = .confirmed ∧
          (p.watchdog.boot = .pending → (p.wakeUp w k).1.event = some .bootConfirmed) := by
  have hiff : ∀ {s}, Reachable w s → ∀ {events}, Each (step w) (Stays w n) s events →
      (Each (step w) (fun s e => s.reached n = true → (step w s e).reached n = true) s events ↔
        Each (step w) (fun s e => ¬Forgets w n s e) s events) :=
    fun hs _ he => Each.congr (I := Reachable w) (fun e h => h.step e) step_keeps_reached_iff he hs
  refine ⟨fun s hs events he => Each.lasting.trans (hiff hs he), ?_⟩
  intro hierarchy kernel config within hc ks k m p hk hlt hup
  have hp : p.Sound w ⟨n, within⟩ := Pid1.run_sound (Pid1.init_sound hc)
  exact Pid1.wakeUp_confirms hp hlt hup ((hiff hp.reachable (hk.mono And.left)).mpr (hk.mono And.right))

/-- A withinAMinute to run `a`, a job, in. -/
def withinAMinute : Watchdog.Config := ⟨"/dev/watchdog", 30, some ⟨"a", 60000000000⟩⟩

def job : Unit := serviceUnit "a" {} .oneshot .no

/-- The job is done and the units are reloaded in one wake-up. -/
def doneAndReloaded : Wakeup := ⟨[.sigchld, .request .reload], none⟩

theorem having_come_up_is_remembered_iff_sample :
    let w := scripted [(12, [exits 2])]
    let p := (Pid1.init w true (holding [bootTarget ["a"], job]) withinAMinute).run w [⟨[.timer], none⟩]
    (p.wakeUp w doneAndReloaded).1.event = some .bootConfirmed := by
  intro w
  have h := (having_come_up_is_remembered_iff w "a").2 true (holding [bootTarget ["a"], job]) withinAMinute 60000000000 rfl
    [⟨[.timer], none⟩] doneAndReloaded 2
  refine (h ⟨⟨nofun, fun h => nomatch h.1⟩, ⟨nofun, fun h => nomatch h.1⟩, ⟨fun _ _ => ?_, fun hf => ?_⟩,
    ⟨nofun, fun h => nomatch h.1⟩, ⟨nofun, fun h => nomatch h.1⟩, trivial⟩ ?_ ?_).2 ?_
  · decide +kernel
  · obtain ⟨-, -, i, hi, -, -, hu⟩ := hf
    exact hu (Eq.trans (by decide +kernel) (congrArg (Option.map Instance.unit) hi))
  · decide +kernel
  · decide +kernel
  · decide +kernel

/-- The job's file has changed: it is reloaded as a unit that never came up,
and the boot is not confirmed. -/
theorem a_reload_forgets_the_boot :
    let w := scripted [(8, [exits 2]), (10, [.edit [directory [bootTarget ["a"], { job with description := "again" }]]])]
    let p := Pid1.init w true (holding [bootTarget ["a"], job]) withinAMinute
    let k := doneAndReloaded
    Each (step w) (Stays w "a") p.supervisor k.events ∧
      (run w p.supervisor (k.events.take 2)).reached "a" = true ∧ (run w p.supervisor k.events).reached "a" = false ∧
      (p.wakeUp w k).2.now < 60000000000 ∧ (p.wakeUp w k).1.event = none ∧ (p.wakeUp w k).2.watchdog.boot = .pending := by
  refine ⟨⟨nofun, nofun, fun _ _ => ?_, nofun, nofun, trivial⟩, ?_, ?_, ?_, ?_, ?_⟩
  all_goals decide +kernel

end Supervisor

end Oxinit
