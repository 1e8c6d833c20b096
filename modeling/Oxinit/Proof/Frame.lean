import Oxinit.Framework.Runs
import Oxinit.Model.Loop
import Oxinit.Proof.Drift
import Oxinit.Proof.Instance

/-!
# What the operations leave alone

The world's turns change nothing that PID 1 holds, and the operations that
only signal, read or set a timerfd change next to nothing of it. Each lemma
`f_manager` says what `f` makes of the `Manager`.
-/

namespace Oxinit

open Framework (Deadline)
open Relation (ReflTransGen)

theorem Cgroups.mem_add {c : Cgroups} {unit u : Name} {ok : Bool} (h : u ∈ c.handles) :
    u ∈ (c.add unit ok).handles := by
  simp only [add]
  split
  · exact List.mem_append_left _ h
  · exact h

namespace Manager

variable {m : Manager} {name v : Name} {f : Instance → Instance} {i : Instance}

theorem get_modify (m : Manager) (name v : Name) (f : Instance → Instance) :
    (m.modify name f).instances[v]? = if name = v then m.instances[v]?.map f else m.instances[v]? := by
  simp only [modify, Std.TreeMap.getElem?_modify, Std.LawfulEqCmp.compare_eq_iff_eq]
  split
  · rename_i h
    rw [h]
  · rfl

theorem get_modify_self (h : m.instances[name]? = some i) :
    (m.modify name f).instances[name]? = some (f i) := by
  rw [get_modify, if_pos rfl, h, Option.map_some]

theorem get_modify_ne (h : name ≠ v) : (m.modify name f).instances[v]? = m.instances[v]? := by
  rw [get_modify, if_neg h]

/-- The unit of a process tracks it. -/
theorem unitForPid_get {pid : Pid} (h : m.unitForPid pid = some name) :
    ∃ i, m.instances[name]? = some i ∧ i.child = some pid := by
  simp only [unitForPid, Option.map_eq_some_iff] at h
  obtain ⟨p, hp, rfl⟩ := h
  exact ⟨p.2, Std.TreeMap.mem_toList_iff_getElem?_eq_some.mp (List.mem_of_find?_eq_some hp),
    by simpa using List.find?_some hp⟩

/-- A tracked process belongs to some unit. -/
theorem unitForPid_of_child {pid : Pid} (hi : m.instances[name]? = some i) (hc : i.child = some pid) :
    ∃ v, m.unitForPid pid = some v := by
  have hmem : (name, i) ∈ m.instances.toList := Std.TreeMap.mem_toList_iff_getElem?_eq_some.mpr hi
  have hf : (m.instances.toList.find? fun p => p.2.child = some pid).isSome = true :=
    List.find?_isSome.mpr ⟨_, hmem, by simpa using hc⟩
  obtain ⟨p, hp⟩ := Option.isSome_iff_exists.mp hf
  exact ⟨p.1, by rw [unitForPid, hp, Option.map_some]⟩

/-- Who conflicts with a unit: whom it names, and who names it. -/
theorem mem_conflictingWith {u : Name} : v ∈ m.conflictingWith u ↔
    (∃ i, m.instances[u]? = some i ∧ v ∈ i.unit.deps.conflicts) ∨
      ∃ j, m.instances[v]? = some j ∧ u ∈ j.unit.deps.conflicts := by
  have hfold : ∀ (l : List (Name × Instance)) (names : List Name),
      v ∈ l.foldl (fun names other =>
        if other.2.unit.deps.conflicts.any (· = u) && !names.contains other.1 then names ++ [other.1] else names) names ↔
      v ∈ names ∨ ∃ j, (v, j) ∈ l ∧ u ∈ j.unit.deps.conflicts := by
    intro l
    induction l with
    | nil => simp
    | cons p l ih =>
      intro names
      rw [List.foldl_cons, ih]
      obtain ⟨n, i⟩ := p
      have hone : (v ∈ if i.unit.deps.conflicts.any (· = u) && !names.contains n then names ++ [n] else names) ↔
          v ∈ names ∨ v = n ∧ u ∈ i.unit.deps.conflicts := by
        split
        · rename_i h
          simp only [Bool.and_eq_true, List.any_eq_true, decide_eq_true_eq, exists_eq_right] at h
          simp [h.1]
        · rename_i h
          simp only [Bool.and_eq_true, List.any_eq_true, decide_eq_true_eq, exists_eq_right, Bool.not_eq_true',
            List.contains_eq_mem, decide_eq_false_iff_not, not_and, not_not] at h
          refine ⟨.inl, fun hv => hv.elim id fun ⟨e, hu⟩ => e ▸ h hu⟩
      rw [hone, or_assoc]
      refine or_congr_right ⟨?_, ?_⟩
      · rintro (⟨rfl, hu⟩ | ⟨j, hj, hu⟩)
        · exact ⟨i, List.mem_cons_self .., hu⟩
        · exact ⟨j, List.mem_cons_of_mem _ hj, hu⟩
      · rintro ⟨j, hj, hu⟩
        rcases List.mem_cons.mp hj with e | hj
        · cases e
          exact .inl ⟨rfl, hu⟩
        · exact .inr ⟨j, hj, hu⟩
  rw [conflictingWith, hfold]
  refine or_congr ?_ ?_
  · cases m.instances[u]? <;> simp
  · simp only [Std.TreeMap.mem_toList_iff_getElem?_eq_some]

end Manager

/-- The alarms in the heaps, and those that have been taken. -/
def Manager.alarms (m : Manager) : List Entry × List Entry × List Entry := (m.timers.heap, m.fired, m.timers.wallHeap)

namespace Supervisor

variable {w : World} {s : Supervisor} {name : Name}

@[simp] theorem note_toMachine (s : Supervisor) (c : Call) : (s.note c).toMachine = s.toMachine := rfl
@[simp] theorem note_history (s : Supervisor) (c : Call) :
    (s.note c).history = (c, s.toMachine) :: s.history := rfl
@[simp] theorem update_toManager (s : Supervisor) (f : Manager → Manager) :
    (s.update f).toManager = f s.toManager := rfl
@[simp] theorem update_kernel (s : Supervisor) (f : Manager → Manager) :
    (s.update f).kernel = s.kernel := rfl
@[simp] theorem update_history (s : Supervisor) (f : Manager → Manager) :
    (s.update f).history = s.history := rfl
@[simp] theorem onKernel_toManager (s : Supervisor) (f : Kernel → Kernel) :
    (s.onKernel f).toManager = s.toManager := rfl
@[simp] theorem onKernel_kernel (s : Supervisor) (f : Kernel → Kernel) :
    (s.onKernel f).kernel = f s.kernel := rfl
@[simp] theorem modify_toManager (s : Supervisor) (name : Name) (f : Instance → Instance) :
    (s.modify name f).toManager = s.toManager.modify name f := rfl
@[simp] theorem moves_toManager (s : Supervisor) (mvs : List Move) :
    (s.moves mvs).toManager = s.toManager := by
  induction mvs generalizing s with
  | nil => rfl
  | cons mv mvs ih => exact ih (s.world mv)

@[simp] theorem turn_toManager (w : World) (s : Supervisor) : (s.turn w).toManager = s.toManager :=
  moves_toManager s (w s.ticks).moves

theorem moves_kernel (s : Supervisor) (mvs : List Move) : (s.moves mvs).kernel = mvs.foldl Kernel.move s.kernel := by
  induction mvs generalizing s with
  | nil => rfl
  | cons mv mvs ih => exact ih (s.world mv)

theorem turn_kernel (w : World) (s : Supervisor) : (s.turn w).kernel = (w s.ticks).moves.foldl Kernel.move s.kernel :=
  moves_kernel s (w s.ticks).moves

/-! ## Turns -/

theorem moves_drifts (s : Supervisor) (mvs : List Move) : s.kernel.Drifts (s.moves mvs).kernel := by
  induction mvs generalizing s with
  | nil => exact .refl _
  | cons mv mvs ih => exact (Kernel.move_drifts s.kernel mv).trans (ih (s.world mv))

/-- A turn of the world lets the kernel drift. -/
theorem turn_drifts (w : World) (s : Supervisor) : s.kernel.Drifts (s.turn w).kernel :=
  moves_drifts s (w s.ticks).moves

theorem turn_now (w : World) (s : Supervisor) : s.kernel.now ≤ (s.turn w).kernel.now := (turn_drifts w s).now

/-! ## Timers -/

/-- To set the timerfd changes nothing else that is kept. -/
theorem setTimer_manager (w : World) (delay : Option Nat) (s : Supervisor) :
    ∃ fd, (setTimer w delay s).2.toManager = s.toManager.setFd fd := by
  simp only [setTimer]
  split
  · exact ⟨_, by rw [update_toManager, turn_toManager]⟩
  · exact ⟨s.timers.fd, turn_toManager w s⟩

theorem armTimer_manager (w : World) (s : Supervisor) :
    ∃ fd, (armTimer w s).2.toManager = s.toManager.setFd fd := by
  obtain ⟨fd, h⟩ := setTimer_manager w ((s.turn w).timers.delay (s.turn w).kernel.now) (s.turn w)
  exact ⟨fd, by rw [armTimer, h, turn_toManager]⟩

/-- Setting the timerfd takes two turns, and leaves the rest alone. -/
theorem armTimer_kernel (w : World) (s : Supervisor) : (armTimer w s).2.kernel = ((s.turn w).turn w).kernel := by
  simp only [armTimer, setTimer]
  split <;> rfl

theorem armTimer_history (w : World) (s : Supervisor) : (armTimer w s).2.history = ((s.turn w).turn w).history := by
  simp only [armTimer, setTimer]
  split <;> rfl

theorem armTimer_ticks (w : World) (s : Supervisor) : (armTimer w s).2.ticks = s.ticks + 2 := by
  simp only [armTimer, setTimer]
  split <;> rfl

theorem armWall_manager (w : World) (s : Supervisor) :
    ∃ fd, (armWall w s).2.toManager = s.toManager.setWallFd fd := by
  simp only [armWall]
  split
  · exact ⟨_, by rw [update_toManager, turn_toManager]⟩
  · exact ⟨s.timers.wallFd, turn_toManager w s⟩

/-- What is scheduled is due no sooner than its delay from now. -/
theorem schedule_manager (w : World) (delay : Nat) (alarm : Alarm) (s : Supervisor) :
    ∃ tie due fd, s.kernel.now + delay ≤ due ∧
      (schedule w delay alarm s).2.toManager = (s.toManager.push tie { due, alarm }).setFd fd := by
  have ht := turn_now w (s.note (.schedule alarm delay))
  obtain ⟨fd, h⟩ := armTimer_manager w (((s.note (.schedule alarm delay)).turn w).update
    (·.push (w s.ticks).tie { due := ((s.note (.schedule alarm delay)).turn w).kernel.now + delay, alarm }))
  exact ⟨_, _, fd, Nat.add_le_add_right ht _,
    by rw [schedule, h, update_toManager, turn_toManager, note_toMachine]⟩

/-- What is scheduled for a moment is due at it. -/
theorem scheduleAt_manager (w : World) (moment : Nat) (alarm : Alarm) (s : Supervisor) :
    ∃ tie fd, (scheduleAt w moment alarm s).2.toManager =
      (s.toManager.pushWall tie { due := moment, alarm }).setWallFd fd := by
  obtain ⟨fd, h⟩ := armWall_manager w
    ((s.note (.scheduleAt alarm moment)).update (·.pushWall (w s.ticks).tie { due := moment, alarm }))
  exact ⟨_, fd, h⟩

/-! ## Signals and reads -/

/-- The world's turn, or a signal: nothing that PID 1 holds is another after it. -/
inductive Outside (w : World) : Supervisor → Supervisor → Prop
  | turn {s : Supervisor} : Outside w s (s.turn w)
  | signal {s : Supervisor} {pids : List Pid} {sig : Signal} : Outside w s (s.onKernel (·.signal pids sig))

theorem if_outside (w : World) (b : Bool) (pids : List Pid) (sig : Signal) (s : Supervisor) :
    ReflTransGen (Outside w) s (if b then s.onKernel (·.signal pids sig) else s) := by
  split
  · exact .single .signal
  · exact .refl

theorem child_outside (w : World) (child : Option Pid) (sig : Signal) (s : Supervisor) :
    ReflTransGen (Outside w) s (match child with
      | some pid => s.onKernel (·.signal [pid] sig)
      | none => s) := by
  split
  · exact .single .signal
  · exact .refl

/-- To signal a unit changes nothing that oxinit keeps. -/
theorem sigterm_outside (w : World) (name : Name) (child : Option Pid) (s : Supervisor) :
    ReflTransGen (Outside w) s (sigterm w name child s) := by
  simp only [sigterm]
  split
  · exact .head .turn ((if_outside w _ _ .term _).trans (.head .turn (child_outside w _ .term _)))
  · exact .head .turn (child_outside w child .term _)

theorem sigkill_outside (w : World) (name : Name) (child : Option Pid) (s : Supervisor) :
    ReflTransGen (Outside w) s (sigkill w name child s) := by
  simp only [sigkill]
  split
  · exact .head .turn ((if_outside w _ _ .kill _).trans (.head .turn (child_outside w _ .kill _)))
  · exact .head .turn (child_outside w child .kill _)

theorem applyResources_outside (w : World) (name : Name) (r : Resources) (s : Supervisor) :
    ReflTransGen (Outside w) s (applyResources w name r s).2 := by
  simp only [applyResources]
  split
  · exact .refl
  · split
    · exact .refl
    · exact .single .turn

theorem outputFor_outside (w : World) (o : Output) (s : Supervisor) :
    ReflTransGen (Outside w) s (outputFor w o s).2 := by
  cases o with
  | console => exact .refl
  | log => exact .single .turn
  | null => exact .single .turn

/-- What happens outside oxinit leaves what it keeps. -/
theorem outside_toManager {s' : Supervisor} (h : ReflTransGen (Outside w) s s') : s'.toManager = s.toManager := by
  refine Framework.invariant (I := fun s' => s'.toManager = s.toManager) (fun hs ho => ?_) h rfl
  cases ho with
  | turn => exact (turn_toManager w _).trans hs
  | signal => exact hs

@[simp] theorem sigterm_toManager (w : World) (name : Name) (child : Option Pid) (s : Supervisor) :
    (sigterm w name child s).toManager = s.toManager :=
  outside_toManager (sigterm_outside w name child s)

@[simp] theorem sigkill_toManager (w : World) (name : Name) (child : Option Pid) (s : Supervisor) :
    (sigkill w name child s).toManager = s.toManager :=
  outside_toManager (sigkill_outside w name child s)

@[simp] theorem applyResources_toManager (w : World) (name : Name) (r : Resources) (s : Supervisor) :
    (applyResources w name r s).2.toManager = s.toManager :=
  outside_toManager (applyResources_outside w name r s)

@[simp] theorem outputFor_toManager (w : World) (o : Output) (s : Supervisor) :
    (outputFor w o s).2.toManager = s.toManager :=
  outside_toManager (outputFor_outside w o s)

@[simp] theorem readPopulated_toManager (w : World) (name : Name) (s : Supervisor) :
    (readPopulated w name s).2.toManager = s.toManager := turn_toManager w s

end Supervisor

end Oxinit
