import Oxinit.Proof.Ends
import Oxinit.Proof.Hangs

/-!
# Stops that are over

A stop is over when the exit of the main process is reported, or when the
cgroup is found empty. In runs in which a main process that has left its
cgroup is not alive when that cgroup is found empty, both are gone whenever a
stop is over; and a stop for which both have been reported is over.
-/

namespace Oxinit

/-- A call about the main process of a unit. -/
def Call.isMain (u : Name) : Call → Bool
  | .spawn v | .exited v _ => v = u
  | _ => false

/-- The main process that was forked last for a unit, unless its exit has been
reported since. -/
def lastFork (u : Name) : List (Call × Machine) → Option Pid
  | [] => none
  | (.spawn v, m) :: l => if v = u then some m.kernel.nextPid else lastFork u l
  | (.exited v _, _) :: l => if v = u then none else lastFork u l
  | _ :: l => lastFork u l

/-- The exit of the main process of a unit that is stopping comes when the
cgroup, if there is one, can be read. -/
def readable (w : World) (e : Call × Machine) : Bool :=
  match e.1 with
  | .exited u _ => e.2.stateOf u ≠ some .deactivating || (e.2.cgroups.get u).isNone || (w e.2.ticks).ok
  | _ => true

/-- When the cgroup of a unit that is stopping is found empty, its main process
has not left it. -/
def mainInside (w : World) (s : Supervisor) : Event → Bool
  | .cgroup id =>
    (s.cgroups.handles[id]?).all fun u => (s.instances[u]?).all fun i =>
      i.state ≠ .deactivating || !(w s.ticks).ok || (s.turn w).kernel.populated u ||
        i.child.all fun pid => !(s.turn w).kernel.leftItsCgroup u pid
  | _ => true

/-- Processes leave the cgroups of units, and do not enter them. -/
def Leaves (w : World) : Prop := ∀ n, ∀ mv ∈ (w n).moves, ∀ pid cgroup, mv = .migrate pid cgroup → cgroup = none

theorem lastFork_append {u : Name} {new l : List (Call × Machine)} (h : ∀ x ∈ new, x.1.isMain u = false) :
    lastFork u (new ++ l) = lastFork u l := by
  induction new with
  | nil => rfl
  | cons x new ih =>
    have hx := h x (List.mem_cons_self ..)
    have ih := ih fun y hy => h y (List.mem_cons_of_mem _ hy)
    obtain ⟨c, m⟩ := x
    rw [List.cons_append]
    cases c with
    | spawn v | exited v =>
      have hne : v ≠ u := by simpa [Call.isMain] using hx
      rw [lastFork, if_neg hne, ih]
    | _ => rw [lastFork, ih] <;> simp

theorem Call.isMain_of_isWorld {c : Call} {u : Name} (h : c.isWorld = true) : c.isMain u = false := by
  cases c <;> first | rfl | cases h

/-- A main process that has been reaped is no longer the one that was forked last. -/
theorem lastFork_latest {u : Name} {s : Supervisor} {exit : Exit} {m : Machine}
    (h : Latest s (.exited u exit, m)) : lastFork u s.history = none := by
  obtain ⟨-, new, old, hh, hn⟩ := List.find?_eq_some_iff_append.mp h
  rw [hh, lastFork_append fun x hx => Call.isMain_of_isWorld (Call.isWorld_of_isMove (by simpa using hn x hx)),
    lastFork, if_pos rfl]

namespace Kernel

variable {k : Kernel} {u : Name} {pid : Pid}

/-- A cgroup is empty if no living process is in it. -/
theorem populated_eq_false : k.populated u = false ↔ ∀ p ∈ k.live, p.cgroup ≠ some u := by
  simp [populated]

theorem alive_eq_false : k.alive pid = false ↔ ∀ p ∈ k.live, p.pid ≠ pid := by
  simp [alive]

/-- A process that has not left an empty cgroup is dead. -/
theorem not_alive_of_inside (hp : k.populated u = false) (hl : k.leftItsCgroup u pid = false) :
    k.alive pid = false := by
  simp only [leftItsCgroup] at hl
  split at hl
  · rename_i hf
    simpa [alive_eq_false] using hf
  · rename_i p hf
    have hc : p.cgroup = some u := by simpa using hl
    exact absurd hc (populated_eq_false.mp hp p (List.mem_of_find?_eq_some hf))

/-- The processes after a move of the world. -/
theorem mem_next {mv : Move} {p : Process} (h : p ∈ (k.move mv).live) :
    (∃ q ∈ k.live, p.pid = q.pid ∧ p.main = q.main ∧ (p.cgroup = q.cgroup ∨ mv = .migrate q.pid p.cgroup)) ∨
      p.pid = k.nextPid ∧ p.main = none ∧ ∃ q ∈ k.live, p.cgroup = q.cgroup := by
  replace h : p ∈ (k.next mv).live := h
  cases mv with
  | pass | setWall | datagram | edit => exact .inl ⟨p, h, rfl, rfl, .inl rfl⟩
  | fork parent =>
    simp only [next] at h
    split at h
    · exact .inl ⟨p, h, rfl, rfl, .inl rfl⟩
    · rename_i q hq
      rcases List.mem_cons.mp h with rfl | h
      · exact .inr ⟨rfl, rfl, q, List.mem_of_find?_eq_some hq, rfl⟩
      · exact .inl ⟨p, h, rfl, rfl, .inl rfl⟩
  | migrate pid cgroup =>
    obtain ⟨q, hq, rfl⟩ := List.mem_map.mp h
    refine .inl ⟨q, hq, ?_⟩
    by_cases e : q.pid = pid
    · simp [e]
    · simp [e]
  | exit pid status =>
    simp only [next] at h
    split at h
    · exact .inl ⟨p, (List.mem_filter.mp h).1, rfl, rfl, .inl rfl⟩
    · exact .inl ⟨p, h, rfl, rfl, .inl rfl⟩

/-- An empty cgroup stays empty, if nobody moves into it. -/
theorem moves_unpopulated {mvs : List Move} (hm : ∀ mv ∈ mvs, ∀ pid cgroup, mv = .migrate pid cgroup → cgroup = none)
    (h : k.populated u = false) : (mvs.foldl Kernel.move k).populated u = false := by
  induction mvs generalizing k with
  | nil => exact h
  | cons mv mvs ih =>
    refine ih (fun mv hmv => hm mv (List.mem_cons_of_mem _ hmv)) (populated_eq_false.mpr fun p hp => ?_)
    rw [populated_eq_false] at h
    rcases mem_next hp with ⟨q, hq, -, -, hc | hmv⟩ | ⟨-, -, q, hq, hc⟩
    · exact hc ▸ h q hq
    · rw [hm mv (List.mem_cons_self ..) _ _ hmv]
      nofun
    · exact hc ▸ h q hq

/-- A dead process stays dead. -/
theorem moves_dead (mvs : List Move) (hp : pid < k.nextPid) (h : k.alive pid = false) :
    (mvs.foldl Kernel.move k).alive pid = false := by
  induction mvs generalizing k with
  | nil => exact h
  | cons mv mvs ih =>
    refine ih (hp.trans_le (move_drifts k mv).nextPid) (alive_eq_false.mpr fun p hp' => ?_)
    rw [alive_eq_false] at h
    rcases mem_next hp' with ⟨q, hq, e, -⟩ | ⟨e, -⟩
    · exact e ▸ h q hq
    · exact e ▸ hp.ne'

end Kernel

/-! ## The main process -/

/-- The main process of a service that runs is tracked until its exit is reported. -/
def Tracks (s : Supervisor) : Prop :=
  ∀ (u : Name) (i : Instance) (pid : Pid), s.instances[u]? = some i → i.unit.service ≠ none → i.state.down = false →
    lastFork u s.history = some pid → i.child = some pid

theorem State.deactivating_of_lower {s : State} (hd : s.down = false) (ha : s ≠ .active) (hs : s ≠ .activating) :
    s = .deactivating := by
  cases s <;> first | rfl | exact absurd rfl ha | exact absurd rfl hs | cases hd

namespace Tracks

variable {w : World} {s s' : Supervisor}

/-- No unit loses its main process. -/
theorem frame (h : Tracks s) (new : List (Call × Machine)) (hh : s'.history = new ++ s.history)
    (hn : ∀ x ∈ new, ∀ u, x.1.isMain u = false)
    (hi : ∀ {u : Name} {j : Instance}, s'.instances[u]? = some j → j.state.down = false → j.unit.service ≠ none →
      lastFork u s.history ≠ none →
      ∃ i, s.instances[u]? = some i ∧ i.unit = j.unit ∧ i.state.down = false ∧ j.child = i.child) : Tracks s' := by
  intro u j pid hj hsv hd hf
  rw [hh, lastFork_append fun x hx => hn x hx u] at hf
  obtain ⟨i, hi, hu, hd, hc⟩ := hi hj hd hsv (by rw [hf]; nofun)
  rw [hc]
  exact h u i pid hi (hu ▸ hsv) hd hf

/-- One unit changes. -/
theorem modify {name : Name} {f : Instance → Instance} (h : Tracks s) (new : List (Call × Machine))
    (hh : s'.history = new ++ s.history) (hn : ∀ x ∈ new, ∀ u, x.1.isMain u = false)
    (hs : s'.instances = (s.toManager.modify name f).instances)
    (hf : ∀ i, s.instances[name]? = some i → (f i).state.down = false → (f i).unit.service ≠ none →
      lastFork name s.history ≠ none → i.unit = (f i).unit ∧ i.state.down = false ∧ (f i).child = i.child) :
    Tracks s' := by
  refine h.frame new hh hn fun {u j} hj hd hsv hl => ?_
  rw [hs, Manager.get_modify] at hj
  split at hj
  · rename_i e
    subst e
    obtain ⟨i, hi, rfl⟩ := Option.map_eq_some_iff.mp hj
    exact ⟨i, hi, hf i hi hd hsv hl⟩
  · exact ⟨j, hj, rfl, hd, rfl⟩

/-- Every stride keeps track of the main process. -/
theorem stride {e : Event} (h : Tracks s) (hs : Stride w e s s') : Tracks s' := by
  cases hs with
  | turn =>
    obtain ⟨new, hn, hm, -⟩ := Supervisor.turn_log w s
    refine h.frame new hn (fun x hx u => Call.isMain_of_isWorld (Call.isWorld_of_isMove (hm x hx))) fun hj hd _ _ => ?_
    exact ⟨_, by rwa [Supervisor.turn_toManager] at hj, rfl, hd, rfl⟩
  | signal | read | reaped | drained | push | expire =>
    exact h.frame [] rfl (by simp) fun hj hd _ _ => ⟨_, hj, rfl, hd, rfl⟩
  | update hi => exact h.frame [] rfl (by simp) fun hj hd _ _ => ⟨_, hi ▸ hj, rfl, hd, rfl⟩
  | @note c hc =>
    intro u i pid hi hsv hd hf
    replace hf : lastFork u ((c, s.toMachine) :: s.history) = some pid := hf
    cases c with
    | exited v =>
      rw [lastFork] at hf
      split at hf
      · cases hf
      · exact h u i pid hi hsv hd hf
    | spawn => cases hc
    | _ =>
      rw [lastFork] at hf
      · exact h u i pid hi hsv hd hf
      all_goals simp
  | late | hung =>
    exact h.frame [(_, s.toMachine)] rfl (by simp [Call.isMain]) fun hj hd _ _ => ⟨_, hj, rfl, hd, rfl⟩
  | message _ message =>
    rcases Supervisor.onMessage_cases w message s with e | ⟨name, i, hi, hv⟩
    · rwa [e]
    · obtain ⟨new, hh, hn⟩ := hv.entries
      obtain ⟨k, hk, hku, hkc, hks, -⟩ := hv.inst
      refine h.frame new hh (fun x hx u => ?_) fun {u j} hj hd _ _ => ?_
      · rcases hn x hx with hx | rfl
        · exact Call.isMain_of_isWorld hx
        · rfl
      · by_cases e : name = u
        · subst e
          cases hk.symm.trans hj
          refine ⟨i, hi, hku.symm, ?_, hkc⟩
          rcases hks with hks | ⟨hks, -⟩
          · rw [← hks, hd]
          · rw [hks]
            rfl
        · exact ⟨j, hv.ne u e ▸ hj, rfl, hd, rfl⟩
  | lower hf =>
    refine h.modify [] rfl (by simp) rfl fun i hi hd hsv hl => ?_
    have hlow := hf i hi
    have hst : (_ : Instance).state = .deactivating := State.deactivating_of_lower hd hlow.inactive hlow.settled
    rcases hlow.stopping hst with ⟨hc, hd⟩ | ⟨-, exit, m, hm⟩
    · exact ⟨hlow.unit.symm, hd, hc⟩
    · exact absurd (lastFork_latest hm) hl
  | finished =>
    refine h.modify [(_, s.toMachine)] rfl (by simp [Call.isMain]) rfl fun i hi hd => ?_
    rw [Instance.deactivated_down] at hd
    cases hd
  | @spawn name i service hi hsv =>
    intro u j pid hj hsv hd hf
    replace hf : lastFork u ((.spawn name, s.toMachine) :: s.history) = some pid := hf
    rw [Supervisor.modify_toManager, Manager.get_modify] at hj
    rw [lastFork] at hf
    split at hf
    · rename_i e
      rw [if_pos e] at hj
      cases hf
      obtain ⟨i', -, rfl⟩ := Option.map_eq_some_iff.mp hj
      rfl
    · rename_i e
      rw [if_neg e] at hj
      exact h u j pid hj hsv hd hf
  | active hi hl hc hs =>
    refine h.modify [] rfl (by simp) rfl fun j hj hd hsv _ => ?_
    cases hi.symm.trans hj
    exact ⟨rfl, hs.resolve_left hsv, rfl⟩
  | @forkedAway name i service m since l new old he hi hsv hty hs hm hl hn hh =>
    refine h.modify [] rfl (by simp) rfl fun j hj _ _ hf => absurd ?_ hf
    rw [hh, lastFork_append fun x hx => Call.isMain_of_isWorld (Call.isWorld_of_isMove
      ((List.mem_append.mp hx).elim (hn x) (hl.1 x))), lastFork, if_pos rfl]
  | insert =>
    refine h.frame [] rfl (by simp) fun hj hd _ _ => ?_
    rw [Supervisor.update_toManager, Manager.get_insertUnit] at hj
    split at hj
    · cases hj
      cases hd
    · exact ⟨_, hj, rfl, hd, rfl⟩
  | keep => exact h.frame [] rfl (by simp) fun hj hd _ _ => ⟨_, Manager.get_of_keep hj, rfl, hd, rfl⟩

end Tracks

/-! ## Ends -/

/-- A cgroup that was found empty when the main process had been reaped is empty. -/
theorem Emptied.unpopulated {w : World} {s : Supervisor} {m : Machine} {name : Name} {exit : Exit} (hl : Leaves w)
    (hread : readable w (.exited name exit, m) = true) (hm : m.stateOf name = some .deactivating)
    (hcg : s.cgroups = m.cgroups) (hg : s.cgroups.get name ≠ none)
    (hr : s.cgroups.get name ≠ none → (w m.ticks).ok = true → Emptied w s name) : s.kernel.populated name = false := by
  have hok : (w m.ticks).ok = true := by
    simpa [readable, hm, ← hcg, Option.isNone_iff_eq_none, hg] using hread
  obtain ⟨k, hk, e⟩ := hr hg hok
  rw [e]
  exact Kernel.moves_unpopulated (hl _) hk

/-- Whenever the stop of a service was over, its cgroup was empty, if it has
one, and its main process was gone. -/
def EndsGone (s : Supervisor) : Prop :=
  ∀ (u : Name) (m : Machine) (older : List (Call × Machine)), (.finished u, m) :: older <:+ s.history →
    m.serviceOf u ≠ none → (m.cgroups.get u ≠ none → m.kernel.populated u = false) ∧
      ∀ pid, lastFork u older = some pid → m.kernel.alive pid = false

/-- No call that ends a stop. -/
def Call.isFinished : Call → Bool
  | .finished _ => true
  | _ => false

namespace EndsGone

variable {w : World} {s s' : Supervisor}

/-- What ends no stop keeps it. -/
theorem append (h : EndsGone s) (new : List (Call × Machine)) (hh : s'.history = new ++ s.history)
    (hn : ∀ x ∈ new, x.1.isFinished = false) : EndsGone s' := by
  intro u m older hsuf
  rw [hh] at hsuf
  refine h u m older ((Framework.cons_suffix_append hsuf).resolve_right fun ⟨k, _, hk⟩ => ?_)
  cases hn _ (hk.subset (List.mem_cons_self ..))

theorem of_isWorld {c : Call} (h : c.isWorld = true) : c.isFinished = false := by
  cases c <;> first | rfl | cases h

/-- The stop of a unit is over. -/
theorem finished (name : Name) (h : EndsGone s)
    (hp : s.serviceOf name ≠ none → (s.cgroups.get name ≠ none → s.kernel.populated name = false) ∧
      ∀ pid, lastFork name s.history = some pid → s.kernel.alive pid = false) : EndsGone (s.note (.finished name)) := by
  intro u m older hsuf
  rcases List.suffix_cons_iff.mp hsuf with e | hsuf
  · cases e
    exact hp
  · exact h u m older hsuf

/-- What ends a stop that ends with the exit of the main process. -/
theorem stride {e : Event} (hl : Leaves w) (he : ∀ id, e ≠ .cgroup id) (hok : ∀ x ∈ s'.history, readable w x = true)
    (ht : Tracks s) (h : EndsGone s) (hs : Stride w e s s') : EndsGone s' := by
  cases hs with
  | turn =>
    obtain ⟨new, hn, hm, -⟩ := Supervisor.turn_log w s
    exact h.append new hn fun x hx => of_isWorld (Call.isWorld_of_isMove (hm x hx))
  | note hc =>
    refine h.append [(_, s.toMachine)] rfl fun x hx => ?_
    cases List.mem_singleton.mp hx
    revert hc
    cases ‹Call› <;> first | exact fun _ => rfl | nofun
  | late | hung | spawn => exact h.append [(_, s.toMachine)] rfl (by simp [Call.isFinished])
  | message _ message =>
    rcases Supervisor.onMessage_cases w message s with e | ⟨name, i, -, hv⟩
    · rwa [e]
    · obtain ⟨new, hh, hn⟩ := hv.entries
      refine h.append new hh fun x hx => ?_
      rcases hn x hx with hx | rfl
      · exact of_isWorld hx
      · rfl
  | @finished name i hi hst hover =>
    have hget : s.serviceOf name = i.unit.service := by
      rw [Manager.serviceOf, Manager.unitOf, hi]
      rfl
    cases hover with
    | read he' =>
      obtain ⟨id, he'⟩ := he'
      exact absurd he' (he id)
    | @reaped exit m hlast hm hc hcg hr =>
      refine h.finished name fun hsv => ⟨fun hg => ?_, fun pid hf => ?_⟩
      · have hread := hok _ (List.mem_cons_of_mem _ (List.mem_of_find?_eq_some hlast))
        exact Emptied.unpopulated hl hread hm hcg hg hr
      · rw [hget] at hsv
        have hd := ht name i pid hi hsv (by rw [hst]; rfl) hf
        cases hc.symm.trans hd
  | signal | read | reaped | drained | update | push | expire | lower | active | forkedAway | insert | keep =>
    exact h.append [] rfl (by simp)

end EndsGone

namespace Supervisor

variable {w : World} {s s' : Supervisor}

/-- Every stop that ends finds nothing left, if its cgroup can be read. -/
theorem strides_gone {e : Event} (hl : Leaves w) (he : ∀ id, e ≠ .cgroup id) (hs : Strides w e s s')
    (hok : ∀ x ∈ s'.history, readable w x = true) (h : Tracks s ∧ EndsGone s) : Tracks s' ∧ EndsGone s' := by
  have hg : Framework.Grows (fun s : Supervisor => s.history) (Stride w e) := fun h => stride_grows h
  exact Framework.Grows.invariant (R := Stride w e) (I := fun s => Tracks s ∧ EndsGone s) hg
    (fun hok h hs => ⟨h.1.stride hs, h.2.stride hl he hok h.1 hs⟩) hs hok h

/-- Either a notification of a cgroup ends no stop, or the cgroup has been found empty. -/
theorem onCgroup_cases (w : World) (id : Nat) (s : Supervisor) : Strides w .sleep s (onCgroup w id s) ∨
    ∃ name i, s.cgroups.handles[id]? = some name ∧ (w s.ticks).ok = true ∧
      (s.turn w).kernel.populated name = false ∧ s.instances[name]? = some i ∧ i.state = .deactivating ∧
      onCgroup w id s = finishDeactivation w name ((s.turn w).onKernel (·.read id name)) := by
  cases hn : s.cgroups.handles[id]? with
  | none =>
    left
    simp only [onCgroup, hn]
    exact .refl
  | some name =>
    by_cases hok : (w s.ticks).ok = true
    · have h₁ : Strides w .sleep s ((s.turn w).onKernel (·.read id name)) := (turn_strides w s).tail .read
      have hpop : ((s.turn w).onKernel (·.read id name)).kernel.populated name = (s.turn w).kernel.populated name := by
        show Kernel.populated (Kernel.read ..) name = _
        rw [Kernel.populated, (Kernel.read_live ..).1, Kernel.populated]
      simp only [onCgroup, hn, hok, if_true, not_true, false_or, hpop]
      cases hp : (s.turn w).kernel.populated name with
      | true =>
        left
        rw [if_pos rfl]
        exact h₁
      | false =>
        have hinst : ((s.turn w).onKernel (·.read id name)).instances[name]? = s.instances[name]? :=
          congrArg (·.instances[name]?) (turn_toManager w s)
        rw [if_neg Bool.false_ne_true, hinst]
        cases hi : s.instances[name]? with
        | none => exact .inl h₁
        | some i =>
          by_cases hs : i.state = .deactivating
          · exact .inr ⟨name, i, rfl, trivial, hp, hi, hs, by simp only [hs, if_true]⟩
          · left
            simp only [hs, if_false]
            split
            · rename_i ha
              refine h₁.trans (unitVanished_strides w name _ (fun j hj => ?_) (hpop.trans hp))
              cases hi.symm.trans (hinst.symm.trans hj)
              exact ha
            · exact h₁
    · left
      simp only [onCgroup, hn, hok, not_false_iff, true_or, if_true, Bool.false_eq_true, if_false]
      exact turn_strides w s

/-- When a stop ends because the cgroup is found empty, and the main process
has not left it, nothing is alive. -/
theorem onCgroup_ends {id : Nat} (hl : Leaves w) (hr : Reachable w s) (hm : mainInside w s (.cgroup id) = true) :
    Strides w .sleep s (onCgroup w id s) ∨ ∃ s₁ name i, Strides w .sleep s s₁ ∧ s₁.instances[name]? = some i ∧
      i.state = .deactivating ∧ s₁.kernel.populated name = false ∧
      (∀ pid, i.child = some pid → s₁.kernel.alive pid = false) ∧
      Strides w .sleep ((s₁.note (.finished name)).modify name fun i => (i.deactivated s₁.kernel.now).2)
        (onCgroup w id s) := by
  rcases onCgroup_cases w id s with hs | ⟨name, i, hn, hread, hp, hi, hst, e⟩
  · exact .inl hs
  -- The cgroup is read, and the world takes its turn.
  have hi₁ : ((s.turn w).onKernel (·.read id name)).instances[name]? = some i :=
    (congrArg (·.instances[name]?) (turn_toManager w s)).trans hi
  have hlive := Kernel.read_live (s.turn w).kernel id name
  have hkernel := turn_kernel w ((s.turn w).onKernel (·.read id name))
  refine .inr ⟨((s.turn w).onKernel (·.read id name)).turn w, name, i, ((turn_strides w s).tail .read).tail .turn,
    (congrArg (·.instances[name]?) (turn_toManager w _)).trans hi₁, hst, ?_, fun pid hc => ?_, ?_⟩
  · rw [hkernel]
    refine Kernel.moves_unpopulated (hl _) ?_
    show Kernel.populated (Kernel.read ..) name = false
    rwa [Kernel.populated, hlive.1]
  · have hleft : (s.turn w).kernel.leftItsCgroup name pid = false := by
      simpa [mainInside, hn, hi, hst, hread, hp, hc] using hm
    have hdead := Kernel.not_alive_of_inside hp hleft
    rw [hkernel]
    refine Kernel.moves_dead _ ?_ ?_
    · show pid < Kernel.nextPid (Kernel.read ..)
      rw [hlive.2.2]
      exact (hr.hears.fresh name i pid hi hc).trans_le (turn_drifts w s).nextPid
    · show Kernel.alive (Kernel.read ..) pid = false
      rwa [Kernel.alive, hlive.1]
  · rw [e]
    exact finishDeactivation_after hi₁ hst

/-- A stop that ends because the cgroup is found empty. -/
theorem onCgroup_gone {id : Nat} (hl : Leaves w) (hr : Reachable w s) (hm : mainInside w s (.cgroup id) = true)
    (hok : ∀ x ∈ (onCgroup w id s).history, readable w x = true) (h : Tracks s ∧ EndsGone s) :
    Tracks (onCgroup w id s) ∧ EndsGone (onCgroup w id s) := by
  rcases onCgroup_ends hl hr hm with hs | ⟨s₁, name, i, hs, hi, hst, hp, hdead, hafter⟩
  · exact strides_gone hl (by simp) hs hok h
  have hgrows := strides_grows hafter
  have h₁ : Tracks s₁ ∧ EndsGone s₁ :=
    strides_gone hl (by simp) hs (fun x hx => hok x (hgrows.subset (List.mem_cons_of_mem _ hx))) h
  refine strides_gone hl (by simp) hafter hok
    ⟨h₁.1.stride (w := w) (e := .cgroup id) (.finished hi hst (.read ⟨id, rfl⟩)), ?_⟩
  refine h₁.2.finished name fun hsv => ⟨fun _ => hp, fun pid hf => hdead pid ?_⟩
  have hsv : i.unit.service ≠ none := by rwa [Manager.serviceOf, Manager.unitOf, hi] at hsv
  exact h₁.1 name i pid hi hsv (by rw [hst]; rfl) hf

/-- In runs in which the main process of a unit that is stopping has not left
the unit's cgroup whenever that is found empty, both are gone whenever a stop is
over. In every run, a stop for which both are gone, and have been reported, is
over. -/
theorem stop_ends_when_gone {hierarchy : Bool} {kernel : Kernel} {events : List Event} (hl : Leaves w)
    (hm : Framework.Each (step w) (fun s e => mainInside w s e = true) (boot w hierarchy kernel) events)
    (hok : ∀ x ∈ (run w (boot w hierarchy kernel) events).history, readable w x = true) :
    EndsGone (run w (boot w hierarchy kernel) events) ∧
      ∀ (u : Name) (i : Instance), (run w (boot w hierarchy kernel) events).instances[u]? = some i →
        i.unit.service ≠ none → i.child = none → (run w (boot w hierarchy kernel) events).kernel.populated u = false →
          u ∉ (run w (boot w hierarchy kernel) events).kernel.notices → i.state ≠ .deactivating := by
  refine ⟨?_, fun u i hi hsv hc hp hn hs => ?_⟩
  · refine (guarded_run (I := fun s => Tracks s ∧ EndsGone s) (fun hok => ?_) (fun s e hr hm hok h => ?_) hm hok).2
    · refine strides_gone hl (by simp) (boot_strides w hierarchy kernel) hok ⟨fun u i pid hi _ hd _ => ?_, ?_⟩
      · rw [(queued_fresh w hierarchy kernel).inst u i hi] at hd
        cases hd
      · intro u m older hsuf
        cases queued_log w hierarchy kernel _ (hsuf.subset (List.mem_cons_self ..))
    · cases e with
      | cgroup id => exact onCgroup_gone hl hr hm hok h
      | _ => exact strides_gone hl (by simp) (step_strides w _ s) hok h
  · have hr : Reachable w (run w (boot w hierarchy kernel) events) := ⟨hierarchy, kernel, events, rfl⟩
    have hw := (hr.hears.waiting u i (by simp) hi ⟨hsv, by rw [hs]; rfl, hc⟩).2.2
    rcases hw with hw | hw
    · exact Bool.false_ne_true (hp.symm.trans hw)
    · exact hn hw

/-- The main process of `a` exits once it has been asked to. -/
def obedient : World := movesAt 11 [exits 2]

theorem obedient_leaves : Leaves obedient := by
  intro n mv hmv pid cgroup e
  rw [obedient, movesAt] at hmv
  split at hmv
  · cases List.mem_singleton.mp hmv
    cases e
  · cases hmv

theorem stop_ends_when_gone_sample :
    let s := run obedient (booted obedient [bootTarget ["a"], serviceUnit "a" {} .simple .no])
      [.request (.stop "a"), .cgroup 0, .sigchld]
    EndsGone s ∧
      ∀ (u : Name) (i : Instance), s.instances[u]? = some i → i.unit.service ≠ none → i.child = none →
        s.kernel.populated u = false → u ∉ s.kernel.notices → i.state ≠ .deactivating :=
  stop_ends_when_gone obedient_leaves ⟨by decide +kernel, by decide +kernel, by decide +kernel, trivial⟩
    (by decide +kernel)

/-- The main process of `a` leaves its cgroup to a child, which exits when it
is asked to. -/
def runaway : World :=
  scripted [(7, [.fork 2, .migrate 2 none]), (12, [.exit 3 { terminatingSignal := some 15 }])]

/-- The stop is over, and the main process is alive. -/
theorem stop_ends_with_the_main_process_alive :
    let s := run runaway (booted runaway [bootTarget ["a"], serviceUnit "a" {} .simple .no])
      [.sleep, .request (.stop "a"), .cgroup 0]
    Reachable runaway s ∧ s.stateOf "a" = some .inactive ∧ lastFork "a" s.history = some 2 ∧
      s.kernel.alive 2 = true ∧ (s.history.any fun e => match e.1 with
        | .finished u => u = "a" ∧ e.2.kernel.alive 2 = true
        | _ => false) = true :=
  ⟨run_reachable _ _ _, by decide +kernel, by decide +kernel, by decide +kernel, by decide +kernel⟩

end Supervisor

end Oxinit
