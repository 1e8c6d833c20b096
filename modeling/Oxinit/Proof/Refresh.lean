import Oxinit.Proof.Reload

/-!
# What a reload touches

A reload replaces the instances of units that are down and whose file has
changed, and the cgroup handles grow by those of the replaced services. What it
leaves it leaves again when it is asked a second time.
-/

namespace Oxinit

namespace Manager

/-- Nothing but the instances and the cgroups is another. -/
def Framed (m m' : Manager) : Prop := m' = { m with instances := m'.instances, cgroups := m'.cgroups }

/-- The same machine, up to how the map of instances is laid out. -/
def Alike (m m' : Manager) : Prop :=
  m' = { m with instances := m'.instances } ∧ ∀ n : Name, m'.instances[n]? = m.instances[n]?

variable {m m₁ m₂ : Manager}

theorem Framed.trans (h₁ : Framed m m₁) (h₂ : Framed m₁ m₂) : Framed m m₂ := by
  rw [Framed] at h₁ h₂ ⊢
  rw [h₂, h₁]

end Manager

/-- What a reload of directories that hold `units` leaves. -/
structure Refreshed (units : Units) (m m' : Manager) : Prop where
  busy : ∀ (n : Name) i, m.instances[n]? = some i → isIdle i.state = false → m'.instances[n]? = some i
  unchanged : ∀ (n : Name) i, m.instances[n]? = some i → units[n]? = some i.unit → m'.instances[n]? = some i
  fresh : ∀ (n : Name) u, units[n]? = some u →
    (∀ i, m.instances[n]? = some i → isIdle i.state = true ∧ i.unit ≠ u) → m'.instances[n]? = some (Instance.new u)
  forgotten : ∀ (n : Name) i, m.instances[n]? = some i → isIdle i.state = true → units[n]? = none →
    m'.instances[n]? = none
  known : ∀ n, m'.knows n = true → n ∈ units ∨ m.busy n = true
  framed : m.Framed m'

namespace Supervisor

variable {w : World} {s : Supervisor} {n : Name}

/-- A unit that is added changes nothing but the units and their cgroups. -/
theorem addUnit_framed (w : World) (name : Name) (unit : Unit) (s : Supervisor) :
    s.Framed (addUnit w name unit s).toManager := by
  simp only [addUnit, addCgroup]
  split
  · rw [update_toManager, update_toManager, turn_toManager]
    rfl
  · rfl

theorem reloadUnit_framed (acc : List Name × List Name × Supervisor) (p : Name × Unit) :
    acc.2.2.Framed (reloadUnit w acc p).2.2.toManager := by
  obtain ⟨changed, skipped, s⟩ := acc
  simp only [reloadUnit]
  split
  · split
    · rfl
    · split
      · exact addUnit_framed ..
      · rfl
  · exact addUnit_framed ..

/-- The units of a reload change nothing else. -/
theorem reloadUnits_framed (l : List (Name × Unit)) (acc : List Name × List Name × Supervisor) :
    acc.2.2.Framed (l.foldl (reloadUnit w) acc).2.2.toManager := by
  induction l generalizing acc with
  | nil => rfl
  | cons p l ih => exact (reloadUnit_framed acc p).trans (ih _)

/-- Nothing is done to a unit that is as the directories say, or running. -/
theorem reloadUnits_eq (l : List (Name × Unit)) (acc : List Name × List Name × Supervisor)
    (h : ∀ p ∈ l, ∃ i, acc.2.2.instances[p.1]? = some i ∧ (i.unit = p.2 ∨ isIdle i.state = false)) :
    (l.foldl (reloadUnit w) acc).2.2 = acc.2.2 := by
  induction l generalizing acc with
  | nil => rfl
  | cons p l ih =>
    obtain ⟨changed, skipped, s⟩ := acc
    obtain ⟨i, hi, hs⟩ := h p (List.mem_cons_self ..)
    have hone : (reloadUnit w (changed, skipped, s) p).2.2 = s := by
      simp only [reloadUnit]
      rw [hi]
      by_cases hu : i.unit = p.2
      · simp [hu]
      · simp [hu, hs.resolve_left hu]
    rw [List.foldl_cons, ih _ fun q hq => by rw [hone]; exact h q (List.mem_cons_of_mem _ hq), hone]

theorem reload_framed (h : (onDisk w s).errors = []) : s.Framed (reload w s).2.toManager := by
  have hf := reloadUnits_framed (w := w) (onDisk w s).units.toList ([], [], s.turn w)
  rw [reload_toManager h]
  simp only [turn_toManager] at hf
  exact hf.trans rfl

theorem reload_refreshed (h : (onDisk w s).errors = []) :
    Refreshed (onDisk w s).units s.toManager (reload w s).2.toManager := by
  have hget := fun n => reload_inst (n := n) h
  refine ⟨fun n i hi hs => ?_, fun n i hi hu => ?_, fun n u hu hdown => ?_, fun n i hi hs hu => ?_, fun n hk => ?_,
    reload_framed h⟩
  · rw [hget]
    cases (onDisk w s).units[n]? with
    | none => simp [hi, hs]
    | some u => simp [Manager.refreshed, hi, hs]
  · rw [hget, hu]
    simp [Manager.refreshed, hi]
  · rw [hget, hu]
    cases hi : s.instances[n]? with
    | none => simp [Manager.refreshed, hi]
    | some i =>
      obtain ⟨hs, hne⟩ := hdown i hi
      simp [Manager.refreshed, hi, hs, hne]
  · rw [hget, hu]
    simp [hi, hs]
  · rw [Manager.knows, Std.TreeMap.contains_eq_isSome_getElem?, hget] at hk
    cases hu : (onDisk w s).units[n]? with
    | some u => exact .inl (Graph.mem_of_get hu)
    | none =>
      rw [hu, Option.isSome_iff_exists] at hk
      obtain ⟨i, hi⟩ := hk
      obtain ⟨hi, hs⟩ := Option.filter_eq_some_iff.mp hi
      exact .inr ((Manager.busy_of_get hi).trans hs)

/-- A reload that finds an error changes nothing. -/
theorem reload_error (h : (onDisk w s).errors ≠ []) : (reload w s).2 = s.turn w := by
  simp only [reload]
  rw [if_neg (by rw [List.isEmpty_iff]; exact h)]

/-- What a reload leaves of a unit of the directories is as they say, or running. -/
theorem refreshed_settled (m : Manager) (n : Name) (u : Unit) :
    (m.refreshed n u).unit = u ∨ isIdle (m.refreshed n u).state = false := by
  rw [Manager.refreshed]
  split
  · split
    · assumption
    · exact .inl rfl
  · exact .inl rfl

/-- A second reload of the same files changes nothing. -/
theorem reload_again (h : (onDisk w s).errors = []) (hd : onDisk w (reload w s).2 = onDisk w s) :
    (reload w s).2.Alike (reload w (reload w s).2).2.toManager := by
  have hget := fun n => reload_inst (n := n) h
  generalize (reload w s).2 = s₁ at hd hget
  have hfold : (((onDisk w s).units.toList.foldl (reloadUnit w) ([], [], s₁.turn w)).2.2) = s₁.turn w := by
    refine reloadUnits_eq _ _ fun p hp => ?_
    have hu := Std.TreeMap.mem_toList_iff_getElem?_eq_some.mp hp
    refine ⟨s.refreshed p.1 p.2, ?_, refreshed_settled ..⟩
    rw [turn_toManager, hget, hu]
  rw [reload_toManager (hd ▸ h), hd, hfold]
  refine ⟨?_, fun n => ?_⟩
  · rw [retain, update_toManager, turn_toManager]
    rfl
  · rw [retain_get, turn_toManager, hget, Std.TreeMap.contains_eq_isSome_getElem?]
    cases (onDisk w s).units[n]? with
    | none => simp
    | some u => simp

/-- A reload touches only what is down. Nothing is changed if anything is wrong
with the directories; and nothing is by a second reload of the same directories. -/
theorem reload_touches_what_is_down (w : World) (s : Supervisor) :
    ((onDisk w s).errors ≠ [] → (reload w s).2.toManager = s.toManager) ∧
      ((onDisk w s).errors = [] → Refreshed (onDisk w s).units s.toManager (reload w s).2.toManager) ∧
      (((reload w s).2.turn w).kernel.disk = (s.turn w).kernel.disk →
        (reload w s).2.Alike (reload w (reload w s).2).2.toManager) := by
  refine ⟨fun h => ?_, reload_refreshed, fun hdisk => ?_⟩
  · rw [reload_error h, turn_toManager]
  · have hd : onDisk w (reload w s).2 = onDisk w s := congrArg loadDirsIn hdisk
    by_cases h : (onDisk w s).errors = []
    · exact reload_again h hd
    · have h₁ := reload_error h
      rw [h₁] at hd ⊢
      have he : ((s.turn w).turn w).toManager = (s.turn w).toManager := turn_toManager ..
      rw [reload_error (hd ▸ h), he]
      exact ⟨rfl, fun _ => rfl⟩

end Supervisor

end Oxinit
