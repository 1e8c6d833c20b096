import Oxinit.Proof.Graph
import Oxinit.Proof.Reachable

/-!
# Reloading

A reload leaves what is running with its old definition and takes every other
from the directories (`inForce`). It does not resolve what comes of that, so
the unit set it leaves is one that `load` would refuse as soon as the mixture is.
-/

namespace Oxinit

namespace Manager

/-- The unit set that is held. -/
def held (m : Manager) : Units := m.instances.map fun _ i => i.unit

/-- What is in force once the directories, which hold `units`, are read again:
what is running keeps its definition. -/
def inForce (m : Manager) (units : Units) : Units :=
  units ∪ (m.instances.filter fun _ i => !isIdle i.state).map fun _ i => i.unit

variable {m : Manager} {n : Name}

theorem get_held : m.held[n]? = m.unitOf n := by
  rw [held, Std.TreeMap.getElem?_map]
  rfl

theorem busy_of_get {i : Instance} (h : m.instances[n]? = some i) : m.busy n = !isIdle i.state := by
  rw [busy, h, Option.any_some]

theorem busy_of_none (h : m.instances[n]? = none) : m.busy n = false := by
  rw [busy, h, Option.any_none]

theorem unitOf_of_get {i : Instance} (h : m.instances[n]? = some i) : m.unitOf n = some i.unit := by
  rw [unitOf, h, Option.map_some]

theorem unitOf_of_none (h : m.instances[n]? = none) : m.unitOf n = none := by
  rw [unitOf, h, Option.map_none]

theorem knows_eq (m : Manager) (n : Name) : m.knows n = (m.unitOf n).isSome := by
  rw [knows, unitOf, Std.TreeMap.contains_eq_isSome_getElem?, Option.isSome_map]

/-- What is running keeps its definition. -/
theorem get_inForce (units : Units) : (m.inForce units)[n]? = if m.busy n then m.unitOf n else units[n]? := by
  rw [inForce, Std.TreeMap.getElem?_union, Std.TreeMap.getElem?_map, Std.TreeMap.getElem?_filter']
  cases h : m.instances[n]? with
  | none => rw [busy_of_none h]; rfl
  | some i =>
    rw [busy_of_get h, unitOf_of_get h]
    cases hs : isIdle i.state <;> simp [Option.filter, hs]

/-- What is kept of a unit that the directories say is `u`. -/
def refreshed (m : Manager) (n : Name) (u : Unit) : Instance :=
  match m.instances[n]? with
  | some i => if i.unit = u ∨ isIdle i.state = false then i else Instance.new u
  | none => Instance.new u

theorem refreshed_unit (m : Manager) (n : Name) (u : Unit) :
    some (m.refreshed n u).unit = if m.busy n then m.unitOf n else some u := by
  rw [refreshed]
  cases hi : m.instances[n]? with
  | none =>
    rw [busy_of_none hi]
    rfl
  | some i =>
    rw [busy_of_get hi, unitOf_of_get hi]
    cases hs : isIdle i.state with
    | false => simp [hs]
    | true =>
      simp only [hs, Bool.true_eq_false, or_false, Bool.not_true, Bool.false_eq_true, if_false]
      split
      · exact congrArg some ‹_›
      · rfl

end Manager

namespace Supervisor

variable {w : World} {s : Supervisor} {n : Name}

/-- What the directories hold when they are read next. -/
def onDisk (w : World) (s : Supervisor) : Loaded := loadDirsIn (s.turn w).kernel.disk

theorem onDisk_note (c : Call) : onDisk w (s.note c) = onDisk w s := by
  rw [onDisk, onDisk, turn_kernel, turn_kernel]
  rfl

theorem addUnit_get (w : World) (name : Name) (unit : Unit) (s : Supervisor) :
    (addUnit w name unit s).instances[n]? = if name = n then some (Instance.new unit) else s.instances[n]? := by
  have hm : (addCgroup w name unit s).instances = s.instances := by
    simp only [addCgroup]
    split
    · rw [update_toManager, turn_toManager]
      rfl
    · rfl
  rw [addUnit, update_toManager, Manager.get_insertUnit, hm]

theorem lookup_eq_none_of_notMem {β : Type} {l : List (Name × β)} {k : Name} (h : k ∉ l.map Prod.fst) :
    l.lookup k = none := by
  refine List.lookup_eq_none_iff.mpr fun q hq => ?_
  have : k ≠ q.1 := fun e => h (List.mem_map.mpr ⟨q, hq, e.symm⟩)
  simpa using this

theorem lookup_toList {β : Type} (units : Std.TreeMap Name β) (n : Name) : units.toList.lookup n = units[n]? := by
  cases h : units[n]? with
  | none =>
    refine List.lookup_eq_none_iff.mpr fun p hp => ?_
    have := Std.TreeMap.mem_toList_iff_getElem?_eq_some.mp hp
    have : n ≠ p.1 := fun e => by simp [e, this] at h
    simpa using this
  | some u =>
    obtain ⟨l₁, l₂, e⟩ := List.append_of_mem (Std.TreeMap.mem_toList_iff_getElem?_eq_some.mpr h)
    have hn := Graph.keys_nodup units
    rw [e, List.map_append, List.map_cons] at hn
    refine List.lookup_eq_some_iff.mpr ⟨l₁, l₂, e, fun p hp => ?_⟩
    have : n ≠ p.1 := fun e' =>
      (List.nodup_append.mp hn).2.2 p.1 (List.mem_map_of_mem hp) n (List.mem_cons_self ..) e'.symm
    simpa using this

/-- One unit of a reload. -/
theorem reloadUnit_inst (acc : List Name × List Name × Supervisor) (p : Name × Unit) :
    (reloadUnit w acc p).2.2.instances[n]? =
      if p.1 = n then some (acc.2.2.refreshed n p.2) else acc.2.2.instances[n]? := by
  obtain ⟨changed, skipped, s⟩ := acc
  obtain ⟨k, u⟩ := p
  by_cases e : k = n
  · subst e
    rw [if_pos rfl]
    simp only [reloadUnit, Manager.refreshed]
    cases hi : s.instances[k]? with
    | none => exact (addUnit_get ..).trans (if_pos rfl)
    | some i =>
      by_cases hu : i.unit = u
      · simp [hu, hi]
      · cases hs : isIdle i.state with
        | true => simp [hu, hs, addUnit_get]
        | false => simp [hu, hs, hi]
  · rw [if_neg e]
    simp only [reloadUnit]
    split
    · split
      · rfl
      · split
        · exact (addUnit_get ..).trans (if_neg e)
        · rfl
    · exact (addUnit_get ..).trans (if_neg e)

theorem reloadUnits_inst (l : List (Name × Unit)) (hl : (l.map Prod.fst).Nodup)
    (acc : List Name × List Name × Supervisor) :
    (l.foldl (reloadUnit w) acc).2.2.instances[n]? =
      match l.lookup n with
      | some u => some (acc.2.2.refreshed n u)
      | none => acc.2.2.instances[n]? := by
  induction l generalizing acc with
  | nil => rfl
  | cons p l ih =>
    obtain ⟨k, u⟩ := p
    rw [List.map_cons, List.nodup_cons] at hl
    have hone := reloadUnit_inst (w := w) (n := n) acc (k, u)
    rw [List.foldl_cons, ih hl.2, List.lookup_cons]
    by_cases e : k = n
    · subst e
      rw [if_pos rfl] at hone
      rw [lookup_eq_none_of_notMem hl.1]
      simpa using hone
    · have hne : (n == k) = false := by simpa using Ne.symm e
      rw [if_neg e] at hone
      rw [hne]
      simp only [Manager.refreshed, hone]

theorem retain_get (units : Units) (s : Supervisor) (n : Name) : (retain units s).instances[n]? =
    s.instances[n]?.filter fun i => units.contains n || !isIdle i.state := by
  simp [retain, Manager.keep]

/-- A reload adds and replaces, and then forgets. -/
theorem reload_toManager (h : (onDisk w s).errors = []) : (reload w s).2 =
    retain (onDisk w s).units ((onDisk w s).units.toList.foldl (reloadUnit w) ([], [], s.turn w)).2.2 := by
  simp only [reload]
  rw [if_pos (by rw [show (loadDirsIn (s.turn w).kernel.disk).errors = [] from h]; rfl)]
  rfl

/-- What is down is as the directories say once they have been read again, and what is running as it was. -/
theorem reload_inst (h : (onDisk w s).errors = []) : (reload w s).2.instances[n]? =
    match (onDisk w s).units[n]? with
    | some u => some (s.refreshed n u)
    | none => s.instances[n]?.filter fun i => !isIdle i.state := by
  have hi := reloadUnits_inst (w := w) (n := n) (onDisk w s).units.toList
    (Graph.keys_nodup (onDisk w s).units) ([], [], s.turn w)
  rw [reload_toManager h]
  simp only [lookup_toList, turn_toManager, Manager.refreshed] at hi
  rw [retain_get, hi, Std.TreeMap.contains_eq_isSome_getElem?]
  cases hu : (onDisk w s).units[n]? with
  | none => simp
  | some u => simp [Manager.refreshed]

/-- A reload leaves the units that are in force. -/
theorem reload_held (h : (onDisk w s).errors = []) :
    (reload w s).2.held[n]? = (s.inForce (onDisk w s).units)[n]? := by
  rw [Manager.get_held, Manager.get_inForce, Manager.unitOf, reload_inst h]
  cases hd : (onDisk w s).units[n]? with
  | some u => rw [Option.map_some, s.refreshed_unit]
  | none =>
    cases hi : s.instances[n]? with
    | none => rw [Manager.busy_of_none hi]; rfl
    | some i =>
      rw [Manager.busy_of_get hi, Manager.unitOf_of_get hi]
      cases hs : isIdle i.state <;> simp [hs]

/-- A reload is accepted exactly if nothing is wrong with the directories. -/
theorem reload_accepted : (∃ message, (reload w s).1 = .accepted message) ↔ (onDisk w s).errors = [] := by
  simp only [reload, onDisk]
  cases (loadDirsIn (s.turn w).kernel.disk).errors <;> simp

/-- A reload that is accepted leaves a unit set that resolves if and only if
what is then in force is coherent: the old definitions of what is running, and
those of the directories. -/
theorem reloaded_units_resolve_iff (w : World) (s : Supervisor) :
    ((∃ message, (handle w .reload s).1 = .accepted message) →
        ∃ plan, Graph.resolve (handle w .reload s).2.held = .ok plan) ↔
      ((onDisk w s).errors ≠ [] ∨ Graph.Coherent (s.inForce (onDisk w s).units) defaultUnit) := by
  simp only [handle, Graph.resolve, reload_accepted, onDisk_note]
  by_cases he : (onDisk w s).errors = []
  · have hn := onDisk_note (w := w) (s := s) (.request .reload)
    have hheld : ∀ n : Name, (reload w (s.note (.request .reload))).2.held[n]? =
        (s.inForce (onDisk w s).units)[n]? := fun n => by
      rw [reload_held (hn ▸ he), hn]
      rfl
    simp only [he, ne_eq, not_true_eq_false, false_or, true_implies]
    rw [← Graph.coherent_iff]
    exact ⟨fun h => h.congr fun n => (hheld n).symm, fun h => h.congr hheld⟩
  · simp [he]

/-- A unit that requires one that does not exist is installed. -/
def broken : Directory := directory [bootTarget ["a"], serviceUnit "a" { requires := ["b"] } .simple .no]

/-- A unit set that resolves is reloaded, and what is held then does not. -/
theorem reload_accepts_what_does_not_resolve :
    let w := movesAt 3 [.edit [broken]]
    let s := booted w [bootTarget ["a"]]
    (∃ plan, Graph.resolve s.held = .ok plan) ∧ (∃ message, (handle w .reload s).1 = .accepted message) ∧
      ¬∃ plan, Graph.resolve (handle w .reload s).2.held = .ok plan := by
  refine ⟨⟨_, by rfl⟩, ⟨_, by rfl⟩, fun ⟨plan, h⟩ => ?_⟩
  have he : (Graph.resolve (handle (movesAt 3 [.edit [broken]]) .reload
      (booted (movesAt 3 [.edit [broken]]) [bootTarget ["a"]])).2.held).toOption = none := by decide +kernel
  rw [h] at he
  cases he

end Supervisor

end Oxinit
