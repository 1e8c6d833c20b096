import Mathlib.Data.List.Find
import Oxinit.Framework.Walks
import Oxinit.Proof.Graph

/-!
# Reported cycles

`find_cycle` walks from the first unit that is on a cycle or after one, always
on to the first unit by name that is ordered after the one it is at. So it
finds a cycle unless it comes to a unit that nothing is ordered after.
-/

namespace Oxinit

open Framework (Blocked IsCycle follow)
open Relation (ReflTransGen TransGen)

theorem name_lt_iff {a b : Name} : compare a b = .lt ↔ a < b := compareOfLessAndEq_eq_lt

/-- What is found in a list in which each name comes before those after it is
the first name that is asked for. -/
theorem find?_eq_some_iff_of_sorted {l : List Name} (hl : l.Pairwise (· < ·)) {p : Name → Bool} {a : Name} :
    l.find? p = some a ↔ a ∈ l ∧ p a = true ∧ ∀ b ∈ l, p b = true → ¬b < a := by
  rw [List.find?_eq_some_iff_append]
  constructor
  · rintro ⟨ha, l₁, l₂, rfl, hno⟩
    refine ⟨by simp, ha, fun b hb hpb hlt => ?_⟩
    have hl₂ := (List.pairwise_append.mp hl).2.1
    rcases List.mem_append.mp hb with hb | hb
    · have := hno b hb
      rw [hpb] at this
      cases this
    · rcases List.mem_cons.mp hb with rfl | hb
      · exact String.lt_irrefl b hlt
      · exact String.lt_asymm hlt ((List.pairwise_cons.mp hl₂).1 b hb)
  · rintro ⟨ha, hp, hfirst⟩
    obtain ⟨l₁, l₂, rfl⟩ := List.append_of_mem ha
    refine ⟨hp, l₁, l₂, rfl, fun b hb => ?_⟩
    have hlt : b < a := (List.pairwise_append.mp hl).2.2 b hb a (List.mem_cons_self ..)
    have := mt (hfirst b (List.mem_append_left _ hb)) (not_not_intro hlt)
    simpa using this

/-- A set is listed in order. -/
theorem toList_sorted (names : Std.TreeSet Name) : names.toList.Pairwise (· < ·) :=
  (Std.TreeSet.ordered_toList (t := names)).imp name_lt_iff.mp

theorem keys_sorted {β : Type} (m : Std.TreeMap Name β) : m.keys.Pairwise (· < ·) :=
  (Std.TreeMap.ordered_keys (t := m)).imp name_lt_iff.mp

namespace Graph

/-- Where the walk begins: the first unit that is on a cycle or after one. -/
def First (units : Units) (root a : Name) : Prop :=
  Blocked (Edge units root) a ∧ ∀ b, Blocked (Edge units root) b → ¬b < a

/-- Where the walk goes from `a`: to the first unit that comes after it. -/
def Follows (units : Units) (root a b : Name) : Prop := Edge units root a b ∧ ∀ c, Edge units root a c → ¬c < b

variable {units : Units} {root : Name} {wanted : Std.TreeSet Name} {a b : Name}

/-- The next unit of the walk, as `find_cycle` looks for it. -/
def nextBlocked (successors : Std.TreeMap Name (Std.TreeSet Name)) (remaining : Std.TreeMap Name Nat) (a : Name) :
    Option Name :=
  (successors.getD a ∅).toList.find? fun next => 0 < remaining.getD next 0

/-- `walk` follows the first unit by name that is blocked. -/
theorem walk_eq_follow (successors : Std.TreeMap Name (Std.TreeSet Name)) (remaining : Std.TreeMap Name Nat)
    (fuel : Nat) (path : List Name) (current : Name) :
    walk successors remaining fuel path current = follow (nextBlocked successors remaining) fuel path current := by
  induction fuel generalizing path current with
  | zero => rfl
  | succ fuel ih =>
    rw [walk, follow, nextBlocked]
    split
    · rfl
    · cases (successors.getD current ∅).toList.find? fun next => 0 < remaining.getD next 0 with
      | none => rfl
      | some next => exact ih ..

section

variable (hw : ∀ n, n ∈ wanted ↔ Wanted units root n)

include hw

theorem blocked_wanted (hb : Blocked (Edge units root) b) : b ∈ wanted := by
  obtain ⟨a, hc, hab⟩ := hb
  rw [hw]
  rcases Relation.ReflTransGen.cases_tail hab with rfl | ⟨c, -, hcb⟩
  · obtain ⟨c, -, hca⟩ := Relation.TransGen.tail'_iff.mp hc
    exact hca.2.1
  · exact hcb.2.1

variable (hk : ∀ n ∈ wanted, n ∈ units)

include hk

/-- The table of successors has the edges between the units wanted. -/
theorem mem_successors_iff : b ∈ (edges units wanted).successors.getD a ∅ ↔ Edge units root a b := by
  rw [mem_edges hk, Edge, hw, hw]

/-- Kahn's algorithm leaves predecessors of exactly the units that are blocked. -/
theorem remaining_pos_iff : 0 < (kahnLeft units wanted).2.getD b 0 ↔ Blocked (Edge units root) b := by
  have hE : (fun a b => b ∈ (edges units wanted).successors.getD a ∅) = Edge units root :=
    (edge_of_successors hk).trans (edge_eq hw)
  obtain ⟨h, hmem⟩ := kahnLeft_spec units wanted
  by_cases hb : b ∈ wanted
  · rw [← hE]
    exact h.pos_iff ((mem_toFinset_toList b).mpr hb)
  · have hnone : (kahnLeft units wanted).2[b]? = none := by
      rw [← Option.not_isSome_iff_eq_none, ← Std.TreeMap.mem_iff_isSome_getElem?, hmem, mem_toFinset_toList]
      exact hb
    rw [Std.TreeMap.getD_eq_getD_getElem?, hnone, Option.getD_none]
    exact ⟨fun h => absurd h (Nat.lt_irrefl 0), fun h => absurd (blocked_wanted hw h) hb⟩

/-- From a unit that is blocked the walk goes where `Follows` says. -/
theorem nextBlocked_iff (ha : Blocked (Edge units root) a) :
    nextBlocked (edges units wanted).successors (kahnLeft units wanted).2 a = some b ↔ Follows units root a b := by
  rw [nextBlocked, find?_eq_some_iff_of_sorted (toList_sorted _)]
  simp only [Std.TreeSet.mem_toList, mem_successors_iff hw hk, decide_eq_true_eq, remaining_pos_iff hw hk]
  constructor
  · rintro ⟨hab, -, hfirst⟩
    exact ⟨hab, fun c hc => hfirst c hc (ha.tail hc)⟩
  · rintro ⟨hab, hfirst⟩
    exact ⟨hab, ha.tail hab, fun c hc _ => hfirst c hc⟩

/-- The walk goes on exactly where something is ordered after. -/
theorem nextBlocked_isSome_iff (ha : Blocked (Edge units root) a) :
    (nextBlocked (edges units wanted).successors (kahnLeft units wanted).2 a).isSome = true ↔
      ∃ b, Edge units root a b := by
  rw [nextBlocked, List.find?_isSome]
  simp only [Std.TreeSet.mem_toList, mem_successors_iff hw hk, decide_eq_true_eq, remaining_pos_iff hw hk]
  exact ⟨fun ⟨b, hab, _⟩ => ⟨b, hab⟩, fun ⟨b, hab⟩ => ⟨b, hab, ha.tail hab⟩⟩

/-- What the walk comes to from a unit that is blocked. -/
theorem reaches_iff (ha : Blocked (Edge units root) a) :
    ReflTransGen (fun a b => nextBlocked (edges units wanted).successors (kahnLeft units wanted).2 a = some b) a b ↔
      ReflTransGen (Follows units root) a b := by
  constructor
  · intro h
    suffices ReflTransGen (Follows units root) a b ∧ Blocked (Edge units root) b from this.1
    induction h with
    | refl => exact ⟨.refl, ha⟩
    | tail _ hbc ih =>
      have hf := (nextBlocked_iff hw hk ih.2).mp hbc
      exact ⟨ih.1.tail hf, ih.2.tail hf.1⟩
  · intro h
    suffices ReflTransGen (fun a b => nextBlocked (edges units wanted).successors (kahnLeft units wanted).2 a = some b)
      a b ∧ Blocked (Edge units root) b from this.1
    induction h with
    | refl => exact ⟨.refl, ha⟩
    | tail _ hbc ih => exact ⟨ih.1.tail ((nextBlocked_iff hw hk ih.2).mpr hbc), ih.2.tail hbc.1⟩

/-- The reported path is the walk from the first unit that is blocked. -/
theorem findCycle_eq (ha : First units root a) : findCycle (edges units wanted).successors (kahnLeft units wanted).2 =
    follow (nextBlocked (edges units wanted).successors (kahnLeft units wanted).2)
      ((kahnLeft units wanted).2.size + 1) [] a := by
  have hstart : ((kahnLeft units wanted).2.keys.find? fun n => 0 < (kahnLeft units wanted).2.getD n 0) = some a := by
    rw [find?_eq_some_iff_of_sorted (keys_sorted _)]
    simp only [Std.TreeMap.mem_keys, decide_eq_true_eq, remaining_pos_iff hw hk]
    refine ⟨?_, ha.1, fun b _ hb => ha.2 b hb⟩
    rw [(kahnLeft_spec units wanted).2, mem_toFinset_toList]
    exact blocked_wanted hw ha.1
  have hfind : (kahnLeft units wanted).2.toList.find? (fun p => 0 < p.2) =
      (kahnLeft units wanted).2.toList.find? fun p => 0 < (kahnLeft units wanted).2.getD p.1 0 := by
    refine List.find?_congr fun p hp => ?_
    rw [Std.TreeMap.getD_eq_getD_getElem?, Std.TreeMap.mem_toList_iff_getElem?_eq_some.mp hp, Option.getD_some]
  rw [← Std.TreeMap.map_fst_toList_eq_keys, List.find?_map] at hstart
  obtain ⟨⟨start, d⟩, hp, rfl⟩ := Option.map_eq_some_iff.mp hstart
  rw [findCycle, hfind]
  simp only [Function.comp_def] at hp
  rw [hp]
  exact walk_eq_follow ..

/-- What `find_cycle` finds is a cycle if and only if the walk comes to nothing
that nothing is ordered after. -/
theorem findCycle_isCycle_iff (ha : First units root a) :
    IsCycle (Edge units root) (findCycle (edges units wanted).successors (kahnLeft units wanted).2) ↔
      ∀ b, ReflTransGen (Follows units root) a b → ∃ c, Edge units root b c := by
  have hmem := (kahnLeft_spec units wanted).2
  have hE : ∀ a b, nextBlocked (edges units wanted).successors (kahnLeft units wanted).2 a = some b →
      Edge units root a b := fun a b h =>
    (mem_successors_iff hw hk).mp (Std.TreeSet.mem_toList.mp (List.mem_of_find?_eq_some h))
  have hcard : wanted.toList.toFinset.card = (kahnLeft units wanted).2.size := by
    have hkeys : (kahnLeft units wanted).2.keys.toFinset = wanted.toList.toFinset := by
      ext n
      rw [List.mem_toFinset, Std.TreeMap.mem_keys, hmem]
    rw [← hkeys, List.toFinset_card_of_nodup Std.TreeMap.nodup_keys, Std.TreeMap.length_keys]
  rw [findCycle_eq hw hk ha, Framework.follow_isCycle_iff (S := wanted.toList.toFinset) (fun a _ b h => ?_) hE ?_ ?_]
  · refine forall_congr' fun b => ?_
    rw [reaches_iff hw hk ha.1]
    refine forall_congr' fun hab => nextBlocked_isSome_iff hw hk ?_
    induction hab with
    | refl => exact ha.1
    | tail _ hbc ih => exact ih.tail hbc.1
  · exact (mem_toFinset_toList a).mpr (blocked_wanted hw ha.1)
  · rw [hcard]
    exact Nat.lt_succ_self _
  · exact (mem_toFinset_toList b).mpr ((hw b).mpr (hE a b h).2.1)

end

theorem checkConflicts_error {e : GraphError}
    (h : (checkConflicts units wanted : Except GraphError PUnit.{1}) = .error e) :
    ∃ a b, e = .conflictingRequired a b := by
  simp only [checkConflicts] at h
  split at h
  · cases h
    exact ⟨_, _, rfl⟩
  · cases h

theorem checkSockets_error {e : GraphError}
    (h : (checkSockets units wanted : Except GraphError PUnit.{1}) = .error e) :
    ∃ a b, e = .missingSocketService a b ∨ e = .socketServiceNotAService a b := by
  simp only [checkSockets] at h
  split at h
  · rename_i he
    cases h
    obtain ⟨n, -, hn⟩ := List.exists_of_findSome?_eq_some he
    split at hn
    · cases hn
    · split at hn
      · cases hn
        exact ⟨_, _, .inl rfl⟩
      · split at hn <;> cases hn
        exact ⟨_, _, .inr rfl⟩
  · cases h

/-- What is refused for a cycle has passed the checks before. -/
theorem resolveFrom_cycle {path : List Name} (h : resolveFrom units root = .error (.cycle path)) :
    ∃ wanted : Std.TreeSet Name, (∀ n, n ∈ wanted ↔ Wanted units root n) ∧ (∀ n ∈ wanted, n ∈ units) ∧
      topologicalOrder units wanted = .error (.cycle path) := by
  simp only [resolveFrom] at h
  split at h
  · rename_i hroot
    have hfound := reachable_found (Std.TreeMap.contains_iff_mem.mp hroot)
    cases hr : reachable units root with
    | error e =>
      rw [hr] at hfound
      obtain ⟨n, u, dep, rfl, -⟩ := hfound
      simp [hr, bind, Except.bind] at h
    | ok r =>
      obtain ⟨wanted, warnings⟩ := r
      rw [hr] at hfound
      refine ⟨wanted, hfound.1, hfound.2.1, ?_⟩
      simp only [hr, bind, Except.bind] at h
      cases hconf : (checkConflicts units wanted : Except GraphError PUnit.{1}) with
      | error e =>
        obtain ⟨a, b, rfl⟩ := checkConflicts_error hconf
        simp [hconf] at h
      | ok =>
        cases hsock : (checkSockets units wanted : Except GraphError PUnit.{1}) with
        | error e =>
          rcases checkSockets_error hsock with ⟨a, b, rfl | rfl⟩ <;> simp [hconf, hsock] at h
        | ok =>
          simp only [hconf, hsock] at h
          split at h
          · rename_i ht
            cases h
            exact ht
          · cases h
  · cases h

/-- A unit that is blocked comes first by name, if there is one. -/
theorem exists_first (h : ∃ a, TransGen (Edge units root) a a) (hw : ∀ n, n ∈ wanted ↔ Wanted units root n) :
    ∃ a, First units root a := by
  classical
  obtain ⟨b, hb⟩ := h
  have hsome : (wanted.toList.find? fun n => Blocked (Edge units root) n).isSome = true := by
    have hblocked : Blocked (Edge units root) b := ⟨b, hb, .refl⟩
    rw [List.find?_isSome]
    exact ⟨b, Std.TreeSet.mem_toList.mpr (blocked_wanted hw hblocked), decide_eq_true hblocked⟩
  obtain ⟨a, ha⟩ := Option.isSome_iff_exists.mp hsome
  obtain ⟨-, hblocked, hfirst⟩ := (find?_eq_some_iff_of_sorted (toList_sorted _)).mp ha
  refine ⟨a, of_decide_eq_true hblocked, fun c hc => ?_⟩
  exact hfirst c (Std.TreeSet.mem_toList.mpr (blocked_wanted hw hc)) (decide_eq_true hc)

theorem First.unique (ha : First units root a) (hb : First units root b) : a = b :=
  String.le_antisymm (ha.2 b hb.1) (hb.2 a ha.1)

/-- The path that is reported is a cycle if and only if the walk comes to nothing
that nothing is ordered after. -/
theorem reported_cycle_iff {path : List Name} (h : resolveFrom units root = .error (.cycle path)) :
    IsCycle (Edge units root) path ↔
      ∀ a b, First units root a → ReflTransGen (Follows units root) a b → ∃ c, Edge units root b c := by
  obtain ⟨wanted, hw, hk, ht⟩ := resolveFrom_cycle h
  rcases topologicalOrder_spec hk with ⟨order, warnings, ho, -⟩ | ⟨he, hc⟩
  · cases ho.symm.trans ht
  · rw [edge_eq hw] at hc
    obtain ⟨a, ha⟩ := exists_first hc hw
    cases he.symm.trans ht
    rw [findCycle_isCycle_iff hw hk ha]
    exact ⟨fun hall a' b ha' => ha.unique ha' ▸ hall b, fun hall b => hall a b ha⟩

/-- `b` and `c` are after each other, and `a` is after `c`. -/
def circular : Units :=
  Std.TreeMap.ofList (([
    { name := defaultUnit, description := "", deps := { requires := ["a", "b", "c"] }, kind := .target },
    { name := "a", description := "", deps := { after := ["c"] }, kind := .target },
    { name := "b", description := "", deps := { after := ["c"] }, kind := .target },
    { name := "c", description := "", deps := { after := ["b"] }, kind := .target }] : List Unit).map
      fun u => (u.name, u))

theorem reported_cycle_iff_sample : IsCycle (Edge circular defaultUnit) ["a"] ↔
    ∀ a b, First circular defaultUnit a → ReflTransGen (Follows circular defaultUnit) a b →
      ∃ c, Edge circular defaultUnit b c :=
  reported_cycle_iff (by rfl)

/-- The path that is reported is a unit that is not on the cycle. -/
theorem reported_path_is_no_cycle : ∃ path, resolveFrom circular defaultUnit = .error (.cycle path) ∧
    ¬IsCycle (Edge circular defaultUnit) path :=
  ⟨["a"], by rfl, fun h => absurd h.length (by decide)⟩

end Graph

end Oxinit
