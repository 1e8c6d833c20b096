import Oxinit.Framework.Order
import Oxinit.Framework.Search
import Oxinit.Model.Graph

/-!
# Resolved plans

What `resolve_from` answers, in terms of relations: `Pulls` is what a unit
brings with it, `Wanted` what a root does, `Precedes` the order that the units
declare. `reachable` is a search along `Pulls`, and `topological_order` is
Kahn's algorithm on `Edge`, what `Precedes` says of the units that are wanted.
-/

namespace Oxinit

open Framework (Search Ordered Kahn)
open Relation (ReflTransGen TransGen)

namespace Graph

/-- To start `n` is to start `m`. -/
def Pulls (units : Units) (n m : Name) : Prop :=
  ∃ u, units[n]? = some u ∧ (m ∈ u.deps.requires ∨ m ∈ u.deps.wants ∧ m ∈ units)

/-- What is started along with `root`. -/
def Wanted (units : Units) (root n : Name) : Prop := ReflTransGen (Pulls units) root n

/-- `a` is declared to come before `b`: by `after`, by `before`, or as the
socket of a service. -/
def Precedes (units : Units) (a b : Name) : Prop :=
  (∃ u, units[b]? = some u ∧ a ∈ u.deps.after) ∨ (∃ u, units[a]? = some u ∧ b ∈ u.deps.before) ∨
    ∃ u socket, units[a]? = some u ∧ u.socket = some socket ∧ socket.service = b

/-- The same of two units that are started. -/
def Edge (units : Units) (root a b : Name) : Prop := Wanted units root a ∧ Wanted units root b ∧ Precedes units a b

/-- What is checked before the order. -/
structure Checks (units : Units) (root : Name) : Prop where
  known : root ∈ units
  requires : ∀ n u, Wanted units root n → units[n]? = some u → ∀ dep ∈ u.deps.requires, dep ∈ units
  conflicts : ∀ n u, Wanted units root n → units[n]? = some u → ∀ m ∈ u.deps.conflicts, ¬Wanted units root m
  sockets : ∀ n u socket, Wanted units root n → units[n]? = some u → u.socket = some socket →
    (units[socket.service]?.bind Unit.service).isSome = true

variable {units : Units} {root : Name}

theorem mem_of_get {n : Name} {u : Unit} (h : units[n]? = some u) : n ∈ units := by
  rw [Std.TreeMap.mem_iff_isSome_getElem?, h]
  rfl

theorem get_of_mem {n : Name} (h : n ∈ units) : ∃ u, units[n]? = some u :=
  Option.isSome_iff_exists.mp (Std.TreeMap.mem_iff_isSome_getElem?.mp h)

theorem mem_insert_name {names : Std.TreeSet Name} {a b : Name} : b ∈ names.insert a ↔ a = b ∨ b ∈ names := by
  rw [Std.TreeSet.mem_insert, Std.LawfulEqCmp.compare_eq_iff_eq]

theorem contains_insert_name {names : Std.TreeSet Name} {a : Name} (b : Name) :
    (names.insert a).contains b = (decide (a = b) || names.contains b) := by
  rw [Bool.eq_iff_iff, Bool.or_eq_true, decide_eq_true_eq]
  exact mem_insert_name

/-! ## What is reachable -/

/-- How many units `u` names that are started with it. -/
def pulled (u : Unit) : Nat := u.deps.requires.length + u.deps.wants.length

/-- What the units that have not been seen can still add to the queue. -/
def unseen (units : List (Name × Unit)) (seen : Name → Bool) : Nat :=
  (units.map fun p => if seen p.1 then 0 else pulled p.2).sum

theorem unseen_congr {l : List (Name × Unit)} {seen seen' : Name → Bool} (h : ∀ p ∈ l, seen' p.1 = seen p.1) :
    unseen l seen' = unseen l seen := by
  refine congrArg List.sum (List.map_congr_left fun p hp => ?_)
  rw [h p hp]

theorem unseen_insert {l : List (Name × Unit)} (hn : (l.map Prod.fst).Nodup) {name : Name} {u : Unit}
    {seen seen' : Name → Bool} (hl : (name, u) ∈ l) (hs : seen name = false)
    (hs' : ∀ n, seen' n = (decide (name = n) || seen n)) : unseen l seen' + pulled u = unseen l seen := by
  induction l with
  | nil => cases hl
  | cons p l ih =>
    rw [List.map_cons, List.nodup_cons] at hn
    simp only [unseen, List.map_cons, List.sum_cons] at ih ⊢
    rcases List.mem_cons.mp hl with rfl | hl'
    · have hrest : unseen l seen' = unseen l seen := by
        refine unseen_congr fun q hq => ?_
        have hne : name ≠ q.1 := fun e => hn.1 (List.mem_map.mpr ⟨q, hq, e.symm⟩)
        simp [hs', hne]
      simp only [unseen] at hrest
      rw [hrest, hs', hs]
      simp
      omega
    · have hne : name ≠ p.1 := fun e => hn.1 (e ▸ List.mem_map_of_mem (f := Prod.fst) hl')
      have := ih hn.2 hl'
      rw [hs' p.1]
      simp only [hne, decide_false, Bool.false_or]
      omega

theorem keys_nodup {β : Type} (units : Std.TreeMap Name β) : (units.toList.map Prod.fst).Nodup := by
  rw [Std.TreeMap.map_fst_toList_eq_keys]
  exact Std.TreeMap.nodup_keys

/-- A requirement of a unit that is started does not exist. -/
def Misses (units : Units) (root : Name) (e : GraphError) : Prop :=
  ∃ n u dep, e = .missingRequires n dep ∧ Wanted units root n ∧ units[n]? = some u ∧ dep ∈ u.deps.requires ∧
    dep ∉ units

/-- What the search is to answer. -/
def Found (units : Units) (root : Name) : Except GraphError (Std.TreeSet Name × List Warning) → Prop
  | .ok (wanted, _) => (∀ n, n ∈ wanted ↔ Wanted units root n) ∧ (∀ n ∈ wanted, n ∈ units) ∧
      ∀ n ∈ wanted, ∀ u, units[n]? = some u → ∀ dep ∈ u.deps.requires, dep ∈ units
  | .error e => Misses units root e

/-- The search finds what is reachable, if it has fuel for all. -/
theorem visit_spec (fuel : Nat) {queue : List Name} {seen : Std.TreeSet Name} {warnings : List Warning}
    (hs : Search (Pulls units) root (· ∈ seen) queue) (hq : ∀ n, n ∈ seen ∨ n ∈ queue → n ∈ units)
    (hr : ∀ n ∈ seen, ∀ u, units[n]? = some u → ∀ dep ∈ u.deps.requires, dep ∈ units)
    (hf : queue.length + unseen units.toList seen.contains < fuel) :
    Found units root (visit units fuel queue seen warnings) := by
  induction fuel generalizing queue seen warnings with
  | zero => omega
  | succ fuel ih =>
    cases queue with
    | nil => exact ⟨fun n => hs.done, fun n hn => hq n (.inl hn), hr⟩
    | cons name queue =>
      simp only [visit]
      split
      · rename_i hname
        have hq' : ∀ n, n ∈ seen ∨ n ∈ queue → n ∈ units := fun n hn => hq n (hn.imp_right (List.mem_cons_of_mem name))
        exact ih (hs.skip hname) hq' hr (by simp only [List.length_cons] at hf; omega)
      · rename_i hname
        obtain ⟨u, hu⟩ := get_of_mem (hq name (.inr (List.mem_cons_self ..)))
        simp only [hu]
        split
        · rename_i missing hmissing
          refine ⟨name, u, missing, rfl, hs.sound name (.inr (List.mem_cons_self ..)), hu,
            List.mem_of_find?_eq_some hmissing, fun hmem => ?_⟩
          have := List.find?_some hmissing
          rw [Std.TreeMap.contains_iff_mem.mpr hmem] at this
          cases this
        · rename_i hfound
          have hreq : ∀ dep ∈ u.deps.requires, dep ∈ units := by simpa using hfound
          have hpulls : ∀ m, Pulls units name m ↔ m ∈ u.deps.requires ++ u.deps.wants.filter units.contains := by
            intro m
            simp [Pulls, hu]
          have hv := hs.visit hpulls
          have hins : (fun n => n = name ∨ n ∈ seen) = (· ∈ seen.insert name) := by
            funext n
            refine propext ?_
            rw [mem_insert_name, eq_comm]
          rw [hins, ← List.append_assoc] at hv
          refine ih hv (fun n hn => ?_) (fun n hn => ?_) ?_
          · simp only [mem_insert_name, List.mem_append, List.mem_filter, Std.TreeMap.contains_iff_mem] at hn
            rcases hn with (rfl | hn) | (hn | hn) | hn
            · exact mem_of_get hu
            · exact hq n (.inl hn)
            · exact hq n (.inr (List.mem_cons_of_mem name hn))
            · exact hreq n hn
            · exact hn.2
          · rcases mem_insert_name.mp hn with rfl | hn
            · intro u' hu'
              cases hu.symm.trans hu'
              exact hreq
            · exact hr n hn
          · have hmem : (name, u) ∈ units.toList := Std.TreeMap.mem_toList_iff_getElem?_eq_some.mpr hu
            have hle := List.length_filter_le units.contains u.deps.wants
            have hseen : ∀ n, (seen.insert name).contains n = (decide (name = n) || seen.contains n) :=
              contains_insert_name
            have := unseen_insert (keys_nodup units) hmem (eq_false_of_ne_true hname) hseen
            simp only [pulled, List.length_append, List.length_cons] at this hf ⊢
            omega

/-- What is wanted is what the root pulls in. -/
theorem reachable_found (h : root ∈ units) : Found units root (reachable units root) := by
  have hstart : Search (Pulls units) root (· ∈ (∅ : Std.TreeSet Name)) [root] := by
    have he : (fun _ : Name => False) = (· ∈ (∅ : Std.TreeSet Name)) := by
      funext n
      simp
    exact he ▸ .start _ root
  refine visit_spec _ hstart (fun n hn => ?_) (fun n hn => absurd hn Std.TreeSet.not_mem_emptyc) ?_
  · rcases hn with hn | hn
    · exact absurd hn Std.TreeSet.not_mem_emptyc
    · exact List.mem_singleton.mp hn ▸ h
  · have : unseen units.toList (∅ : Std.TreeSet Name).contains =
        (units.toList.map fun u => u.2.deps.requires.length + u.2.deps.wants.length).sum := by
      refine congrArg List.sum (List.map_congr_left fun p _ => ?_)
      simp [pulled]
    simp only [visits, List.length_singleton, this]
    omega

/-! ## Conflicts and sockets -/

variable {wanted : Std.TreeSet Name}

theorem checkConflicts_ok : checkConflicts units wanted = .ok ⟨⟩ ↔
    ∀ n ∈ wanted, ∀ u, units[n]? = some u → ∀ m ∈ u.deps.conflicts, m ∉ wanted := by
  simp only [checkConflicts]
  split
  · rename_i a b h
    obtain ⟨n, hn, h⟩ := List.exists_of_findSome?_eq_some h
    refine ⟨nofun, fun hall => ?_⟩
    cases hu : units[n]? with
    | none => simp [hu] at h
    | some u =>
      simp only [hu, Option.map_eq_some_iff] at h
      obtain ⟨m, hm, -⟩ := h
      have hw := List.find?_some hm
      exact absurd (Std.TreeSet.contains_iff_mem.mp hw)
        (hall n (Std.TreeSet.mem_toList.mp hn) u hu m (List.mem_of_find?_eq_some hm))
  · rename_i h
    rw [List.findSome?_eq_none_iff] at h
    refine ⟨fun _ n hn u hu m hm hmw => ?_, fun _ => rfl⟩
    have := h n (Std.TreeSet.mem_toList.mpr hn)
    simp only [hu, Option.map_eq_none_iff, List.find?_eq_none] at this
    exact this m hm (Std.TreeSet.contains_iff_mem.mpr hmw)

theorem checkSockets_ok : checkSockets units wanted = .ok ⟨⟩ ↔
    ∀ n ∈ wanted, ∀ u socket, units[n]? = some u → u.socket = some socket →
      (units[socket.service]?.bind Unit.service).isSome = true := by
  simp only [checkSockets]
  split
  · rename_i e h
    obtain ⟨n, hn, h⟩ := List.exists_of_findSome?_eq_some h
    refine ⟨nofun, fun hall => ?_⟩
    cases hu : units[n]? with
    | none => simp [hu] at h
    | some u =>
      cases hs : u.socket with
      | none => simp [hu, hs] at h
      | some socket =>
        have := hall n (Std.TreeSet.mem_toList.mp hn) u socket hu hs
        simp only [hu, Option.bind_some, hs] at h
        cases hv : units[socket.service]? with
        | none => simp [hv] at this
        | some v =>
          simp only [hv, Option.bind_some] at this h
          cases hsv : v.service <;> simp [hsv] at this h
  · rename_i h
    rw [List.findSome?_eq_none_iff] at h
    refine ⟨fun _ n hn u socket hu hs => ?_, fun _ => rfl⟩
    have := h n (Std.TreeSet.mem_toList.mpr hn)
    simp only [hu, Option.bind_some, hs] at this
    cases hv : units[socket.service]? with
    | none => simp [hv] at this
    | some v =>
      simp only [hv] at this
      cases hsv : v.service <;> simp [hsv] at this ⊢

/-! ## Edges -/

/-- The edges that `pairs` declare between the units of `wanted`, and how many
lead to each unit. -/
structure Counted (wanted : Std.TreeSet Name) (pairs : List (Name × Name)) (e : Edges) : Prop where
  edge : ∀ a b, b ∈ e.successors.getD a ∅ ↔ a ∈ wanted ∧ b ∈ wanted ∧ (a, b) ∈ pairs
  degree : ∀ b, e.inDegree[b]? =
    if b ∈ wanted then some ((wanted.toList.toFinset.filter fun a => b ∈ e.successors.getD a ∅).card) else none

theorem getD_insert_name {β : Type} {m : Std.TreeMap Name β} {a b : Name} {v d : β} :
    (m.insert a v).getD b d = if a = b then v else m.getD b d := by
  rw [Std.TreeMap.getD_insert]
  simp only [Std.LawfulEqCmp.compare_eq_iff_eq]

theorem getElem?_insert_name {β : Type} {m : Std.TreeMap Name β} {a b : Name} {v : β} :
    (m.insert a v)[b]? = if a = b then some v else m[b]? := by
  rw [Std.TreeMap.getElem?_insert]
  simp only [Std.LawfulEqCmp.compare_eq_iff_eq]

namespace Counted

variable {pairs : List (Name × Name)} {e : Edges} {x y : Name}

/-- An edge that is known. -/
theorem known (h : Counted wanted pairs e) (hp : (x, y) ∈ pairs) (m : Std.TreeMap Name (Std.TreeSet Name))
    (hm : ∀ a, m.getD a ∅ = e.successors.getD a ∅) :
    Counted wanted (pairs ++ [(x, y)]) { e with successors := m } := by
  refine ⟨fun a b => ?_, fun b => ?_⟩
  · rw [hm, h.edge, List.mem_append, List.mem_singleton]
    refine and_congr_right fun _ => and_congr_right fun _ => ⟨.inl, fun hab => ?_⟩
    rcases hab with hab | hab
    · exact hab
    · rwa [hab]
  · simp only [hm]
    exact h.degree b

/-- An edge that is new. -/
theorem new (h : Counted wanted pairs e) (hx : x ∈ wanted) (hy : y ∈ wanted) (hn : y ∉ e.successors.getD x ∅) :
    Counted wanted (pairs ++ [(x, y)])
      { successors := e.successors.insert x ((e.successors.getD x ∅).insert y)
        inDegree := e.inDegree.insert y (e.inDegree.getD y 0 + 1) } := by
  have hedge : ∀ a b, b ∈ (e.successors.insert x ((e.successors.getD x ∅).insert y)).getD a ∅ ↔
      (a = x ∧ b = y) ∨ b ∈ e.successors.getD a ∅ := by
    intro a b
    rw [getD_insert_name]
    split
    · rename_i hxa
      subst hxa
      rw [mem_insert_name, eq_comm]
      simp
    · rename_i hxa
      simp [Ne.symm hxa]
  refine ⟨fun a b => ?_, fun b => ?_⟩
  · rw [hedge, h.edge, List.mem_append, List.mem_singleton, Prod.mk.injEq]
    constructor
    · rintro (⟨rfl, rfl⟩ | ⟨ha, hb, hab⟩)
      · exact ⟨hx, hy, .inr ⟨rfl, rfl⟩⟩
      · exact ⟨ha, hb, .inl hab⟩
    · rintro ⟨ha, hb, hab | hab⟩
      · exact .inr ⟨ha, hb, hab⟩
      · exact .inl hab
  · rw [getElem?_insert_name]
    simp only [hedge]
    split
    · rename_i hyb
      subst hyb
      have hcard : (wanted.toList.toFinset.filter fun a => (a = x ∧ y = y) ∨ y ∈ e.successors.getD a ∅) =
          insert x (wanted.toList.toFinset.filter fun a => y ∈ e.successors.getD a ∅) := by
        ext a
        simp only [Finset.mem_filter, Finset.mem_insert, and_true, List.mem_toFinset, Std.TreeSet.mem_toList]
        constructor
        · rintro ⟨ha, rfl | h⟩
          · exact .inl rfl
          · exact .inr ⟨ha, h⟩
        · rintro (rfl | ⟨ha, h⟩)
          · exact ⟨hx, .inl rfl⟩
          · exact ⟨ha, .inr h⟩
      rw [if_pos hy, hcard, Finset.card_insert_of_notMem (by simp [hn]), Std.TreeMap.getD_eq_getD_getElem?, h.degree,
        if_pos hy, Option.getD_some]
    · rename_i hyb
      have : ∀ a, ((a = x ∧ b = y) ∨ b ∈ e.successors.getD a ∅) ↔ b ∈ e.successors.getD a ∅ := by
        intro a
        simp [Ne.symm hyb]
      simp only [this]
      exact h.degree b

theorem addEdge (h : Counted wanted pairs e) (p : Name × Name) :
    Counted wanted (pairs ++ [p]) (addEdge wanted e p) := by
  obtain ⟨x, y⟩ := p
  simp only [Graph.addEdge]
  split
  · rename_i hw
    simp only [Bool.and_eq_true, Std.TreeSet.contains_iff_mem] at hw
    split
    · rename_i hc
      refine h.known ((h.edge x y).mp (Std.TreeSet.contains_iff_mem.mp hc)).2.2 _ fun a => ?_
      rw [getD_insert_name]
      split
      · rename_i hxa
        rw [hxa]
      · rfl
    · rename_i hc
      exact h.new hw.1 hw.2 (by rwa [Std.TreeSet.contains_iff_mem] at hc)
  · rename_i hw
    refine ⟨fun a b => ?_, h.degree⟩
    rw [h.edge, List.mem_append, List.mem_singleton, Prod.mk.injEq]
    refine and_congr_right fun ha => and_congr_right fun hb => ⟨.inl, fun hab => hab.resolve_right ?_⟩
    rintro ⟨rfl, rfl⟩
    simp [ha, hb] at hw

/-- A list of edges is counted. -/
theorem foldl (h : Counted wanted pairs e) (l : List (Name × Name)) :
    Counted wanted (pairs ++ l) (l.foldl (Graph.addEdge wanted) e) := by
  induction l generalizing pairs e with
  | nil => rwa [List.append_nil]
  | cons p l ih =>
    have := ih (h.addEdge p)
    rwa [List.append_assoc] at this

theorem nil (wanted : Std.TreeSet Name) :
    Counted wanted [] { inDegree := wanted.toList.foldl (fun m n => m.insert n 0) ∅ } := by
  have hfold : ∀ (l : List Name) (m : Std.TreeMap Name Nat) (b : Name),
      (l.foldl (fun m n => m.insert n 0) m)[b]? = if b ∈ l then some 0 else m[b]? := by
    intro l
    induction l with
    | nil => simp
    | cons n l ih =>
      intro m b
      rw [List.foldl_cons, ih, getElem?_insert_name]
      by_cases hb : b ∈ l
      · simp [hb]
      · simp [hb, eq_comm]
  refine ⟨fun a b => by simp, fun b => ?_⟩
  rw [hfold]
  simp [Std.TreeSet.mem_toList]

end Counted

/-- The table counts the edges that are declared. -/
theorem edges_counted (units : Units) (wanted : Std.TreeSet Name) :
    Counted wanted (wanted.toList.flatMap (declared units)) (edges units wanted) :=
  (Counted.nil wanted).foldl _

/-- The edges that a unit declares. -/
theorem mem_declared {n a b : Name} : (a, b) ∈ declared units n ↔ ∃ u, units[n]? = some u ∧
    (b = n ∧ a ∈ u.deps.after ∧ a ∈ units ∨ a = n ∧ b ∈ u.deps.before ∧ b ∈ units ∨
      a = n ∧ ∃ socket, u.socket = some socket ∧ socket.service = b) := by
  simp only [declared]
  cases hu : units[n]? with
  | none => simp
  | some u =>
    simp only [List.mem_append, List.mem_map, List.mem_filter, Prod.mk.injEq, Option.some.injEq, exists_eq_left',
      Std.TreeMap.contains_iff_mem]
    refine (or_congr (or_congr ?_ ?_) ?_).trans or_assoc
    · exact ⟨fun ⟨_, h, e, e'⟩ => ⟨e'.symm, e ▸ h⟩, fun ⟨e, h⟩ => ⟨a, h, rfl, e.symm⟩⟩
    · exact ⟨fun ⟨_, h, e, e'⟩ => ⟨e.symm, e' ▸ h⟩, fun ⟨e, h⟩ => ⟨b, h, e.symm, rfl⟩⟩
    · cases hs : u.socket with
      | none => simp
      | some socket => simp [eq_comm]

/-- The table has the edges among the units wanted. -/
theorem mem_edges (hw : ∀ n ∈ wanted, n ∈ units) {a b : Name} :
    b ∈ (edges units wanted).successors.getD a ∅ ↔ a ∈ wanted ∧ b ∈ wanted ∧ Precedes units a b := by
  rw [(edges_counted units wanted).edge]
  refine and_congr_right fun ha => and_congr_right fun hb => ?_
  simp only [List.mem_flatMap, Std.TreeSet.mem_toList, mem_declared, Precedes]
  constructor
  · rintro ⟨n, -, u, hu, ⟨rfl, h, -⟩ | ⟨rfl, h, -⟩ | ⟨rfl, socket, hs, h⟩⟩
    · exact .inl ⟨u, hu, h⟩
    · exact .inr (.inl ⟨u, hu, h⟩)
    · exact .inr (.inr ⟨u, socket, hu, hs, h⟩)
  · rintro (⟨u, hu, h⟩ | ⟨u, hu, h⟩ | ⟨u, socket, hu, hs, h⟩)
    · exact ⟨b, hb, u, hu, .inl ⟨rfl, h, hw a ha⟩⟩
    · exact ⟨a, ha, u, hu, .inr (.inl ⟨rfl, h, hw b hb⟩)⟩
    · exact ⟨a, ha, u, hu, .inr (.inr ⟨rfl, socket, hs, h⟩)⟩

/-! ## Kahn's algorithm -/

theorem toList_nodup (names : Std.TreeSet Name) : names.toList.Nodup := by
  refine names.distinct_toList.imp fun h e => h ?_
  rw [e, Std.LawfulEqCmp.compare_eq_iff_eq]

/-- What relaxing the edges to `next` makes of the in-degrees and the queue. -/
theorem relax_foldl {next : List Name} (hn : next.Nodup) (remaining : Std.TreeMap Name Nat) (ready : List Name)
    (hr : ∀ b ∈ next, b ∈ remaining) :
    (next.foldl relax (remaining, ready)).2 = ready ++ next.filter (fun b => remaining.getD b 0 - 1 = 0) ∧
      (∀ b, (next.foldl relax (remaining, ready)).1.getD b 0 =
        if b ∈ next then remaining.getD b 0 - 1 else remaining.getD b 0) ∧
      ∀ b, b ∈ (next.foldl relax (remaining, ready)).1 ↔ b ∈ remaining := by
  induction next generalizing remaining ready with
  | nil => simp
  | cons n next ih =>
    rw [List.nodup_cons] at hn
    obtain ⟨d, hd⟩ := Option.isSome_iff_exists.mp
      (Std.TreeMap.mem_iff_isSome_getElem?.mp (hr n (List.mem_cons_self ..)))
    have hrelax : relax (remaining, ready) n =
        (remaining.insert n (d - 1), if d - 1 = 0 then ready ++ [n] else ready) := by
      simp only [relax, hd]
    have hgd : remaining.getD n 0 = d := by rw [Std.TreeMap.getD_eq_getD_getElem?, hd, Option.getD_some]
    have hmem : ∀ b, b ∈ remaining.insert n (d - 1) ↔ b ∈ remaining := by
      intro b
      rw [Std.TreeMap.mem_insert, Std.LawfulEqCmp.compare_eq_iff_eq]
      refine ⟨fun h => h.elim (fun e => e ▸ hr n (List.mem_cons_self ..)) id, .inr⟩
    obtain ⟨h₁, h₂, h₃⟩ := ih hn.2 (remaining.insert n (d - 1)) (if d - 1 = 0 then ready ++ [n] else ready)
      fun b hb => (hmem b).mpr (hr b (List.mem_cons_of_mem n hb))
    have hne : ∀ b ∈ next, n ≠ b := fun b hb e => hn.1 (e ▸ hb)
    rw [List.foldl_cons, hrelax]
    refine ⟨?_, fun b => ?_, fun b => (h₃ b).trans (hmem b)⟩
    · rw [h₁, List.filter_cons, hgd]
      have hf : next.filter (fun b => (remaining.insert n (d - 1)).getD b 0 - 1 = 0) =
          next.filter (fun b => remaining.getD b 0 - 1 = 0) := by
        refine List.filter_congr fun b hb => ?_
        rw [getD_insert_name, if_neg (hne b hb)]
      rw [hf]
      split
      · simp_all
      · simp_all
    · rw [h₂, getD_insert_name]
      by_cases hb : b ∈ next
      · rw [if_pos hb, if_pos (List.mem_cons_of_mem n hb), if_neg (hne b hb)]
      · rw [if_neg hb]
        by_cases e : n = b
        · subst e
          rw [if_pos rfl, if_pos (List.mem_cons_self ..), hgd]
        · rw [if_neg e, if_neg (by simp [hb, Ne.symm e])]

/-- With enough fuel the loop ends with nothing ready. -/
theorem kahn_done {successors : Std.TreeMap Name (Std.TreeSet Name)} {S : Finset Name} (fuel : Nat)
    {ready : List Name} {remaining : Std.TreeMap Name Nat} {order : List Name}
    (h : Kahn S (fun a b => b ∈ successors.getD a ∅) order ready (remaining.getD · 0))
    (hr : ∀ b, b ∈ remaining ↔ b ∈ S) (hf : S.card ≤ order.length + fuel) :
    Kahn S (fun a b => b ∈ successors.getD a ∅) (kahn successors fuel ready remaining order).1 []
        ((kahn successors fuel ready remaining order).2.getD · 0) ∧
      ∀ b, b ∈ (kahn successors fuel ready remaining order).2 ↔ b ∈ S := by
  induction fuel generalizing ready remaining order with
  | zero =>
    have := h.length_le
    obtain rfl : ready = [] := List.eq_nil_of_length_eq_zero (by omega)
    exact ⟨h, hr⟩
  | succ fuel ih =>
    cases ready with
    | nil => exact ⟨h, hr⟩
    | cons name ready =>
      have hnext : ∀ b ∈ (successors.getD name ∅).toList, b ∈ remaining :=
        fun b hb => (hr b).mpr (h.edge name b (Std.TreeSet.mem_toList.mp hb)).2
      obtain ⟨h₁, h₂, h₃⟩ := relax_foldl (toList_nodup _) remaining ready hnext
      rw [kahn]
      simp only [Std.TreeSet.mem_toList] at h₂
      refine ih ?_ (fun b => (h₃ b).trans (hr b)) (by rw [List.length_append, List.length_singleton]; omega)
      rw [h₁]
      refine h.step (fun b _ => h₂ b) ((toList_nodup _).filter _) fun b => ?_
      rw [List.mem_filter, Std.TreeSet.mem_toList, decide_eq_true_eq]
      refine and_congr_right fun hb => ?_
      rw [h₂, if_pos hb]

/-- What Kahn's algorithm leaves of the units of `wanted`. -/
def kahnLeft (units : Units) (wanted : Std.TreeSet Name) : List Name × Std.TreeMap Name Nat :=
  kahn (edges units wanted).successors wanted.size
    (((edges units wanted).inDegree.toList.filter fun p => p.2 = 0).map (·.1)) (edges units wanted).inDegree []

theorem edge_of_successors (hw : ∀ n ∈ wanted, n ∈ units) :
    (fun a b => b ∈ (edges units wanted).successors.getD a ∅) =
      fun a b => a ∈ wanted ∧ b ∈ wanted ∧ Precedes units a b :=
  funext fun _ => funext fun _ => propext (mem_edges hw)

theorem mem_toFinset_toList (b : Name) : b ∈ wanted.toList.toFinset ↔ b ∈ wanted := by
  rw [List.mem_toFinset, Std.TreeSet.mem_toList]

/-- What Kahn's algorithm leaves. -/
theorem kahnLeft_spec (units : Units) (wanted : Std.TreeSet Name) :
    Kahn wanted.toList.toFinset (fun a b => b ∈ (edges units wanted).successors.getD a ∅) (kahnLeft units wanted).1 []
        ((kahnLeft units wanted).2.getD · 0) ∧
      ∀ b, b ∈ (kahnLeft units wanted).2 ↔ b ∈ wanted.toList.toFinset := by
  have hc := edges_counted units wanted
  have hdeg : ∀ b ∈ wanted, (edges units wanted).inDegree[b]? = some ((edges units wanted).inDegree.getD b 0) := by
    intro b hb
    rw [Std.TreeMap.getD_eq_getD_getElem?, hc.degree, if_pos hb, Option.getD_some]
  have hmem : ∀ b, b ∈ (edges units wanted).inDegree ↔ b ∈ wanted.toList.toFinset := by
    intro b
    rw [Std.TreeMap.mem_iff_isSome_getElem?, hc.degree, mem_toFinset_toList]
    split <;> simp [*]
  refine kahn_done wanted.size (.start (fun a b hab => ?_) ?_ (fun b => ?_) fun b hb => ?_) hmem ?_
  · rw [hc.edge] at hab
    exact ⟨(mem_toFinset_toList a).mpr hab.1, (mem_toFinset_toList b).mpr hab.2.1⟩
  · have hkeys := Std.TreeMap.nodup_keys (t := (edges units wanted).inDegree)
    rw [← Std.TreeMap.map_fst_toList_eq_keys] at hkeys
    exact hkeys.sublist (List.filter_sublist.map _)
  · simp only [List.mem_map, List.mem_filter, decide_eq_true_eq, Prod.exists,
      Std.TreeMap.mem_toList_iff_getElem?_eq_some, mem_toFinset_toList]
    constructor
    · rintro ⟨n, d, ⟨hd, rfl⟩, rfl⟩
      have hn : n ∈ wanted := by
        by_contra hn
        rw [hc.degree, if_neg hn] at hd
        cases hd
      exact ⟨hn, Option.some.inj ((hdeg n hn).symm.trans hd)⟩
    · rintro ⟨hb, h0⟩
      exact ⟨b, 0, ⟨h0 ▸ hdeg b hb, rfl⟩, rfl⟩
  · rw [mem_toFinset_toList] at hb
    rw [Std.TreeMap.getD_eq_getD_getElem?, hc.degree, if_pos hb, Option.getD_some]
  · rw [List.toFinset_card_of_nodup (toList_nodup _), Std.TreeSet.length_toList]
    simp

/-- The order is refused if a unit is left over. -/
theorem topologicalOrder_eq (units : Units) (wanted : Std.TreeSet Name) : topologicalOrder units wanted =
    if (kahnLeft units wanted).1.length ≠ wanted.size then
      .error (.cycle (findCycle (edges units wanted).successors (kahnLeft units wanted).2))
    else .ok ((kahnLeft units wanted).1, wanted.toList.flatMap (missingOrdering units)) := rfl

/-- Kahn's algorithm orders the units, or there is a cycle. -/
theorem topologicalOrder_spec (hw : ∀ n ∈ wanted, n ∈ units) :
    (∃ order warnings, topologicalOrder units wanted = .ok (order, warnings) ∧ order.Nodup ∧
        (∀ n, n ∈ order ↔ n ∈ wanted) ∧
        Ordered (fun a b => a ∈ wanted ∧ b ∈ wanted ∧ Precedes units a b) order) ∨
      topologicalOrder units wanted =
          .error (.cycle (findCycle (edges units wanted).successors (kahnLeft units wanted).2)) ∧
        ∃ a, TransGen (fun a b => a ∈ wanted ∧ b ∈ wanted ∧ Precedes units a b) a a := by
  have hE := edge_of_successors hw
  obtain ⟨hk, -⟩ := kahnLeft_spec units wanted
  have hcard : wanted.toList.toFinset.card = wanted.size := by
    rw [List.toFinset_card_of_nodup (toList_nodup _), Std.TreeSet.length_toList]
  rw [topologicalOrder_eq]
  split
  · rename_i hlen
    have hcyc := mt hk.complete_iff.mpr (by rwa [hcard])
    simp only [not_forall, not_not] at hcyc
    rw [hE] at hcyc
    exact .inr ⟨rfl, hcyc⟩
  · rename_i hlen
    have hlen := not_not.mp hlen
    refine .inl ⟨_, _, rfl, by simpa using hk.nodup, fun n => ?_, hE ▸ hk.ordered⟩
    exact (hk.complete (by rw [hcard]; exact hlen) n).trans (mem_toFinset_toList n)

/-! ## Plans -/

/-- A legal order in which to start `root` and what it brings with it. -/
structure Legal (units : Units) (root : Name) (order : List Name) : Prop where
  nodup : order.Nodup
  wanted : ∀ n, n ∈ order ↔ Wanted units root n
  known : ∀ n ∈ order, n ∈ units
  requires : ∀ n ∈ order, ∀ u, units[n]? = some u → ∀ dep ∈ u.deps.requires, dep ∈ order
  exclusive : ∀ a ∈ order, ∀ b ∈ order, ∀ u, units[a]? = some u → b ∉ u.deps.conflicts
  before : ∀ a ∈ order, ∀ b ∈ order, Precedes units a b → order.idxOf a < order.idxOf b

/-- The edges between the units that are started, as `topological_order` sees them. -/
theorem edge_eq (hw : ∀ n, n ∈ wanted ↔ Wanted units root n) :
    (fun a b => a ∈ wanted ∧ b ∈ wanted ∧ Precedes units a b) = Edge units root :=
  funext fun a => funext fun b => propext (by rw [Edge, hw, hw])

/-- Where the checks pass, there is a legal order or a cycle. -/
theorem resolveFrom_spec (h : Checks units root) :
    (∃ plan, resolveFrom units root = .ok plan ∧ Legal units root plan.order) ∨
      ∃ path, resolveFrom units root = .error (.cycle path) ∧ ∃ a, TransGen (Edge units root) a a := by
  have hroot : units.contains root = true := Std.TreeMap.contains_iff_mem.mpr h.known
  have hfound := reachable_found h.known
  cases hr : reachable units root with
  | error e =>
    rw [hr] at hfound
    obtain ⟨n, u, dep, -, hn, hu, hdep, hmiss⟩ := hfound
    exact absurd (h.requires n u hn hu dep hdep) hmiss
  | ok r =>
    obtain ⟨wanted, warnings⟩ := r
    rw [hr] at hfound
    obtain ⟨hw, hknown, hreq⟩ := hfound
    have hconf : checkConflicts units wanted = .ok PUnit.unit.{1} := checkConflicts_ok.mpr fun n hn u hu m hm hmw =>
      h.conflicts n u ((hw n).mp hn) hu m hm ((hw m).mp hmw)
    have hsock : checkSockets units wanted = .ok PUnit.unit.{1} := checkSockets_ok.mpr fun n hn u socket hu hs =>
      h.sockets n u socket ((hw n).mp hn) hu hs
    rcases topologicalOrder_spec hknown with ⟨order, more, ht, hnd, hmem, hord⟩ | ⟨ht, hcyc⟩
    · rw [edge_eq hw] at hord
      refine .inl ⟨{ order, warnings := warnings ++ more }, ?_, ?_⟩
      · simp [resolveFrom, hroot, hr, hconf, hsock, ht, bind, Except.bind, pure, Except.pure]
      · have hmem : ∀ n, n ∈ order ↔ Wanted units root n := fun n => (hmem n).trans (hw n)
        refine ⟨hnd, hmem, fun n hn => hknown n ((hw n).mpr ((hmem n).mp hn)), fun n hn u hu dep hdep => ?_,
          fun a ha b hb u hu hc => ?_, fun a ha b hb hab => ?_⟩
        · exact (hmem dep).mpr (((hmem n).mp hn).tail ⟨u, hu, .inl hdep⟩)
        · exact h.conflicts a u ((hmem a).mp ha) hu b hc ((hmem b).mp hb)
        · exact hord.idxOf_lt hnd ⟨(hmem a).mp ha, (hmem b).mp hb, hab⟩ hb
    · rw [edge_eq hw] at hcyc
      exact .inr ⟨findCycle (edges units wanted).successors (kahnLeft units wanted).2,
        by simp [resolveFrom, hroot, hr, hconf, hsock, ht, bind, Except.bind], hcyc⟩

/-- What resolves has passed the checks. -/
theorem resolveFrom_checks {plan : Plan} (h : resolveFrom units root = .ok plan) : Checks units root := by
  simp only [resolveFrom] at h
  split at h
  · rename_i hroot
    have hroot := Std.TreeMap.contains_iff_mem.mp hroot
    have hfound := reachable_found hroot
    cases hr : reachable units root with
    | error e => simp [hr, bind, Except.bind] at h
    | ok r =>
      obtain ⟨wanted, warnings⟩ := r
      rw [hr] at hfound
      obtain ⟨hw, hknown, hreq⟩ := hfound
      simp only [hr, bind, Except.bind] at h
      cases hconf : (checkConflicts units wanted : Except GraphError PUnit.{1}) with
      | error e => simp [hconf] at h
      | ok =>
        cases hsock : (checkSockets units wanted : Except GraphError PUnit.{1}) with
        | error e => simp [hconf, hsock] at h
        | ok =>
          have hconf := checkConflicts_ok.mp hconf
          have hsock := checkSockets_ok.mp hsock
          exact ⟨hroot, fun n u hn hu => hreq n ((hw n).mpr hn) u hu,
            fun n u hn hu m hm hmw => hconf n ((hw n).mpr hn) u hu m hm ((hw m).mpr hmw),
            fun n u socket hn hu hs => hsock n ((hw n).mpr hn) u socket hu hs⟩
  · cases h

/-- An order that is legal leaves no room for a cycle. -/
theorem Legal.acyclic {order : List Name} (h : Legal units root order) (a : Name) :
    ¬TransGen (Edge units root) a a := by
  have hlt : ∀ {a b}, TransGen (Edge units root) a b → order.idxOf a < order.idxOf b := by
    intro a b hab
    induction hab with
    | single hab => exact h.before _ ((h.wanted _).mpr hab.1) _ ((h.wanted _).mpr hab.2.1) hab.2.2
    | tail _ hbc ih => exact ih.trans (h.before _ ((h.wanted _).mpr hbc.1) _ ((h.wanted _).mpr hbc.2.1) hbc.2.2)
  exact fun hc => Nat.lt_irrefl _ (hlt hc)

/-- An order that is answered is legal. -/
theorem resolveFrom_legal {plan : Plan} (h : resolveFrom units root = .ok plan) : Legal units root plan.order := by
  rcases resolveFrom_spec (resolveFrom_checks h) with ⟨plan', h', hl⟩ | ⟨path, h', -⟩
  · rw [h] at h'
    cases h'
    exact hl
  · rw [h] at h'
    cases h'

/-- A resolved plan is exactly what is wanted, in a legal order. -/
theorem resolved_plan_is_legal {plan : Plan} (h : resolveFrom units root = .ok plan) : Legal units root plan.order :=
  resolveFrom_legal h

/-- `default` wants `a`, which is after `default` and, as is said twice, after
`b`; what `b` wants does not exist. -/
def sample : Units :=
  Std.TreeMap.ofList (([
    { name := defaultUnit, description := "", deps := { requires := ["b"], wants := ["a"] }, kind := .target },
    { name := "a", description := "", deps := { after := [defaultUnit, "b"] }, kind := .target },
    { name := "b", description := "", deps := { wants := ["c"], before := ["a"] }, kind := .target }] : List Unit).map
      fun u => (u.name, u))

theorem sample_resolves : ∃ plan : Plan, resolveFrom sample defaultUnit = .ok plan := ⟨_, by rfl⟩

theorem resolved_plan_is_legal_sample : ∃ plan : Plan, Legal sample defaultUnit plan.order :=
  sample_resolves.imp fun _ h => resolved_plan_is_legal h

/-- Once the checks have passed, exactly the cycles among the units that are
started are refused. -/
theorem cycle_refusal_is_exact (h : Checks units root) :
    ((∃ path, resolveFrom units root = .error (.cycle path)) ↔ ∃ a, TransGen (Edge units root) a a) ∧
      ((∀ a, ¬TransGen (Edge units root) a a) → ∃ plan, resolveFrom units root = .ok plan) := by
  rcases resolveFrom_spec h with ⟨plan, hp, hl⟩ | ⟨path, hp, hc⟩
  · refine ⟨⟨fun ⟨path, hp'⟩ => ?_, fun ⟨a, ha⟩ => absurd ha (hl.acyclic a)⟩, fun _ => ⟨plan, hp⟩⟩
    rw [hp] at hp'
    cases hp'
  · exact ⟨⟨fun _ => hc, fun _ => ⟨path, hp⟩⟩, fun hno => absurd hc.choose_spec (hno _)⟩

theorem cycle_refusal_is_exact_sample :
    ((∃ path, resolveFrom sample defaultUnit = .error (.cycle path)) ↔
        ∃ a, TransGen (Edge sample defaultUnit) a a) ∧
      ((∀ a, ¬TransGen (Edge sample defaultUnit) a a) → ∃ plan, resolveFrom sample defaultUnit = .ok plan) :=
  cycle_refusal_is_exact (resolveFrom_checks sample_resolves.choose_spec)

/-- A unit set that has passed the checks, and in which no cycle is started. -/
structure Coherent (units : Units) (root : Name) : Prop where
  checks : Checks units root
  acyclic : ∀ a, ¬TransGen (Edge units root) a a

/-- What is coherent is what resolves. -/
theorem coherent_iff : Coherent units root ↔ ∃ plan, resolveFrom units root = .ok plan := by
  constructor
  · intro h
    rcases resolveFrom_spec h.checks with ⟨plan, hp, -⟩ | ⟨-, -, a, ha⟩
    · exact ⟨plan, hp⟩
    · exact absurd ha (h.acyclic a)
  · rintro ⟨plan, h⟩
    have hc := resolveFrom_checks h
    refine ⟨hc, fun a ha => ?_⟩
    rcases resolveFrom_spec hc with ⟨plan', -, hl⟩ | ⟨path, hp, -⟩
    · exact hl.acyclic a ha
    · cases h.symm.trans hp

/-! ## Congruence -/

section

variable {units' : Units} (he : ∀ n : Name, units'[n]? = units[n]?)

include he

theorem mem_congr (n : Name) : n ∈ units' ↔ n ∈ units := by
  rw [Std.TreeMap.mem_iff_isSome_getElem?, he, ← Std.TreeMap.mem_iff_isSome_getElem?]

theorem wanted_congr : Wanted units' = Wanted units := by
  have hp : Pulls units' = Pulls units := by
    funext a b
    simp only [Pulls, he, mem_congr he]
  funext a b
  simp only [Wanted, hp]

theorem precedes_congr : Precedes units' = Precedes units := by
  funext a b
  simp only [Precedes, he]

/-- Only the definitions matter. -/
theorem Coherent.congr (h : Coherent units root) : Coherent units' root := by
  have hw := wanted_congr he
  have hc : Edge units' root = Edge units root := by
    funext a b
    simp only [Edge, precedes_congr he, hw]
  obtain ⟨⟨h₁, h₂, h₃, h₄⟩, h₅⟩ := h
  refine ⟨⟨(mem_congr he root).mpr h₁, fun n u hn hu dep hdep => ?_, fun n u hn hu m hc' => ?_,
    fun n u socket hn hu hs => ?_⟩, hc ▸ h₅⟩
  · exact (mem_congr he dep).mpr (h₂ n u (hw ▸ hn) (he n ▸ hu) dep hdep)
  · exact hw ▸ h₃ n u (hw ▸ hn) (he n ▸ hu) m hc'
  · rw [he]
    exact h₄ n u socket (hw ▸ hn) (he n ▸ hu) hs

theorem Legal.congr {order : List Name} (h : Legal units root order) : Legal units' root order where
  nodup := h.nodup
  wanted n := by rw [h.wanted, wanted_congr he]
  known n hn := (mem_congr he n).mpr (h.known n hn)
  requires n hn u hu := h.requires n hn u (he n ▸ hu)
  exclusive a ha b hb u hu := h.exclusive a ha b hb u (he a ▸ hu)
  before a ha b hb hab := h.before a ha b hb (precedes_congr he ▸ hab)

end

end Graph

end Oxinit
