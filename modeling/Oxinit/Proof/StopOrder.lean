import Oxinit.Proof.Queue
import Oxinit.Proof.Stops

/-!
# The order of a shutdown

`begin_shutdown` asks the units to stop in the order of `stop_order`: the
resolved order reversed, and then whatever else is known, by name. So the
edges are respected inside the resolved order, and from it to the rest, but
not the other way nor inside the rest.
-/

namespace Oxinit

/-! ## `stop_order` -/

namespace Manager

variable {m : Manager} {a b : Name}

/-- `a` was ordered after `b`. -/
def orderedAfter (m : Manager) (a b : Name) : Bool :=
  (m.instances[a]?.any fun i => i.unit.deps.after.contains b) ||
    m.instances[b]?.any fun j => j.unit.deps.before.contains a

/-- Both units are in the resolved order, and `b` comes first there; or only
`a` is in it; or neither is, and `a` comes first by name. -/
def StopsFirst (m : Manager) (a b : Name) : Prop :=
  (a ∈ m.order ∧ b ∈ m.order ∧ m.order.idxOf b < m.order.idxOf a) ∨ (a ∈ m.order ∧ b ∉ m.order) ∨
    (a ∉ m.order ∧ b ∉ m.order ∧ compare a b = .lt)

/-- The stop order: the start order backwards, and then the others by name. -/
theorem stopOrder_eq (m : Manager) :
    m.stopOrder = m.order.reverse ++ m.instances.keys.filter fun name => !m.order.contains name := by
  have key : ∀ (l acc : List Name), l.Nodup →
      l.foldl (fun names name => if names.contains name then names else names ++ [name]) acc =
        acc ++ l.filter fun name => !acc.contains name := by
    intro l
    induction l with
    | nil => simp
    | cons a l ih =>
      intro acc hn
      obtain ⟨ha, hn⟩ := List.nodup_cons.mp hn
      rw [List.foldl_cons, ih _ hn, List.filter_cons]
      by_cases h : acc.contains a = true
      · rw [if_pos h, if_neg (by rw [h]; decide)]
      · have hf : (l.filter fun name => !(acc ++ [a]).contains name) = l.filter fun name => !acc.contains name := by
          refine List.filter_congr fun x hx => ?_
          have hne : x ≠ a := fun e => ha (e ▸ hx)
          simp [hne]
        rw [if_neg h, if_pos (by simpa using h), hf, List.append_assoc, List.singleton_append]
  rw [stopOrder, key _ _ Std.TreeMap.nodup_keys]
  simp

theorem mem_keys {i : Instance} (h : m.instances[a]? = some i) : a ∈ m.instances.keys := by
  rw [Std.TreeMap.mem_keys, Std.TreeMap.mem_iff_isSome_getElem?, h]
  rfl

/-- Where `stop_order` has two units that are known. -/
theorem stopOrder_lt {i j : Instance} (hn : m.order.Nodup) (ha : m.instances[a]? = some i)
    (hb : m.instances[b]? = some j) : m.stopOrder.idxOf a < m.stopOrder.idxOf b ↔ m.StopsFirst a b := by
  rw [stopOrder_eq]
  have hrest : ∀ {c i}, c ∉ m.order → m.instances[c]? = some i →
      c ∈ m.instances.keys.filter fun name => !m.order.contains name :=
    fun hc hi => List.mem_filter.mpr ⟨mem_keys hi, by simpa using hc⟩
  have hlen : ∀ {c}, c ∈ m.order → m.order.reverse.idxOf c < m.order.reverse.length :=
    fun hc => List.idxOf_lt_length_iff.mpr (List.mem_reverse.mpr hc)
  by_cases hao : a ∈ m.order <;> by_cases hbo : b ∈ m.order
  · rw [List.idxOf_append_of_mem (by simpa using hao), List.idxOf_append_of_mem (by simpa using hbo),
      Framework.idxOf_reverse_lt hn hao hbo]
    simp [StopsFirst, hao, hbo]
  · rw [List.idxOf_append_of_mem (by simpa using hao), List.idxOf_append_of_notMem (by simpa using hbo)]
    exact iff_of_true (Nat.lt_add_right _ (hlen hao)) (.inr (.inl ⟨hao, hbo⟩))
  · rw [List.idxOf_append_of_notMem (by simpa using hao), List.idxOf_append_of_mem (by simpa using hbo)]
    refine iff_of_false (by have := hlen hbo; omega) ?_
    simp [StopsFirst, hao, hbo]
  · rw [List.idxOf_append_of_notMem (by simpa using hao), List.idxOf_append_of_notMem (by simpa using hbo),
      Nat.add_lt_add_iff_left]
    have hs : (m.instances.keys.filter fun name => !m.order.contains name).Pairwise fun a b => compare a b = .lt :=
      Std.TreeMap.ordered_keys.filter _
    have hasymm : ∀ x y : Name, compare x y = .lt → ¬compare y x = .lt := fun x y h h' => by
      simp [Std.OrientedCmp.gt_of_lt h] at h'
    rw [Framework.idxOf_lt_of_sorted hs hasymm (hrest hao ha) (hrest hbo hb)]
    simp [StopsFirst, hao, hbo]

end Manager

/-! ## What a shutdown asks for -/

/-- The unit a call asks to stop. -/
def Call.asked : Call → Option Name
  | .stop name _ => some name
  | _ => none

/-- The units that are asked to stop, first to last. -/
def asked (l : List (Call × Machine)) : List Name := l.reverse.filterMap (·.1.asked)

theorem asked_append (new old : List (Call × Machine)) : asked (new ++ old) = asked old ++ asked new := by
  simp [asked]

theorem asked_eq_nil {l : List (Call × Machine)} (h : ∀ e ∈ l, e.1.asked = none) : asked l = [] := by
  simpa [asked] using h

theorem Call.asked_of_isWorld {c : Call} (h : c.isWorld = true) : c.asked = none := by
  cases c <;> first | rfl | cases h

namespace Supervisor

variable {w : World} {s : Supervisor}

/-- A stop asks for itself alone. -/
theorem stop_asked (w : World) (name : Name) (cause : StopCause) (s : Supervisor) :
    ∃ new, (stop w name cause s).history = new ++ s.history ∧ asked new = [name] := by
  obtain ⟨new, e, hnew⟩ := stop_entries w name cause s
  refine ⟨new ++ [(.stop name cause, s.toMachine)], by rw [e, List.append_cons], ?_⟩
  have hnil : asked new = [] := asked_eq_nil fun x hx => by
    rcases hnew x hx with h | h | h
    · exact Call.asked_of_isWorld h
    · rw [h]
      rfl
    · rw [h]
      rfl
  rw [asked_append, hnil]
  rfl

/-- The units are asked to stop in that order. -/
theorem stops_asked (w : World) (names : List Name) (s : Supervisor) :
    ∃ new, (names.foldl (fun s name => stop w name .requested s) s).history = new ++ s.history ∧ asked new = names := by
  induction names generalizing s with
  | nil => exact ⟨[], rfl, rfl⟩
  | cons name names ih =>
    obtain ⟨n₁, e₁, h₁⟩ := stop_asked w name .requested s
    obtain ⟨n₂, e₂, h₂⟩ := ih (stop w name .requested s)
    exact ⟨n₂ ++ n₁, by rw [List.foldl_cons, e₂, e₁, List.append_assoc], by rw [asked_append, h₁, h₂]; rfl⟩

/-- A shutdown asks every unit to stop, in the order of `stop_order`. -/
theorem beginShutdown_asked (w : World) (action : Action) (hd : s.shuttingDown = false) :
    asked (since s (beginShutdown w action s)) = s.stopOrder := by
  obtain ⟨n₁, e₁, p₁⟩ := (Still.turn none w (s.note (.shutdown action))).log
  obtain ⟨n₂, e₂, h₂⟩ := stops_asked w s.stopOrder (((s.note (.shutdown action)).turn w).update
    (·.goDown { action, started := ((s.note (.shutdown action)).turn w).kernel.now }))
  have hb : (beginShutdown w action s).history = (n₂ ++ n₁ ++ [(.shutdown action, s.toMachine)]) ++ s.history := by
    simp only [beginShutdown]
    rw [if_neg (by rw [note_toMachine, hd]; decide)]
    have ho : (((s.note (.shutdown action)).turn w).update
        (·.goDown { action, started := ((s.note (.shutdown action)).turn w).kernel.now })).stopOrder = s.stopOrder := by
      rw [update_toManager, turn_toManager]
      rfl
    rw [ho, e₂, update_history, e₁]
    simp
  have hnil : asked n₁ = [] := asked_eq_nil fun x hx => Call.asked_of_isWorld (Call.isWorld_of_isMove (p₁ x hx).1)
  rw [since_eq hb, asked_append, asked_append, h₂, hnil]
  rfl

/-- Nothing changes the resolved order. -/
theorem tour_order {r : Bool} {s' : Supervisor} (h : Tour w r s s') : s'.order = s.order := by
  cases h with
  | deed h => exact h.acts.kept.order
  | @alarm e rest hf => exact (onAlarm_deeds w e.alarm (s.update (·.setFired rest))).acts.kept.order
  | shutdown hd =>
    obtain ⟨s₁, h₁, -, h₂⟩ := beginShutdown_acts w _ hd
    exact h₂.kept.order.trans h₁.kept.order
  | expire | expireWall | lose | addHandle | insert | keep => rfl

theorem Reachable.order_nodup (hr : Reachable w s) : s.order.Nodup := by
  refine hr.invariant (I := fun s => s.order.Nodup) (fun hierarchy kernel => ?_) fun hn ht => ?_
  · by_cases hne : (queued w hierarchy kernel).order = []
    · rw [hne]
      exact .nil
    · exact ((queued_planned w hierarchy kernel).legal hne).nodup
  · rwa [tour_order ht]

/-- Begin a shutdown, and `a` is asked to stop before `b`. -/
def AsksFirst (w : World) (action : Action) (a b : Name) (s : Supervisor) : Prop :=
  (asked (since s (beginShutdown w action s))).idxOf a < (asked (since s (beginShutdown w action s))).idxOf b

/-- Who is asked first comes first in the stop order. -/
theorem asksFirst_iff (hr : Reachable w s) (hd : s.shuttingDown = false) {a b : Name} (action : Action)
    (ha : s.busy a = true) (hb : s.busy b = true) : AsksFirst w action a b s ↔ s.StopsFirst a b := by
  obtain ⟨i, hi, -⟩ := (Option.any_eq_true ..).mp ha
  obtain ⟨j, hj, -⟩ := (Option.any_eq_true ..).mp hb
  rw [AsksFirst, beginShutdown_asked w action hd]
  exact Manager.stopOrder_lt hr.order_nodup hi hj

/-- Until a reload, what a unit of the order is ordered after stands before it there. -/
theorem planned_lt {a b : Name} (hp : s.Planned) (ha : a ∈ s.order) (hb : b ∈ s.order)
    (hab : s.orderedAfter a b = true) : s.order.idxOf b < s.order.idxOf a := by
  refine (hp.legal (List.ne_nil_of_mem ha)).before b hb a ha ?_
  rw [Manager.orderedAfter, Bool.or_eq_true] at hab
  rcases hab with h | h
  · obtain ⟨i, hi, h⟩ := (Option.any_eq_true ..).mp h
    exact .inl ⟨i.unit, by rw [Manager.get_held, Manager.unitOf_of_get hi], by simpa using h⟩
  · obtain ⟨j, hj, h⟩ := (Option.any_eq_true ..).mp h
    exact .inr (.inl ⟨j.unit, by rw [Manager.get_held, Manager.unitOf_of_get hj], by simpa using h⟩)

/-- A unit is asked to stop before what it was ordered after if and only if the
resolved order says so or, where it does not reach, the names do. As long as
nothing has been reloaded, the resolved order does for two of its units. -/
theorem stop_order_iff {hierarchy : Bool} {kernel : Kernel} {events : List Event} {a b : Name}
    (hd : (run w (boot w hierarchy kernel) events).shuttingDown = false)
    (ha : (run w (boot w hierarchy kernel) events).busy a = true)
    (hb : (run w (boot w hierarchy kernel) events).busy b = true)
    (hab : (run w (boot w hierarchy kernel) events).orderedAfter a b = true) (action : Action) :
    (AsksFirst w action a b (run w (boot w hierarchy kernel) events) ↔
        (run w (boot w hierarchy kernel) events).StopsFirst a b) ∧
      ((∀ e ∈ events, e ≠ .request .reload) → a ∈ (run w (boot w hierarchy kernel) events).order →
        b ∈ (run w (boot w hierarchy kernel) events).order →
          AsksFirst w action a b (run w (boot w hierarchy kernel) events)) := by
  have hiff := asksFirst_iff ⟨hierarchy, kernel, events, rfl⟩ hd action ha hb
  refine ⟨hiff, fun hno hao hbo => hiff.mpr (.inl ⟨hao, hbo, planned_lt ?_ hao hbo hab⟩)⟩
  have ht := (boot_tours w (r := false) hierarchy kernel fun e he => .inr (hno e he)).1
  exact ht.steady.planned (queued_planned w hierarchy kernel)

/-- `a`, which is ordered after `b`, is not in the resolved order, and was
started on request. -/
def afterwards : Supervisor :=
  run calm (booted calm [bootTarget ["b"], serviceUnit "a" { after := ["b"] } .simple .no,
    serviceUnit "b" {} .simple .no]) [.request (.start "a")]

theorem stop_order_iff_sample :
    (AsksFirst calm .powerOff "a" "b" afterwards ↔ afterwards.StopsFirst "a" "b") ∧
      ((∀ e ∈ [Event.request (.start "a")], e ≠ .request .reload) → "a" ∈ afterwards.order →
        "b" ∈ afterwards.order → AsksFirst calm .powerOff "a" "b" afterwards) :=
  stop_order_iff (by decide +kernel) (by decide +kernel) (by decide +kernel) (by decide +kernel) .powerOff

/-- A unit that is running but is not in the resolved order is asked to stop
after what it was ordered after. -/
theorem stops_after_what_it_needs : Reachable calm afterwards ∧ afterwards.shuttingDown = false ∧
    afterwards.busy "a" = true ∧ afterwards.busy "b" = true ∧ afterwards.orderedAfter "a" "b" = true ∧
      ¬AsksFirst calm .powerOff "a" "b" afterwards :=
  ⟨run_reachable _ _ _, by decide +kernel, by decide +kernel, by decide +kernel, by decide +kernel,
    by rw [AsksFirst]; decide +kernel⟩

end Supervisor

end Oxinit
