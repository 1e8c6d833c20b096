import Oxinit.Proof.Bindings
import Oxinit.Proof.Stops

/-!
# Waiting connections

A descriptor stays readable until its connection is accepted, and wakes the
loop again for as long as it is registered with epoll. `sync_sockets` takes
it out when its service is not idle, so the loop spins unless the iteration
that sees the connection has forked the service or left it not idle
(`Answered`).
-/

namespace Oxinit

/-- Whether a connection that waits on a descriptor wakes the loop. -/
def Manager.wakes (m : Manager) (id : Nat) : Bool := m.sockets[id]?.any (·.armed)

/-- A call that leaves `u` idle: its start is refused, it is marked `Failed`, or
a stop of it has no process to wait for. -/
def hinders (u : Name) (e : Call × Machine) : Bool :=
  match e.1 with
  | .start v => decide (v = u) && e.2.shuttingDown
  | .fail v => v = u
  | .stop v _ =>
    decide (v = u) && e.2.instances[u]?.any fun i => decide (i.state = .restarting) || i.unit.service.isNone
  | _ => false

/-- Nothing in `l` leaves `u` idle. -/
def Unhindered (u : Name) (l : List (Call × Machine)) : Prop := ∀ e ∈ l, hinders u e = false

instance (u : Name) (l : List (Call × Machine)) : Decidable (Unhindered u l) :=
  inferInstanceAs (Decidable (∀ e ∈ l, hinders u e = false))

/-- A process of `u` is forked. -/
def Call.forks (u : Name) : Call → Bool
  | .spawn v => v = u
  | _ => false

/-- Somewhere in `l` a process of `u` is forked. -/
def Forked (u : Name) (l : List (Call × Machine)) : Prop := ∃ e ∈ l, e.1.forks u = true

instance (u : Name) (l : List (Call × Machine)) : Decidable (Forked u l) :=
  inferInstanceAs (Decidable (∃ e ∈ l, e.1.forks u = true))

theorem Forked.mono {u : Name} {l l' : List (Call × Machine)} (h : Forked u l) (hl : l ⊆ l') : Forked u l' := by
  obtain ⟨e, he, hf⟩ := h
  exact ⟨e, hl he, hf⟩

theorem Unhindered.mono {u : Name} {l l' : List (Call × Machine)} (h : Unhindered u l') (hl : l ⊆ l') :
    Unhindered u l :=
  fun e he => h e (hl he)

/-- Unless something since `s₀` has left it idle, `u` is not idle, or a process
of it has been forked since. -/
def Answered (u : Name) (s₀ s : Supervisor) : Prop :=
  ∃ new, s.history = new ++ s₀.history ∧ (Unhindered u new → s.idle u = false ∨ Forked u new)

theorem Manager.idle_of_get {m m' : Manager} {u : Name} (h : m'.instances[u]? = m.instances[u]?) :
    m'.idle u = m.idle u := by
  rw [idle, idle, h]

/-- The calls that put a unit in the state it starts in mark it `Failed`, fork
it, or leave it up. -/
theorem Effect.raises {now : Nat} {c : Call} {m m' : Manager} {u : Name} (h : Effect now (some c) m m')
    (hc : Supervisor.Raises u c) : c = .fail u ∨ c = .spawn u ∨ m'.idle u = false := by
  rcases hc with rfl | rfl | rfl | rfl
  · cases h with
    | mark h => cases h
    | up hi =>
      refine .inr (.inr ?_)
      rw [Manager.idle, Manager.get_modify_self hi]
      rfl
  · cases h with
    | mark h => cases h
    | arm hi _ _ _ _ h =>
      refine .inr (.inr ?_)
      rw [Manager.idle, h.frame.1, Manager.get_modify_self hi]
      rfl
  · exact .inl rfl
  · exact .inr (.inl rfl)

namespace Supervisor

variable {w : World} {s s' s₀ : Supervisor} {u v : Name}

/-- To start a unit is to answer for it. -/
theorem Raised.answered (h : Raised u s s') : Answered u s s' := by
  obtain ⟨c, s₁, hst, -, ha, hc⟩ := h
  obtain ⟨n₁, e₁, -⟩ := hst.log
  obtain ⟨new, m, e, hm, -⟩ := ha.noted
  refine ⟨new ++ n₁, by rw [e, e₁, List.append_assoc], fun hu => ?_⟩
  rcases ha.effect.raises hc with rfl | rfl | hi
  · have := hu (.fail u, m) (List.mem_append_left _ hm)
    simp [hinders] at this
  · exact .inr ⟨_, List.mem_append_left _ hm, decide_eq_true rfl⟩
  · exact .inl hi

theorem Raised.get_ne (h : Raised v s s') (hne : v ≠ u) : s'.instances[u]? = s.instances[u]? := by
  obtain ⟨c, s₁, -, hm, ha, hc⟩ := h
  rcases ha.effect.change u with e | ⟨i, j, hi, hj, hch⟩
  · rw [e, hm]
  · rcases hc with rfl | rfl | rfl | rfl <;> cases hch <;> exact absurd rfl hne

end Supervisor

namespace Answered

variable {w : World} {s s' s₀ : Supervisor} {u v : Name} {new : List (Call × Machine)}

theorem after (h : Answered u s s') (hg : s₀.history <:+ s.history) : Answered u s₀ s' := by
  obtain ⟨past, hp⟩ := hg
  obtain ⟨new, hn, h⟩ := h
  refine ⟨new ++ past, by rw [hn, ← hp, List.append_assoc], fun hu => ?_⟩
  exact (h (hu.mono (List.subset_append_left ..))).imp_right fun hf => hf.mono (List.subset_append_left ..)

theorem grows (h : Answered u s₀ s) : s₀.history <:+ s.history := by
  obtain ⟨new, hn, -⟩ := h
  exact ⟨new, hn.symm⟩

/-- What leaves the unit not idle, unless it hinders it, keeps it answered. -/
theorem step (h : Answered u s₀ s) (hn : s'.history = new ++ s.history)
    (hs : Unhindered u new → s.idle u = false → s'.idle u = false) : Answered u s₀ s' := by
  obtain ⟨past, hp, h⟩ := h
  refine ⟨new ++ past, by rw [hn, hp, List.append_assoc], fun hu => ?_⟩
  rcases h (hu.mono (List.subset_append_right ..)) with hi | hf
  · exact .inl (hs (hu.mono (List.subset_append_left ..)) hi)
  · exact .inr (hf.mono (List.subset_append_right ..))

/-- A call that does not hinder keeps the answer. -/
theorem call {e : Call × Machine} (h : Answered u s₀ s) (hn : s'.history = e :: s.history)
    (hs : hinders u e = false → s.idle u = false → s'.idle u = false) : Answered u s₀ s' :=
  h.step (show _ = [e] ++ _ from hn) fun hu => hs (hu e (List.mem_singleton_self e))

theorem note (h : Answered u s₀ s) (c : Call) : Answered u s₀ (s.note c) := h.call rfl fun _ hi => hi

theorem fail (h : Answered u s₀ s) (v : Name) : Answered u s₀ (Supervisor.fail v s) := by
  refine h.call rfl fun hu hi => ?_
  have hne : v ≠ u := of_decide_eq_false hu
  exact (Manager.idle_of_get (m := s.toManager) (Manager.get_modify_ne hne)).trans hi

theorem stop (h : Answered u s₀ s) (v : Name) (cause : StopCause) :
    Answered u s₀ (Supervisor.stop w v cause s) := by
  obtain ⟨new, hn, -⟩ := Supervisor.stop_entries w v cause s
  refine h.step (hn.trans (List.append_cons ..)) fun hu hi => ?_
  by_cases e : v = u
  · subst e
    have hh := hu (.stop v cause, s.toMachine) (List.mem_append_right _ (List.mem_singleton_self _))
    cases hg : s.instances[v]? with
    | none =>
      rw [Manager.idle, Supervisor.stop_get_none hg]
      rfl
    | some i =>
      obtain ⟨i', hi', ho⟩ := Supervisor.stop_get_self (w := w) (c := cause) hg
      rw [Manager.idle, hi']
      cases ho with
      | cancelled hs => simp [hinders, hg, hs] at hh
      | instant _ _ hsv => simp [hinders, hg, hsv] at hh
      | already => rwa [Manager.idle, hg] at hi
      | terminated => rfl
  · rwa [Manager.idle_of_get (Supervisor.stop_get_ne e)]

theorem exclude (h : Answered u s₀ s) (v : Name) : Answered u s₀ (Supervisor.exclude w v s) := by
  refine List.foldlRecOn _ _ h fun s h other _ => ?_
  split
  · exact h.stop other .requested
  · exact h

theorem raised (h : Answered u s₀ s) (hr : Supervisor.Raised v s s') : Answered u s₀ s' := by
  by_cases e : v = u
  · subst e
    exact hr.answered.after h.grows
  · obtain ⟨new, hn⟩ := hr.acts.grows
    exact h.step hn.symm fun _ hi => by rwa [Manager.idle_of_get (hr.get_ne e)]

/-- A start does. -/
theorem start (h : Answered u s₀ s) (v : Name) : Answered u s₀ (Supervisor.start w v s) := by
  by_cases hd : s.shuttingDown = true
  · rw [Supervisor.start_goingDown w v hd]
    exact h.note _
  · rcases Supervisor.start_raised w v (eq_false_of_ne_true hd) with ⟨-, e⟩ | hr
    · rw [e]
      exact (h.note _).exclude v
    · exact ((h.note _).exclude v).raised hr

/-! ## The queue -/

theorem pumpTurn (h : Answered u s₀ s) (v : Name) : Answered u s₀ (Supervisor.pumpTurn w v s) := by
  have h : Answered u s₀ ((s.note (.pump v)).update (·.dequeue v)) := h.call rfl fun _ hi => hi
  simp only [Supervisor.pumpTurn]
  split
  · exact h.fail v
  · exact h.start v

theorem pumpLoop (h : Answered u s₀ s) (fuel : Nat) : Answered u s₀ (Supervisor.pumpLoop w fuel s) := by
  induction fuel generalizing s with
  | zero => exact h
  | succ fuel ih =>
    simp only [Supervisor.pumpLoop]
    split
    · exact h
    · exact ih (h.pumpTurn _)

theorem pump (h : Answered u s₀ s) : Answered u s₀ (Supervisor.pump w s) := by
  simp only [Supervisor.pump]
  split
  · exact h.step (List.nil_append _).symm fun _ hi => hi
  · exact h.pumpLoop _

end Answered

namespace Supervisor

variable {w : World} {s : Supervisor} {u : Name} {id : Nat}

/-- A unit that `start` has come to is answered. -/
theorem start_answered (w : World) (u : Name) (s : Supervisor) : Answered u s (start w u s) := by
  by_cases hd : s.shuttingDown = true
  · rw [start_goingDown w u hd]
    refine ⟨[_], rfl, fun hu => ?_⟩
    have := hu _ (List.mem_singleton_self _)
    simp [hinders, hd] at this
  · have hg : s.history <:+ (exclude w u (s.note (.start u))).history :=
      (List.suffix_cons _ _).trans (exclude_chores w u (s.note (.start u))).acts.grows
    rcases start_raised w u (eq_false_of_ne_true hd) with ⟨hn, e⟩ | hr
    · obtain ⟨new, hnew⟩ := hg
      rw [e]
      exact ⟨new, hnew.symm, fun _ => .inl (by rw [Manager.idle, hn]; rfl)⟩
    · exact hr.answered.after hg

/-- A connection is answered. -/
theorem onSocket_answered (hu : s.socketService id = some u) : Answered u s (onSocket w id s) := by
  simp only [onSocket, hu]
  split
  · exact (start_answered w u _).after (List.suffix_cons _ _)
  · exact ⟨[_], rfl, fun _ => .inl (eq_false_of_ne_true ‹_›)⟩

/-! ## Reconciliation -/

theorem socketService_of_map {m m' : Manager} (h : m'.sockets.map (·.service) = m.sockets.map (·.service)) :
    m'.socketService id = m.socketService id := by
  rw [Manager.socketService, Manager.socketService, ← List.getElem?_map, h, List.getElem?_map]

/-- The sockets keep their services. -/
theorem acts_services {s' : Supervisor} (h : Acts s s') : s'.sockets.map (·.service) = s.sockets.map (·.service) :=
  Framework.invariant (I := fun s' => s'.sockets.map (·.service) = s.sockets.map (·.service))
    (fun h ⟨_, ha⟩ => (ha.effect.sockets fun _ _ => rfl).trans h) h rfl

/-- One descriptor's turn: what it asks epoll for, if anything. -/
theorem syncSocket_cases (w : World) (j : Nat) (s : Supervisor) :
    (syncSocket w j s = s ∧ ∀ b, s.sockets[j]? = some b → s.idle b.service = b.armed) ∨
      ∃ b, s.sockets[j]? = some b ∧ syncSocket w j s =
        if (w s.ticks).ok then (s.turn w).update (·.setArmed j b (s.idle b.service)) else s.turn w := by
  simp only [syncSocket]
  cases hj : s.sockets[j]? with
  | none => exact .inl ⟨rfl, fun _ h => by cases h⟩
  | some b =>
    by_cases hb : s.idle b.service = b.armed
    · refine .inl ⟨if_pos hb, fun b' h => ?_⟩
      cases h
      exact hb
    · exact .inr ⟨b, rfl, if_neg hb⟩

theorem setArmed_wakes {m : Manager} {j : Nat} {b : Bound} {armed : Bool} (hj : m.sockets[j]? = some b) :
    (m.setArmed j b armed).wakes id = if j = id then armed else m.wakes id := by
  have hlen : j < m.sockets.length := (List.getElem?_eq_some_iff.mp hj).1
  simp only [Manager.wakes, Manager.setArmed, List.getElem?_set]
  split <;> rfl

/-- The units stay as they are, and a descriptor whose service is not idle is
not registered, if it is its turn or it was not. -/
theorem syncSocket_spec {j : Nat} (hu : s.socketService id = some u) (hi : s.idle u = false)
    (hok : ∀ n, s.ticks ≤ n → n < (syncSocket w j s).ticks → (w n).ok = true) :
    (syncSocket w j s).idle u = false ∧ (syncSocket w j s).socketService id = some u ∧
      (j = id ∨ s.wakes id = false → (syncSocket w j s).wakes id = false) := by
  obtain ⟨bound, hb, rfl⟩ := Option.map_eq_some_iff.mp hu
  rcases syncSocket_cases w j s with ⟨e, h⟩ | ⟨b, hj, e⟩
  · rw [e]
    refine ⟨hi, hu, fun hid => hid.elim (fun hid => ?_) fun h => h⟩
    rw [Manager.wakes, hb, Option.any_some, ← h bound (hid ▸ hb), hi]
  · have hw : (w s.ticks).ok = true := hok s.ticks (Nat.le_refl _) (by rw [e]; split <;> exact Nat.lt_succ_self _)
    rw [hw, if_pos rfl] at e
    have hm : (syncSocket w j s).toManager = s.setArmed j b (s.idle b.service) := by
      rw [e, update_toManager, turn_toManager]
    refine ⟨?_, ?_, fun hid => ?_⟩
    · rw [hm]
      exact hi
    · rw [hm, socketService_of_map (Manager.setArmed_map (fun _ _ => rfl) hj), hu]
    · rw [hm, setArmed_wakes hj]
      split
      · rename_i e
        subst e
        cases hb.symm.trans hj
        exact hi
      · exact hid.resolve_left ‹_›

theorem syncSocket_ticks (w : World) (j : Nat) (s : Supervisor) : s.ticks ≤ (syncSocket w j s).ticks := by
  rcases syncSocket_cases w j s with ⟨e, -⟩ | ⟨b, -, e⟩
  · rw [e]
  · rw [e]
    split <;> exact Nat.le_succ _

/-- The pass over the descriptors takes out one whose service is not idle. -/
theorem syncs_deregister {ids : List Nat} (hu : s.socketService id = some u) (hi : s.idle u = false)
    (hok : ∀ n, s.ticks ≤ n → n < (ids.foldl (fun s id => syncSocket w id s) s).ticks → (w n).ok = true)
    (h : id ∈ ids ∨ s.wakes id = false) : (ids.foldl (fun s id => syncSocket w id s) s).wakes id = false := by
  induction ids generalizing s with
  | nil => exact h.resolve_left List.not_mem_nil
  | cons j ids ih =>
    rw [List.foldl_cons] at hok ⊢
    have hticks : (syncSocket w j s).ticks ≤
        (ids.foldl (fun s id => syncSocket w id s) (syncSocket w j s)).ticks :=
      List.foldlRecOn (motive := fun s' => (syncSocket w j s).ticks ≤ s'.ticks) ids _ (Nat.le_refl _)
        fun s h k _ => h.trans (syncSocket_ticks w k s)
    obtain ⟨hi', hu', hw⟩ := syncSocket_spec hu hi fun n hn hn' => hok n hn (hn'.trans_le hticks)
    refine ih hu' hi' (fun n hn => hok n ((syncSocket_ticks w j s).trans hn)) ?_
    rcases h with h | h
    · exact (List.mem_cons.mp h).symm.imp_right fun e => hw (.inl e.symm)
    · exact .inr (hw (.inr h))

/-! ## An iteration of the loop -/

/-- A connection does not wake the loop again at once, unless something in the
iteration has left its service idle: by the end of it the descriptor is not
registered any more, or the service has been forked. -/
theorem connection_wakes_once {w : World} {s : Supervisor} {id : Nat} {u : Name} (hu : s.socketService id = some u)
    (hok : ∀ n, (run w s [.socket id, .pump]).ticks ≤ n →
      n < (run w s [.socket id, .pump, .syncSockets]).ticks → (w n).ok = true)
    (hh : Unhindered u (since s (run w s [.socket id, .pump, .syncSockets]))) :
    (run w s [.socket id, .pump, .syncSockets]).wakes id = false ∨
      Forked u (since s (run w s [.socket id, .pump, .syncSockets])) := by
  have hacts : Acts s (run w s [.socket id, .pump]) :=
    (onSocket_deeds (a := none) w id s).acts.trans (pump_deeds (a := none) w _).acts
  have hans : Answered u s (run w s [.socket id, .pump]) := (onSocket_answered hu).pump
  change Unhindered u (since s (syncSockets w (run w s [.socket id, .pump]))) at hh
  change ∀ n, _ → n < (syncSockets w (run w s [.socket id, .pump])).ticks → _ at hok
  change (syncSockets w (run w s [.socket id, .pump])).wakes id = false ∨
    Forked u (since s (syncSockets w (run w s [.socket id, .pump])))
  generalize run w s [.socket id, .pump] = s₁ at hacts hans hh hok ⊢
  obtain ⟨new, hn, hans⟩ := hans
  obtain ⟨late, hl⟩ := (syncSockets_routines w s₁).chores.acts.grows
  have hs : since s (syncSockets w s₁) = late ++ new := since_eq (by rw [← hl, hn, List.append_assoc])
  rw [hs] at hh ⊢
  have hu₁ : s₁.socketService id = some u := (socketService_of_map (acts_services hacts)).trans hu
  rcases hans (hh.mono (List.subset_append_right ..)) with hi | hf
  · obtain ⟨b, hb, -⟩ := Option.map_eq_some_iff.mp hu₁
    exact .inl (syncs_deregister hu₁ hi hok (.inl (List.mem_range.mpr (List.getElem?_eq_some_iff.mp hb).1)))
  · exact .inr (hf.mono (List.subset_append_right ..))

theorem connection_wakes_once_sample :
    let s := run calm (booted calm web) [.syncSockets]
    (run calm s [.socket 0, .pump, .syncSockets]).wakes 0 = false ∨
      Forked "a" (since s (run calm s [.socket 0, .pump, .syncSockets])) :=
  connection_wakes_once (show _ = some "a" by decide +kernel) (fun _ _ _ => rfl) (by decide +kernel)

/-- A connection that waits while the machine goes down: the start is refused,
the service stays idle and the descriptor registered, so the connection wakes
the loop again at once. The same when the service cannot be forked. -/
theorem connection_spins :
    (let s := run calm (booted calm (web ++ [serviceUnit "b" {} .simple .no]))
        [.request (.start "b"), .syncSockets, .shutdown .halt, .pump, .syncSockets]
      let s' := run calm s [.socket 0, .pump, .syncSockets]
      Reachable calm s ∧ s.socketService 0 = some "a" ∧ s.wakes 0 = true ∧ (settled calm s).1 = none ∧
        (∀ n, (calm n).ok = true) ∧ s'.wakes 0 = true ∧ ¬Forked "a" (since s s')) ∧
    let w : World := fun n => { ok := n ≠ 8 }
    let s := run w (booted w web) [.syncSockets]
    let s' := run w s [.socket 0, .pump, .syncSockets]
    Reachable w s ∧ s.socketService 0 = some "a" ∧ s.wakes 0 = true ∧ s.shuttingDown = false ∧
      8 < (run w s [.socket 0, .pump]).ticks ∧ s'.wakes 0 = true ∧ ¬Forked "a" (since s s') := by
  refine ⟨⟨run_reachable _ _ _, ?_⟩, run_reachable _ _ _, ?_⟩
  · exact ⟨by decide +kernel, by decide +kernel, by decide +kernel, fun _ => rfl, by decide +kernel, by decide +kernel⟩
  · exact ⟨by decide +kernel, by decide +kernel, by decide +kernel, by decide +kernel, by decide +kernel,
      by decide +kernel⟩

end Supervisor

end Oxinit
