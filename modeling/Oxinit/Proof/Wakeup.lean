import Oxinit.Proof.Hardware

/-!
# Wake-ups of the loop

`Pid1` is what the policy of the watchdog sees of the loop: the events of a
wake-up, and its own turn. A turn of the loop of `Main` is one of its wake-ups,
in which the loop may have slept more than once (`Wakes`), so that what holds of
every run of wake-ups holds of the loop.
-/

namespace Oxinit

/-- The policy's turn is the one that the device gets. -/
theorem Hardware.Watchdog.tick_policy (wd : Watchdog) (a : Answer) (clock : Nat) (booted shuttingDown : Bool) :
    (wd.tick a clock booted shuttingDown).policy =
      (Oxinit.Watchdog.tick (clock - wd.started) booted shuttingDown (if a.opens then some (applied a) else none)
        wd.policy).2 := by
  unfold tick Oxinit.Watchdog.tick
  dsimp only
  generalize (if shuttingDown then wd.policy.beginShutdown else wd.policy).tick (clock - wd.started) booted = r
  cases r.1.action with
  | nothing => rfl
  | pet =>
    dsimp only
    unfold pet
    split <;> rfl
  | «open» =>
    dsimp only
    unfold «open»
    split
    · rfl
    · rfl

namespace Main

variable {w : World} {j : Json} {k : Wake} {m : Main} {p : Pid1}

/-- The supervisor has slept, once or more. -/
def Slept (w : World) (s s' : Supervisor) : Prop := ∃ n, s' = Supervisor.run w s (List.replicate n .sleep)

theorem Slept.refl (w : World) (s : Supervisor) : Slept w s s := ⟨0, rfl⟩

theorem Slept.turn {s s' : Supervisor} (h : Slept w s s') : Slept w s (s'.turn w) := by
  obtain ⟨n, rfl⟩ := h
  refine ⟨n + 1, ?_⟩
  rw [List.replicate_succ', Supervisor.run, Supervisor.run, List.foldl_append]
  rfl

theorem Slept.trans {s₁ s₂ s₃ : Supervisor} (h : Slept w s₁ s₂) (h' : Slept w s₂ s₃) : Slept w s₁ s₃ := by
  obtain ⟨n, rfl⟩ := h
  obtain ⟨n', rfl⟩ := h'
  refine ⟨n + n', ?_⟩
  rw [List.replicate_add, Supervisor.run, Supervisor.run, Supervisor.run, List.foldl_append]

/-- To find the bound is to ask for the time. -/
theorem waitBound_slept (w : World) (m : Main) : Slept w m.supervisor (m.waitBound w).2.supervisor := by
  have hbound : ∀ s : Supervisor, Slept w s (s.waitBound w).2 := by
    intro s
    unfold Supervisor.waitBound
    split
    · exact .refl w s
    · exact (Slept.refl w s).turn
  unfold waitBound
  split
  next feeding m' h =>
    split at h
    · cases h
      exact hbound _
    · cases h
      exact (Slept.refl w _).turn.trans (hbound _)

/-- To settle is to ask for it at most once. -/
theorem settle_slept (w : World) (m : Main) : Slept w m.supervisor (m.settle w).supervisor := by
  unfold settle Supervisor.settled
  split
  · exact .refl w _
  · split
    · exact .refl w _
    · exact (Slept.refl w _).turn

/-- What a wake-up of the loop handles, between the sleep and the watchdog's turn. -/
theorem serve_events (w : World) (j : Json) (k : Wake) (m : Main) : ∃ sources, (serve w j k m).supervisor =
    Supervisor.run w m.supervisor (sources ++ [.pump, .syncSockets]) := by
  unfold serve
  rw [EventLoop.wait_map_token]
  obtain ⟨sources, he⟩ := (dispatched_handled w j k k.ready m).events
  refine ⟨sources, ?_⟩
  rw [Supervisor.run, List.foldl_append]
  change Supervisor.syncSockets w (Supervisor.pump w (k.ready.foldl (dispatch w j k) m).supervisor) = _
  rw [he]
  rfl

/-- The loop is where a run of wake-ups is, but for time that has passed. -/
structure Wakes (w : World) (m : Main) (p : Pid1) : Prop where
  slept : Slept w p.supervisor m.supervisor
  watchdog : ∃ wd, m.watchdog = some wd ∧ p.watchdog = wd.policy ∧ p.started = wd.started

/-- A turn of the loop is a wake-up. -/
theorem Wakes.turn (h : Wakes w m p) (ho : (turn w j k m).outcome = none) :
    ∃ k', Wakes w (turn w j k m) (p.wakeUp w k').2 := by
  obtain ⟨wd, hwd, hp, hst⟩ := h.watchdog
  obtain ⟨n, hn⟩ := h.slept.trans (waitBound_slept w m)
  obtain ⟨sources, hs⟩ := serve_events w j k (m.sleep w)
  let k' : Wakeup :=
    { sources := List.replicate n .sleep ++ sources
      device := if k.device.opens then some (Hardware.Watchdog.applied k.device) else none }
  have hserve : (serve w j k (m.sleep w)).supervisor = Supervisor.run w p.supervisor k'.events := by
    have hsleep : (m.sleep w).supervisor = Supervisor.run w p.supervisor (List.replicate (n + 1) .sleep) := by
      rw [List.replicate_succ', Supervisor.run, List.foldl_append]
      exact congrArg (Supervisor.turn w) hn
    have hevents : k'.events = List.replicate (n + 1) .sleep ++ (sources ++ [.pump, .syncSockets]) := by
      simp [k', Wakeup.events, List.replicate_succ]
    rw [hs, hsleep, hevents]
    simp only [Supervisor.run, List.foldl_append]
  have hawake : (awake w j k m).supervisor = (p.wakeUp w k').2.supervisor := by
    have hserved : (serve w j k (m.sleep w)).watchdog = some wd :=
      (serve_handled w j k _).watchdog.trans ((sleep_handled w m).watchdog.trans hwd)
    simp only [awake, feed, hserved, Pid1.wakeUp, hserve]
  refine ⟨k', ?_, _, turn_watchdog hwd ho, ?_, hst.trans ?_⟩
  · rw [(turn_eq ho).2, ← hawake]
    exact settle_slept w _
  · have hnow : (awake w j k m).now = (p.wakeUp w k').2.supervisor.kernel.now :=
      congrArg (·.kernel.now) hawake
    rw [Hardware.Watchdog.tick_policy, hnow, hawake, Hardware.Watchdog.awaiting, ← hp, ← hst]
    rfl
  · exact (Hardware.Watchdog.tick_interval ..).1.symm

variable {config : Watchdog.Config} {control hierarchy : Bool} {kernel : Kernel}

/-- Every run of the loop of a machine with a watchdog is a run of wake-ups. -/
theorem turns_are_wakeUps (w : World) (j : Json) (config : Watchdog.Config) (control hierarchy : Bool) (kernel : Kernel)
    (ks : List Wake) :
    let m := run w j (boot w .machine (some config) control hierarchy kernel) ks
    m.outcome = none → ∃ ks' : List Wakeup,
      ks'.length = ks.length ∧ Wakes w m ((Pid1.init w hierarchy kernel config).run w ks') := by
  have hrun : ∀ (ks : List Wake) (m : Main) (p : Pid1), Wakes w m p → (run w j m ks).outcome = none →
      ∃ ks' : List Wakeup, ks'.length = ks.length ∧ Wakes w (run w j m ks) (p.run w ks') := by
    intro ks
    induction ks with
    | nil => exact fun m p h _ => ⟨[], rfl, h⟩
    | cons k ks ih =>
      intro m p h ho
      obtain ⟨k', h'⟩ := h.turn (turn_outcome ho)
      obtain ⟨ks', hl, hw⟩ := ih _ _ h' ho
      exact ⟨k' :: ks', congrArg (· + 1) hl, hw⟩
  exact hrun ks _ _ ⟨.refl w _, _, rfl, rfl, rfl⟩

end Main

end Oxinit
