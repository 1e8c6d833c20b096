import Oxinit.Model.Kernel

/-!
# What the kernel keeps

The world moves and oxinit forks, signals and reads its socket, and a process
that is alive or waits to be reaped still is, and a cgroup that has a process
in it or a notification pending still has one of the two (`Drifts`). Only a
reap and a read of `cgroup.events` end that.
-/

namespace Oxinit.Kernel

/-- The clock goes forward and epoll watches the same cgroups. -/
structure Later (k k' : Kernel) : Prop where
  now : k.now ≤ k'.now
  watched : k'.watched = k.watched

/-- A process that is alive, or has exited and is not reaped. -/
def Known (k : Kernel) (pid : Pid) : Prop := k.alive pid = true ∨ ∃ status, (pid, status) ∈ k.zombies

/-- A cgroup that has a process in it, or a notification pending. -/
def Noticed (k : Kernel) (unit : Name) : Prop := k.populated unit = true ∨ unit ∈ k.notices

structure Drifts (k k' : Kernel) : Prop extends Later k k' where
  nextPid : k.nextPid ≤ k'.nextPid
  known : ∀ {pid}, k.Known pid → k'.Known pid
  noticed : ∀ {unit}, k.Noticed unit → k'.Noticed unit

variable {k k₁ k₂ : Kernel}

theorem Later.refl (k : Kernel) : Later k k := ⟨Nat.le_refl _, rfl⟩

theorem Later.trans (h₁ : Later k k₁) (h₂ : Later k₁ k₂) : Later k k₂ :=
  ⟨h₁.now.trans h₂.now, h₂.watched.trans h₁.watched⟩

namespace Drifts

theorem refl (k : Kernel) : Drifts k k := ⟨.refl k, Nat.le_refl _, id, id⟩

theorem trans (h₁ : Drifts k k₁) (h₂ : Drifts k₁ k₂) : Drifts k k₂ :=
  ⟨h₁.toLater.trans h₂.toLater, h₁.nextPid.trans h₂.nextPid, fun h => h₂.known (h₁.known h),
    fun h => h₂.noticed (h₁.noticed h)⟩

end Drifts

/-- A process is alive if it is among the living. -/
theorem alive_iff {pid : Pid} : k.alive pid = true ↔ ∃ p ∈ k.live, p.pid = pid := by
  simp [alive]

/-- A cgroup is populated if a living process is in it or below it. -/
theorem populated_iff {unit : Name} : k.populated unit = true ↔ ∃ p ∈ k.live, p.cgroup = some unit := by
  simp [populated]

/-- Nothing goes unnoticed that `notify` has seen. -/
theorem notify_noticed {unit : Name} (hn : k₁.notices = k.notices) (h : k.Noticed unit) :
    (k.notify k₁).Noticed unit := by
  by_cases hp : k₁.populated unit = true
  · exact .inl hp
  · refine .inr (Finset.mem_union.mpr ?_)
    rcases h with h | h
    · obtain ⟨p, hp', hc⟩ := populated_iff.mp h
      have hmem : unit ∈ (k.live ++ k₁.live).filterMap (·.cgroup) :=
        List.mem_filterMap.mpr ⟨p, List.mem_append_left _ hp', hc⟩
      exact .inr (Finset.mem_filter.mpr ⟨List.mem_toFinset.mpr hmem, by rw [h]; exact Ne.symm hp⟩)
    · exact .inl (hn ▸ h)

/-- To tell epoll of a change changes nothing else. -/
theorem notify_drifts (h : Later k k₁) (hp : k.nextPid ≤ k₁.nextPid) (hk : ∀ {pid}, k.Known pid → k₁.Known pid)
    (hn : k₁.notices = k.notices) : Drifts k (k.notify k₁) :=
  ⟨⟨h.now, h.watched⟩, hp, hk, notify_noticed hn⟩

theorem next_drifts (k : Kernel) (mv : Move) : Drifts k (k.notify (k.next mv)) := by
  cases mv with
  | pass d => exact notify_drifts ⟨Nat.le_add_right .., rfl⟩ (Nat.le_refl _) id rfl
  | setWall | datagram | edit => exact notify_drifts ⟨Nat.le_refl _, rfl⟩ (Nat.le_refl _) id rfl
  | fork parent =>
    simp only [next]
    split
    · exact notify_drifts (.refl k) (Nat.le_refl _) id rfl
    · refine notify_drifts ⟨Nat.le_refl _, rfl⟩ (Nat.le_succ _) (fun h => h.imp_left fun h => ?_) rfl
      obtain ⟨p, hp, e⟩ := alive_iff.mp h
      exact alive_iff.mpr ⟨p, List.mem_cons_of_mem _ hp, e⟩
  | migrate pid cgroup =>
    refine notify_drifts ⟨Nat.le_refl _, rfl⟩ (Nat.le_refl _) (fun h => h.imp_left fun h => ?_) rfl
    obtain ⟨p, hp, e⟩ := alive_iff.mp h
    refine alive_iff.mpr ⟨_, List.mem_map_of_mem hp, ?_⟩
    split <;> exact e
  | exit pid status =>
    simp only [next]
    split
    · refine notify_drifts ⟨Nat.le_refl _, rfl⟩ (Nat.le_refl _) (fun {q} h => ?_) rfl
      rcases h with h | ⟨st, h⟩
      · obtain ⟨p, hp, e⟩ := alive_iff.mp h
        by_cases hq : q = pid
        · exact .inr ⟨status, List.mem_append_right _ (by simp [hq])⟩
        · exact .inl (alive_iff.mpr ⟨p, List.mem_filter.mpr ⟨hp, by simpa [e] using hq⟩, e⟩)
      · exact .inr ⟨st, List.mem_append_left _ h⟩
    · exact notify_drifts (.refl k) (Nat.le_refl _) id rfl

/-- The world's moves let the kernel drift. -/
theorem move_drifts (k : Kernel) (mv : Move) : Drifts k (k.move mv) := next_drifts k mv

theorem spawn_drifts (k : Kernel) (unit : Name) (placed : Bool) : Drifts k (k.spawn unit placed) := by
  refine notify_drifts ⟨Nat.le_refl _, rfl⟩ (Nat.le_succ _) (fun h => h.imp_left fun h => ?_) rfl
  obtain ⟨p, hp, e⟩ := alive_iff.mp h
  exact alive_iff.mpr ⟨p, List.mem_cons_of_mem _ hp, e⟩

/-- A process that has been forked is known, and its pid is new. -/
theorem spawn_known (k : Kernel) (unit : Name) (placed : Bool) :
    (k.spawn unit placed).Known k.nextPid ∧ k.nextPid < (k.spawn unit placed).nextPid :=
  ⟨.inl (alive_iff.mpr ⟨_, List.mem_cons_self .., rfl⟩), Nat.lt_succ_self _⟩

theorem signal_drifts (k : Kernel) (pids : List Pid) (sig : Signal) : Drifts k (k.signal pids sig) :=
  ⟨⟨Nat.le_refl _, rfl⟩, Nat.le_refl _, id, id⟩

theorem drained_drifts (k : Kernel) : Drifts k k.drained := ⟨⟨Nat.le_refl _, rfl⟩, Nat.le_refl _, id, id⟩

theorem reaped_later (k : Kernel) : Later k k.reaped := ⟨Nat.le_refl _, rfl⟩

theorem read_later (k : Kernel) (id : Nat) (unit : Name) : Later k (k.read id unit) := by
  simp only [read]
  split <;> exact ⟨Nat.le_refl _, rfl⟩

theorem read_live (k : Kernel) (id : Nat) (unit : Name) :
    (k.read id unit).live = k.live ∧ (k.read id unit).zombies = k.zombies ∧ (k.read id unit).nextPid = k.nextPid := by
  simp only [read]
  split <;> exact ⟨rfl, rfl, rfl⟩

/-- Only the cgroup that is read may go unnoticed. -/
theorem read_noticed {id : Nat} {unit u : Name} (hu : unit ≠ u) (h : k.Noticed u) : (k.read id unit).Noticed u := by
  refine h.imp (fun h => ?_) fun h => ?_
  · rwa [populated, (read_live k id unit).1]
  · simp only [read]
    split
    · exact Finset.mem_erase.mpr ⟨hu.symm, h⟩
    · exact h

end Oxinit.Kernel
