import Oxinit.Proof.Admission
import Oxinit.Proof.Settled

/-!
# Conflicts

`start` stops what a unit excludes before it brings the unit up, and a stop
takes a unit down at once if it runs no process or waits out a backoff. Where
nothing but such units is in the way, and nothing of them is left, no two
services that exclude each other are up or have a process together, and what
is excluded does not come back.
-/

namespace Oxinit

/-- `u` and `v` are distinct, and one is named in the other's `conflicts`. -/
def Manager.Excludes (m : Manager) (u v : Name) : Prop :=
  u ≠ v ∧ ((∃ i, m.instances[u]? = some i ∧ v ∈ i.unit.deps.conflicts) ∨
    ∃ j, m.instances[v]? = some j ∧ u ∈ j.unit.deps.conflicts)

/-- Whether a process is in the unit's cgroup, or is its main process. -/
def Kernel.runs (k : Kernel) (unit : Name) : Bool :=
  k.live.any fun p => p.cgroup = some unit || p.main = some unit

/-- What a service excludes is down when it is started, as far as it runs a
process, and has no process left. No process enters the cgroup of a unit that
has none, and when units are reloaded, those that are idle have none. -/
def unopposed (e : Call × Machine) : Bool :=
  match e.1 with
  | .start u => e.2.shuttingDown || (e.2.serviceOf u).isNone || (e.2.conflictingWith u).all fun v =>
      v = u || ((e.2.serviceOf v).isNone || e.2.isDown v) && !e.2.kernel.runs v
  | .world (.migrate _ (some v)) => e.2.kernel.runs v
  | .request .reload => e.2.kernel.live.all fun p => p.cgroup.all e.2.busy && p.main.all e.2.busy
  | _ => true

def Unopposed (l : List (Call × Machine)) : Prop := ∀ e ∈ l, unopposed e = true

instance (l : List (Call × Machine)) : Decidable (Unopposed l) :=
  inferInstanceAs (Decidable (∀ e ∈ l, unopposed e = true))

/-- When a process was forked for a unit, what the unit excludes was
`Inactive` or `Failed` and had no process; and while a service is up, a
service that it excludes is, and runs no process. -/
structure Exclusive (s : Supervisor) : Prop where
  spawn : ∀ u m, (Call.spawn u, m) ∈ s.history → ∀ v, m.Excludes u v →
    m.busy v = false ∧ m.kernel.runs v = false
  alone : ∀ u v i j, s.Excludes u v → s.instances[u]? = some i → s.instances[v]? = some j →
    i.unit.service ≠ none → j.unit.service ≠ none → i.state.down = false → isIdle j.state = true
  main : ∀ u v i j, s.Excludes u v → s.instances[u]? = some i → s.instances[v]? = some j →
    i.child ≠ none → j.child = none
  processes : ∀ u v, s.Excludes u v → s.kernel.runs u = true → s.kernel.runs v = false

variable {m m' : Manager} {u v : Name}

theorem Manager.Excludes.symm (h : m.Excludes u v) : m.Excludes v u := ⟨h.1.symm, h.2.symm⟩

/-- Units are excluded by what they declare. -/
theorem Manager.Excludes.of_units (h : m'.Excludes u v) (hu : ∀ v, m'.unitOf v = m.unitOf v) : m.Excludes u v := by
  have hget : ∀ {a b : Name}, (∃ i, m'.instances[a]? = some i ∧ b ∈ i.unit.deps.conflicts) →
      ∃ i, m.instances[a]? = some i ∧ b ∈ i.unit.deps.conflicts := by
    rintro a b ⟨i, hi, hb⟩
    have := hu a
    rw [unitOf, unitOf, hi, Option.map_some, eq_comm, Option.map_eq_some_iff] at this
    obtain ⟨j, hj, e⟩ := this
    exact ⟨j, hj, e ▸ hb⟩
  exact ⟨h.1, h.2.imp hget hget⟩

theorem Manager.busy_eq_false {i : Instance} (hi : m.instances[v]? = some i) :
    m.busy v = false ↔ isIdle i.state = true := by
  simp [busy, hi]

/-- A start that is unopposed finds its rivals idle and without processes. -/
theorem unopposed_start {m : Machine} (h : unopposed (.start u, m) = true) (hd : m.shuttingDown = false)
    (hsv : m.serviceOf u ≠ none) (v : Name) (hv : v ∈ m.conflictingWith u) (hne : v ≠ u) :
    (m.serviceOf v = none ∨ m.isDown v = true) ∧ m.kernel.runs v = false := by
  simp only [unopposed, hd, Bool.false_or, Bool.or_eq_true, Option.isNone_iff_eq_none, List.all_eq_true,
    decide_eq_true_eq, Bool.and_eq_true, Bool.not_eq_true'] at h
  exact (h.resolve_left hsv v hv).resolve_left hne

/-! ## What stops at once -/

namespace Supervisor

variable {w : World} {s : Supervisor} {name : Name}

/-- A stop leaves nothing of this unit. -/
def Yields (v : Name) (s : Supervisor) : Prop :=
  ∀ i, s.instances[v]? = some i → i.unit.service = none ∨ i.state.down = true

theorem stop_busy (h : Yields v s) : (stop w v .requested s).busy v = false := by
  cases hi : s.instances[v]? with
  | none => simp [Manager.busy, stop_get_none hi]
  | some i =>
    obtain ⟨i', hi', h'⟩ := stop_get_self (w := w) (c := .requested) hi
    rw [Manager.busy_eq_false hi']
    cases h' with
    | cancelled hs => rw [Instance.cancelRestart_state hs]; rfl
    | instant t _ hsv => exact Instance.instant_idle _ _ hsv
    | already hsv hs =>
      rcases (h i hi).resolve_left (by simp [hsv]) with hd
      rcases hs with hs | hs | hs <;> rw [hs] at hd ⊢ <;> first | rfl | cases hd
    | terminated hsv hs =>
      have hd := (h i hi).resolve_left (by simp [hsv])
      rcases hs with hs | hs <;> rw [hs] at hd <;> cases hd

theorem foldl_stop_busy (l : List Name) (h : Yields v s) (hv : v ∈ l ∨ s.busy v = false) :
    (l.foldl (fun s other => if s.busy other then stop w other .requested s else s) s).busy v = false := by
  induction l generalizing s with
  | nil => exact hv.resolve_left (by simp)
  | cons n l ih =>
    rw [List.foldl_cons]
    by_cases e : n = v
    · subst e
      split
      · have hb := stop_busy (w := w) h
        refine ih (fun i hi => .inr (State.down_of_idle ?_)) (.inr hb)
        exact (Manager.busy_eq_false hi).mp hb
      · rename_i hb
        exact ih h (.inr (eq_false_of_ne_true hb))
    · have hv : v ∈ l ∨ s.busy v = false := hv.imp_left fun hv => (List.mem_cons.mp hv).resolve_left (Ne.symm e)
      split
      · have he : (stop w n .requested s).instances[v]? = s.instances[v]? := stop_get_ne e
        refine ih (fun i hi => h i (he ▸ hi)) (hv.imp_right fun hb => ?_)
        rw [Manager.busy, he]
        exact hb
      · exact ih h hv

/-- What a unit excludes is idle once it has been stopped. -/
theorem exclude_busy (h : ∀ v ∈ s.conflictingWith name, v ≠ name → Yields v s)
    (hv : (exclude w name s).Excludes name v) : (exclude w name s).busy v = false := by
  have hx := hv.of_units (exclude_chores w name s).kept.units
  have hmem := Manager.mem_conflictingWith.mpr hx.2
  exact foldl_stop_busy _ (h v hmem hx.1.symm) (.inl hmem)

end Supervisor

/-! ## Runs -/

/-- No two services that exclude each other are up, and none was when a
process was forked. -/
structure Apart (s : Supervisor) : Prop where
  childless : s.Units fun _ => Instance.Childless
  plain : s.Units fun _ => Instance.Plain
  spawn : ∀ u m, (Call.spawn u, m) ∈ s.history → ∀ v, m.Excludes u v → m.busy v = false
  alone : ∀ u v i j, s.Excludes u v → s.instances[u]? = some i → s.instances[v]? = some j →
    i.unit.service ≠ none → j.unit.service ≠ none → i.state.down = false → isIdle j.state = true

variable {w : World} {s s' : Supervisor}

/-- A unit with a process is a service, and up. -/
theorem Apart.of_child (h : Apart s) {i : Instance} (hi : s.instances[u]? = some i) (hc : i.child ≠ none) :
    i.unit.service ≠ none ∧ i.state.down = false :=
  ⟨fun hsv => hc (h.plain u i hi hsv).1, eq_false_of_ne_true fun hd => hc (h.childless u i hi hd)⟩

/-- Of two rivals one has no main process. -/
theorem Apart.main (h : Apart s) {i j : Instance} (hx : s.Excludes u v) (hi : s.instances[u]? = some i)
    (hj : s.instances[v]? = some j) (hc : i.child ≠ none) : j.child = none := by
  by_contra hc'
  obtain ⟨hsi, hup⟩ := h.of_child hi hc
  obtain ⟨hsj, hup'⟩ := h.of_child hj hc'
  have hd := State.down_of_idle (h.alone u v i j hx hi hj hsi hsj hup)
  exact absurd (hd.symm.trans hup') (by decide)

/-- An act keeps rivals apart, if what it raises has none that is busy. -/
theorem Acted.apart {c : Option Call} (h : Acted c s s') (hs : Apart s)
    (hq : ∀ u, Call.raised c = some u → s.serviceOf u ≠ none → ∀ v, s.Excludes u v → s.busy v = false) :
    Apart s' := by
  have he := h.effect
  have hq : ∀ u, c = some (.spawn u) → ∀ v, s.Excludes u v → s.busy v = false := by
    intro u hc
    obtain ⟨i, hi, hsv⟩ := (hc ▸ he).spawn_get
    exact hq u (by rw [hc]; rfl) (by simpa [Manager.serviceOf, Manager.unitOf, hi] using hsv)
  refine ⟨he.units Change.childless hs.childless, he.units Change.plain hs.plain, fun u m hm => ?_,
    fun u v i' j' hx hi' hj' hsi hsj hup => ?_⟩
  · refine h.log (p := fun e => ∀ u, e.1 = .spawn u → ∀ v, e.2.Excludes u v → e.2.busy v = false)
      (fun e he u hu => hs.spawn u e.2 (hu ▸ he)) (fun e he u hu => by simp [hu, Call.isWorld] at he)
      (fun c' m hc hm' u hu v hx => ?_) _ hm u rfl
    subst hu
    rw [hm'] at hx ⊢
    exact hq u hc v hx
  · have hx := hx.of_units he.kept.units
    have hu : c = some (.spawn u) ∨ ∃ i, s.instances[u]? = some i ∧ i.unit.service ≠ none ∧ i.state.down = false := by
      rcases he.change u with e | ⟨i, k, hi, hk, hch⟩
      · exact .inr ⟨i', e ▸ hi', hsi, hup⟩
      · cases hk.symm.trans hi'
        by_cases hc : c = some (.spawn u)
        · exact .inl hc
        · refine .inr ⟨i, hi, he.kept.unit_eq hi hk ▸ hsi, eq_false_of_ne_true fun hd => ?_⟩
          have := (hch.service_stays_down (hs.childless u i hi) hd hsi hc).1
          exact absurd (this.symm.trans hup) (by decide)
    -- `v` is idle before, and nothing brings it up.
    have hv : ∀ j, s.instances[v]? = some j → j.unit.service ≠ none → isIdle j.state = true := by
      intro j hj hsv
      rcases hu with hc | ⟨i, hi, hsi, hup⟩
      · exact (Manager.busy_eq_false hj).mp (hq u hc v hx)
      · exact hs.alone u v i j hx hi hj hsi hsv hup
    have hc : c ≠ some (.spawn v) := by
      intro hc
      rcases hu with hu | ⟨i, hi, hsi, hup⟩
      · cases hc.symm.trans hu
        exact hx.1 rfl
      · have := (Manager.busy_eq_false hi).mp (hq v hc u hx.symm)
        exact absurd ((State.down_of_idle this).symm.trans hup) (by decide)
    rcases he.change v with e | ⟨j, k, hj, hk, hch⟩
    · exact hv j' (e ▸ hj') hsj
    · cases hk.symm.trans hj'
      have hid := hv j hj (he.kept.unit_eq hj hk ▸ hsj)
      exact (hch.service_stays_down (hs.childless v j hj) (State.down_of_idle hid) hsj hc).2 hid

theorem Apart.insertUnit {name : Name} {unit : Unit} (hs : Apart s) : Apart (s.update (·.insertUnit name unit)) := by
  have hget : ∀ v i, (s.insertUnit name unit).instances[v]? = some i →
      i = Instance.new unit ∨ name ≠ v ∧ s.instances[v]? = some i := by
    intro v i hi
    rw [Manager.get_insertUnit] at hi
    split at hi
    · cases hi
      exact .inl rfl
    · exact .inr ⟨‹_›, hi⟩
  refine ⟨fun v i hi => ?_, fun v i hi => ?_, hs.spawn, fun u v i j hx hi hj hsi hsj hup => ?_⟩
  · rcases hget v i hi with rfl | ⟨-, hi⟩
    · exact fun _ => rfl
    · exact hs.childless v i hi
  · rcases hget v i hi with rfl | ⟨-, hi⟩
    · exact .of_idle rfl rfl
    · exact hs.plain v i hi
  · rcases hget u i hi with rfl | ⟨hu, hi'⟩
    · cases hup
    · rcases hget v j hj with rfl | ⟨hv, hj'⟩
      · rfl
      · refine hs.alone u v i j ⟨hx.1, ?_⟩ hi' hj' hsi hsj hup
        rcases hx.2 with ⟨k, hk, hc⟩ | ⟨k, hk, hc⟩
        · cases hk.symm.trans hi
          exact .inl ⟨i, hi', hc⟩
        · cases hk.symm.trans hj
          exact .inr ⟨j, hj', hc⟩

theorem Apart.keep {p : Name → Instance → Bool} (hs : Apart s) : Apart (s.update (·.keep p)) := by
  refine ⟨fun v i hi => hs.childless v i (Manager.get_of_keep hi), fun v i hi => hs.plain v i (Manager.get_of_keep hi),
    hs.spawn, fun u v i j hx hi hj =>
      hs.alone u v i j ⟨hx.1, hx.2.imp ?_ ?_⟩ (Manager.get_of_keep hi) (Manager.get_of_keep hj)⟩
  · exact fun ⟨i, hi, hc⟩ => ⟨i, Manager.get_of_keep hi, hc⟩
  · exact fun ⟨j, hj, hc⟩ => ⟨j, Manager.get_of_keep hj, hc⟩

theorem apart_admits (w : World) :
    Admits w (unopposed · = true) (fun u m => m.serviceOf u ≠ none → ∀ v, m.Excludes u v → m.busy v = false)
      Apart where
  queued hierarchy kernel := by
    refine ⟨Supervisor.queued_units (fun _ _ _ => rfl) w hierarchy kernel,
      Supervisor.queued_units (fun _ _ _ => ⟨rfl, .inl rfl⟩) w hierarchy kernel, fun u m hm => ?_,
      fun u v i j hx hi hj hsi hsj hup => ?_⟩
    · cases Supervisor.queued_log w hierarchy kernel _ hm
    · rw [(Supervisor.queued_fresh w hierarchy kernel).inst u i hi] at hup
      cases hup
  act h hs hq := h.apart hs hq
  start {s u} hs hd hok hsv v hv := by
    have hsv : s.serviceOf u ≠ none := by
      rwa [Manager.serviceOf, (Supervisor.exclude_chores w u (s.note (.start u))).kept.units] at hsv
    refine Supervisor.exclude_busy (fun v hv hne i hi => ?_) hv
    have := (unopposed_start hok hd hsv v hv hne).1
    simpa [Manager.serviceOf, Manager.unitOf, Manager.isDown, show s.instances[v]? = some i from hi] using this
  update hs h := by
    have hget := fun v : Name => congrArg (·[v]?) h
    exact ⟨fun v i hi => hs.childless v i (hget v ▸ hi), fun v i hi => hs.plain v i (hget v ▸ hi), hs.spawn,
      fun u v i j hx hi hj => hs.alone u v i j (hx.of_units fun v => by rw [Manager.unitOf, Manager.unitOf, ← h]; rfl)
        (hget u ▸ hi) (hget v ▸ hj)⟩
  insert hs _ := hs.insertUnit
  keep hs := hs.keep

/-! ## Processes -/

namespace Kernel

variable {k : Kernel}

/-- What runs for a unit: a process in its cgroup, or its main process. -/
theorem runs_iff : k.runs u = true ↔ ∃ p ∈ k.live, p.cgroup = some u ∨ p.main = some u := by
  simp [runs]

theorem runs_of_live {k' : Kernel} (h : k'.live = k.live) : k'.runs u = k.runs u := by
  rw [runs, runs, h]

theorem AtBoot.runs (h : k.AtBoot) (u : Name) : k.runs u = false := by
  refine eq_false_of_ne_true fun hu => ?_
  obtain ⟨p, hp, hu⟩ := runs_iff.mp hu
  rw [(h.unowned p hp).1, (h.unowned p hp).2] at hu
  exact hu.elim nofun nofun

/-- A unit has a process that had none only if one is moved to its cgroup. -/
theorem runs_move {mv : Move} (h : (k.move mv).runs u = true) :
    k.runs u = true ∨ ∃ pid, mv = .migrate pid (some u) := by
  obtain ⟨p, hp, hu⟩ := runs_iff.mp h
  rcases mem_next hp with ⟨q, hq, -, hmain, hc | hmv⟩ | ⟨-, hmain, q, hq, hc⟩
  · exact .inl (runs_iff.mpr ⟨q, hq, by rwa [hc, hmain] at hu⟩)
  · rcases hu with hu | hu
    · exact .inr ⟨q.pid, by rw [hmv, hu]⟩
    · exact .inl (runs_iff.mpr ⟨q, hq, .inr (hmain ▸ hu)⟩)
  · rcases hu with hu | hu
    · exact .inl (runs_iff.mpr ⟨q, hq, .inl (hc ▸ hu)⟩)
    · cases hmain.symm.trans hu

theorem runs_spawn {placed : Bool} (h : (k.spawn u placed).runs v = true) : v = u ∨ k.runs v = true := by
  obtain ⟨p, hp, hv⟩ := runs_iff.mp h
  rcases List.mem_cons.mp (show p ∈ _ :: k.live from hp) with rfl | hp
  · refine .inl ?_
    rcases hv with hv | hv
    · cases placed <;> cases hv
      rfl
    · exact (Option.some.inj hv).symm
  · exact .inr (runs_iff.mpr ⟨p, hp, hv⟩)

end Kernel

/-- The units that had no process have none, if `Unopposed`. -/
structure Thins (s s' : Supervisor) : Prop where
  grows : s.history <:+ s'.history
  runs : Unopposed s'.history → ∀ v, s'.kernel.runs v = true → s.kernel.runs v = true

namespace Thins

theorem refl (s : Supervisor) : Thins s s := ⟨List.suffix_rfl, fun _ _ h => h⟩

theorem trans {s₁ : Supervisor} (h₁ : Thins s s₁) (h₂ : Thins s₁ s') : Thins s s' :=
  ⟨h₁.grows.trans h₂.grows, fun hok v hv => h₁.runs (fun e he => hok e (h₂.grows.mem he)) v (h₂.runs hok v hv)⟩

theorem of_live (hh : s.history <:+ s'.history) (hk : s'.kernel.live = s.kernel.live) : Thins s s' :=
  ⟨hh, fun _ _ hv => (Kernel.runs_of_live hk).symm.trans hv⟩

theorem world (s : Supervisor) (mv : Move) : Thins s (s.world mv) := by
  refine ⟨List.suffix_cons .., fun hok v hv => ?_⟩
  rcases Kernel.runs_move hv with hv | ⟨pid, rfl⟩
  · exact hv
  · exact hok _ (List.mem_cons_self ..)

theorem moves (s : Supervisor) (mvs : List Move) : Thins s (s.moves mvs) := by
  induction mvs generalizing s with
  | nil => exact .refl s
  | cons mv mvs ih => exact (world s mv).trans (ih _)

theorem turn (w : World) (s : Supervisor) : Thins s (s.turn w) := by
  obtain ⟨hh, hr⟩ := moves s (w s.ticks).moves
  exact ⟨hh, hr⟩

/-- The world starts no process of its own. -/
theorem outer (w : World) (s : Supervisor) : Supervisor.Outer w (Thins s) where
  turn h := h.trans (turn w _)
  note h := h.trans (of_live (List.suffix_cons ..) rfl)
  update h := h.trans (of_live List.suffix_rfl rfl)

end Thins

/-- Calls before a process is forked or a unit is replaced, and the fork. -/
def Call.opens : Call → Bool
  | .start _ | .spawn _ | .request .reload => true
  | _ => false

theorem Call.opens_of_isWorld {c : Call} (h : c.isWorld = true) : c.opens = false := by
  cases c <;> first | rfl | cases h

theorem Last.of_append {e : Call × Machine} {new : List (Call × Machine)} (h : Last s' e)
    (hn : s'.history = new ++ s.history) (he : e ∉ new) : Last s e := by
  rw [Last, hn, List.find?_append] at h
  cases hf : new.find? fun x => !x.1.isStop with
  | none => rwa [hf, Option.none_or] at h
  | some x =>
    rw [hf, Option.some_or] at h
    exact absurd (Option.some.inj h ▸ List.mem_of_find?_eq_some hf) he

/-- No two units that exclude each other have processes, and none had when one
was forked: what a unit excludes has none since `start` was called, and what
was idle when a reload was asked for has none since. -/
structure Separate (s : Supervisor) : Prop where
  spawn : ∀ u m, (Call.spawn u, m) ∈ s.history → ∀ v, m.Excludes u v → m.kernel.runs v = false
  start : ∀ u m, Last s (.start u, m) → m.shuttingDown = false → s.serviceOf u ≠ none →
    ∀ v, s.Excludes u v → s.kernel.runs v = false
  reload : ∀ m, Last s (.request .reload, m) → ∀ v, m.busy v = false → s.kernel.runs v = false
  processes : ∀ u v, s.Excludes u v → s.kernel.runs u = true → s.kernel.runs v = false

theorem unitOf_modify {name : Name} {f : Instance → Instance}
    (hf : ∀ i, m.instances[name]? = some i → (f i).unit = i.unit) (v : Name) :
    (m.modify name f).unitOf v = m.unitOf v := by
  rw [Manager.unitOf, Manager.get_modify]
  split
  · rename_i e
    subst e
    cases hi : m.instances[name]? with
    | none => simp [Manager.unitOf, hi]
    | some i => simp [Manager.unitOf, hi, hf i hi]
  · rfl

namespace Separate

variable {name : Name}

theorem queued {hierarchy : Bool} {kernel : Kernel} (hk : kernel.AtBoot)
    (hok : Unopposed (Supervisor.queued w hierarchy kernel).history) :
    Separate (Supervisor.queued w hierarchy kernel) := by
  have hruns : ∀ v, (Supervisor.queued w hierarchy kernel).kernel.runs v = false := by
    intro v
    have hl := (Thins.outer w { cgroups := { hierarchy }, kernel }).load hierarchy (.refl _)
    refine eq_false_of_ne_true fun hv => ?_
    exact absurd ((hl.runs hok v hv).symm.trans (hk.runs v)) (by decide)
  refine ⟨fun u m hm => ?_, fun u m _ _ _ v _ => hruns v, fun m _ v _ => hruns v, fun u v _ _ => hruns v⟩
  cases Supervisor.queued_log w hierarchy kernel _ hm

/-- Nothing is started and no unit is replaced. -/
theorem frame (h : Separate s) (ht : Thins s s') (hok : Unopposed s'.history) (hu : ∀ v, s'.unitOf v = s.unitOf v)
    (new : List (Call × Machine)) (hn : s'.history = new ++ s.history) (hnew : ∀ e ∈ new, e.1.opens = false) :
    Separate s' := by
  have hlast : ∀ {c : Call} {m : Machine}, c.opens = true → Last s' (c, m) → Last s (c, m) := fun hc hl =>
    hl.of_append hn fun hm => by cases (hnew _ hm).symm.trans hc
  have hruns : ∀ {v}, s.kernel.runs v = false → s'.kernel.runs v = false := fun hv =>
    eq_false_of_ne_true fun hv' => by cases (ht.runs hok _ hv').symm.trans hv
  refine ⟨fun u m hm v hx => ?_, fun u m hl hd hsv v hx => hruns ?_,
    fun m hl v hb => hruns (h.reload m (hlast rfl hl) v hb),
    fun u v hx hr => hruns (h.processes u v (hx.of_units hu) (ht.runs hok u hr))⟩
  · rw [hn] at hm
    rcases List.mem_append.mp hm with hm | hm
    · cases hnew _ hm
    · exact h.spawn u m hm v hx
  · rw [Manager.serviceOf, hu] at hsv
    exact h.start u m (hlast rfl hl) hd hsv v (hx.of_units hu)

/-- A unit that changes without a new process stays separate. -/
theorem modify {f : Instance → Instance} (h : Separate s) (hok : Unopposed s.history)
    (hf : ∀ i, s.instances[name]? = some i → (f i).unit = i.unit) : Separate (s.modify name f) :=
  h.frame (.of_live List.suffix_rfl rfl) hok (unitOf_modify hf) [] rfl (List.forall_mem_nil _)

theorem note {c : Call} (h : Separate s) (hok : Unopposed (s.note c).history) (hc : c.opens = false) :
    Separate (s.note c) :=
  h.frame (.of_live (List.suffix_cons ..) rfl) hok (fun _ => rfl) [(c, s.toMachine)] rfl (by simpa using hc)

/-- What `start` is called for excludes nothing that has a process. -/
theorem started (h : Separate s) (hok : unopposed (.start name, s.toMachine) = true) :
    Separate (s.note (.start name)) := by
  refine ⟨fun u m hm v hx => ?_, fun u m hl hd hsv v hx => ?_, fun m hl => ?_, h.processes⟩
  · exact h.spawn u m (List.mem_of_ne_of_mem (by simp) hm) v hx
  · cases Option.some.inj ((Last.note s (.start name) rfl).symm.trans hl)
    exact (unopposed_start hok hd hsv v (Manager.mem_conflictingWith.mpr hx.2) hx.1.symm).2
  · cases (Last.note s (.start name) rfl).symm.trans hl

/-- What is idle has no process. -/
theorem reloads (h : Separate s) (hok : unopposed (.request .reload, s.toMachine) = true) :
    Separate (s.note (.request .reload)) := by
  refine ⟨fun u m hm v hx => ?_, fun u m hl => ?_, fun m hl v hb => ?_, h.processes⟩
  · exact h.spawn u m (List.mem_of_ne_of_mem (by simp) hm) v hx
  · cases (Last.note s (.request .reload) rfl).symm.trans hl
  · cases Option.some.inj ((Last.note s (.request .reload) rfl).symm.trans hl)
    simp only [unopposed, List.all_eq_true, Bool.and_eq_true] at hok
    refine eq_false_of_ne_true fun hv => ?_
    obtain ⟨p, hp, hv⟩ := Kernel.runs_iff.mp hv
    have := hok p hp
    rcases hv with hv | hv <;> simp [hv, show s.busy v = false from hb] at this

/-- A process that is forked unopposed has no rival's beside it. -/
theorem spawned {i : Instance} {service : Service} {m : Machine} {placed : Bool} (h : Separate s)
    (hi : s.instances[name]? = some i) (hsv : i.unit.service = some service) (hl : Last s (.start name, m))
    (hd : m.shuttingDown = false) :
    Separate (((s.note (.spawn name)).onKernel (·.spawn name placed)).modify name
      (Instance.enteredActivating s.kernel.nextPid)) := by
  have hne : s.serviceOf name ≠ none := by simp [Manager.serviceOf, Manager.unitOf, hi, hsv]
  have hfree := h.start name m hl hd hne
  refine ⟨fun u m' hm v hx => ?_, fun u m' hl' => ?_, fun m' hl' => ?_, fun u v hx hr => ?_⟩
  · rcases List.mem_cons.mp hm with e | hm
    · cases e
      exact hfree v hx
    · exact h.spawn u m' hm v hx
  · cases (Last.note s (.spawn name) rfl).symm.trans hl'
  · cases (Last.note s (.spawn name) rfl).symm.trans hl'
  · have hx : s.Excludes u v := hx.of_units (unitOf_modify (m := s.toManager) fun _ _ => rfl)
    refine eq_false_of_ne_true fun hr' => ?_
    rcases Kernel.runs_spawn hr with eu | hr
    · rcases Kernel.runs_spawn hr' with ev | hr'
      · exact hx.1 (eu.trans ev.symm)
      · cases (hfree v (eu ▸ hx)).symm.trans hr'
    · rcases Kernel.runs_spawn hr' with ev | hr'
      · cases (hfree u (ev ▸ hx.symm)).symm.trans hr
      · cases (h.processes u v hx hr).symm.trans hr'

/-- A unit that a reload replaces was idle, and had no process. -/
theorem insertUnit {unit : Unit} {m : Machine} (h : Separate s) (hl : Last s (.request .reload, m))
    (hb : m.busy name = false) : Separate (s.update (·.insertUnit name unit)) := by
  have hfree := h.reload m hl name hb
  refine ⟨h.spawn, fun u m' hl' => ?_, h.reload, fun u v hx hr => ?_⟩
  · cases hl.symm.trans hl'
  by_cases hv : name = v
  · exact hv ▸ hfree
  · have hu : name ≠ u := fun e => by cases (e ▸ hfree : s.kernel.runs u = false).symm.trans hr
    refine h.processes u v ⟨hx.1, ?_⟩ hr
    have hx := hx.2
    rwa [Supervisor.update_toManager, Manager.get_insertUnit, if_neg hu, Manager.get_insertUnit, if_neg hv] at hx

theorem keep {p : Name → Instance → Bool} (h : Separate s) : Separate (s.update (·.keep p)) := by
  have hx : ∀ {u v : Name}, (s.keep p).Excludes u v → s.Excludes u v := fun hx =>
    ⟨hx.1, hx.2.imp (fun ⟨i, hi, hc⟩ => ⟨i, Manager.get_of_keep hi, hc⟩)
      fun ⟨j, hj, hc⟩ => ⟨j, Manager.get_of_keep hj, hc⟩⟩
  refine ⟨h.spawn, fun u m hl hd hsv v hv => h.start u m hl hd (fun e => hsv ?_) v (hx hv), h.reload,
    fun u v hv hr => h.processes u v (hx hv) hr⟩
  rw [Manager.serviceOf, Manager.unitOf] at e ⊢
  cases hi : (s.keep p).instances[u]? with
  | none => rw [Supervisor.update_toManager, hi]; rfl
  | some i =>
    rw [Manager.get_of_keep hi] at e
    rw [Supervisor.update_toManager, hi]
    exact e

/-- Every stride keeps rivals separate. -/
theorem stride {event : Event} (h : Separate s) (hok : Unopposed s'.history) (hs : Stride w event s s') :
    Separate s' := by
  have hlive : ∀ {f : Kernel → Kernel}, (f s.kernel).live = s.kernel.live → Unopposed s.history →
      Separate (s.onKernel f) := fun hk hok =>
    h.frame (.of_live List.suffix_rfl hk) hok (fun _ => rfl) [] rfl (List.forall_mem_nil _)
  cases hs with
  | turn =>
    obtain ⟨new, hn, hm, -⟩ := Supervisor.turn_log w s
    exact h.frame (.turn w s) hok (fun v => by rw [Supervisor.turn_toManager]) new hn fun e he =>
      Call.opens_of_isWorld (Call.isWorld_of_isMove (hm e he))
  | signal | reaped | drained => exact hlive rfl hok
  | read => exact hlive (Kernel.read_live ..).1 hok
  | @note c hc =>
    cases c with
    | start u => exact h.started (hok _ (List.mem_cons_self ..))
    | request request =>
      cases request with
      | reload => exact h.reloads (hok _ (List.mem_cons_self ..))
      | _ => exact h.note hok rfl
    | spawn => cases hc
    | _ => exact h.note hok rfl
  | update hi =>
    exact h.frame (.of_live List.suffix_rfl rfl) hok (fun v => by rw [Manager.unitOf, Supervisor.update_toManager, hi]; rfl)
      [] rfl (List.forall_mem_nil _)
  | push | expire =>
    exact h.frame (.of_live List.suffix_rfl rfl) hok (fun _ => rfl) [] rfl (List.forall_mem_nil _)
  | late | hung => exact h.note hok rfl
  | message _ message =>
    have hu := (Supervisor.onMessage_routines w message s).chores.kept.units
    have ht := (Thins.outer w s).onMessage message (.refl s)
    rcases Supervisor.onMessage_cases w message s with e | ⟨name, i, hi, hv⟩
    · rwa [e]
    · obtain ⟨new, hn, hnew⟩ := hv.entries
      refine h.frame ht hok hu new hn fun e he => ?_
      rcases hnew e he with hw | rfl
      · exact Call.opens_of_isWorld hw
      · rfl
  | lower hf => exact h.modify hok fun i hi => (hf i hi).unit
  | finished => exact (h.note hok rfl).modify hok fun _ _ => Instance.deactivated_unit ..
  | spawn hi hsv hl =>
    obtain ⟨m, hl, hd⟩ := hl
    exact h.spawned hi hsv hl hd
  | active | forkedAway => exact h.modify hok fun _ _ => rfl
  | insert _ _ hl =>
    obtain ⟨m, hl, hb⟩ := hl
    exact h.insertUnit hl hb
  | keep => exact h.keep

end Separate

namespace Supervisor

/-- Mutual exclusion: in a run in which whatever a service excludes is down,
as far as it runs a process, and has no process left when the service is started. -/
theorem mutual_exclusion {hierarchy : Bool} {kernel : Kernel} {events : List Event} (hk : kernel.AtBoot)
    (hok : Unopposed (run w (boot w hierarchy kernel) events).history) :
    Exclusive (run w (boot w hierarchy kernel) events) := by
  have hapart := (apart_admits w).reachable ⟨hierarchy, kernel, events, rfl⟩ hok
  have hsep : Separate (run w (boot w hierarchy kernel) events) :=
    guarded_strides hok (Separate.queued hk) fun _ _ _ hok h hs => h.stride hok hs
  exact ⟨fun u m hm v hx => ⟨hapart.spawn u m hm v hx, hsep.spawn u m hm v hx⟩, hapart.alone,
    fun u v i j hx hi hj => hapart.main hx hi hj, hsep.processes⟩

/-- A service that excludes `a`. -/
def rival (name : Name) : Unit := serviceUnit name { conflicts := ["a"] } .simple .no

/-- A service that waits out its backoff is stopped for good by its rival. -/
theorem mutual_exclusion_sample :
    Exclusive (run (movesAt 8 [exits 2]) (booted (movesAt 8 [exits 2])
      [bootTarget ["a"], serviceUnit "a" {} .simple .always, rival "b"]) [.sigchld, .request (.start "b")]) :=
  mutual_exclusion ⟨⟨by simp [holding], by simp [holding]⟩, by simp [holding]⟩ (by decide +kernel)

/-- What a service excludes is still on its way down when the service is forked. -/
theorem rival_starts_before_the_stop_is_over :
    let s := run calm (booted calm [bootTarget ["a"], serviceUnit "a" {} .simple .no, rival "b"]) [.request (.start "b")]
    Reachable calm s ∧ ¬Exclusive s := by
  refine ⟨run_reachable _ _ _, fun h => ?_⟩
  generalize hs : run calm _ _ = s at h
  have hx : "a" ∈ s.conflictingWith "b" := hs ▸ (by decide +kernel)
  have ha : s.kernel.runs "a" = true := hs ▸ (by decide +kernel)
  have hb : s.kernel.runs "b" = true := hs ▸ (by decide +kernel)
  exact absurd ((h.processes "b" "a" ⟨by decide, Manager.mem_conflictingWith.mp hx⟩ hb).symm.trans ha) (by decide)

end Supervisor

end Oxinit
