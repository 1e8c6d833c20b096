import Oxinit.Proof.Rest

/-!
# What holds when a unit comes up

A unit comes up in `start` only, once what it excludes has been stopped. So an
invariant that relies on something when a unit comes up (`Q`) holds of every
run in which each call of `start` finds what `Q` then follows from:
`Admits.reachable`.
-/

namespace Oxinit

open Relation (ReflTransGen)

/-- Every act keeps `I` if what comes up in it satisfies `Q`, which is so when
its start satisfies `ok`. -/
structure Admits (w : World) (ok : Call × Machine → Prop) (Q : Name → Manager → Prop) (I : Supervisor → Prop) :
    Prop where
  queued : ∀ hierarchy kernel, I (Supervisor.queued w hierarchy kernel)
  act : ∀ {c s s'}, Acted c s s' → I s → (∀ u, Call.raised c = some u → Q u s.toManager) → I s'
  start : ∀ {s u}, I s → s.shuttingDown = false → ok (.start u, s.toMachine) →
    Q u (Supervisor.exclude w u (s.note (.start u))).toManager
  update : ∀ {s f}, I s → (f s.toManager).instances = s.instances → I (s.update f)
  insert : ∀ {s name unit}, I s → (s.instances[name]? = none ∨ s.idle name = true) →
    I (s.update (·.insertUnit name unit))
  keep : ∀ {s p}, I s → I (s.update (·.keep p))

theorem Call.raised_of_begins {c : Option Call} (h : Call.begins c = none) : Call.raised c = none := by
  rcases c with _ | c
  · rfl
  · cases c <;> first | rfl | cases h

namespace Admits

variable {w : World} {ok : Call × Machine → Prop} {Q : Name → Manager → Prop} {I : Supervisor → Prop}
  {s s' : Supervisor} {name : Name}

/-- An act that begins no unit keeps the invariant. -/
theorem plain (ha : Admits w ok Q I) {c : Option Call} (h : Acted c s s') (hI : I s) (hc : Call.begins c = none) :
    I s' :=
  ha.act h hI fun u hu => by simp [Call.raised_of_begins hc] at hu

theorem chores (ha : Admits w ok Q I) (h : Chores s s') (hI : I s) : I s' :=
  Framework.invariant (fun hI ⟨_, h, hc⟩ => ha.plain h hI (Call.begins_of_isChore hc)) h hI

/-- A start that is admitted keeps it. -/
theorem started (ha : Admits w ok Q I) (hI : I s) (hok : ∀ e ∈ (Supervisor.start w name s).history, ok e) :
    I (Supervisor.start w name s) := by
  have h₁ : I (s.note (.start name)) := ha.act (Acted.mark (c := .start name) rfl s) hI (by simp [Call.raised])
  by_cases hd : s.shuttingDown = true
  · rwa [Supervisor.start_goingDown w name hd]
  · have hd := eq_false_of_ne_true hd
    have hx := Supervisor.exclude_chores w name (s.note (.start name))
    rcases Supervisor.start_raised w name hd with ⟨-, e⟩ | hr
    · rw [e]
      exact ha.chores hx h₁
    · have hmem : (Call.start name, s.toMachine) ∈ (Supervisor.start w name s).history :=
        (Acts.grows (hx.acts.trans hr.acts)).mem (List.mem_cons_self ..)
      have hQ := ha.start hI hd (hok _ hmem)
      obtain ⟨c, s₁, hst, hm, h, hc⟩ := hr
      refine ha.act h (ha.plain (.still hst hm) (ha.chores hx h₁) rfl) fun u hu => ?_
      rw [hm]
      rcases hc with rfl | rfl | rfl | rfl <;> cases hu <;> exact hQ

/-- A turn of `pump` keeps it, if what it starts is admitted. -/
theorem pumpTurn (ha : Admits w ok Q I) (hI : I s) (hd : s.shuttingDown = false) (h : s.nextStartable = some name)
    (hok : ∀ e ∈ (Supervisor.pumpTurn w name s).history, ok e) : I (Supervisor.pumpTurn w name s) := by
  have h₁ := ha.act (Acted.call (c := .pump name) (f := (·.dequeue name)) rfl (.pump hd h)) hI
    fun u hu => by cases hu
  simp only [Supervisor.pumpTurn] at hok ⊢
  split
  · exact ha.plain (Supervisor.fail_act name _) h₁ rfl
  · rename_i hf
    simp only [hf] at hok
    exact ha.started h₁ hok

/-- What one alarm or event does keeps it. -/
theorem deed (ha : Admits w ok Q I) {a : Option Alarm} (h : Deed w a s s') (hI : I s) (hok : ∀ e ∈ s'.history, ok e) :
    I s' := by
  cases h with
  | act h hc => exact ha.plain h hI (Call.begins_of_isChore (Call.isChore_of_isRoutine hc))
  | fail => exact ha.plain (Supervisor.fail_act _ s) hI rfl
  | finish hi hs => exact ha.plain (Supervisor.endStop_act hi hs) hI rfl
  | @fire c _ _ h hc hne =>
    cases a with
    | none => exact absurd rfl hne
    | some a => exact ha.plain h hI (Call.begins_of_alarm hc)
  | pump hd h => exact ha.pumpTurn hI hd h hok
  | start => exact ha.started hI hok
  | await _ _ _ _ _ hi hs =>
    refine ha.act (Acted.call rfl (.awaitRestart hi hs)) hI fun u hu => ?_
    cases hu
  | again hi hs hp =>
    have h₁ := ha.plain (Supervisor.endStop_act (w := w) hi hs) hI rfl
    have h₂ := ha.plain (Acted.now (f := (·.takeRestart _)) rfl (.takeRestart hp (Supervisor.endStop_over hi))) h₁ rfl
    exact ha.started (ha.plain (Acted.mark (c := .again _) rfl _) h₂ rfl) hok

theorem deeds (ha : Admits w ok Q I) {a : Option Alarm} (h : Deeds w a s s') (hI : I s) (hok : ∀ e ∈ s'.history, ok e) :
    I s' :=
  Framework.Grows.invariant (fun h => h.acts.grows) (fun hok hI h => ha.deed h hI hok) h hok hI

theorem tour (ha : Admits w ok Q I) {r : Bool} (h : Tour w r s s') (hI : I s) (hok : ∀ e ∈ s'.history, ok e) :
    I s' := by
  cases h with
  | deed h => exact ha.deed h hI hok
  | expire | expireWall | lose | addHandle => exact ha.update hI rfl
  | @alarm e rest => exact ha.deeds (Supervisor.onAlarm_deeds w e.alarm _) (ha.update (f := (·.setFired rest)) hI rfl) hok
  | shutdown hd =>
    obtain ⟨s₁, h₁, -, h₂⟩ := Supervisor.beginShutdown_chores w _ hd
    exact ha.chores h₂ (ha.update (ha.chores h₁ hI) rfl)
  | insert _ h => exact ha.insert hI h
  | keep => exact ha.keep hI

theorem reachable (ha : Admits w ok Q I) (hr : Supervisor.Reachable w s) (hok : ∀ e ∈ s.history, ok e) : I s :=
  hr.guarded hok ha.queued fun hok hI ht => ha.tour ht hI hok

end Admits

end Oxinit
