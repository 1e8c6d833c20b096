import Oxinit.Proof.Calendar
import Oxinit.Proof.Effect

/-!
# Firings

What a schedule arms is the sooner of a delay and the next moment of its
calendar, up to the part of a second that the comparison loses (`Soonest`). A
run of a timer arms it, handles the firing at some later time and arms it
again: `Run.arms` has every run armed with the soonest, and the rest is by
induction over its firings.

Instants are in nanoseconds. `unix_now` is the second that an instant is in.
-/

namespace Oxinit

open Framework
open Duration (asSecs fromSecs)

/-- When a timer fires that is armed at `now`. -/
def Next.instant (now : Nat) : Next → Nat
  | .after delay => now + delay
  | .at moment => fromSecs moment

/-- The instants between which a schedule chooses in the second `now`. -/
def Candidate (delay : Option Nat) (calendar : Option Calendar) (now t : Nat) : Prop :=
  (∃ d, delay = some d ∧ t = fromSecs now + d)
    ∨ ∃ c m, calendar = some c ∧ IsNext c.Names (now + 1) m ∧ t = fromSecs m

/-- Nothing of it is lost where it is compared in seconds. -/
def WholeSeconds (delay : Option Nat) : Prop := ∀ d, delay = some d → fromSecs (asSecs d) = d

/-- What is armed in the second `now` is the sooner of a delay and the next
calendar moment. -/
structure Soonest (delay : Option Nat) (calendar : Option Calendar) (now : Nat) (next : Option Next) : Prop where
  none_iff : next = none ↔ delay = none ∧ calendar = none
  moment : ∀ m, next = some (.at m) → ∃ c, calendar = some c ∧ now < m ∧ IsNext c.Names (now + 1) m
  candidate : ∀ n, next = some n → Candidate delay calendar now (n.instant (fromSecs now))
  early : ∀ n t, next = some n → Candidate delay calendar now t → n.instant (fromSecs now) < t + fromSecs 1
  least : WholeSeconds delay → ∀ n, next = some n →
    IsLeast {t | Candidate delay calendar now t} (n.instant (fromSecs now))

variable {delay : Option Nat} {calendar : Option Calendar} {now m d : Nat}

theorem saturatingAdd_eq {a b : Nat} (h : a + b < 2 ^ 64) : saturatingAdd a b = a + b := Nat.min_eq_left (by omega)

/-- What `sooner` is given is what it chooses between. -/
theorem candidate_iff {f : Calendar → Nat} (hf : ∀ c, calendar = some c → IsNext c.Names (now + 1) (f c)) {t : Nat} :
    Candidate delay calendar now t ↔
      (∃ d, delay = some d ∧ t = fromSecs now + d) ∨ ∃ m, calendar.map f = some m ∧ t = fromSecs m := by
  refine or_congr_right ⟨?_, ?_⟩
  · rintro ⟨c, m, rfl, hm, rfl⟩
    exact ⟨m, by rw [Option.map_some, (hf c rfl).unique hm], rfl⟩
  · rintro ⟨m, hm, rfl⟩
    obtain ⟨c, rfl, rfl⟩ := Option.map_eq_some_iff.mp hm
    exact ⟨c, f c, rfl, hf c rfl, rfl⟩

theorem Soonest.of_some {n : Next} (hne : delay = none → calendar ≠ none)
    (hmoment : ∀ m, n = .at m → ∃ c, calendar = some c ∧ now < m ∧ IsNext c.Names (now + 1) m)
    (hn : Candidate delay calendar now (n.instant (fromSecs now)))
    (hearly : ∀ t, Candidate delay calendar now t → n.instant (fromSecs now) < t + fromSecs 1)
    (hleast : WholeSeconds delay → ∀ t, Candidate delay calendar now t → n.instant (fromSecs now) ≤ t) :
    Soonest delay calendar now (some n) where
  none_iff := iff_of_false (by simp) fun h => hne h.1 h.2
  moment m h := hmoment m (by simpa using h)
  candidate n' h := by
    cases h
    exact hn
  early n' t h := by
    cases h
    exact hearly t
  least hw n' h := by
    cases h
    exact ⟨hn, hleast hw⟩

/-- Comparing with the saturated sum compares with the sum. -/
theorem saturatingAdd_le_iff {a b : Nat} (h : m < 2 ^ 64 - 1) : saturatingAdd a b ≤ m ↔ a + b ≤ m := by
  unfold saturatingAdd
  omega

/-- `sooner` answers the earlier of the two, up to the second they are compared in. -/
theorem sooner_soonest {f : Calendar → Nat} (hf : ∀ c, calendar = some c → IsNext c.Names (now + 1) (f c))
    (hlt : ∀ c, calendar = some c → f c < 2 ^ 64 - 1) :
    Soonest delay calendar now (Schedule.sooner delay (calendar.map f) now) := by
  have hmoment : ∀ m, calendar.map f = some m →
      m < 2 ^ 64 - 1 ∧ ∃ c, calendar = some c ∧ now < m ∧ IsNext c.Names (now + 1) m := by
    intro m hm
    obtain ⟨c, hc, rfl⟩ := Option.map_eq_some_iff.mp hm
    exact ⟨hlt c hc, c, hc, (hf c hc).le, hf c hc⟩
  have hcand : ∀ t, Candidate delay calendar now t ↔ _ := fun _ => candidate_iff hf
  cases delay with
  | none =>
    cases hm : calendar.map f with
    | none =>
      have hc : calendar = none := Option.map_eq_none_iff.mp hm
      exact ⟨by simp [Schedule.sooner, hc], by simp [Schedule.sooner], by simp [Schedule.sooner],
        by simp [Schedule.sooner], by simp [Schedule.sooner]⟩
    | some m =>
      obtain ⟨hlt, hnext⟩ := hmoment m hm
      have hone : ∀ t, Candidate none calendar now t ↔ t = fromSecs m := fun t => by simpa [hm] using hcand t
      refine .of_some (fun _ hc => by simp [hc] at hm) (fun _ h => by cases h; exact hnext) ((hone _).mpr rfl) ?_ ?_
      · intro t ht
        rw [(hone t).mp ht]
        exact Nat.lt_add_of_pos_right (by decide)
      · intro _ t ht
        exact ((hone t).mp ht).ge
  | some d =>
    cases hm : calendar.map f with
    | none =>
      have hone : ∀ t, Candidate (some d) calendar now t ↔ t = fromSecs now + d := fun t => by simpa [hm] using hcand t
      refine .of_some (by simp) (by rintro _ ⟨⟩) ((hone _).mpr rfl) ?_ ?_
      · intro t ht
        rw [(hone t).mp ht]
        exact Nat.lt_add_of_pos_right (by decide)
      · intro _ t ht
        exact ((hone t).mp ht).ge
    | some m =>
      obtain ⟨hlt, hnext⟩ := hmoment m hm
      have htwo : ∀ t, Candidate (some d) calendar now t ↔ t = fromSecs now + d ∨ t = fromSecs m := fun t => by
        simpa [hm] using hcand t
      simp only [Schedule.sooner, saturatingAdd_le_iff hlt]
      split
      · -- The part of a second that the comparison has lost is all that the moment can be earlier by.
        refine .of_some (by simp) (by rintro _ ⟨⟩) ((htwo _).mpr (.inl rfl)) ?_ ?_
        · intro t ht
          have ht := (htwo t).mp ht
          simp only [Next.instant, fromSecs, asSecs] at *
          omega
        · intro hw t ht
          have ht := (htwo t).mp ht
          have hw := hw d rfl
          simp only [Next.instant, fromSecs, asSecs] at *
          omega
      · refine .of_some (by simp) (fun _ h => by cases h; exact hnext) ((htwo _).mpr (.inr rfl)) ?_ ?_
        · intro t ht
          have ht := (htwo t).mp ht
          simp only [Next.instant, fromSecs, asSecs] at *
          omega
        · intro hw t ht
          have ht := (htwo t).mp ht
          simp only [Next.instant, fromSecs, asSecs] at *
          omega

/-! ## Runs -/

/-- One firing of a timer. -/
structure Firing where
  armed : Next
  due : Nat
  handled : Nat
  deriving DecidableEq

/-- A run of a timer that is started at `start`: its firings, when the last of
them was handled, and what is armed then. -/
inductive Schedule.Run (s : Schedule) (start : Nat) : List Firing → Nat → Option Next → Prop
  | start : Run s start [] start (s.first (asSecs start))
  | fire {fs now n handled} (h : Run s start fs now (some n)) (hdue : n.instant now ≤ handled) :
      Run s start (fs ++ [{ armed := n, due := n.instant now, handled }]) handled (s.next (asSecs handled))

/-- The clock stays so far from the end of `u64` that the calendar can be asked. -/
def Representable (start : Nat) (fs : List Firing) : Prop :=
  ∀ t ∈ start :: fs.map (·.handled), asSecs t + 8 * day < 2 ^ 64

instance (start : Nat) (fs : List Firing) : Decidable (Representable start fs) :=
  inferInstanceAs (Decidable (∀ t ∈ start :: fs.map (·.handled), asSecs t + 8 * day < 2 ^ 64))

theorem Representable.of_append {start : Nat} {fs : List Firing} {f : Firing} (h : Representable start (fs ++ [f])) :
    Representable start fs := by
  refine fun t ht => h t ?_
  rw [List.map_append, ← List.cons_append]
  exact List.mem_append_left _ ht

namespace Schedule

variable {s : Schedule} {start now : Nat} {fs : List Firing} {pending : Option Next}

/-- The calendar's moment is the least one after `now`. -/
theorem calendarAt_spec (hv : ∀ c, s.calendar = some c → c.Valid) (h : now + 8 * day < 2 ^ 64) :
    s.calendarAt now = s.calendar.map (·.nextAt (now + 1)) ∧
      ∀ c, s.calendar = some c → c.checkedNextAt (now + 1) = some (c.nextAt (now + 1))
        ∧ IsNext c.Names (now + 1) (c.nextAt (now + 1)) ∧ c.nextAt (now + 1) < 2 ^ 64 - 1 := by
  have hday : day = 86400 := rfl
  refine ⟨by rw [calendarAt, saturatingAdd_eq (by omega)], fun c hc => ?_⟩
  have hvc := hv c hc
  refine ⟨Calendar.checkedNextAt_eq hvc (by omega), Calendar.nextAt_isNext hvc _, ?_⟩
  have hlt := (Calendar.nextAt_spec hvc (now + 1)).2.1
  have hp := c.period_le
  omega

/-- After a firing the soonest is armed. -/
theorem next_soonest (hv : ∀ c, s.calendar = some c → c.Valid) (h : now + 8 * day < 2 ^ 64) :
    Soonest s.interval s.calendar now (s.next now) := by
  obtain ⟨hat, hnext⟩ := calendarAt_spec hv h
  rw [next, hat]
  exact sooner_soonest (fun c hc => (hnext c hc).2.1) fun c hc => (hnext c hc).2.2

theorem first_soonest (hv : ∀ c, s.calendar = some c → c.Valid) (h : now + 8 * day < 2 ^ 64) :
    Soonest (s.onBoot <|> s.interval) s.calendar now (s.first now) := by
  obtain ⟨hat, hnext⟩ := calendarAt_spec hv h
  rw [first, hat]
  exact sooner_soonest (fun c hc => (hnext c hc).2.1) fun c hc => (hnext c hc).2.2

/-- A run is armed with the soonest, after each firing as at its start. -/
theorem Run.arms (hr : s.Run start fs now pending) (hv : ∀ c, s.calendar = some c → c.Valid)
    (hrep : Representable start fs) :
    ∃ delay, Soonest delay s.calendar (asSecs now) pending
      ∧ (WholeSeconds s.onBoot → WholeSeconds s.interval → WholeSeconds delay) := by
  cases hr with
  | start =>
    refine ⟨_, first_soonest hv (hrep start (List.mem_cons_self ..)), fun hb hi d hd => ?_⟩
    cases hob : s.onBoot with
    | none => exact hi d (by simpa [hob] using hd)
    | some b => exact hb d (by simpa [hob] using hd)
  | fire h hdue => exact ⟨_, next_soonest hv (hrep _ (by simp)), fun _ hi => hi⟩

end Schedule

/-! ## What a firing is late by -/

variable {n : Next} {c : Calendar}

theorem Soonest.now_le_instant (h : Soonest delay calendar (asSecs now) (some n)) : now ≤ n.instant now := by
  cases n with
  | after d => exact Nat.le_add_right _ _
  | «at» m =>
    obtain ⟨-, -, hm, -⟩ := h.moment m rfl
    simp only [Next.instant, fromSecs, asSecs] at *
    omega

/-- The delay is counted from within a second, and not from its start. -/
theorem Next.instant_lt (n : Next) (now : Nat) : n.instant now < n.instant (fromSecs (asSecs now)) + fromSecs 1 := by
  cases n with
  | after d =>
    simp only [Next.instant, fromSecs, asSecs]
    omega
  | «at» m => exact Nat.lt_add_of_pos_right (by decide)

/-- The next moment of the calendar is met, or another firing is armed before it. -/
theorem Soonest.meets (h : Soonest delay calendar (asSecs now) pending) (hc : calendar = some c) (hm : c.Names m)
    (hlt : asSecs now < m) :
    ∃ n, pending = some n ∧ n.instant now < fromSecs (m + 2)
      ∧ (WholeSeconds delay → n.instant now < fromSecs (m + 1)) := by
  obtain ⟨t, hnext, htm⟩ : ∃ t, IsNext c.Names (asSecs now + 1) t ∧ t ≤ m := IsNext.exists_le hlt hm
  have ht : Candidate delay calendar (asSecs now) (fromSecs t) := .inr ⟨c, t, hc, hnext, rfl⟩
  obtain ⟨n, rfl⟩ : ∃ n, pending = some n :=
    Option.ne_none_iff_exists'.mp fun hnone => by
      have hnil := (h.none_iff.mp hnone).2
      simp [hc] at hnil
  have hn := n.instant_lt now
  refine ⟨n, rfl, ?_, fun hw => ?_⟩
  · have hearly := h.early n _ rfl ht
    simp only [fromSecs] at *
    omega
  · have hle := (h.least hw n rfl).2 ht
    simp only [fromSecs] at *
    omega

/-! ## What a run leaves out -/

/-- A moment that a run has come to is met by a firing, less than `slack`
seconds and its handling delay after it; one that it has not come to is met by
what is armed. -/
def Met (m slack : Nat) (fs : List Firing) (now : Nat) (pending : Option Next) : Prop :=
  (∃ f ∈ fs, m ≤ asSecs f.handled ∧ f.due < fromSecs (m + slack) ∧ f.due ≤ f.handled)
    ∨ ∃ n, pending = some n ∧ asSecs now < m ∧ n.instant now < fromSecs (m + slack)

namespace Schedule

variable {s : Schedule} {start : Nat} {fs : List Firing}

/-- Each firing is handled before the next one is armed, and for no moment but its own. -/
theorem Run.once (hr : s.Run start fs now pending) (hv : ∀ c, s.calendar = some c → c.Valid)
    (hrep : Representable start fs) :
    (∀ f ∈ fs, f.handled ≤ now ∧ ∀ m, f.armed = .at m → m ≤ asSecs f.handled) ∧
      fs.Pairwise fun f g => ∀ m, g.armed = .at m → asSecs f.handled < m ∧ f.armed ≠ .at m := by
  induction hr with
  | start => exact ⟨by simp, .nil⟩
  | @fire fs now n handled h hdue ih =>
    obtain ⟨hpast, honce⟩ := ih hrep.of_append
    obtain ⟨delay, hs, -⟩ := h.arms hv hrep.of_append
    have hnow : now ≤ handled := Nat.le_trans hs.now_le_instant hdue
    refine ⟨fun f hf => ?_, List.pairwise_append.mpr ⟨honce, List.pairwise_singleton .., fun f hf g hg m hg' => ?_⟩⟩
    · rcases List.mem_append.mp hf with hf | hf
      · exact ⟨Nat.le_trans (hpast f hf).1 hnow, (hpast f hf).2⟩
      · cases List.mem_singleton.mp hf
        refine ⟨Nat.le_refl _, fun m hn => ?_⟩
        cases (show n = .at m from hn)
        simp only [Next.instant, fromSecs, asSecs] at *
        omega
    · cases List.mem_singleton.mp hg
      obtain ⟨-, -, hm, -⟩ := hs.moment m (congrArg some hg')
      obtain ⟨hf, hown⟩ := hpast f hf
      have hlt : asSecs f.handled < m := Nat.lt_of_le_of_lt (Nat.div_le_div_right hf) hm
      exact ⟨hlt, fun he => Nat.not_le_of_lt hlt (hown m he)⟩

/-- If what is armed meets the next moment, no moment is left out. -/
theorem Run.met_of {slack : Nat} (hr : s.Run start fs now pending) (hlt : asSecs start < m)
    (hrep : Representable start fs)
    (harm : ∀ {fs now pending}, s.Run start fs now pending → Representable start fs → asSecs now < m →
      ∃ n, pending = some n ∧ n.instant now < fromSecs (m + slack)) : Met m slack fs now pending := by
  have hahead : ∀ {fs now pending}, s.Run start fs now pending → Representable start fs → asSecs now < m →
      Met m slack fs now pending := fun hr hrep hlt =>
    have ⟨n, hn, hin⟩ := harm hr hrep hlt
    .inr ⟨n, hn, hlt, hin⟩
  induction hr with
  | start => exact hahead .start hrep hlt
  | @fire fs now n handled h hdue ih =>
    rcases ih hrep.of_append with ⟨f, hf, hmet⟩ | ⟨n', hn, -, hin⟩
    · exact .inl ⟨f, List.mem_append_left _ hf, hmet⟩
    · cases hn
      by_cases hm : m ≤ asSecs handled
      · exact .inl ⟨_, List.mem_append_right _ (List.mem_singleton_self _), hm, hin, hdue⟩
      · exact hahead (.fire h hdue) hrep (Nat.lt_of_not_le hm)

/-- Every moment that the calendar names is met. -/
theorem Run.met (hr : s.Run start fs now pending) (hv : ∀ c, s.calendar = some c → c.Valid)
    (hrep : Representable start fs) (hc : s.calendar = some c) (hm : c.Names m) (hlt : asSecs start < m) :
    Met m 2 fs now pending ∧ (WholeSeconds s.onBoot → WholeSeconds s.interval → Met m 1 fs now pending) := by
  refine ⟨hr.met_of hlt hrep fun hr hrep hlt => ?_, fun hb hi => hr.met_of hlt hrep fun hr hrep hlt => ?_⟩
  · obtain ⟨delay, hs, -⟩ := hr.arms hv hrep
    obtain ⟨n, hn, hin, -⟩ := hs.meets hc hm hlt
    exact ⟨n, hn, hin⟩
  · obtain ⟨delay, hs, hw⟩ := hr.arms hv hrep
    obtain ⟨n, hn, -, hin⟩ := hs.meets hc hm hlt
    exact ⟨n, hn, hin (hw hb hi)⟩

/-- A schedule fires on the soonest of its halves, and never twice for one moment. -/
theorem fires_on_the_soonest (hs : ∀ c, s.calendar = some c → ∃ text, Calendar.parse text = .ok c) :
    (∀ now, now + 8 * day < 2 ^ 64 →
      (∀ c, s.calendar = some c → c.checkedNextAt (now + 1) = s.calendarAt now)
        ∧ Soonest s.interval s.calendar now (s.next now)
        ∧ Soonest (s.onBoot <|> s.interval) s.calendar now (s.first now)) ∧
      ∀ start fs now pending, s.Run start fs now pending → Representable start fs →
        (fs.Pairwise fun f g => ∀ m, g.armed = .at m → asSecs f.handled < m ∧ f.armed ≠ .at m) ∧
          ∀ c m, s.calendar = some c → c.Names m → asSecs start < m →
            Met m 2 fs now pending
              ∧ (WholeSeconds s.onBoot → WholeSeconds s.interval → Met m 1 fs now pending) := by
  have hv : ∀ c, s.calendar = some c → c.Valid := fun c hc => (hs c hc).elim fun _ => Calendar.valid_of_parse
  refine ⟨fun now hnow => ⟨fun c hc => ?_, next_soonest hv hnow, first_soonest hv hnow⟩, ?_⟩
  · obtain ⟨hat, hnext⟩ := calendarAt_spec hv hnow
    rw [(hnext c hc).1, hat, hc, Option.map_some]
  · intro start fs now pending hr hrep
    exact ⟨(hr.once hv hrep).2, fun c m hc hm hlt => hr.met hv hrep hc hm hlt⟩

/-- Every 2000 seconds, and on the hour. -/
def mixed : Schedule := { interval := some (fromSecs 2000), calendar := some .hourly }

/-- It fires after its interval, and then on the hour. -/
theorem fires_on_the_soonest_sample :
    let fs : List Firing :=
      [⟨.after (fromSecs 2000), fromSecs 2000, fromSecs 2000⟩, ⟨.at 3600, fromSecs 3600, fromSecs 3600⟩]
    Soonest (some (fromSecs 2000)) (some .hourly) 0 (mixed.next 0) ∧
      (fs.Pairwise fun f g => ∀ m, g.armed = .at m → asSecs f.handled < m ∧ f.armed ≠ .at m) ∧
        Met 3600 2 fs (fromSecs 3600) (some (.after (fromSecs 2000))) := by
  intro fs
  obtain ⟨hnext, hrun⟩ := fires_on_the_soonest (s := mixed) (by rintro c ⟨⟩; exact ⟨"hourly", by decide⟩)
  have h₀ : mixed.Run 0 [] 0 (some (.after (fromSecs 2000))) := .start
  have h₁ := h₀.fire (show _ ≤ fromSecs 2000 by decide)
  rw [show mixed.next (asSecs (fromSecs 2000)) = some (.at 3600) by decide] at h₁
  have hr := h₁.fire (show _ ≤ fromSecs 3600 by decide)
  rw [show mixed.next (asSecs (fromSecs 3600)) = some (.after (fromSecs 2000)) by decide] at hr
  obtain ⟨honce, hmet⟩ := hrun 0 fs _ _ hr (by decide)
  exact ⟨(hnext 0 (by decide)).2.1, honce, (hmet .hourly 3600 rfl (by decide) (by decide)).1⟩

/-- Started late in a second, a delay that is not of whole seconds is armed for
later than the comparison had it: the moment 3600 is met after 1.998 seconds.
At the end of `u64` there is no next moment. -/
theorem fires_after_more_than_a_second :
    (∃ s start fs now pending, Run s start fs now pending ∧ s.calendar = some .hourly
        ∧ Calendar.Names .hourly 3600 ∧ asSecs start < 3600 ∧ 3600 ≤ asSecs now
        ∧ ∀ f ∈ fs, f.handled = f.due ∧ fromSecs 3601 ≤ f.due) ∧
      Calendar.checkedNextAt .hourly (saturatingAdd (2 ^ 64 - 1) 1) = none := by
  have hstart : Run { interval := some 1999000000, calendar := some .hourly } 3599999000000 [] 3599999000000
      (some (.after 1999000000)) := by
    have hfirst : first { interval := some 1999000000, calendar := some .hourly } (asSecs 3599999000000)
        = some (.after 1999000000) := by decide
    exact hfirst ▸ .start
  have hrun := hstart.fire (show _ ≤ 3601998000000 by decide)
  exact ⟨⟨_, _, _, _, _, hrun, rfl, by decide, by decide, by decide, by decide⟩, by decide⟩

end Schedule

end Oxinit
