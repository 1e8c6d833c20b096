import Oxinit.Framework.Runs
import Oxinit.Model.Watchdog
import Mathlib.Data.List.Chain

/-!
# The device is fed on time, and the verdict on the boot is final

`nextWake` and `tick` come to the same deadlines by different ways. `Timely`
says that the times a policy remembers are past; from it, what a tick does is
read off `nextWake`. That writes are not too far apart is then an invariant of
the runs that tick when told to. The verdict on the boot is a function of the
ticks made so far, and before it falls on `overdue` the policy does what one
without a boot deadline does.
-/

namespace Oxinit.Watchdog

open Framework (Each)

variable {config : Config} {p : Policy} {c : Course} {now t u d : Nat} {booted : Bool}

namespace Policy

/-! ## One tick -/

/-- What is due, once the verdict has been looked at. -/
def duty (now : Nat) (p : Policy) : Action :=
  if !p.isOpen then if p.due p.lastTry now then .open else .nothing
  else if p.boot = .overdue then .nothing
  else if p.due p.lastPet now then .pet
  else .nothing

/-- An action is recorded as done. -/
def done (now : Nat) (p : Policy) : Action → Policy
  | .nothing => p
  | .open => { p with lastTry := some now }
  | .pet => { p with lastPet := some now }

/-- A tick judges the boot, and then does its duty. -/
theorem tick_eq :
    p.tick now booted =
      let q := (p.updateBoot now booted).2
      (⟨q.duty now, (p.updateBoot now booted).1⟩, q.done now (q.duty now)) := by
  unfold tick duty
  dsimp only
  repeat' first | rfl | split

theorem updateBoot_of_settled (h : p.boot ≠ .pending) : p.updateBoot now booted = (none, p) := by
  unfold updateBoot
  rw [if_pos h]

/-- The verdict is the only thing that moves, and it moves with an event. -/
theorem updateBoot_cases (p : Policy) (now : Nat) (booted : Bool) :
    p.updateBoot now booted = (none, p) ∨ ∃ e b, p.updateBoot now booted = (some e, { p with boot := b }) := by
  unfold updateBoot
  repeat' first | exact .inl rfl | exact .inr ⟨_, _, rfl⟩ | split

/-- To judge the boot changes nothing else. -/
theorem updateBoot_snd (p : Policy) (now : Nat) (booted : Bool) :
    ∃ b, (p.updateBoot now booted).2 = { p with boot := b } := by
  rcases updateBoot_cases p now booted with h | ⟨e, b, h⟩
  · exact ⟨p.boot, by rw [h]⟩
  · exact ⟨b, by rw [h]⟩

theorem updateBoot_eq_none : (p.updateBoot now booted).1 = none ↔ p.updateBoot now booted = (none, p) := by
  rcases updateBoot_cases p now booted with h | ⟨e, b, h⟩ <;> simp [h]

@[simp] theorem done_boot {a : Action} : (p.done now a).boot = p.boot := by cases a <;> rfl
@[simp] theorem done_config {a : Action} : (p.done now a).config = p.config := by cases a <;> rfl
@[simp] theorem done_isOpen {a : Action} : (p.done now a).isOpen = p.isOpen := by cases a <;> rfl
@[simp] theorem done_interval {a : Action} : (p.done now a).interval = p.interval := by cases a <;> rfl
@[simp] theorem done_shuttingDown {a : Action} : (p.done now a).shuttingDown = p.shuttingDown := by
  cases a <;> rfl

/-! ## Deadlines -/

/-- What is remembered is past. -/
structure Timely (now : Nat) (p : Policy) : Prop where
  lastPet : ∀ last ∈ p.lastPet, last ≤ now
  lastTry : ∀ last ∈ p.lastTry, last ≤ now

theorem Timely.mono (h : p.Timely now) (ht : now ≤ t) : p.Timely t :=
  ⟨fun l hl => (h.lastPet l hl).trans ht, fun l hl => (h.lastTry l hl).trans ht⟩

/-- When what was last done at `last` is due. -/
def dueAt (now : Nat) (p : Policy) (last : Option Nat) : Nat := last.elim now (· + p.interval)

/-- When a write is due. -/
theorem due_iff {last : Option Nat} (h : ∀ l ∈ last, l ≤ now) (ht : now ≤ t) :
    p.due last t ↔ p.dueAt now last ≤ t := by
  cases last with
  | none => simpa [due, dueAt] using ht
  | some last =>
    have := h last rfl
    simp only [due, dueAt, Option.all_some, decide_eq_true_eq, Option.elim_some]
    omega

def deviceDeadline (now : Nat) (p : Policy) : Option Nat :=
  if !p.isOpen then some (p.dueAt now p.lastTry)
  else if p.boot ≠ .overdue then some (p.dueAt now p.lastPet)
  else none

def bootDeadline (p : Policy) : Option Nat :=
  match p.boot, p.shuttingDown, p.config.boot with
  | .pending, false, some boot => some boot.within
  | _, _, _ => none

def deadlines (now : Nat) (p : Policy) : List Nat := (p.deviceDeadline now).toList ++ p.bootDeadline.toList

/-- The wait is up to the first of the deadlines. -/
theorem nextWake_eq : p.nextWake now = ((p.deadlines now).map (· - now)).min? := by
  have hd : (if !p.isOpen then consider now none (p.lastTry.elim now (· + p.interval))
      else if p.boot ≠ .overdue then consider now none (p.lastPet.elim now (· + p.interval)) else none)
      = (p.deviceDeadline now).map (· - now) := by
    unfold deviceDeadline
    repeat' first | rfl | split
  have hb : p.nextWake now
      = p.bootDeadline.elim ((p.deviceDeadline now).map (· - now))
        (consider now ((p.deviceDeadline now).map (· - now))) := by
    unfold nextWake bootDeadline
    rw [hd]
    cases p.boot <;> cases p.shuttingDown <;> cases p.config.boot <;> rfl
  rw [hb]
  unfold deadlines
  cases p.deviceDeadline now <;> cases p.bootDeadline <;> rfl

/-- When the boot has a deadline. -/
theorem bootDeadline_eq_some :
    p.bootDeadline = some d ↔ p.boot = .pending ∧ p.shuttingDown = false ∧ ∃ boot ∈ p.config.boot, boot.within = d := by
  unfold bootDeadline
  split <;> simp_all

theorem duty_eq_nothing (h : p.Timely t) (hu : t ≤ u) :
    p.duty u = .nothing ↔ ∀ d ∈ p.deviceDeadline t, u < d := by
  unfold duty deviceDeadline
  have hl := due_iff (p := p) h.lastTry hu
  have hp := due_iff (p := p) h.lastPet hu
  cases p.isOpen with
  | false => by_cases hd : p.due p.lastTry u <;> simp_all
  | true =>
    by_cases hb : p.boot = .overdue
    · simp [hb]
    · by_cases hd : p.due p.lastPet u <;> simp_all

theorem updateBoot_quiet : p.updateBoot u false = (none, p) ↔ ∀ d ∈ p.bootDeadline, u < d := by
  rw [← updateBoot_eq_none]
  unfold updateBoot
  constructor
  · intro h d hd
    obtain ⟨hb, hs, boot, hc, rfl⟩ := bootDeadline_eq_some.mp hd
    rw [Option.mem_def] at hc
    by_contra hu
    simp [hb, hs, hc, not_lt.mp hu] at h
  · intro h
    by_cases hb : p.boot = .pending
    · cases hc : p.config.boot with
      | none => simp [hb]
      | some boot =>
        have : ¬((!p.shuttingDown) = true ∧ boot.within ≤ u) := fun ⟨hs, hu⟩ =>
          absurd (h _ (bootDeadline_eq_some.mpr ⟨hb, by simpa using hs, boot, hc, rfl⟩)) (not_lt.mpr hu)
        simp only [hb, ne_eq, not_true_eq_false, ↓reduceIte, Bool.false_eq_true, this]
    · simp [hb]

/-- Before every deadline nothing is done. -/
theorem tick_quiet (h : p.Timely t) (hu : t ≤ u) (hd : ∀ d ∈ p.deadlines t, u < d) :
    p.tick u false = (⟨.nothing, none⟩, p) := by
  have hb : p.updateBoot u false = (none, p) :=
    updateBoot_quiet.mpr fun d hd' => hd d (List.mem_append_right _ (by simpa using hd'))
  have ha : p.duty u = .nothing :=
    (duty_eq_nothing h hu).mpr fun d hd' => hd d (List.mem_append_left _ (by simpa using hd'))
  rw [tick_eq, hb]
  dsimp only
  rw [ha]
  rfl

/-- And at a deadline something is. -/
theorem lt_of_tick_quiet (h : p.Timely t) (hu : t ≤ u) (ha : (p.tick u booted).1 = ⟨.nothing, none⟩) :
    ∀ d ∈ p.deadlines t, u < d := by
  rw [tick_eq] at ha
  simp only [Tick.mk.injEq] at ha
  have hb := updateBoot_eq_none.mp ha.2
  rw [hb] at ha
  intro d hd
  rcases List.mem_append.mp hd with hd | hd
  · exact (duty_eq_nothing h hu).mp ha.1 d (by simpa using hd)
  · cases booted with
    | false => exact updateBoot_quiet.mp hb d (by simpa using hd)
    | true =>
      obtain ⟨hp, -, -⟩ := bootDeadline_eq_some.mp (Option.mem_toList.mp hd)
      simp [updateBoot, hp] at hb

theorem nextWake_eq_none : p.nextWake now = none ↔ p.isOpen ∧ p.boot = .overdue := by
  rw [nextWake_eq, List.min?_eq_none_iff, List.map_eq_nil_iff]
  unfold deadlines deviceDeadline
  cases ho : p.isOpen <;> by_cases hb : p.boot = .overdue <;> simp [hb]
  simp [bootDeadline, hb]

/-- Before it there is nothing. -/
theorem lt_deadline (h : p.nextWake now = some d) (hl : now ≤ u) (hu : u < now + d) : ∀ e ∈ p.deadlines now, u < e := by
  rw [nextWake_eq, List.min?_eq_some_iff] at h
  intro e he
  have := h.2 _ (List.mem_map_of_mem (f := (· - now)) he)
  omega

/-- After the wait there is something to do. -/
theorem exists_deadline_le (h : p.nextWake now = some d) : ∃ e ∈ p.deadlines now, e ≤ now + d := by
  rw [nextWake_eq, List.min?_eq_some_iff] at h
  obtain ⟨e, he, rfl⟩ := List.mem_map.mp h.1
  exact ⟨e, he, by omega⟩

/-- When the device is to be written to. -/
theorem duty_eq_pet : p.duty now = .pet ↔ p.isOpen ∧ p.boot ≠ .overdue ∧ p.due p.lastPet now := by
  unfold duty
  grind

/-- A device whose boot is overdue is starved. -/
theorem tick_starved (ho : p.isOpen) (hb : p.boot = .overdue) : p.tick now booted = (⟨.nothing, none⟩, p) := by
  rw [tick_eq, updateBoot_of_settled (by rw [hb]; decide)]
  simp [duty, ho, hb, done]

/-- The verdict stays. -/
theorem tick_boot_of_overdue (hb : p.boot = .overdue) : (p.tick now booted).2.boot = .overdue := by
  rw [tick_eq, updateBoot_of_settled (by rw [hb]; decide)]
  simpa using hb

end Policy

/-! ## Runs -/

namespace Course

theorem run_append {l k : List Op} : c.run (l ++ k) = (c.run l).run k := List.foldl_append

/-- The clock does not go back. -/
def Onward (c : Course) (op : Op) : Prop := c.now ≤ c.timeOf op

/-- A tick comes no later than `nextWake` asked for, and so does an opening of
a device that is already open. -/
def Prompt (c : Course) : Op → Prop
  | .tick now _ => ∀ last ∈ c.woken, ∀ d ∈ c.policy.nextWake last, now ≤ last + d
  | .opened now _ => c.policy.isOpen → ∀ last ∈ c.woken, ∀ d ∈ c.policy.nextWake last, now ≤ last + d
  | _ => True

instance (op : Op) : Decidable (c.Onward op) := inferInstanceAs (Decidable (_ ≤ _))

instance : (op : Op) → Decidable (c.Prompt op)
  | .tick now _ => inferInstanceAs (Decidable (∀ last ∈ c.woken, ∀ d ∈ c.policy.nextWake last, now ≤ last + d))
  | .opened now _ => inferInstanceAs
      (Decidable (c.policy.isOpen → ∀ last ∈ c.woken, ∀ d ∈ c.policy.nextWake last, now ≤ last + d))
  | .openFailed _ | .beginShutdown => inferInstanceAs (Decidable True)

theorem timely_step {op : Op} (h : c.policy.Timely c.now) (ho : c.Onward op) :
    (c.step op).policy.Timely (c.step op).now := by
  cases op with
  | opened now applied => exact ⟨fun l hl => by cases hl; exact le_rfl, (h.mono ho).lastTry⟩
  | openFailed now => exact ⟨(h.mono ho).lastPet, fun l hl => by cases hl; exact le_rfl⟩
  | beginShutdown => exact ⟨h.lastPet, h.lastTry⟩
  | tick now booted =>
    have h := h.mono (t := now) ho
    obtain ⟨b, hb⟩ := Policy.updateBoot_snd c.policy now booted
    simp only [step, Policy.tick_eq]
    rw [hb]
    cases Policy.duty now { c.policy with boot := b } with
    | nothing => exact ⟨h.lastPet, h.lastTry⟩
    | «open» => exact ⟨h.lastPet, fun l hl => by cases hl; exact le_rfl⟩
    | pet => exact ⟨fun l hl => by cases hl; exact le_rfl, h.lastTry⟩

/-- Writes are no further apart than the interval, and the last one is no
further back when the policy was last asked. -/
def Fed (c : Course) : Prop :=
  c.writes.IsChain (fun next last => next.now ≤ last.now + last.interval)
  ∧ ∀ last ∈ c.writes.head?, ∀ τ ∈ c.woken, τ ≤ last.now + last.interval

/-- What makes `Fed` an invariant: the policy remembers the last write. -/
structure Feeding (c : Course) : Prop where
  timely : c.policy.Timely c.now
  closed : c.policy.isOpen = false → c.writes = []
  last : c.policy.isOpen → ∃ w ws, c.writes = w :: ws ∧ c.policy.lastPet = some w.now
    ∧ c.policy.interval = w.interval ∧ ∃ τ, c.woken = some τ ∧ w.now ≤ τ
    ∧ (c.policy.boot ≠ .overdue → τ ≤ w.now + w.interval)
  chain : c.policy.boot ≠ .overdue → c.writes.IsChain (fun next last => next.now ≤ last.now + last.interval)

theorem Feeding.fed (h : c.Feeding) (hb : c.policy.boot ≠ .overdue) : c.Fed := by
  refine ⟨h.chain hb, fun w hw τ hτ => ?_⟩
  cases ho : c.policy.isOpen with
  | false => rw [h.closed ho] at hw; cases hw
  | true =>
    obtain ⟨w', ws, hws, -, -, τ', hτ', -, hle⟩ := h.last ho
    rw [hws, List.head?_cons, Option.mem_some_iff] at hw
    rw [hτ', Option.mem_some_iff] at hτ
    subst hw hτ
    exact hle hb

/-- The open device is due an interval after the last write, so whoever keeps
to `nextWake` is there by then. -/
theorem Feeding.prompt (h : c.Feeding) (ho : c.policy.isOpen) (hb : c.policy.boot ≠ .overdue)
    (hp : ∀ τ ∈ c.woken, ∀ d ∈ c.policy.nextWake τ, now ≤ τ + d) :
    ∃ w ws, c.writes = w :: ws ∧ c.policy.lastPet = some w.now ∧ c.policy.interval = w.interval
      ∧ now ≤ w.now + w.interval := by
  obtain ⟨w, ws, hws, hl, hi, τ, hτ, hw, hle⟩ := h.last ho
  refine ⟨w, ws, hws, hl, hi, ?_⟩
  have hn : c.policy.nextWake τ ≠ none := fun hn => hb (Policy.nextWake_eq_none.mp hn).2
  obtain ⟨d, hd⟩ := Option.ne_none_iff_exists'.mp hn
  have hmem : w.now + w.interval ∈ c.policy.deadlines τ := by
    refine List.mem_append_left _ ?_
    simp [Policy.deviceDeadline, Policy.dueAt, ho, hb, hl, hi]
  have := hp τ hτ d hd
  by_contra hlt
  have := Policy.lt_deadline (u := w.now + w.interval) hd (hle hb) (by omega) _ hmem
  omega

/-- A prompt operation keeps the device fed. -/
theorem feeding_step {op : Op} (h : c.Feeding) (ho' : c.Onward op) (hp : c.Prompt op) : (c.step op).Feeding := by
  have ht := timely_step h.timely ho'
  cases op with
  | openFailed now => exact ⟨ht, h.closed, h.last, h.chain⟩
  | beginShutdown => exact ⟨ht, h.closed, h.last, h.chain⟩
  | opened now applied =>
    refine ⟨ht, fun hc => (by cases hc), fun _ => ⟨_, _, rfl, rfl, rfl, now, rfl, le_rfl, fun _ => Nat.le_add_right ..⟩,
      fun hb => ?_⟩
    cases hopen : c.policy.isOpen with
    | false => simp [step, h.closed hopen]
    | true =>
      obtain ⟨w, ws, hws, -, -, hle⟩ := h.prompt hopen hb (hp hopen)
      have hc := h.chain hb
      simp only [step, hws] at hc ⊢
      exact .cons_cons hle hc
  | tick now booted =>
    obtain ⟨b, hu⟩ := Policy.updateBoot_snd c.policy now booted
    have hb : ((c.policy.tick now booted).2.boot ≠ .overdue) → c.policy.boot ≠ .overdue :=
      mt Policy.tick_boot_of_overdue
    simp only [step, Policy.tick_eq] at ht hb ⊢
    rw [hu] at ht hb ⊢
    generalize hq : { c.policy with boot := b } = q at ht hb ⊢
    have ho : q.isOpen = c.policy.isOpen := by rw [← hq]
    have hi : q.interval = c.policy.interval := by rw [← hq]
    have hlp : q.lastPet = c.policy.lastPet := by rw [← hq]
    cases hopen : c.policy.isOpen with
    | false =>
      have hd : q.duty now ≠ .pet := fun hd => by simpa [ho, hopen] using (Policy.duty_eq_pet.mp hd).1
      rw [if_neg hd, h.closed hopen]
      exact ⟨ht, fun _ => rfl, fun hc => by simp [ho, hopen] at hc, fun _ => .nil⟩
    | true =>
      have hclosed : ∀ a, (q.done now a).isOpen = false → False := fun a hc => by simp [ho, hopen] at hc
      by_cases hd : q.duty now = .pet
      · rw [if_pos hd, hd]
        rw [hd] at hb
        refine ⟨by rwa [hd] at ht, fun hc => (hclosed _ hc).elim,
          fun _ => ⟨_, _, rfl, rfl, rfl, now, rfl, le_rfl, fun _ => Nat.le_add_right ..⟩, fun hno => ?_⟩
        obtain ⟨w, ws, hws, -, -, hle⟩ := h.prompt hopen (hb hno) hp
        have hc := h.chain (hb hno)
        rw [hws] at hc ⊢
        exact .cons_cons hle hc
      · rw [if_neg hd]
        have hl : (q.done now (q.duty now)).lastPet = q.lastPet := by
          cases ha : q.duty now with
          | pet => exact absurd ha hd
          | nothing => rfl
          | «open» => rfl
        obtain ⟨w, ws, hws, hlast, hint, -⟩ := h.last hopen
        refine ⟨ht, fun hc => (hclosed _ hc).elim, fun _ => ?_, fun hno => h.chain (hb hno)⟩
        refine ⟨w, ws, hws, by rw [hl, hlp, hlast], by rw [Policy.done_interval, hi, hint], now, rfl, ?_, fun hno => ?_⟩
        · exact (h.timely.mono (t := now) ho').lastPet _ hlast
        · obtain ⟨w', ws', hws', -, -, hle⟩ := h.prompt hopen (hb hno) hp
          obtain ⟨rfl, -⟩ : w = w' ∧ ws = ws' := by simpa [hws] using hws'
          exact hle

/-- Starving a machine is for good. -/
theorem starved_step {op : Op} (h : c.policy.isOpen ∧ c.policy.boot = .overdue) :
    (c.step op).policy.isOpen ∧ (c.step op).policy.boot = .overdue := by
  cases op with
  | opened => exact ⟨rfl, h.2⟩
  | openFailed => exact h
  | beginShutdown => exact h
  | tick now booted =>
    simp only [step]
    rw [Policy.tick_starved h.1 h.2]
    exact h

/-- Once starved, always starved. -/
theorem starved_run (later : List Op) (h : c.policy.isOpen ∧ c.policy.boot = .overdue) :
    (c.run later).policy.isOpen ∧ (c.run later).policy.boot = .overdue := by
  unfold run
  induction later generalizing c with
  | nil => exact h
  | cons op later ih => exact ih (starved_step h)

end Course

theorem feeding_course : (course config).Feeding := by
  refine ⟨⟨fun _ h => ?_, fun _ h => ?_⟩, fun _ => rfl, fun h => ?_, fun _ => .nil⟩ <;> cases h

/-- Whoever wakes when `nextWake` says so misses nothing and wakes for
nothing, and feeds the device in time until the boot is overdue. -/
theorem fed_on_time {ops : List Op} (h : Each Course.step Course.Onward (course config) ops) :
    let c := (course config).run ops
    (∀ t d, c.now ≤ t → c.policy.nextWake t = some d →
      (∀ u, t ≤ u → u < t + d → c.policy.tick u false = (⟨.nothing, none⟩, c.policy))
      ∧ ∀ booted, (c.policy.tick (t + d) booted).1 ≠ ⟨.nothing, none⟩)
    ∧ (∀ t, c.policy.nextWake t = none → ∀ later u booted,
        (c.run later).policy.tick u booted = (⟨.nothing, none⟩, (c.run later).policy))
    ∧ (Each Course.step Course.Prompt (course config) ops → c.policy.boot ≠ .overdue → c.Fed) := by
  intro c
  have ht : c.policy.Timely c.now :=
    Each.invariant (I := fun c => c.policy.Timely c.now) Course.timely_step h feeding_course.timely
  refine ⟨fun t d hc hd => ⟨fun u hu hlt => ?_, fun booted hq => ?_⟩, fun t hn later u booted => ?_, fun hp hb => ?_⟩
  · exact Policy.tick_quiet (ht.mono hc) hu (Policy.lt_deadline hd hu hlt)
  · obtain ⟨e, he, hle⟩ := Policy.exists_deadline_le hd
    have := Policy.lt_of_tick_quiet (ht.mono hc) (Nat.le_add_right ..) hq e he
    omega
  · obtain ⟨ho, hb⟩ := Course.starved_run later (Policy.nextWake_eq_none.mp hn)
    exact Policy.tick_starved ho hb
  · have hf : c.Feeding :=
      Each.invariant (I := Course.Feeding) (fun hi ho => Course.feeding_step hi ho.1 ho.2) (Each.and h hp) feeding_course
    exact hf.fed hb

/-- Two seconds of timeout; the device is opened a little after it was asked
for, and the boot is confirmed before a shutdown begins. -/
theorem fed_on_time_sample :
    ((course ⟨"/dev/watchdog", 2, some ⟨"net.target", 3000000000⟩⟩).run
      [.tick 0 false, .opened 7 (some 2), .tick 1000000007 false, .tick 1500000000 true, .beginShutdown,
        .tick 2000000007 true]).Fed :=
  (fed_on_time (by decide +kernel)).2.2 (by decide +kernel) (by decide +kernel)

/-! ## The verdict -/

/-- What a tick says of the boot if none before it did. -/
def Entry.verdict (boot : Boot) (e : Entry) : Option Event :=
  if e.booted then some .bootConfirmed
  else if !e.shuttingDown ∧ boot.within ≤ e.now then some .bootOverdue
  else none

/-- The events that have led to a state. -/
def BootState.events : BootState → List Event
  | .pending => []
  | .confirmed => [.bootConfirmed]
  | .overdue => [.bootOverdue]

theorem Policy.updateBoot_fst {boot : Boot} (hc : p.config.boot = some boot) {a : Tick} :
    (p.updateBoot now booted).1
      = if p.boot = .pending then Entry.verdict boot ⟨now, booted, p.shuttingDown, a⟩ else none := by
  unfold updateBoot Entry.verdict
  rw [hc]
  by_cases hp : p.boot = .pending
  · simp only [hp, ne_eq, not_true_eq_false, ↓reduceIte]
    repeat' first | rfl | split
  · simp [hp]

/-- The verdict in force is the one that was given. -/
theorem Policy.updateBoot_events (p : Policy) (now : Nat) (booted : Bool) :
    (p.updateBoot now booted).2.boot.events = (p.updateBoot now booted).1.toList ++ p.boot.events := by
  unfold updateBoot
  split
  · rfl
  · rename_i hp
    rw [ne_eq, not_not] at hp
    rw [hp]
    repeat' first | rfl | exact hp ▸ rfl | split

/-- A policy with a boot deadline has judged the boot by the ticks made. -/
structure Course.Judged (boot : Boot) (c : Course) : Prop where
  config : c.policy.config.boot = some boot
  pending : c.policy.boot = .pending ↔ ∀ e ∈ c.ticks, e.verdict boot = none
  events : c.ticks.filterMap (·.answer.event) = c.policy.boot.events
  verdict : ∀ e t, e :: t <:+ c.ticks →
    e.answer.event = if ∀ x ∈ t, x.verdict boot = none then e.verdict boot else none
  starved : ∀ e t, e :: t <:+ c.ticks → .bootOverdue ∈ (e :: t).filterMap (·.answer.event) → e.answer.action ≠ .pet

theorem BootState.mem_events {s : BootState} : .bootOverdue ∈ s.events ↔ s = .overdue := by
  cases s <;> decide

theorem BootState.events_eq_nil {s : BootState} : s.events = [] ↔ s = .pending := by
  cases s <;> decide

/-- An operation judges the boot once. -/
theorem Course.judged_step {boot : Boot} {op : Op} (h : c.Judged boot) : (c.step op).Judged boot := by
  cases op with
  | opened => exact ⟨h.config, h.pending, h.events, h.verdict, h.starved⟩
  | openFailed => exact ⟨h.config, h.pending, h.events, h.verdict, h.starved⟩
  | beginShutdown => exact ⟨h.config, h.pending, h.events, h.verdict, h.starved⟩
  | tick now booted =>
    obtain ⟨b, hu⟩ := Policy.updateBoot_snd c.policy now booted
    have hev := Policy.updateBoot_events c.policy now booted
    simp only [step, Policy.tick_eq]
    rw [hu] at hev ⊢
    generalize hq : { c.policy with boot := b } = q at hev ⊢
    generalize he : (Entry.mk now booted c.policy.shuttingDown ⟨q.duty now, (c.policy.updateBoot now booted).1⟩) = e
    have hfst : e.answer.event = if c.policy.boot = .pending then e.verdict boot else none := by
      rw [← he]
      exact Policy.updateBoot_fst h.config
    have hevents : (e :: c.ticks).filterMap (·.answer.event) = q.boot.events := by
      rw [hev, ← h.events, ← he]
      cases (c.policy.updateBoot now booted).1 <;> rfl
    refine ⟨?_, ?_, ?_, fun x t hx => ?_, fun x t hx hmem => ?_⟩
    · rw [Policy.done_config, ← hq]
      exact h.config
    · show (q.done now (q.duty now)).boot = .pending ↔ ∀ x ∈ e :: c.ticks, x.verdict boot = none
      rw [Policy.done_boot, ← BootState.events_eq_nil, ← hevents, List.forall_mem_cons, ← h.pending]
      have hold := h.events
      by_cases hp : c.policy.boot = .pending
      · rw [if_pos hp] at hfst
        rw [hp] at hold
        rw [List.filterMap_cons, hfst, hold]
        cases e.verdict boot <;> simp [BootState.events, hp]
      · have : (e :: c.ticks).filterMap (·.answer.event) ≠ [] := fun hn => by
          have : c.ticks.filterMap (·.answer.event) = [] := by
            rw [List.filterMap_eq_nil_iff] at hn ⊢
            exact fun x hx => hn x (List.mem_cons_of_mem _ hx)
          exact hp (BootState.events_eq_nil.mp (hold ▸ this))
        simp [this, hp]
    · rw [Policy.done_boot]
      exact hevents
    · rcases List.suffix_cons_iff.mp hx with hx | hx
      · obtain ⟨rfl, rfl⟩ : x = e ∧ t = c.ticks := by simpa using hx
        rw [hfst]
        simp only [h.pending]
      · exact h.verdict x t hx
    · rcases List.suffix_cons_iff.mp hx with hx | hx
      · obtain ⟨rfl, rfl⟩ : x = e ∧ t = c.ticks := by simpa using hx
        rw [hevents, BootState.mem_events] at hmem
        rw [← he]
        exact fun hd => (Policy.duty_eq_pet.mp hd).2.1 hmem
      · exact h.starved x t hx hmem

/-! ## Without a boot deadline -/

/-- The same policy, never asked about the boot. -/
def Policy.plain (p : Policy) : Policy :=
  { p with boot := .confirmed, config := { p.config with boot := none } }

theorem Policy.plain_tick (h : (p.tick now booted).2.boot ≠ .overdue) :
    (p.plain.tick now booted).1.action = (p.tick now booted).1.action
      ∧ (p.plain.tick now booted).2 = (p.tick now booted).2.plain := by
  obtain ⟨b, hu⟩ := updateBoot_snd p now booted
  simp only [tick_eq] at h ⊢
  rw [updateBoot_of_settled (p := p.plain) BootState.noConfusion, hu] at *
  rw [done_boot] at h
  have hd : p.plain.duty now = Policy.duty now { p with boot := b } := by
    unfold duty
    rw [if_neg h]
    rfl
  rw [hd]
  refine ⟨rfl, ?_⟩
  cases Policy.duty now { p with boot := b } <;> rfl

namespace Course

/-- The two do the same. -/
def Alike (c c' : Course) : Prop :=
  c'.policy = c.policy.plain ∧ c'.ticks.map (·.answer.action) = c.ticks.map (·.answer.action)

theorem alike_step {c' : Course} {op : Op} (h : c.Alike c') (hb : (c.step op).policy.boot ≠ .overdue) :
    (c.step op).Alike (c'.step op) := by
  obtain ⟨hp, ht⟩ := h
  cases op with
  | opened => exact ⟨by simp only [step, hp]; rfl, ht⟩
  | openFailed => exact ⟨by simp only [step, hp]; rfl, ht⟩
  | beginShutdown => exact ⟨by simp only [step, hp]; rfl, ht⟩
  | tick now booted =>
    obtain ⟨ha, hs⟩ := Policy.plain_tick hb
    refine ⟨by simpa only [step, hp] using hs, ?_⟩
    simp only [step, hp, List.map_cons, ht]
    rw [ha]

theorem boot_of_overdue {op : Op} (h : c.policy.boot = .overdue) : (c.step op).policy.boot = .overdue := by
  cases op with
  | opened => exact h
  | openFailed => exact h
  | beginShutdown => exact h
  | tick => exact Policy.tick_boot_of_overdue h

/-- Until the boot is overdue the deadline makes no difference. -/
theorem alike_run {c' : Course} {ops : List Op} (h : c.Alike c') (hb : (c.run ops).policy.boot ≠ .overdue) :
    (c.run ops).Alike (c'.run ops) := by
  induction ops using List.reverseRecOn with
  | nil => exact h
  | append_singleton ops op ih =>
    rw [run_append] at hb ⊢
    rw [run_append]
    exact alike_step (ih (mt boot_of_overdue hb)) hb

/-- The deadline has not passed, or no longer applies. -/
def Spared (boot : Boot) (c : Course) : Op → Prop
  | .tick now _ => c.policy.shuttingDown ∨ now < boot.within
  | _ => True

theorem config_step {op : Op} : (c.step op).policy.config = c.policy.config := by
  cases op with
  | opened => rfl
  | openFailed => rfl
  | beginShutdown => rfl
  | tick now booted =>
    obtain ⟨b, hu⟩ := Policy.updateBoot_snd c.policy now booted
    simp only [step, Policy.tick_eq, Policy.done_config]
    rw [hu]

theorem shuttingDown_step {op : Op} (h : c.policy.shuttingDown) : (c.step op).policy.shuttingDown := by
  cases op with
  | opened => exact h
  | openFailed => exact h
  | beginShutdown => rfl
  | tick now booted =>
    obtain ⟨b, hu⟩ := Policy.updateBoot_snd c.policy now booted
    simp only [step, Policy.tick_eq, Policy.done_shuttingDown]
    rw [hu]
    exact h

theorem spared_step {boot : Boot} {op : Op} (hc : c.policy.config.boot = some boot) (ho : c.Spared boot op)
    (h : c.policy.boot ≠ .overdue) : (c.step op).policy.boot ≠ .overdue := by
  cases op with
  | opened => exact h
  | openFailed => exact h
  | beginShutdown => exact h
  | tick now booted =>
    intro hb
    simp only [step, Policy.tick_eq, Policy.done_boot] at hb
    have hev := Policy.updateBoot_events c.policy now booted
    have hmem : Event.bootOverdue ∈ BootState.events .overdue := by decide
    rw [← hb, hev, List.mem_append, BootState.mem_events] at hmem
    rcases hmem with hmem | hmem
    · rw [Policy.updateBoot_fst hc (a := ⟨.nothing, none⟩), Option.mem_toList] at hmem
      simp only [Entry.verdict] at hmem
      have : ¬((!c.policy.shuttingDown) = true ∧ boot.within ≤ now) := by
        rintro ⟨hs, hle⟩
        rcases ho with ho | ho
        · simp [ho] at hs
        · omega
      rw [if_neg this] at hmem
      repeat' first | cases hmem | split at hmem
    · exact h hmem

/-- A boot whose deadline no tick sees is never overdue. -/
theorem spared_run {boot : Boot} {ops : List Op} (hc : c.policy.config.boot = some boot)
    (ho : Each step (Spared boot) c ops) (h : c.policy.boot ≠ .overdue) :
    (c.run ops).policy.config.boot = some boot ∧ (c.run ops).policy.boot ≠ .overdue := by
  refine Each.invariant (I := fun c => c.policy.config.boot = some boot ∧ c.policy.boot ≠ .overdue)
    (fun hi ho => ⟨?_, spared_step hi.1 ho hi.2⟩) ho ⟨hc, h⟩
  rw [config_step]
  exact hi.1

theorem spared_before {boot : Boot} {ops : List Op} (h : ∀ t booted, .tick t booted ∈ ops → t < boot.within) :
    Each step (Spared boot) c ops := by
  induction ops generalizing c with
  | nil => trivial
  | cons op ops ih =>
    refine ⟨?_, ih fun t booted ht => h t booted (List.mem_cons_of_mem _ ht)⟩
    cases op with
    | tick t booted => exact .inr (h t booted List.mem_cons_self)
    | _ => trivial

theorem spared_after {boot : Boot} {ops : List Op} (h : c.policy.shuttingDown) : Each step (Spared boot) c ops := by
  induction ops generalizing c with
  | nil => trivial
  | cons op ops ih =>
    refine ⟨?_, ih (shuttingDown_step h)⟩
    cases op with
    | tick t booted => exact .inl h
    | _ => trivial

end Course

theorem judged_course {boot : Boot} (h : config.boot = some boot) : (course config).Judged boot := by
  have hb : (course config).policy.boot = .pending := by simp [course, Policy.new, h]
  refine ⟨h, iff_of_true hb fun _ he => absurd he List.not_mem_nil, by rw [hb]; rfl, fun e t he => ?_, fun e t he => ?_⟩
  <;> cases List.suffix_nil.mp he

/-- A shutdown has begun before any tick found the deadline passed. -/
def Interrupted (boot : Boot) (ops : List Op) : Prop :=
  ∃ before after, ops = before ++ .beginShutdown :: after ∧ ∀ t booted, .tick t booted ∈ before → t < boot.within

/-- The verdict is given once, by the first tick that has one to give; a
machine found overdue is never fed again, and any other as if it had no
deadline. -/
theorem verdict_is_final {boot : Boot} (h : config.boot = some boot) (ops : List Op) :
    let ticks := ((course config).run ops).ticks
    (∀ e t, e :: t <:+ ticks → e.answer.event = if ∀ x ∈ t, x.verdict boot = none then e.verdict boot else none)
    ∧ (ticks.filterMap (·.answer.event)).length ≤ 1
    ∧ (∀ e t, e :: t <:+ ticks → .bootOverdue ∈ (e :: t).filterMap (·.answer.event) → e.answer.action ≠ .pet)
    ∧ (.bootConfirmed ∈ ticks.filterMap (·.answer.event) ∨ Interrupted boot ops →
      ticks.map (·.answer.action)
        = ((course { config with boot := none }).run ops).ticks.map (·.answer.action)) := by
  intro ticks
  have hj : ((course config).run ops).Judged boot :=
    List.foldlRecOn ops Course.step (judged_course h) fun _ hc _ _ => Course.judged_step hc
  have hlike : (course config).Alike (course { config with boot := none }) := ⟨rfl, rfl⟩
  refine ⟨hj.verdict, ?_, hj.starved, fun hc => ?_⟩
  · rw [hj.events]
    cases ((course config).run ops).policy.boot <;> decide
  · refine (Course.alike_run hlike ?_).2.symm
    rcases hc with hc | ⟨before, after, rfl, hlt⟩
    · rw [hj.events] at hc
      intro ho
      rw [ho] at hc
      exact absurd hc (by decide)
    · have hb : (course config).policy.boot ≠ .overdue := by simp [course, Policy.new, h]
      obtain ⟨hc, hb⟩ := Course.spared_run h (Course.spared_before hlt) hb
      rw [Course.run_append]
      exact (Course.spared_run (c := Course.step _ .beginShutdown) hc (Course.spared_after rfl) hb).2

/-- Half a minute to boot in: a device that appears after the deadline is
opened and then starved. -/
theorem verdict_is_final_sample :
    let ticks := ((course ⟨"/dev/watchdog", 30, some ⟨"net.target", 30000000000⟩⟩).run
      [.tick 0 false, .openFailed 1, .tick 40000000000 false, .opened 40000000001 (some 30), .tick 60000000000 true,
        .beginShutdown, .tick 80000000000 true]).ticks
    (ticks.filterMap (·.answer.event)).length ≤ 1 ∧ .bootOverdue ∈ ticks.filterMap (·.answer.event) :=
  ⟨(@verdict_is_final _ ⟨"net.target", 30000000000⟩ rfl _).2.1, by decide +kernel⟩

end Oxinit.Watchdog
