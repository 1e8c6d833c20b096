import Oxinit.Model.Unit

/-!
# When a timer next elapses

The arithmetic of `oxinit-timer`. Nothing here reads a clock: every function
takes the current time.
-/

namespace Oxinit

/-- The units of time, in seconds. -/
def minute : Nat := 60
def hour : Nat := 60 * minute
def day : Nat := 24 * hour

/-- The smallest multiple of `step` that is at least `now`. -/
def roundUp (now : Nat) (step : Nat) : Nat :=
  match now % step with
  | 0 => now
  | past => now + (step - past)

/-- The first moment at or after `now` that this schedule names. The epoch was a
Thursday: days since the epoch modulo 7 is 4 on a Monday. -/
def Calendar.nextAt (c : Calendar) (now : Nat) : Nat :=
  match c with
  | .hourly => roundUp now Oxinit.hour
  | .daily => roundUp now day
  | .weekly =>
    let mondayOffset := 4 * day
    roundUp (now + (7 * day - mondayOffset)) (7 * day) - (7 * day - mondayOffset)
  | .at hour minute second =>
    let offset := hour * Oxinit.hour + minute * Oxinit.minute + second
    let midnight := now - now % day
    if now ≤ midnight + offset then midnight + offset else midnight + day + offset

/-- When to fire, and which clock says so. -/
inductive Next
  | after (delay : Nat)
  | at (moment : Nat)
  deriving DecidableEq

/-- How far away it is, in whole seconds. -/
def Next.inSeconds (n : Next) (now : Nat) : Nat :=
  match n with
  | .after delay => Duration.asSecs delay
  | .at moment => moment - now

namespace Schedule

/-- Whether a schedule names nothing. -/
def isEmpty (s : Schedule) : Bool :=
  s.onBoot.isNone && s.interval.isNone && s.calendar.isNone

/-- The next wall-clock moment this schedule names. `now + 1`, because
`nextAt` answers "at or after". -/
def calendarAt (s : Schedule) (now : Nat) : Option Nat :=
  s.calendar.map fun c => c.nextAt (saturatingAdd now 1)

/-- Whichever comes first, keeping the clock it belongs to. -/
def sooner (delay : Option Nat) (moment : Option Nat) (now : Nat) : Option Next :=
  match delay, moment with
  | some delay, some moment =>
    if saturatingAdd now (Duration.asSecs delay) ≤ moment then some (.after delay) else some (.at moment)
  | some delay, none => some (.after delay)
  | none, some moment => some (.at moment)
  | none, none => none

/-- The delay to arm with for the first firing after the unit started. -/
def first (s : Schedule) (now : Nat) : Option Next :=
  sooner (s.onBoot <|> s.interval) (s.calendarAt now) now

/-- The delay to arm with after a firing. -/
def next (s : Schedule) (now : Nat) : Option Next :=
  sooner s.interval (s.calendarAt now) now

/-- Whether a firing is followed by another. -/
def recurs (s : Schedule) : Bool := s.interval.isSome || s.calendar.isSome

theorem sooner_isSome (delay : Option Nat) (moment : Option Nat) (now : Nat) :
    (sooner delay moment now).isSome = (delay.isSome || moment.isSome) := by
  unfold sooner
  split <;> simp
  split <;> rfl

theorem next_isSome (s : Schedule) (now : Nat) : (s.next now).isSome = s.recurs := by
  simp [next, sooner_isSome, calendarAt, recurs]

theorem first_isSome {s : Schedule} (h : s.recurs = true) (now : Nat) : (s.first now).isSome = true := by
  simp only [recurs, Bool.or_eq_true] at h
  simp only [first, sooner_isSome, calendarAt, Option.isSome_map, Bool.or_eq_true]
  rcases h with h | h
  · left
    cases hb : s.onBoot <;> simp [h]
  · exact .inr h

end Schedule

end Oxinit
