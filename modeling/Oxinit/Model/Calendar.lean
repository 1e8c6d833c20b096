import Oxinit.Model.Duration
import Oxinit.Model.Schedule

/-!
# The calendar vocabulary

`Calendar::parse`, and `Calendar::next_at` in the arithmetic of `u64`, where
what overflows has no answer.
-/

namespace Oxinit

namespace Calendar

/-- One number of a time. -/
def number (part : List Char) (max : Nat) (text : String) : Except CalendarError Nat :=
  match Text.fromStr 32 part with
  | none => .error ⟨text⟩
  | some value => if max < value then .error ⟨text⟩ else .ok value

/-- One number of a time that has to be there. -/
def field (part : Option (List Char)) (max : Nat) (text : String) : Except CalendarError Nat :=
  match part with
  | none => .error ⟨text⟩
  | some part => number part max text

/-- `hourly`, `daily`, `weekly`, `HH:MM`, or `HH:MM:SS`. The second that `HH:MM`
means is zero. -/
def parse (text : String) : Except CalendarError Calendar :=
  if text = "hourly" then .ok .hourly
  else if text = "daily" then .ok .daily
  else if text = "weekly" then .ok .weekly
  else do
    let parts := text.toList.splitOn ':'
    let hour ← field parts[0]? 23 text
    let minute ← field parts[1]? 59 text
    let second ← match parts[2]? with
      | some part => number part 59 text
      | none => .ok 0
    if parts[3]?.isSome then .error ⟨text⟩ else .ok (.at hour minute second)

end Calendar

/-- `roundUp`, as far as it can be computed. -/
def checkedRoundUp (now step : Nat) : Option Nat :=
  match now % step with
  | 0 => some now
  | past => (checkedSub step past).bind (checkedAdd now)

/-- `Calendar.nextAt`, as far as it can be computed. -/
def Calendar.checkedNextAt (c : Calendar) (now : Nat) : Option Nat :=
  match c with
  | .hourly => checkedRoundUp now Oxinit.hour
  | .daily => checkedRoundUp now day
  | .weekly => do
    let mondayOffset ← checkedMul 4 day
    let shift ← checkedSub (7 * day) mondayOffset
    let shifted ← checkedAdd now shift
    let rounded ← checkedRoundUp shifted (7 * day)
    checkedSub rounded shift
  | .at hour minute second => do
    let hours ← checkedMul hour Oxinit.hour
    let minutes ← checkedMul minute Oxinit.minute
    let offset ← (checkedAdd hours minutes).bind (checkedAdd · second)
    let midnight ← checkedSub now (now % day)
    let today ← checkedAdd midnight offset
    if now ≤ today then some today else (checkedAdd midnight day).bind (checkedAdd · offset)

end Oxinit
