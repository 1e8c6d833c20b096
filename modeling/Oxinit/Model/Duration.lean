import Oxinit.Model.Text
import Oxinit.Model.Unit

/-!
# Duration strings

`parse_duration`, which rejects rather than guesses: a bare number is an error,
and so is a fraction.
-/

namespace Oxinit

/-- `Duration::from_micros`. -/
def Duration.fromMicros (n : Nat) : Nat := n * 1000

/-- A duration that does not parse. -/
inductive ValueError
  | emptyDuration
  | durationSyntax (input : List Char)
  | durationSuffix (input : List Char)
  | durationUnit (unit : List Char)
  | durationOverflow
  deriving DecidableEq

/-- What is reported of it. -/
def ValueError.toString : ValueError → String
  | .emptyDuration => "empty duration"
  | .durationSyntax input =>
    "malformed duration `" ++ .ofList input ++ "`: expected digits followed by a unit, as in `5s`"
  | .durationSuffix input =>
    "duration `" ++ .ofList input ++ "` has no unit: write `5s` or `100ms`, not a bare number"
  | .durationUnit unit => "unknown duration unit `" ++ .ofList unit ++ "`: expected us, ms, s, min, h, or d"
  | .durationOverflow => "duration is too large to represent"

/-- The units, longest first. -/
def microsPer : List (List Char × Nat) :=
  [("usec".toList, 1), ("us".toList, 1), ("msec".toList, 1000), ("ms".toList, 1000), ("seconds".toList, 1000000),
    ("sec".toList, 1000000), ("s".toList, 1000000), ("minutes".toList, 60 * 1000000), ("min".toList, 60 * 1000000),
    ("hours".toList, 3600 * 1000000), ("h".toList, 3600 * 1000000), ("days".toList, 86400 * 1000000),
    ("d".toList, 86400 * 1000000)]

/-- `u64::checked_mul`. -/
def checkedMul (a b : Nat) : Option Nat := if a * b < 2 ^ 64 then some (a * b) else none

/-- `u64::checked_add`. -/
def checkedAdd (a b : Nat) : Option Nat := if a + b < 2 ^ 64 then some (a + b) else none

/-- `u64::checked_sub`. -/
def checkedSub (a b : Nat) : Option Nat := if b ≤ a then some (a - b) else none

/-- The loop over the pairs, from the sum so far. There is no whitespace between a
number and its suffix. -/
def parsePairs (input rest : List Char) (micros : Nat) : Except ValueError Nat :=
  if _h : rest = [] then .ok micros
  else
    let digits := rest.takeWhile Char.isDigit
    if digits = [] then .error (.durationSyntax input)
    else
      let afterDigits := rest.drop digits.length
      let suffix := afterDigits.takeWhile Char.isAlpha
      if _hs : suffix = [] then .error (.durationSuffix input)
      else
        let left := Text.trimStart (afterDigits.drop suffix.length)
        match microsPer.find? (·.1 = suffix) with
        | none => .error (.durationUnit suffix)
        | some (_, multiplier) =>
          match Text.fromStr 64 digits with
          | none => .error .durationOverflow
          | some value =>
            match (checkedMul value multiplier).bind (checkedAdd micros) with
            | none => .error .durationOverflow
            | some micros => parsePairs input left micros
termination_by rest.length
decreasing_by
  have hleft : left.length ≤ (afterDigits.drop suffix.length).length := (List.dropWhile_sublist _).length_le
  have hsuffix : 0 < suffix.length := List.length_pos_iff.mpr _hs
  have hrest : 0 < rest.length := List.length_pos_iff.mpr _h
  refine Nat.lt_of_le_of_lt hleft ?_
  simp only [afterDigits, List.length_drop]
  omega

/-- Parse a duration. Whitespace around it is dropped, and so is whitespace between two pairs. -/
def parseDuration (input : List Char) : Except ValueError Nat :=
  let rest := Text.trim input
  if rest = [] then .error .emptyDuration
  else (parsePairs input rest 0).map Duration.fromMicros

end Oxinit
