import Oxinit.Model.Log

/-!
# Turning reads into lines

`Splitter` of `oxinit-log`. A read ends wherever the pipe happened to have
data, and what is left over is held until the rest of the line arrives. A call
answers with the lines it emits.
-/

namespace Oxinit.Log

/-- What ends a line. -/
def newline : UInt8 := 10

/-- Longest line kept whole. -/
def maxLine : Nat := 16 * 1024

/-- The bytes of a line that has not ended. -/
structure Splitter where
  partialLine : Bytes := []
  deriving DecidableEq

namespace Splitter

/-- Every complete line in `rest`, and what is held behind the last one. -/
def pushLoop (partialLine rest : Bytes) : List Bytes × Bytes :=
  match _h : rest.findIdx? (· == newline) with
  | some pos =>
    let line := rest.take pos
    let tail := rest.drop pos
    let emitted := if partialLine.isEmpty then line else partialLine ++ line
    let r := pushLoop [] (tail.drop 1)
    (emitted :: r.1, r.2)
  | none => ([], partialLine ++ rest)
termination_by rest.length
decreasing_by
  have := List.length_pos_iff.mpr fun h : rest = [] => by simp [h] at _h
  simp only [List.drop_drop, List.length_drop]
  omega

/-- Feed one read. The check is against what is held once it has been appended. -/
def push (chunk : Bytes) (s : Splitter) : List Bytes × Splitter :=
  let r := pushLoop s.partialLine chunk
  if maxLine ≤ r.2.length then (r.1 ++ [r.2], {}) else (r.1, { partialLine := r.2 })

/-- What is left when the writer is gone for good. -/
def flush (s : Splitter) : Option Bytes × Splitter :=
  if s.partialLine.isEmpty then (none, s) else (some s.partialLine, {})

/-- Feed every read in turn. -/
def pushAll : List Bytes → Splitter → List Bytes × Splitter
  | [], s => ([], s)
  | chunk :: chunks, s =>
    let r := s.push chunk
    let t := pushAll chunks r.2
    (r.1 ++ t.1, t.2)

/-- The lines that come of a stream that is read in these pieces. -/
def records (chunks : List Bytes) : List Bytes :=
  let r := pushAll chunks {}
  r.1 ++ r.2.flush.1.toList

end Splitter

end Oxinit.Log
