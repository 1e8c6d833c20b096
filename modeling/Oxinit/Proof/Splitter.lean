import Oxinit.Framework.Lines
import Oxinit.Model.Splitter

/-!
# What the splitter makes of a stream

The splitter is a line buffer of `maxLine` bytes (`pushAll_eq`), so what it
emits and what it holds are those of `Framework.Lines`.
-/

namespace Oxinit.Log

open Framework

namespace Splitter

variable {chunk : Bytes} {chunks : List Bytes} {s : Splitter}

/-- The line up to a newline, and what comes after it. -/
theorem eq_append_of_findIdx? {rest : Bytes} {pos : Nat} (h : rest.findIdx? (· == newline) = some pos) :
    rest = rest.take pos ++ newline :: rest.drop (pos + 1) ∧ newline ∉ rest.take pos := by
  obtain ⟨hlt, hpos, hbefore⟩ := List.findIdx?_eq_some_iff_getElem.mp h
  constructor
  · rw [← eq_of_beq hpos, ← List.drop_eq_getElem_cons hlt, List.take_append_drop]
  · intro hm
    obtain ⟨n, hn, he⟩ := List.mem_take_iff_getElem.mp hm
    exact hbefore n (by omega) (by rw [he]; rfl)

/-- The loop, a line at a time. -/
theorem pushLoop_eq (held rest : Bytes) : pushLoop held rest = Lines.feed newline held rest := by
  induction held, rest using pushLoop.induct with
  | case1 held rest pos h tail ih =>
    obtain ⟨hrest, hline⟩ := eq_append_of_findIdx? h
    have htail : tail.drop 1 = rest.drop (pos + 1) := List.drop_drop
    rw [pushLoop]
    split
    · next pos' h' =>
      obtain rfl := Option.some.inj (h'.symm.trans h)
      have hemit : (if held.isEmpty then rest.take pos' else held ++ rest.take pos') = held ++ rest.take pos' := by
        split
        · next he => rw [List.isEmpty_iff.mp he, List.nil_append]
        · rfl
      dsimp only
      rw [hemit, ih, htail]
      conv_rhs => rw [hrest, Lines.feed_append, Lines.feed_of_notMem hline, Lines.feed_sep]
      rfl
    · next hn => cases hn.symm.trans h
  | case2 held rest h =>
    rw [pushLoop]
    split
    · next hs => cases hs.symm.trans h
    · refine (Lines.feed_of_notMem fun hm => ?_).symm
      simpa using List.findIdx?_eq_none_iff.mp h newline hm

/-- A read is split as the library splits it. -/
theorem push_eq (chunk : Bytes) (s : Splitter) :
    s.push chunk = ((Lines.push newline maxLine s.partialLine chunk).1,
      ⟨(Lines.push newline maxLine s.partialLine chunk).2⟩) := by
  unfold push Lines.push
  rw [pushLoop_eq]
  dsimp only
  split <;> rfl

theorem pushAll_eq (chunks : List Bytes) (s : Splitter) :
    pushAll chunks s = ((Lines.pushes newline maxLine s.partialLine chunks).1,
      ⟨(Lines.pushes newline maxLine s.partialLine chunks).2⟩) := by
  induction chunks generalizing s with
  | nil => rfl
  | cons c cs ih => simp only [pushAll, Lines.pushes, ih, push_eq]

theorem flush_eq (s : Splitter) : s.flush.1.toList = Lines.rest s.partialLine := by
  unfold flush Lines.rest
  split <;> rfl

/-- The records are the library's lines. -/
theorem records_eq (chunks : List Bytes) : records chunks = Lines.drained newline maxLine [] chunks := by
  simp only [records, flush_eq, pushAll_eq, Lines.drained]

/-! ## What it keeps -/

/-- Whatever is read, and in whatever pieces, nothing is lost but the newlines,
and neither what is held nor what is emitted outgrows the reads. -/
theorem splitter_loses_nothing (chunks : List Bytes) :
    (pushAll chunks {}).1.flatten ++ (pushAll chunks {}).2.partialLine = chunks.flatten.filter (· ≠ newline)
    ∧ ∀ before chunk after, chunks = before ++ chunk :: after →
        ((pushAll before {}).2.push chunk).2.partialLine.length < maxLine
        ∧ ∀ line ∈ ((pushAll before {}).2.push chunk).1, line.length < maxLine + chunk.length := by
  have hmax : 0 < maxLine := by decide
  refine ⟨?_, fun before chunk after _ => ?_⟩
  · rw [pushAll_eq]
    exact Lines.pushes_flatten newline maxLine [] chunks
  · have hheld : (pushAll before {}).2.partialLine.length < maxLine := by
      rw [pushAll_eq]
      exact Lines.length_held_lt hmax before
    rw [push_eq]
    exact ⟨Lines.push_length_lt hmax _ chunk, fun line hl => Lines.length_lt_of_mem_push hheld hl⟩

/-! ## Where a read ends -/

/-- The reads do not matter as long as none of them ends between a line of
`maxLine` bytes and its newline. -/
theorem cutting_is_harmless_iff (chunks : List Bytes)
    (h : ∀ line ∈ Lines.lines newline [] chunks.flatten, line.length ≤ maxLine) :
    records chunks = Lines.lines newline [] chunks.flatten ↔ Lines.Unbroken newline maxLine [] chunks := by
  rw [records_eq]
  exact Lines.drained_eq_lines_iff (by decide) h

theorem cutting_is_harmless_iff_sample : records [[97, 10, 98], [99, 10]] = [[97], [98, 99]] := by
  refine (cutting_is_harmless_iff [[97, 10, 98], [99, 10]] (by decide)).mpr fun before after he hl => ?_
  have hlen := congrArg (·.flatten.length) he
  have := Lines.length_feed_snd newline [] before.flatten
  simp only [List.flatten_append, List.length_append, maxLine] at hlen hl
  simp at hlen this
  omega

/-- The longest line is kept whole, and a read that ends with it has its newline
taken for an empty line. -/
theorem full_line_gains_an_empty_one :
    let full := List.replicate maxLine (120 : UInt8)
    (∀ line ∈ Lines.lines newline [] (full ++ [newline]), line.length ≤ maxLine)
    ∧ records [full ++ [newline]] = [full] ∧ records [full, [newline]] = [full, []] := by
  have hfull : newline ∉ List.replicate maxLine (120 : UInt8) := by simp [List.mem_replicate, newline]
  obtain ⟨hlines, hwhole, hcut⟩ :=
    Lines.drained_full_line (by decide) hfull (List.length_replicate ..)
  refine ⟨fun line hl => ?_, by rw [records_eq, hwhole], by rw [records_eq, hcut]⟩
  rw [hlines, List.mem_singleton] at hl
  exact hl ▸ Nat.le_of_eq (List.length_replicate ..)

end Splitter

end Oxinit.Log
