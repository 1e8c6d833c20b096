import Oxinit.Model.Shipping
import Oxinit.Proof.Splitter

/-!
# What is written before `oxlogd` exits

A turn of the loop reads each source that is ready once (`Source.read`), and
the last one then writes out what the splitters hold. So what a source had in
its pipe when the socket was closed is written exactly if one read takes it.
-/

namespace Oxinit.Log

open Framework

variable {clock : Nat → Timestamp} {t : Wake} {s s' : Oxlogd} {source : Source}

/-! ## One source in one turn -/

namespace Source

/-- What one read of a source makes of it: the lines, and the source if its
writer is still there. -/
def read (error : Option ReadError) (source : Source) : List Bytes × Option Source :=
  match error with
  | some .again => ([], some source)
  | some .other => ([], none)
  | none =>
    if source.pipe.unread.isEmpty then (source.splitter.flush.1.toList, none)
    else
      let r := source.splitter.push (source.pipe.unread.take readSize)
      (r.1, some { source with pipe := { source.pipe with unread := source.pipe.unread.drop readSize }, splitter := r.2 })

/-- What a turn makes of a source. -/
def next (t : Wake) (source : Source) : List Bytes × Option Source :=
  let later := source.receive (t.late source.id)
  if source.ready then later.read (t.errors source.id) else ([], some later)

def mark (source : Source) (line : Bytes) : Shipped := ⟨source.id, source.unit, line⟩

@[simp] theorem receive_id (what : Bytes) : (source.receive what).id = source.id := by
  unfold receive
  split <;> rfl

@[simp] theorem receive_mark (what : Bytes) : (source.receive what).mark = source.mark := by
  unfold receive
  split <;> rfl

@[simp] theorem receive_splitter (what : Bytes) : (source.receive what).splitter = source.splitter := by
  unfold receive
  split <;> rfl

theorem mark_of_read {error : Option ReadError} {left : Source} (h : (source.read error).2 = some left) :
    left.mark = source.mark := by
  unfold read at h
  split at h
  · cases h
    rfl
  · cases h
  · split at h
    · cases h
    · cases h
      rfl

theorem mark_of_next {left : Source} (h : (source.next t).2 = some left) : left.mark = source.mark := by
  unfold next at h
  dsimp only at h
  split at h
  · exact (mark_of_read h).trans (receive_mark _)
  · cases h
    exact receive_mark _

/-- The lines of a source when the loop ends with this turn. -/
def finish (t : Wake) (source : Source) : List Bytes :=
  (source.next t).1 ++ (source.next t).2.elim [] fun left => Lines.rest left.splitter.partialLine

end Source

namespace Oxlogd

/-- From `s` to `s'`, these are written and nothing is accepted. -/
structure Writes (s s' : Oxlogd) (ws : List Shipped) : Prop where
  written : s'.written = s.written ++ ws
  accepted : s'.accepted = s.accepted

theorem Writes.refl (s : Oxlogd) : Writes s s [] := ⟨(List.append_nil _).symm, rfl⟩

/-- What is written, and then more. -/
theorem Writes.trans {s₁ s₂ s₃ : Oxlogd} {ws ws' : List Shipped} (h : Writes s₁ s₂ ws) (h' : Writes s₂ s₃ ws') :
    Writes s₁ s₃ (ws ++ ws') :=
  ⟨by rw [h'.written, h.written, List.append_assoc], h'.accepted.trans h.accepted⟩

theorem writes_write (source : Source) (line : Bytes) (s : Oxlogd) :
    Writes s (s.write clock source line) [source.mark line] := ⟨by simp only [write, Source.mark], by simp only [write]⟩

/-- Lines are written one after another. -/
theorem writes_foldl (source : Source) (lines : List Bytes) (s : Oxlogd) :
    Writes s (lines.foldl (fun s line => s.write clock source line) s) (lines.map source.mark) := by
  induction lines generalizing s with
  | nil => exact .refl s
  | cons line lines ih =>
    rw [List.foldl_cons, List.map_cons]
    exact (writes_write source line s).trans (ih (s.write clock source line))

theorem writes_last (source : Source) (last : Option Bytes) (s : Oxlogd) :
    Writes s (last.elim s fun last => s.write clock source last) (last.toList.map source.mark) := by
  cases last with
  | none => exact .refl s
  | some last => exact writes_write source last s

/-- What `drain` writes, and what it leaves, is a matter of the source alone. -/
theorem drain_eq (clock : Nat → Timestamp) (error : Option ReadError) (source : Source) (s : Oxlogd) :
    (if (s.drain clock error source).1 then some (s.drain clock error source).2.1 else none) = (source.read error).2
    ∧ Writes s (s.drain clock error source).2.2 ((source.read error).1.map source.mark) := by
  unfold drain Source.read
  rcases error with _ | _ | _
  · dsimp only
    split
    · exact ⟨rfl, writes_last ..⟩
    · exact ⟨rfl, writes_foldl ..⟩
  · exact ⟨rfl, .refl s⟩
  · exact ⟨rfl, .refl s⟩

/-- What the sources that are ready come to. -/
theorem drainReady_eq (clock : Nat → Timestamp) (t : Wake) (sources : List Source) (s : Oxlogd) :
    (drainReady clock t sources s).1 = sources.filterMap (·.next t |>.2)
    ∧ Writes s (drainReady clock t sources s).2 (sources.flatMap fun source => (source.next t).1.map source.mark) := by
  induction sources generalizing s with
  | nil => exact ⟨rfl, .refl s⟩
  | cons source rest ih =>
    have hone : let r := if source.ready then drain clock (t.errors source.id) (source.receive (t.late source.id)) s
          else (true, source.receive (t.late source.id), s)
        (if r.1 then some r.2.1 else none) = (source.next t).2
        ∧ Writes s r.2.2 ((source.next t).1.map source.mark) := by
      unfold Source.next
      dsimp only
      split
      · have := drain_eq clock (t.errors source.id) (source.receive (t.late source.id)) s
        rwa [Source.receive_mark] at this
      · exact ⟨rfl, .refl s⟩
    simp only [drainReady]
    generalize (if source.ready then drain clock (t.errors source.id) (source.receive (t.late source.id)) s
      else (true, source.receive (t.late source.id), s)) = r at hone
    obtain ⟨hleft, hwrites⟩ := hone
    obtain ⟨hrest, hw⟩ := ih r.2.2
    refine ⟨?_, hwrites.trans hw⟩
    rw [List.filterMap_cons, ← hleft, hrest]
    cases r.1 <;> rfl

/-- At the end what each source holds is written. -/
theorem drainAll_written (s : Oxlogd) :
    (s.drainAll clock).written
      = s.written ++ s.sources.flatMap fun source => (Lines.rest source.splitter.partialLine).map source.mark := by
  unfold drainAll
  dsimp only
  generalize s.sources = sources
  induction sources generalizing s with
  | nil => exact (List.append_nil _).symm
  | cons source rest ih =>
    rw [List.foldl_cons, ih, (writes_last ..).written, List.flatMap_cons, Splitter.flush_eq, List.append_assoc]

theorem writtenBy_append (id : Nat) (ws ws' : List Shipped) :
    writtenBy id (ws ++ ws') = writtenBy id ws ++ writtenBy id ws' := by
  simp [writtenBy]

theorem writtenBy_mark (id : Nat) (source : Source) (lines : List Bytes) :
    writtenBy id (lines.map source.mark) = if source.id = id then lines else [] := by
  split
  · next he => simp [writtenBy, List.filter_map, Function.comp_def, Source.mark, he]
  · next he => simp [writtenBy, List.filter_map, Function.comp_def, Source.mark, he]

/-- What is written for a source that is not among these. -/
theorem writtenBy_flatMap_of_notMem {id : Nat} {sources : List Source} (h : id ∉ sources.map (·.id))
    (f : Source → List Bytes) : writtenBy id (sources.flatMap fun source => (f source).map source.mark) = [] := by
  induction sources with
  | nil => rfl
  | cons other rest ih =>
    obtain ⟨hne, hrest⟩ := List.ne_and_not_mem_of_not_mem_cons h
    rw [List.flatMap_cons, writtenBy_append, writtenBy_mark, if_neg (Ne.symm hne), ih hrest, List.nil_append]

/-- What is written of one source among others. -/
theorem writtenBy_flatMap {sources : List Source} (hn : (sources.map (·.id)).Nodup) (hs : source ∈ sources)
    (f : Source → List Bytes) :
    writtenBy source.id (sources.flatMap fun source => (f source).map source.mark) = f source := by
  induction sources with
  | nil => cases hs
  | cons other rest ih =>
    obtain ⟨hnot, hn⟩ := List.nodup_cons.mp hn
    rw [List.flatMap_cons, writtenBy_append, writtenBy_mark]
    rcases List.mem_cons.mp hs with rfl | hs
    · rw [if_pos rfl, writtenBy_flatMap_of_notMem hnot, List.append_nil]
    · have hne : other.id ≠ source.id := fun he => hnot (List.mem_map.mpr ⟨source, hs, he.symm⟩)
      rw [if_neg hne, ih hn hs, List.nil_append]

/-- What is flushed, of the sources as the turn found them. -/
theorem flatMap_left (t : Wake) (sources : List Source) :
    ((sources.filterMap (·.next t |>.2)).flatMap fun left => (Lines.rest left.splitter.partialLine).map left.mark)
      = sources.flatMap fun source =>
        ((source.next t).2.elim [] fun left => Lines.rest left.splitter.partialLine).map source.mark := by
  induction sources with
  | nil => rfl
  | cons source rest ih =>
    rw [List.filterMap_cons, List.flatMap_cons, ← ih]
    cases hl : (source.next t).2 with
    | none => rfl
    | some left => rw [Option.elim_some, ← Source.mark_of_next hl, List.flatMap_cons]

/-- The loop ends: for each source its last lines are written, to the file of its unit. -/
theorem turn_closed (hn : (s.sources.map (·.id)).Nodup) (hp : t.polled = true) (hm : t.message = some .closed) :
    (s.turn clock t).1 = .returned
    ∧ ∃ new, (s.turn clock t).2.written = s.written ++ new
      ∧ (∀ source ∈ s.sources, writtenBy source.id new = source.finish t)
      ∧ ∀ w ∈ new, ∃ source ∈ s.sources, w.source = source.id ∧ w.unit = source.unit := by
  have hlines : ∀ (f : Source → List Bytes), ∀ w ∈ s.sources.flatMap (fun source => (f source).map source.mark),
      ∃ source ∈ s.sources, w.source = source.id ∧ w.unit = source.unit := by
    intro f w hw
    obtain ⟨source, hs, hw⟩ := List.mem_flatMap.mp hw
    obtain ⟨line, -, rfl⟩ := List.mem_map.mp hw
    exact ⟨source, hs, rfl, rfl⟩
  obtain ⟨hleft, hw⟩ := drainReady_eq clock t s.sources s
  have hturn : s.turn clock t = (.returned, { (drainReady clock t s.sources s).2 with
      sources := (drainReady clock t s.sources s).1 }.drainAll clock) := by
    unfold turn
    rw [hp, hm]
    rfl
  rw [hturn]
  refine ⟨rfl, s.sources.flatMap (fun source => (source.next t).1.map source.mark)
    ++ s.sources.flatMap (fun source =>
        ((source.next t).2.elim [] fun left => Lines.rest left.splitter.partialLine).map source.mark), ?_, ?_, ?_⟩
  · rw [drainAll_written]
    dsimp only
    rw [hw.written, hleft, flatMap_left, List.append_assoc]
  · intro source hs
    rw [writtenBy_append, writtenBy_flatMap hn hs, writtenBy_flatMap hn hs]
    rfl
  · intro w hw
    rcases List.mem_append.mp hw with hw | hw
    · exact hlines _ w hw
    · exact hlines _ w hw

theorem drainReady_ids (clock : Nat → Timestamp) (t : Wake) (sources : List Source) (s : Oxlogd) :
    ((drainReady clock t sources s).1.map (·.id)).Sublist (sources.map (·.id)) := by
  rw [(drainReady_eq clock t sources s).1]
  induction sources with
  | nil => exact .slnil
  | cons source rest ih =>
    rw [List.filterMap_cons]
    cases hl : (source.next t).2 with
    | none => exact ih.cons _
    | some left =>
      have hid : left.id = source.id := congrArg (fun mark => (mark []).source) (Source.mark_of_next hl)
      rw [List.map_cons, List.map_cons, hid]
      exact ih.cons_cons _

/-- The sources are told apart by their ids. -/
structure Distinct (s : Oxlogd) : Prop where
  nodup : (s.sources.map (·.id)).Nodup
  lt : ∀ id ∈ s.sources.map (·.id), id < s.accepted

theorem Distinct.onSource (h : Distinct s) (id : Nat) {f : Source → Source} (hf : ∀ source, (f source).id = source.id) :
    Distinct (s.onSource id f) := by
  have hids : (s.onSource id f).sources.map (·.id) = s.sources.map (·.id) := by
    unfold Oxlogd.onSource
    rw [List.map_map]
    refine List.map_congr_left fun source _ => ?_
    rw [Function.comp_apply]
    split
    · exact hf source
    · rfl
  exact ⟨hids ▸ h.nodup, fun i hi => h.lt i (hids ▸ hi)⟩

/-- The next descriptor has an id of its own. -/
theorem Distinct.accept (h : Distinct s) (unit : Name) (pipe : Pipes.Pipe) :
    Distinct { s with
      sources := s.sources ++ [{ id := s.accepted, unit, pipe }], accepted := s.accepted + 1 } := by
  refine ⟨?_, fun id hid => ?_⟩
  · rw [List.map_append]
    refine List.nodup_append.mpr ⟨h.nodup, List.pairwise_singleton .., fun id hid id' hid' => ?_⟩
    rw [List.mem_singleton.mp hid']
    exact Nat.ne_of_lt (h.lt id hid)
  · rw [List.map_append] at hid
    rcases List.mem_append.mp hid with hid | hid
    · exact Nat.lt_succ_of_lt (h.lt id hid)
    · rw [List.mem_singleton.mp hid]
      exact Nat.lt_succ_self _

theorem Serving.distinct (h : Serving clock s) : Distinct s := by
  induction h with
  | start files => exact ⟨List.nodup_nil, fun _ hid => by cases hid⟩
  | @write s id what _ ih => exact ih.onSource id fun _ => Source.receive_id what
  | @hangUp s id _ ih => exact ih.onSource id fun _ => rfl
  | @turn s s' t _ ht ih =>
    have hsub := drainReady_ids clock t s.sources s
    have hacc := (drainReady_eq clock t s.sources s).2.accepted
    have hleft : Distinct { (drainReady clock t s.sources s).2 with sources := (drainReady clock t s.sources s).1 } :=
      ⟨hsub.nodup ih.nodup, fun id hid => hacc ▸ ih.lt id (hsub.subset hid)⟩
    unfold Oxlogd.turn at ht
    split at ht
    · cases ht
    · dsimp only at ht
      split at ht <;> cases ht
      · exact hleft
      · exact hleft
      · exact hleft.accept ..

end Oxlogd

/-! ## What the last read leaves -/

/-- What is in the pipe of a source, but for the newline of its last line, is
taken by the one read of this turn. -/
def Source.Emptied (t : Wake) (source : Source) : Prop :=
  match t.errors source.id with
  | none =>
    source.pipe.unread.length ≤ readSize
    ∨ source.pipe.unread.drop readSize = [newline] ∧ (source.pipe.unread.take readSize).getLast? ≠ some newline
  | some .again => source.pipe.unread = [] ∨ source.pipe.unread = [newline] ∧ source.splitter.partialLine ≠ []
  | some .other => source.pipe.unread = [] ∧ (source.pipe.writable = true ∨ source.splitter.partialLine = [])

namespace Source

/-- A source that is not ready is empty, and may still be written to. -/
theorem not_ready_iff : source.ready = false ↔ source.pipe.unread = [] ∧ source.pipe.writable = true := by
  simp [ready]

/-- A source that is not read has its partial line written. -/
theorem finish_of_unread (h : source.ready = false ∨ t.errors source.id = some .again) :
    source.finish t = Lines.lines newline source.splitter.partialLine [] := by
  have hnext : source.next t = ([], some (source.receive (t.late source.id))) := by
    unfold next read
    rcases h with h | h
    · simp [h]
    · simp [h]
  simp [finish, hnext, Lines.lines, Lines.feed]

theorem receive_unread (what : Bytes) :
    ∃ more, (source.receive what).pipe.unread = source.pipe.unread ++ more := by
  unfold receive
  split
  · exact ⟨what, rfl⟩
  · exact ⟨[], (List.append_nil _).symm⟩

/-- What is written of a source that can be read. -/
theorem finish_of_read (hr : source.ready = true) (he : t.errors source.id = none) :
    source.finish t = Lines.lines newline source.splitter.partialLine
      ((source.receive (t.late source.id)).pipe.unread.take readSize) := by
  unfold finish next
  simp only [hr, he, if_true]
  generalize hl : source.receive (t.late source.id) = later
  have hsp : later.splitter = source.splitter := by rw [← hl, receive_splitter]
  unfold read
  dsimp only
  split
  · next hempty =>
    rw [List.isEmpty_iff.mp hempty, Splitter.flush_eq, hsp]
    simp [Lines.lines, Lines.feed]
  · rw [Option.elim_some, Splitter.push_eq, hsp]
    exact Lines.push_eq_lines (by decide) ..

theorem finish_of_failed (hr : source.ready = true) (he : t.errors source.id = some .other) : source.finish t = [] := by
  unfold finish next read
  simp [hr, he]

/-- Everything a source had is written exactly if its pipe is emptied. -/
theorem finish_iff (t : Wake) (source : Source) :
    (source.splitter.partialLine ++ source.pipe.unread).Sublist (Lines.text newline (source.finish t))
      ↔ source.Emptied t := by
  have hunread : (source.ready = false ∨ t.errors source.id = some .again) →
      ((source.splitter.partialLine ++ source.pipe.unread).Sublist (Lines.text newline (source.finish t)) ↔
        source.pipe.unread = [] ∨ source.pipe.unread = [newline] ∧ source.splitter.partialLine ≠ []) := fun h => by
    rw [finish_of_unread h]
    exact Lines.sublist_text_lines_iff newline source.splitter.partialLine [] source.pipe.unread
  unfold Emptied
  cases hr : source.ready with
  | false =>
    obtain ⟨hempty, hw⟩ := not_ready_iff.mp hr
    rw [hunread (.inl hr), hempty]
    cases t.errors source.id with
    | none => simp
    | some e => cases e <;> simp [hw]
  | true =>
    cases he : t.errors source.id with
    | none =>
      obtain ⟨more, hmore⟩ := receive_unread (t.late source.id)
      rw [finish_of_read hr he, hmore, List.take_append]
      by_cases hle : source.pipe.unread.length ≤ readSize
      · refine iff_of_true ?_ (.inl hle)
        rw [Lines.text_lines, List.take_of_length_le hle, ← List.append_assoc, List.append_assoc]
        exact List.sublist_append_left ..
      · have hlt := Nat.lt_of_not_le hle
        have htake : source.pipe.unread.take readSize ≠ [] := by
          refine List.ne_nil_of_length_pos ?_
          rw [List.length_take, Nat.min_eq_left (Nat.le_of_lt hlt)]
          decide
        have hdrop : source.pipe.unread.drop readSize ≠ [] := by
          refine List.ne_nil_of_length_pos ?_
          rw [List.length_drop]
          exact Nat.sub_pos_of_lt hlt
        have h := Lines.sublist_text_lines_iff newline source.splitter.partialLine
          (source.pipe.unread.take readSize) (source.pipe.unread.drop readSize)
        rw [List.take_append_drop] at h
        rw [Nat.sub_eq_zero_of_le (Nat.le_of_lt hlt), List.take_zero, List.append_nil, h,
          ne_eq, Lines.feed_snd_eq_nil_iff htake, or_iff_right hdrop, or_iff_right hle]
    | some e =>
      cases e with
      | again => exact hunread (.inr he)
      | other =>
        have hready : source.pipe.unread = [] → source.pipe.writable = false := fun h => by
          simpa [ready, h] using hr
        rw [finish_of_failed hr he, Lines.text, List.map_nil, List.flatten_nil, List.sublist_nil,
          List.append_eq_nil_iff, and_comm]
        refine and_congr_right fun h => ?_
        rw [hready h]
        simp

end Source

namespace Oxlogd

/-- Once oxinit has closed the socket `serve` returns, and what was in a pipe or
held back of it is written first exactly if one read of the pipe takes it all. -/
theorem drains_before_exit_iff (h : Serving clock s) (hp : t.polled = true) (hm : t.message = some .closed) :
    (s.turn clock t).1 = .returned
    ∧ ∃ new, (s.turn clock t).2.written = s.written ++ new
      ∧ (∀ w ∈ new, ∃ source ∈ s.sources, w.source = source.id ∧ w.unit = source.unit)
      ∧ ((∀ source ∈ s.sources,
            (source.splitter.partialLine ++ source.pipe.unread).Sublist (Lines.text newline (writtenBy source.id new)))
          ↔ ∀ source ∈ s.sources, source.Emptied t) := by
  obtain ⟨hret, new, hw, hby, hunit⟩ := turn_closed h.distinct.nodup hp hm
  refine ⟨hret, new, hw, hunit, forall₂_congr fun source hs => ?_⟩
  rw [hby source hs]
  exact source.finish_iff t

/-- One service has written `what` to its pipe. -/
def fed (what : Bytes) : Oxlogd := { sources := [{ id := 0, unit := "a", pipe := { unread := what } }], accepted := 1 }

/-- A shipper that has been fed. -/
theorem fed_serving (clock : Nat → Timestamp) (what : Bytes) : Serving clock (fed what) :=
  .turn { message := some (.source "a" { unread := what }) } (.start {}) rfl

theorem drains_before_exit_iff_sample :
    ∃ new, ((fed [104, 105, 10, 120]).turn (fun _ => ⟨0, 0⟩) { message := some .closed }).2.written = new
      ∧ [104, 105, 10, 120].Sublist (Lines.text newline (writtenBy 0 new)) := by
  obtain ⟨-, new, hw, -, hiff⟩ := drains_before_exit_iff (t := { message := some .closed })
    (fed_serving (fun _ => ⟨0, 0⟩) [104, 105, 10, 120]) rfl rfl
  refine ⟨new, hw, hiff.mpr (fun source hs => ?_) _ (List.mem_singleton.mpr rfl)⟩
  rw [List.mem_singleton.mp hs]
  exact .inl (by decide)

/-- A pipe holds one byte more than is read at once. -/
theorem exits_with_a_pipe_unread :
    let s := fed (List.replicate (readSize + 1) 120)
    let r := s.turn (fun _ => ⟨0, 0⟩) { message := some .closed }
    Serving (fun _ => ⟨0, 0⟩) s ∧ r.1 = .returned
      ∧ ¬(List.replicate (readSize + 1) 120).Sublist (Lines.text newline (writtenBy 0 r.2.written)) := by
  have hs := fed_serving (fun _ => ⟨0, 0⟩) (List.replicate (readSize + 1) 120)
  obtain ⟨hret, new, hw, hby, -⟩ := turn_closed (t := { message := some .closed }) hs.distinct.nodup rfl rfl
  have hdrop : (List.replicate (readSize + 1) (120 : UInt8)).drop readSize = [120] := by
    rw [List.drop_replicate, Nat.add_sub_cancel_left, List.replicate_one]
  refine ⟨hs, hret, fun hsub => ?_⟩
  have hline : writtenBy 0 _ = _ := (congrArg (writtenBy 0) hw).trans (hby _ (List.mem_singleton.mpr rfl))
  rw [hline] at hsub
  have hemptied := (Source.finish_iff { message := some .closed }
    { id := 0, unit := "a", pipe := { unread := List.replicate (readSize + 1) 120 } }).mp hsub
  rcases hemptied with hle | ⟨hnl, -⟩
  · rw [List.length_replicate] at hle
    exact absurd hle (Nat.not_succ_le_self readSize)
  · rw [hdrop] at hnl
    exact absurd hnl (by decide)

end Oxlogd

end Oxinit.Log
