import Mathlib.Data.List.Basic
import Oxinit.Model.Notify
import Oxinit.Proof.Text

/-!
# What a datagram says

A datagram says that the service is ready if that is one of its lines, and of
the statuses it gives the last one; lines that mean nothing do not matter
(`parse_eq_some_iff`).
-/

namespace Oxinit.Notify

variable {line : List Char} {lines : List (List Char)} {message : Message} {pid : Pid} {body : Log.Bytes}

/-- The status that a line gives. -/
def statusOf (line : List Char) : Option (List Char) := "STATUS=".toList.isPrefixOf? line

/-- As much of a status as is held. -/
def bounded (value : List Char) : String := String.ofList (value.take 256)

theorem statusOf_eq_some_iff {value : List Char} : statusOf line = some value ↔ line = "STATUS=".toList ++ value := by
  rw [statusOf, List.isPrefixOf?_eq_some_iff_append_eq, eq_comm]

/-- What one line adds to a message. -/
theorem readLine_eq (message : Message) (line : List Char) : readLine message line =
    { pid := message.pid
      ready := message.ready || line = "READY=1".toList
      watchdog := message.watchdog || line = "WATCHDOG=1".toList
      status := ((statusOf line).map bounded).or message.status } := by
  have hready : Text.splitOnce '=' line = some ("READY".toList, "1".toList) ↔ line = "READY=1".toList :=
    Text.splitOnce_eq_some_iff (by decide)
  have hwatchdog : Text.splitOnce '=' line = some ("WATCHDOG".toList, "1".toList) ↔ line = "WATCHDOG=1".toList :=
    Text.splitOnce_eq_some_iff (by decide)
  have hstatus : ∀ value, Text.splitOnce '=' line = some ("STATUS".toList, value) ↔ statusOf line = some value := by
    intro value
    rw [Text.splitOnce_eq_some_iff (by decide), statusOf_eq_some_iff]
    rfl
  simp only [← hready, ← hwatchdog]
  unfold readLine
  cases h : Text.splitOnce '=' line with
  | none =>
    have hno : statusOf line = none := Option.eq_none_iff_forall_ne_some.mpr fun value hv => by
      rw [← hstatus, h] at hv
      cases hv
    simp [hno]
  | some keyValue =>
    obtain ⟨key, value⟩ := keyValue
    simp only [Option.some.injEq, Prod.mk.injEq]
    by_cases hk : key = "STATUS".toList
    · have hs : statusOf line = some value := (hstatus value).mp (by rw [h, hk])
      simp [hk, hs, bounded]
    · have hs : statusOf line = none := Option.eq_none_iff_forall_ne_some.mpr fun v hv => by
        rw [← hstatus, h] at hv
        exact hk (Prod.mk.inj (Option.some.inj hv)).1
      rw [if_neg hk, hs]
      by_cases hr : key = "READY".toList ∧ value = "1".toList
      · simp [hr]
      · by_cases hw : key = "WATCHDOG".toList ∧ value = "1".toList
        · simp [hw]
        · simp only [hr, hw, ↓reduceIte, decide_false, Bool.or_false, Option.map_none, Option.none_or]

/-- What the lines of a datagram say. -/
structure Says (lines : List (List Char)) (message : Message) : Prop where
  ready : message.ready = true ↔ "READY=1".toList ∈ lines
  watchdog : message.watchdog = true ↔ "WATCHDOG=1".toList ∈ lines
  status : message.status = (lines.filterMap statusOf).getLast?.map bounded

/-- What the lines of a datagram come to. -/
theorem foldl_readLine (lines : List (List Char)) (message : Message) : lines.foldl readLine message =
    { pid := message.pid
      ready := message.ready || lines.contains "READY=1".toList
      watchdog := message.watchdog || lines.contains "WATCHDOG=1".toList
      status := ((lines.filterMap statusOf).getLast?.map bounded).or message.status } := by
  induction lines generalizing message with
  | nil => simp
  | cons line lines ih =>
    have hstatus : ((line :: lines).filterMap statusOf).getLast?.map bounded =
        ((lines.filterMap statusOf).getLast?.map bounded).or ((statusOf line).map bounded) := by
      rw [List.filterMap_cons]
      cases statusOf line with
      | none => simp
      | some value => cases h : (lines.filterMap statusOf).getLast? <;> simp [List.getLast?_cons, h]
    rw [List.foldl_cons, ih, readLine_eq, hstatus]
    simp only [List.contains_cons, Bool.or_assoc, Option.or_assoc, eq_comm (a := line), beq_eq_decide]

/-- What is made of a datagram is what its lines say, and nothing is made of one
that is not text. -/
theorem parse_eq_some_iff : parse pid body = some message ↔
    ∃ text : String, body = Log.bytes text ∧ message.pid = pid ∧ Says (Text.lines text.toList) message := by
  rw [parse, Option.map_eq_some_iff]
  refine exists_congr fun text => and_congr Text.fromUTF8?_eq_some_iff ?_
  rw [foldl_readLine]
  constructor
  · rintro rfl
    exact ⟨rfl, by simp, by simp, Option.or_none ..⟩
  · rintro ⟨rfl, h⟩
    obtain ⟨sender, ready, watchdog, status⟩ := message
    have hready : ready = (Text.lines text.toList).contains "READY=1".toList := by
      rw [Bool.eq_iff_iff, List.contains_iff_mem]
      exact h.ready
    have hwatchdog : watchdog = (Text.lines text.toList).contains "WATCHDOG=1".toList := by
      rw [Bool.eq_iff_iff, List.contains_iff_mem]
      exact h.watchdog
    have hstatus : status = ((Text.lines text.toList).filterMap statusOf).getLast?.map bounded := h.status
    rw [hready, hwatchdog, hstatus]
    simp

/-! ## What can be said -/

theorem notMem_of_mem_lines {text : List Char} (h : line ∈ Text.lines text) : '\n' ∉ line := by
  have hsep : ∀ l ∈ Framework.Lines.lines '\n' [] text, '\n' ∉ l := fun l =>
    Framework.Lines.notMem_lines List.not_mem_nil
  rcases List.mem_append.mp h with h | h
  · obtain ⟨l, hl, rfl⟩ := List.mem_map.mp h
    have := hsep l (List.mem_append_left _ hl)
    unfold Text.dropReturn
    split
    · exact mt List.mem_of_mem_dropLast this
    · exact this
  · exact hsep line (List.mem_append_right _ h)

/-- A text that says as much. -/
def write (message : Message) : List Char :=
  (if message.ready then "READY=1\n".toList else []) ++ (if message.watchdog then "WATCHDOG=1\n".toList else []) ++
    match message.status with
    | none => []
    | some status => "STATUS=".toList ++ status.toList

/-- A status that is held as it is, and that is one line. -/
def Fits (message : Message) : Prop := ∀ status ∈ message.status, status.length ≤ 256 ∧ '\n' ∉ status.toList

/-- One of the lines that are there or not. -/
theorem lines_if (said : Bool) (rest : List Char) (h : '\n' ∉ line) (hr : Text.dropReturn line = line) :
    Text.lines ((if said then line ++ ['\n'] else []) ++ rest) = (if said then [line] else []) ++ Text.lines rest := by
  cases said
  · rfl
  · rw [if_pos rfl, if_pos rfl, List.append_assoc, List.singleton_append, Text.lines_cons h, hr, List.singleton_append]

/-- The lines of a message that is written. -/
theorem lines_write (h : Fits message) : Text.lines (write message) =
    (if message.ready then ["READY=1".toList] else []) ++ ((if message.watchdog then ["WATCHDOG=1".toList] else []) ++
      (message.status.map fun status => "STATUS=".toList ++ status.toList).toList) := by
  have hready := fun rest : List Char => lines_if message.ready rest
    (show '\n' ∉ "READY=1".toList by decide) rfl
  have hwatchdog := fun rest : List Char => lines_if message.watchdog rest
    (show '\n' ∉ "WATCHDOG=1".toList by decide) rfl
  rw [write, List.append_assoc]
  refine (hready _).trans (congrArg _ ((hwatchdog _).trans (congrArg _ ?_)))
  cases hs : message.status with
  | none => rfl
  | some status =>
    have hnl : '\n' ∉ "STATUS=".toList ++ status.toList := by simpa using (h status hs).2
    exact (Text.lines_of_notMem hnl).trans (Framework.Lines.rest_of_ne_nil (by simp))

theorem says_write (h : Fits message) : Says (Text.lines (write message)) message := by
  rw [lines_write h]
  have hnone : statusOf "READY=1".toList = none ∧ statusOf "WATCHDOG=1".toList = none := by decide
  obtain ⟨sender, ready, watchdog, status⟩ := message
  refine ⟨?_, ?_, ?_⟩
  · cases ready <;> cases watchdog <;> cases status <;> simp
  · cases ready <;> cases watchdog <;> cases status <;> simp
  · have hsaid : ∀ (said : Bool) line, statusOf line = none → (if said then [line] else []).filterMap statusOf = [] := by
      intro said line h
      cases said <;> simp [h]
    rw [List.filterMap_append, List.filterMap_append, hsaid ready _ hnone.1, hsaid watchdog _ hnone.2, List.nil_append,
      List.nil_append]
    cases status with
    | none => rfl
    | some status =>
      have hs : statusOf ("STATUS=".toList ++ status.toList) = some status.toList := statusOf_eq_some_iff.mpr rfl
      have hb : bounded status.toList = status := by
        rw [bounded, List.take_of_length_le (h status rfl).1, String.ofList_toList]
      rw [Option.map_some, Option.toList_some, List.filterMap_cons_some hs, List.filterMap_nil]
      exact congrArg some hb.symm

/-- A message that is written is read back. -/
theorem parse_write (h : Fits message) : parse message.pid (Log.bytes (String.ofList (write message))) = some message :=
  parse_eq_some_iff.mpr ⟨_, rfl, rfl, by rw [String.toList_ofList]; exact says_write h⟩

/-- A message that is read fits into a datagram. -/
theorem fits_of_parse (h : parse pid body = some message) : Fits message := by
  obtain ⟨text, -, -, hs⟩ := parse_eq_some_iff.mp h
  intro status hstatus
  rw [hs.status, Option.mem_def, Option.map_eq_some_iff] at hstatus
  obtain ⟨value, hvalue, rfl⟩ := hstatus
  obtain ⟨line, hline, hv⟩ := List.mem_filterMap.mp (List.mem_of_getLast? hvalue)
  have hnl := notMem_of_mem_lines hline
  rw [statusOf_eq_some_iff.mp hv] at hnl
  constructor
  · rw [bounded, String.length_ofList]
    exact List.length_take_le ..
  · rw [bounded, String.toList_ofList]
    exact fun hm => hnl (List.mem_append_right _ (List.mem_of_mem_take hm))

/-- A datagram is read for what its lines say, the last status for the first 256
characters of it; and any message whose status is as short and one line can be
sent. -/
theorem a_datagram_says_what_its_lines_say (pid : Pid) (message : Message) :
    (∀ body, parse pid body = some message ↔
      ∃ text : String, body = Log.bytes text ∧ message.pid = pid ∧ Says (Text.lines text.toList) message) ∧
    ((∃ body, parse pid body = some message) ↔ message.pid = pid ∧ Fits message) := by
  refine ⟨fun body => parse_eq_some_iff, fun ⟨body, h⟩ => ⟨?_, fits_of_parse h⟩, ?_⟩
  · obtain ⟨-, -, hp, -⟩ := parse_eq_some_iff.mp h
    exact hp
  · rintro ⟨rfl, h⟩
    exact ⟨_, parse_write h⟩

/-! ## What is read of a queue -/

open Framework.Batches

/-- Nothing was sent but who sent it, which ends a drain. -/
def isEmpty (d : Datagram) : Bool := (payload d).length = 0

/-- What is made of one datagram. -/
def messageOf (d : Datagram) : Option Message :=
  if isEmpty d then none else d.sender.bind fun pid => parse pid (payload d)

theorem drain_eq (queue : List Datagram) :
    drain queue = ((batch isEmpty queue).1.filterMap messageOf, (batch isEmpty queue).2) := by
  induction queue with
  | nil => rfl
  | cons d queue ih =>
    cases h : isEmpty d
    · have hd : ¬(payload d).length = 0 := of_decide_eq_false h
      rw [drain, if_neg hd, batch_cons h, List.filterMap_cons, messageOf, h, ih]
      cases d.sender with
      | none => rfl
      | some pid => cases hp : parse pid (payload d) <;> simp [hp]
    · have hd : (payload d).length = 0 := of_decide_eq_true h
      have hno : messageOf d = none := by rw [messageOf, h, if_pos rfl]
      rw [drain, if_pos hd, batch_cons_of_stops h, List.filterMap_cons_none hno, List.filterMap_nil]

/-- What each drain of the socket reads, as datagrams arrive, and what is left
on it. -/
def drains (queue : List Datagram) : List (Step Datagram) → List (List Message) × List Datagram
  | [] => ([], queue)
  | .arrive d :: steps => drains (queue ++ [d]) steps
  | .read :: steps => ((drain queue).1 :: (drains (drain queue).2 steps).1, (drains (drain queue).2 steps).2)

theorem drains_eq (queue : List Datagram) (steps : List (Step Datagram)) : drains queue steps =
    ((batches isEmpty queue steps).1.map (List.filterMap messageOf), (batches isEmpty queue steps).2) := by
  induction steps generalizing queue with
  | nil => rfl
  | cons step steps ih =>
    cases step with
    | arrive d => exact ih _
    | read =>
      rw [drains, ih, drain_eq]
      rfl

theorem drains_flatten_eq (queue : List Datagram) (steps : List (Step Datagram)) :
    (drains queue steps).1.flatten = (batches isEmpty queue steps).1.flatten.filterMap messageOf := by
  rw [drains_eq, List.filterMap_flatten]

/-- What has been handled and what is queued is what has come, in order. -/
theorem drains_flatten (queue : List Datagram) (steps : List (Step Datagram)) :
    (drains queue steps).1.flatten ++ (drains queue steps).2.filterMap messageOf =
      (queue ++ arrived steps).filterMap messageOf := by
  rw [drains_flatten_eq, drains_eq, ← List.filterMap_append, batches_flatten]

/-- Each message is read once, in the order in which they were sent, however
datagrams and drains interleave; and one that is on the socket is read by the
drain after as many as there are empty datagrams ahead of it. -/
theorem messages_are_read_once (before after : List (Step Datagram)) (d : Datagram) :
    let steps := before ++ .arrive d :: after
    ((drains [] steps).1.flatten ++ (drains [] steps).2.filterMap messageOf = (arrived steps).filterMap messageOf) ∧
    ((drains [] before).2.countP isEmpty < reads after →
      (arrived before ++ [d]).filterMap messageOf <+: (drains [] steps).1.flatten) := by
  refine ⟨drains_flatten .., fun h => ?_⟩
  rw [drains_eq] at h
  rw [drains_flatten_eq]
  exact (prefix_taken h).filterMap messageOf

/-! ## The inbox -/

variable {queue : List Datagram} {k : Kernel}

end Oxinit.Notify
