import Mathlib.Algebra.Order.BigOperators.Group.List
import Mathlib.Algebra.Order.Group.Nat
import Oxinit.Model.Clients
import Oxinit.Proof.Reachable
import Oxinit.Proof.Reload

/-!
# Which requests are answered

`report` says what is due for a request in terms of the state that it finds:
what is known of the units, or one line of text. `onRequest` sends it if it
encodes to no more than the wire takes, and sends nothing otherwise.
-/

namespace Oxinit

open Log (Bytes bytes)

variable {w : World} {s t : Supervisor} {j : Json}

namespace Supervisor

/-! ## What a description reads -/

theorem moves_congr (h : s.toMachine = t.toMachine) (mvs : List Move) :
    (s.moves mvs).toMachine = (t.moves mvs).toMachine := by
  induction mvs generalizing s t with
  | nil => exact h
  | cons mv mvs ih =>
    refine ih ?_
    simp only [world, note, onKernel, h]

theorem turn_congr (h : s.toMachine = t.toMachine) : (s.turn w).toMachine = (t.turn w).toMachine := by
  have hm := moves_congr h (w t.ticks).moves
  simp only [turn, h]
  rw [hm]

/-- A description depends on the machine alone. -/
theorem describe_congr {i : Instance} (h : s.toMachine = t.toMachine) :
    (describe w i s).1 = (describe w i t).1 ∧ (describe w i s).2.toMachine = (describe w i t).2.toMachine := by
  have ht := turn_congr (w := w) h
  exact ⟨by simp only [describe, ht, h], ht⟩

theorem describeAll_congr {l : List Instance} (h : s.toMachine = t.toMachine) :
    (describeAll w l s).1 = (describeAll w l t).1 := by
  induction l generalizing s t with
  | nil => rfl
  | cons i l ih =>
    obtain ⟨h1, h2⟩ := describe_congr (w := w) (i := i) h
    simp only [describeAll, h1, ih h2]

/-! ## What a reload says -/

/-- Whether what the directories hold for a unit is not what is known of it. -/
def differs (m : Manager) (p : Name × Unit) : Bool := m.unitOf p.1 ≠ some p.2

/-- The units that a reload changes, and those that it leaves alone because
they are running. -/
def changedBy (m : Manager) (l : List (Name × Unit)) : List Name :=
  (l.filter fun p => differs m p && !m.busy p.1).map (·.1)

def skippedBy (m : Manager) (l : List (Name × Unit)) : List Name :=
  (l.filter fun p => differs m p && m.busy p.1).map (·.1)

/-- A unit of a reload is changed, skipped, or as it was. -/
theorem reloadUnit_lists (acc : List Name × List Name × Supervisor) (p : Name × Unit) :
    (reloadUnit w acc p).1 = acc.1 ++ changedBy acc.2.2.toManager [p]
      ∧ (reloadUnit w acc p).2.1 = acc.2.1 ++ skippedBy acc.2.2.toManager [p] := by
  obtain ⟨changed, skipped, s⟩ := acc
  simp only [reloadUnit, changedBy, skippedBy, differs]
  cases hi : s.instances[p.1]? with
  | none => simp [Manager.unitOf_of_none hi, Manager.busy_of_none hi]
  | some i =>
    by_cases hu : i.unit = p.2
    · simp [Manager.unitOf_of_get hi, hu]
    · cases hb : isIdle i.state <;> simp [Manager.unitOf_of_get hi, Manager.busy_of_get hi, hu, hb]

theorem changedBy_congr (m m' : Manager) (l : List (Name × Unit))
    (h : ∀ n ∈ l.map (·.1), m'.busy n = m.busy n ∧ m'.unitOf n = m.unitOf n) :
    changedBy m' l = changedBy m l ∧ skippedBy m' l = skippedBy m l := by
  unfold changedBy skippedBy differs
  constructor
  all_goals
    refine congrArg _ (List.filter_congr fun p hp => ?_)
    obtain ⟨hb, hu⟩ := h p.1 (List.mem_map_of_mem hp)
    rw [hb, hu]

theorem changedBy_cons {m : Manager} {p : Name × Unit} {l : List (Name × Unit)} :
    changedBy m (p :: l) = changedBy m [p] ++ changedBy m l
      ∧ skippedBy m (p :: l) = skippedBy m [p] ++ skippedBy m l := by
  unfold changedBy skippedBy
  rw [← List.map_append, ← List.map_append, ← List.filter_append, ← List.filter_append]
  exact ⟨rfl, rfl⟩

theorem reloadUnits_lists {l : List (Name × Unit)} (hl : (l.map (·.1)).Nodup)
    (acc : List Name × List Name × Supervisor) :
    (l.foldl (reloadUnit w) acc).1 = acc.1 ++ changedBy acc.2.2.toManager l
      ∧ (l.foldl (reloadUnit w) acc).2.1 = acc.2.1 ++ skippedBy acc.2.2.toManager l := by
  induction l generalizing acc with
  | nil => simp [changedBy, skippedBy]
  | cons p l ih =>
    rw [List.map_cons, List.nodup_cons] at hl
    obtain ⟨h1, h2⟩ := ih hl.2 (reloadUnit w acc p)
    -- the units of the rest are still as they were
    obtain ⟨hc, hs⟩ := changedBy_congr acc.2.2.toManager (reloadUnit w acc p).2.2.toManager l fun n hn => by
      have hne : p.1 ≠ n := fun he => hl.1 (he ▸ hn)
      have hi := reloadUnit_inst (w := w) (n := n) acc p
      rw [if_neg hne] at hi
      exact ⟨by rw [Manager.busy, Manager.busy, hi], by rw [Manager.unitOf, Manager.unitOf, hi]⟩
    obtain ⟨hc₁, hs₁⟩ := reloadUnit_lists (w := w) acc p
    obtain ⟨hc₂, hs₂⟩ := changedBy_cons (m := acc.2.2.toManager) (p := p) (l := l)
    rw [List.foldl_cons, h1, h2, hc, hs, hc₁, hs₁, hc₂, hs₂, List.append_assoc, List.append_assoc]
    exact ⟨rfl, rfl⟩

theorem reloadUnits_frame {l : List (Name × Unit)} {n : Name} (hn : n ∉ l.map (·.1))
    (acc : List Name × List Name × Supervisor) :
    (l.foldl (reloadUnit w) acc).2.2.instances[n]? = acc.2.2.instances[n]? := by
  induction l generalizing acc with
  | nil => rfl
  | cons p l ih =>
    rw [List.map_cons, List.mem_cons, not_or] at hn
    rw [List.foldl_cons, ih hn.2, reloadUnit_inst, if_neg (Ne.symm hn.1)]

/-- Only the instances of units whose file is gone count, and a reload has not
come to those yet. -/
theorem leftAlone_congr {units : Units} (h : ∀ n, units.contains n = false → s.instances[n]? = t.instances[n]?) :
    leftAlone units s = leftAlone units t := by
  let alone : Name → Instance → Bool := fun n i => !units.contains n && !isIdle i.state
  have he : (s.instances.filter alone).Equiv (t.instances.filter alone) := by
    refine Std.TreeMap.Equiv.of_forall_constGet?_eq fun n => ?_
    rw [Std.TreeMap.getElem?_filter', Std.TreeMap.getElem?_filter']
    cases hn : units.contains n with
    | false => rw [h n hn]
    | true => cases s.instances[n]? <;> cases t.instances[n]? <;> simp [Option.filter, alone, hn]
  have hl := he.toList_eq
  rw [Std.TreeMap.toList_filter, Std.TreeMap.toList_filter] at hl
  exact congrArg (List.map (·.1)) hl

/-- What a reload answers. -/
theorem reload_report :
    (reload w s).1 =
      if (onDisk w s).errors.isEmpty then
        .accepted (reloadMessage (changedBy s.toManager (onDisk w s).units.toList)
          (skippedBy s.toManager (onDisk w s).units.toList ++ leftAlone (onDisk w s).units s))
      else .error ("; ".intercalate ((onDisk w s).errors.map UnitError.toString)) := by
  have hm : (s.turn w).toManager = s.toManager := turn_toManager ..
  unfold reload onDisk
  dsimp only
  generalize loadDirsIn (s.turn w).kernel.disk = loaded
  split
  · obtain ⟨h1, h2⟩ := reloadUnits_lists (w := w) (Graph.keys_nodup loaded.units) ([], [], s.turn w)
    have h3 : leftAlone loaded.units (loaded.units.toList.foldl (reloadUnit w) ([], [], s.turn w)).2.2
        = leftAlone loaded.units s := by
      refine leftAlone_congr fun n hn => ?_
      have hkey : n ∉ loaded.units.toList.map Prod.fst := by
        rw [Std.TreeMap.map_fst_toList_eq_keys, Std.TreeMap.mem_keys, ← Std.TreeMap.contains_iff_mem, hn]
        decide
      rw [reloadUnits_frame hkey, hm]
    rw [h1, h2, h3, List.nil_append, List.nil_append, hm]
  · rfl

/-! ## The answer that is due -/

/-- What is due for a request, in the state that it finds. -/
def report (w : World) (s : Supervisor) : Request → Response
  | .list => .units (describeAll w (s.instances.toList.map (·.2)) s).1
  | .status unit =>
    match s.instances[unit]? with
    | some i => .units [(describe w i s).1]
    | none => unknown unit
  | .start unit =>
    if !s.knows unit then unknown unit
    else if s.shuttingDown then refused "the machine is shutting down"
    else .accepted ("started " ++ unit)
  | .stop unit => if !s.knows unit then unknown unit else .accepted ("stopping " ++ unit)
  | .restart unit =>
    if !s.knows unit then unknown unit
    else if s.shuttingDown then refused "the machine is shutting down"
    else .accepted ("restarting " ++ unit)
  | .reload =>
    if (onDisk w s).errors.isEmpty then
      .accepted (reloadMessage (changedBy s.toManager (onDisk w s).units.toList)
        (skippedBy s.toManager (onDisk w s).units.toList ++ leftAlone (onDisk w s).units s))
    else .error ("; ".intercalate ((onDisk w s).errors.map UnitError.toString))

/-- A request is answered with what is due. -/
theorem handle_report (request : Request) : (handle w request s).1 = report w s request := by
  have hn : (s.note (.request request)).toMachine = s.toMachine := rfl
  unfold handle report
  cases request with
  | list => exact congrArg Response.units (describeAll_congr hn)
  | status unit =>
    dsimp only
    rw [show (s.note (.request (.status unit))).instances[unit]? = s.instances[unit]? from rfl]
    cases s.instances[unit]? with
    | none => rfl
    | some i => exact congrArg (fun r => Response.units [r]) (describe_congr hn).1
  | start unit =>
    dsimp only
    rw [show (s.note (.request (.start unit))).knows unit = s.knows unit from rfl]
    rw [show (s.note (.request (.start unit))).shuttingDown = s.shuttingDown from rfl]
    cases s.knows unit <;> cases s.shuttingDown <;> rfl
  | stop unit =>
    dsimp only
    rw [show (s.note (.request (.stop unit))).knows unit = s.knows unit from rfl]
    cases s.knows unit <;> rfl
  | restart unit =>
    dsimp only
    rw [show (s.note (.request (.restart unit))).knows unit = s.knows unit from rfl]
    rw [show (s.note (.request (.restart unit))).shuttingDown = s.shuttingDown from rfl]
    cases s.knows unit <;> cases s.shuttingDown <;> rfl
  | reload =>
    dsimp only
    rw [reload_report, onDisk_note]
    rfl

end Supervisor

/-! ## The control socket -/

/-- What a client is due for a message: the text of the error if it does not
decode. -/
def due (j : Json) (w : World) (s : Supervisor) (message : Bytes) : Response :=
  match j.toRequest (message.take Ipc.maxMessage) with
  | .ok request => s.report w request
  | .error e => .error ("decode: " ++ e)

namespace Clients

variable {Fd : Type} {c : Clients Fd} {client : Client Fd} {socket : Fd → Option Bytes} {id : Nat} {message : Bytes}

/-- What goes out for a client when a response is due. -/
def answered (j : Json) (id : Nat) (r : Response) (c : Clients Fd) : Option (Fd × Bytes) :=
  match Ipc.encode j r with
  | .ok bytes => c.reply id bytes
  | .error _ => none

/-- Of what a client sent, as much as the buffer holds is read. -/
theorem recv_of_client (hc : c.client id = some client) (hs : socket client.fd = some message) (hm : message ≠ []) :
    c.recv socket id = some (message.take Ipc.maxMessage) := by
  have hmax : ¬Ipc.maxMessage = 0 := by decide
  simp [recv, hc, hs, whole, receive, hmax, hm]

/-- The response that is due goes out if it fits into a message. -/
theorem answered_eq (hc : c.client id = some client) (r : Response) :
    c.answered j id r =
      if (j.ofResponse r).length ≤ Ipc.maxMessage then some (client.fd, j.ofResponse r) else none := by
  unfold answered Ipc.encode
  by_cases hr : (j.ofResponse r).length ≤ Ipc.maxMessage
  · simp [Nat.not_lt.mpr hr, hr, reply, hc]
  · simp [Nat.lt_of_not_le hr, hr]

/-- One reply, on the descriptor of the client that asked, if what is due fits
into a message; else none. Either way the connection is closed. -/
theorem onRequest_sent (hc : c.client id = some client) (hs : socket client.fd = some message) (hm : message ≠ []) :
    (c.onRequest j w socket id s).1 =
        (if (j.ofResponse (due j w s message)).length ≤ Ipc.maxMessage then
          some (client.fd, j.ofResponse (due j w s message)) else none)
      ∧ (c.onRequest j w socket id s).2.1 = c.close id := by
  unfold onRequest due
  rw [recv_of_client hc hs hm]
  dsimp only
  cases hd : j.toRequest (message.take Ipc.maxMessage) with
  | ok request =>
    have hdec : Ipc.decode j (message.take Ipc.maxMessage) = .ok request := by
      unfold Ipc.decode
      rw [hd]
      rfl
    rw [hdec]
    dsimp only
    rw [Supervisor.handle_report]
    exact ⟨answered_eq hc _, rfl⟩
  | error e =>
    have hdec : Ipc.decode j (message.take Ipc.maxMessage) = .error (.decode e) := by
      unfold Ipc.decode
      rw [hd]
      rfl
    rw [hdec]
    exact ⟨answered_eq hc _, rfl⟩

/-- A client that sent something is answered, once and on its own connection, if
and only if the answer that is due encodes to no more than the wire takes; it is
let go in any case. -/
theorem answered_iff (hc : c.client id = some client) (hs : socket client.fd = some message) (hm : message ≠ []) :
    ((∃ reply, (c.onRequest j w socket id s).1 = some (client.fd, reply)) ↔
        (j.ofResponse (due j w s message)).length ≤ Ipc.maxMessage) ∧
      (c.onRequest j w socket id s).2.1.client id = none := by
  obtain ⟨hsent, hclosed⟩ := onRequest_sent (j := j) (w := w) (s := s) hc hs hm
  refine ⟨?_, ?_⟩
  · rw [hsent]
    split
    · next hle => exact iff_of_true ⟨_, rfl⟩ hle
    · next hgt => exact iff_of_false (fun ⟨_, h⟩ => by cases h) hgt
  · rw [hclosed, Clients.client, close, List.find?_eq_none]
    intro other ho
    simpa using (List.mem_filter.mp ho).2

end Clients

/-- A string without anything to escape, as `serde_json` writes it. -/
def quoted (s : String) : String := "\"" ++ s ++ "\""

def quotedOr : Option String → String
  | some s => quoted s
  | none => "null"

def numberOr : Option Nat → String
  | some n => toString n
  | none => "null"

def UnitStatus.json (u : UnitStatus) : String :=
  "\x7b\"name\":" ++ quoted u.name ++ ",\"kind\":" ++ quoted u.kind ++ ",\"description\":" ++ quoted u.description
    ++ ",\"state\":" ++ quoted u.state ++ ",\"pid\":" ++ numberOr u.pid ++ ",\"restarts\":" ++ toString u.restarts
    ++ ",\"status\":" ++ quotedOr u.status ++ ",\"next-elapse\":" ++ numberOr u.nextElapse
    ++ ",\"memory\":" ++ numberOr u.memory ++ ",\"tasks\":" ++ numberOr u.tasks ++ "\x7d"

def Response.json : Response → String
  | .units list => "\x7b\"units\":[" ++ ",".intercalate (list.map UnitStatus.json) ++ "]\x7d"
  | .accepted message => "\x7b\"accepted\":\x7b\"message\":" ++ quoted message ++ "\x7d\x7d"
  | .error message => "\x7b\"error\":\x7b\"message\":" ++ quoted message ++ "\x7d\x7d"

/-- The encoding of answers without anything to escape, and the decoding of the
request for a list. -/
def plainJson : Json where
  toRequest text := if text = bytes (quoted "list") then .ok .list else .error "expected value at line 1 column 1"
  ofResponse r := bytes r.json

/-- One target is known, and the client is told of it. -/
theorem Clients.answered_iff_sample :
    let c : Clients Nat := { clients := [⟨2, 7⟩, ⟨3, 9⟩], nextId := 4 }
    let s := Supervisor.booted calm [bootTarget []]
    ∃ reply, (c.onRequest plainJson calm (fun _ => some (bytes (quoted "list"))) 3 s).1 = some (9, reply) := by
  intro c s
  have hc : c.client 3 = some ⟨3, 9⟩ := by decide
  exact (answered_iff hc (Eq.refl (some (bytes (quoted "list")))) (by decide)).1.mpr (by decide +kernel)

/-! ## Answers that are too long -/

/-- An encoding that writes out the descriptions in a list. -/
def Json.Spells (j : Json) : Prop :=
  ∀ list : List UnitStatus, ∀ u ∈ list, u.description.utf8ByteSize ≤ (j.ofResponse (.units list)).length

theorem size_append_left (a b : String) : a.utf8ByteSize ≤ (a ++ b).utf8ByteSize := by
  rw [String.utf8ByteSize_append]
  exact Nat.le_add_right ..

theorem size_append_right (a b : String) : b.utf8ByteSize ≤ (a ++ b).utf8ByteSize := by
  rw [String.utf8ByteSize_append]
  exact Nat.le_add_left ..

/-- A piece is no longer than the whole. -/
theorem size_le_intercalate {x : String} {l : List String} (h : x ∈ l) :
    x.utf8ByteSize ≤ (",".intercalate l).utf8ByteSize := by
  induction l with
  | nil => exact absurd h List.not_mem_nil
  | cons y l ih =>
    cases l with
    | nil => rw [List.mem_singleton.mp h, String.intercalate_singleton]
    | cons z l =>
      rw [String.intercalate_cons_cons]
      rcases List.mem_cons.mp h with rfl | h
      · exact (size_append_left _ _).trans (size_append_left _ _)
      · exact (ih h).trans (size_append_right _ _)

/-- The encoding writes descriptions out. -/
theorem plainJson_spells : plainJson.Spells := by
  intro list u hu
  have hquoted : u.description.utf8ByteSize ≤ (quoted u.description).utf8ByteSize :=
    (size_append_right _ _).trans (size_append_left _ _)
  have hjson : (quoted u.description).utf8ByteSize ≤ u.json.utf8ByteSize := by
    -- fifteen pieces stand after the description
    unfold UnitStatus.json
    iterate 15 apply le_trans ?_ (size_append_left _ _)
    exact size_append_right _ _
  have hlist := size_le_intercalate (List.mem_map_of_mem (f := UnitStatus.json) hu)
  show _ ≤ (Response.json (.units list)).utf8ByteSize
  exact ((hquoted.trans hjson).trans hlist).trans ((size_append_right _ _).trans (size_append_left _ _))

/-- A list describes its units as their files do. -/
theorem Supervisor.describeAll_description (l : List Instance) (s : Supervisor) :
    (describeAll w l s).1.map (·.description) = l.map (·.unit.description) := by
  induction l generalizing s with
  | nil => rfl
  | cons i l ih => exact congrArg (i.unit.description :: ·) (ih _)

/-- One description that is longer than a message leaves a list unanswered. -/
theorem Clients.unanswered_of_description {Fd : Type} {c : Clients Fd} {client : Client Fd} {socket : Fd → Option Bytes}
    {id : Nat} {message : Bytes} {name : Name} {i : Instance} (hj : j.Spells)
    (hd : j.toRequest (message.take Ipc.maxMessage) = .ok .list) (hi : s.instances[name]? = some i)
    (hlong : Ipc.maxMessage < i.unit.description.utf8ByteSize) (hc : c.client id = some client)
    (hs : socket client.fd = some message) (hm : message ≠ []) : (c.onRequest j w socket id s).1 = none := by
  have hdue : due j w s message = .units (s.describeAll w (s.instances.toList.map (·.2))).1 := by
    unfold due
    rw [hd]
    rfl
  have hmem : i.unit.description ∈ (s.describeAll w (s.instances.toList.map (·.2))).1.map (·.description) := by
    rw [Supervisor.describeAll_description, List.map_map]
    exact List.mem_map.mpr ⟨(name, i), Std.TreeMap.mem_toList_iff_getElem?_eq_some.mpr hi, rfl⟩
  obtain ⟨u, hu, hud⟩ := List.mem_map.mp hmem
  have hbig : ¬(j.ofResponse (due j w s message)).length ≤ Ipc.maxMessage := by
    have := hj _ u hu
    rw [hud] at this
    rw [hdue]
    omega
  rw [(onRequest_sent hc hs hm).1, if_neg hbig]

/-- A text of `2 ^ n` bytes. -/
def doubled : Nat → String
  | 0 => "a"
  | n + 1 => doubled n ++ doubled n

theorem doubled_size (n : Nat) : (doubled n).utf8ByteSize = 2 ^ n := by
  induction n with
  | zero => rfl
  | succ n ih =>
    rw [doubled, String.utf8ByteSize_append, ih]
    omega

/-- The unit started at boot, described at length. -/
def wordy : Unit := { name := defaultUnit, description := doubled 17, kind := .target }

/-- A machine with one unit whose description is longer than a message: who
asks for the list of units hears nothing. -/
theorem Clients.list_goes_unanswered :
    let c : Clients Nat := { clients := [⟨0, 7⟩], nextId := 1 }
    (c.onRequest plainJson calm (fun _ => some (bytes (quoted "list"))) 0 (Supervisor.booted calm [wordy])).1 = none := by
  intro c
  obtain ⟨i, hi, hu⟩ : ∃ i, (Supervisor.booted calm [wordy]).instances[defaultUnit]? = some i ∧ i.unit = wordy :=
    ⟨_, rfl, rfl⟩
  have hlong : Ipc.maxMessage < i.unit.description.utf8ByteSize := by
    rw [hu, wordy, doubled_size]
    decide
  have hc : c.client 0 = some ⟨0, 7⟩ := by decide
  have hm : bytes (quoted "list") ≠ [] := by decide
  exact unanswered_of_description plainJson_spells (by decide) hi hlong hc (Eq.refl (some (bytes (quoted "list")))) hm

end Oxinit
