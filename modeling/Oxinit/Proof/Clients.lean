import Mathlib.Data.List.Nodup
import Mathlib.Tactic.Common
import Oxinit.Framework.Runs
import Oxinit.Model.Clients

/-!
# Whom an id stands for

An id is given to each connection by a counter that wraps around, and a client
may stay for as long as it likes. As long as no two clients have one id, what is
done for an id is done for one connection (`sound_iff`); and no two have, exactly
if no connection is taken a multiple of `2 ^ 32` connections after one that
nothing has closed (`sound_iff_timely`).
-/

namespace Oxinit.Clients

open Framework (Since)
open Log (Bytes bytes)

variable {Fd : Type} {c : Clients Fd} {client other : Client Fd} {id : Nat} {calls : List (Call Fd)}

/-- The ids in use. -/
def ids (c : Clients Fd) : List Nat := c.clients.map (·.id)

/-- What is done for a client's id is done for that client. -/
structure Sound (c : Clients Fd) : Prop where
  distinct : c.ids.Nodup
  few : c.clients.length ≤ maxClients
  fd : ∀ client ∈ c.clients, c.fd client.id = some client.fd
  recv : ∀ client ∈ c.clients, ∀ socket, c.recv socket client.id = whole (socket client.fd)
  reply : ∀ client ∈ c.clients, ∀ message, c.reply client.id message = some (client.fd, message)
  close : ∀ client ∈ c.clients, ∀ other,
    other ∈ (c.close client.id).clients ↔ other ∈ c.clients ∧ other ≠ client

theorem client_of_mem (h : c.ids.Nodup) (hc : client ∈ c.clients) : c.client client.id = some client := by
  have hsome : (c.client client.id).isSome := List.find?_isSome.mpr ⟨client, hc, by simp⟩
  obtain ⟨other, ho⟩ := Option.isSome_iff_exists.mp hsome
  have hid : other.id = client.id := by simpa using List.find?_some ho
  obtain rfl : other = client := List.inj_on_of_nodup_map h (List.mem_of_find?_eq_some ho) hc hid
  exact ho

/-- Ids stand for one client each exactly if no two clients share one. -/
theorem sound_iff : Sound c ↔ c.ids.Nodup ∧ c.clients.length ≤ maxClients := by
  refine ⟨fun h => ⟨h.distinct, h.few⟩, fun ⟨hd, hf⟩ => ⟨hd, hf, ?_, ?_, ?_, ?_⟩⟩
  · intro client hc
    rw [fd, client_of_mem hd hc]
    rfl
  · intro client hc socket
    rw [recv, client_of_mem hd hc]
    rfl
  · intro client hc message
    rw [reply, client_of_mem hd hc]
    rfl
  · intro client hc other
    rw [close, List.mem_filter]
    refine and_congr_right fun ho => ?_
    simp only [ne_eq, decide_not, Bool.not_eq_true', decide_eq_false_iff_not]
    exact not_congr ⟨List.inj_on_of_nodup_map hd ho hc, congrArg _⟩

/-! ## What one call does to the ids -/

/-- Whether a call finds a connection and takes it. -/
def Takes (c : Clients Fd) : Call Fd → Prop
  | .accept pending => pending.isSome ∧ c.clients.length < maxClients
  | .close _ => False

instance (c : Clients Fd) : DecidablePred (Takes c)
  | .accept pending => inferInstanceAs (Decidable (pending.isSome ∧ c.clients.length < maxClients))
  | .close _ => inferInstanceAs (Decidable False)

/-- What one call does. -/
theorem step_cases (c : Clients Fd) (e : Call Fd) :
    (∃ fd, Takes c e ∧ (∀ id, e ≠ .close id) ∧
      step c e = { clients := c.clients ++ [{ id := c.nextId, fd }], nextId := (c.nextId + 1) % 2 ^ 32 }) ∨
    (∃ id, ¬ Takes c e ∧ step c e = c.close id ∧ e = .close id) ∨
    ¬ Takes c e ∧ step c e = c ∧ ∀ id, e ≠ .close id := by
  match e with
  | .close id => exact .inr (.inl ⟨id, not_false, rfl, rfl⟩)
  | .accept none => exact .inr (.inr ⟨fun h => absurd h.1 (by simp), rfl, by simp⟩)
  | .accept (some fd) =>
    by_cases hroom : maxClients ≤ c.clients.length
    · exact .inr (.inr ⟨fun h => absurd h.2 (by omega), by simp [step, accept, hroom], by simp⟩)
    · exact .inl ⟨fd, ⟨rfl, by omega⟩, by simp, by simp [step, accept, hroom]⟩

/-- An id is a client's until it is closed. -/
theorem mem_ids_step (c : Clients Fd) (e : Call Fd) :
    id ∈ (step c e).ids ↔ (Takes c e ∧ c.nextId = id) ∨ id ∈ c.ids ∧ ¬ e = .close id := by
  obtain ⟨fd, ht, hne, he⟩ | ⟨k, ht, he, rfl⟩ | ⟨ht, he, hne⟩ := step_cases c e
  · simp [he, ht, hne, ids, or_comm, eq_comm]
  · simp only [he, ht, false_and, false_or, ids, close, List.mem_map, List.mem_filter, Call.close.injEq]
    grind
  · simp [he, ht, hne]

/-- Who is connected: who came and has not been closed since. -/
theorem mem_ids_run :
    id ∈ (run calls).ids ↔ Since step (fun c e => Takes c e ∧ c.nextId = id) (· = .close id) {} calls :=
  Framework.since_iff (P := fun c => id ∈ c.ids) (by simp [ids]) (fun c e => mem_ids_step c e) calls

/-! ## The counter -/

/-- How many connections these calls take. -/
def taken (c : Clients Fd) : List (Call Fd) → Nat
  | [] => 0
  | e :: calls => (if Takes c e then 1 else 0) + taken (step c e) calls

/-- The counter goes up by one for each client that is taken, and wraps around. -/
theorem nextId_step (h : c.nextId < 2 ^ 32) (e : Call Fd) :
    (step c e).nextId = (c.nextId + if Takes c e then 1 else 0) % 2 ^ 32 := by
  obtain ⟨fd, ht, -, he⟩ | ⟨k, ht, he, -⟩ | ⟨ht, he, -⟩ := step_cases c e
  · rw [he, if_pos ht]
  · rw [he, if_neg ht, Nat.add_zero, Nat.mod_eq_of_lt h]
    rfl
  · rw [he, if_neg ht, Nat.add_zero, Nat.mod_eq_of_lt h]

theorem nextId_foldl (h : c.nextId < 2 ^ 32) : (calls.foldl step c).nextId = (c.nextId + taken c calls) % 2 ^ 32 := by
  induction calls generalizing c with
  | nil => exact (Nat.mod_eq_of_lt h).symm
  | cons e calls ih =>
    have hstep := nextId_step h e
    rw [List.foldl_cons, ih (hstep ▸ Nat.mod_lt _ (by decide)), hstep, taken, Nat.mod_add_mod, Nat.add_assoc]

theorem nextId_run_lt (calls : List (Call Fd)) : (run calls).nextId < 2 ^ 32 := by
  rw [run, nextId_foldl (Nat.two_pow_pos 32)]
  exact Nat.mod_lt _ (by decide)

/-- The counter is back where it was when a multiple of `2 ^ 32` connections have been taken. -/
theorem nextId_foldl_eq_iff (calls : List (Call Fd)) (h : c.nextId < 2 ^ 32) :
    (calls.foldl step c).nextId = c.nextId ↔ 2 ^ 32 ∣ taken c calls := by
  rw [nextId_foldl h]
  omega

theorem run_append (l₁ l₂ : List (Call Fd)) : run (l₁ ++ l₂) = l₂.foldl step (run l₁) := List.foldl_append

theorem run_concat (l : List (Call Fd)) (e : Call Fd) : run (l ++ [e]) = step (run l) e := List.foldl_concat ..

/-! ## Which runs are sound -/

/-- No connection is taken a multiple of `2 ^ 32` connections after another whose
id nothing has closed in between. -/
def Timely (calls : List (Call Fd)) : Prop :=
  ∀ l₁ a l₂ b, l₁ ++ a :: l₂ ++ [b] <+: calls → Takes (run l₁) a → Takes (run (l₁ ++ a :: l₂)) b →
    2 ^ 32 ∣ 1 + taken (step (run l₁) a) l₂ → .close (run l₁).nextId ∈ l₂

/-- The counter comes back after a multiple of `2 ^ 32` clients. -/
theorem nextId_run_append {a : Call Fd} {l₁ l₂ : List (Call Fd)} (ha : Takes (run l₁) a) :
    (run (l₁ ++ a :: l₂)).nextId = (run l₁).nextId ↔ 2 ^ 32 ∣ 1 + taken (step (run l₁) a) l₂ := by
  have h := nextId_foldl_eq_iff (a :: l₂) (nextId_run_lt l₁)
  rwa [taken, if_pos ha, ← run_append] at h

/-- The counter is at the id of a client still connected exactly if it has gone
all the way round since. -/
theorem nextId_mem_ids_iff : (run calls).nextId ∈ (run calls).ids ↔ ∃ l₁ a l₂, calls = l₁ ++ a :: l₂ ∧
    Takes (run l₁) a ∧ 2 ^ 32 ∣ 1 + taken (step (run l₁) a) l₂ ∧ .close (run l₁).nextId ∉ l₂ := by
  rw [mem_ids_run]
  constructor
  · rintro ⟨l₁, a, l₂, rfl, ⟨ha, hid⟩, hclose⟩
    refine ⟨l₁, a, l₂, rfl, ha, (nextId_run_append ha).mp hid.symm, fun hmem => ?_⟩
    exact hclose _ hmem (congrArg _ hid)
  · rintro ⟨l₁, a, l₂, rfl, ha, hdvd, hclose⟩
    have hid := (nextId_run_append ha).mpr hdvd
    exact ⟨l₁, a, l₂, rfl, ⟨ha, hid.symm⟩, fun e he heq => hclose (hid ▸ heq ▸ he)⟩

/-- No id comes back while it is in use. -/
theorem timely_iff : Timely calls ↔
    ∀ l b, l ++ [b] <+: calls → Takes (run l) b → (run l).nextId ∉ (run l).ids := by
  constructor
  · intro h l b hl hb hmem
    obtain ⟨l₁, a, l₂, rfl, ha, hdvd, hclose⟩ := nextId_mem_ids_iff.mp hmem
    exact hclose (h l₁ a l₂ b hl ha hb hdvd)
  · intro h l₁ a l₂ b hl ha hb hdvd
    by_contra hclose
    exact h _ b hl hb (nextId_mem_ids_iff.mpr ⟨l₁, a, l₂, rfl, ha, hdvd, hclose⟩)

/-- One call keeps the ids distinct, where the counter has not come round to one of them. -/
theorem nodup_step {e : Call Fd} (h : c.ids.Nodup) (hnew : Takes c e → c.nextId ∉ c.ids) : (step c e).ids.Nodup := by
  obtain ⟨fd, ht, -, he⟩ | ⟨k, -, he, -⟩ | ⟨-, he, -⟩ := step_cases c e
  · rw [he, ids, List.map_append]
    exact List.nodup_append_comm.mp (List.nodup_cons.mpr ⟨hnew ht, h⟩)
  · rw [he]
    exact h.sublist (List.filter_sublist.map _)
  · rwa [he]

theorem length_step {e : Call Fd} (h : c.clients.length ≤ maxClients) : (step c e).clients.length ≤ maxClients := by
  obtain ⟨fd, ht, -, he⟩ | ⟨k, -, he, -⟩ | ⟨-, he, -⟩ := step_cases c e
  · have hroom : c.clients.length < maxClients := by
      match e, ht with
      | .accept _, ht => exact ht.2
    rw [he, List.length_append]
    exact hroom
  · rw [he]
    exact (List.length_filter_le ..).trans h
  · rwa [he]

/-- In every state that a run goes through, an id is one client's, exactly if no
client stays while the counter goes all the way round. -/
theorem sound_iff_timely : (∀ l, l <+: calls → Sound (run l)) ↔ Timely calls := by
  rw [timely_iff]
  constructor
  · intro h l b hl hb hmem
    have hd := (h _ hl).distinct
    obtain ⟨fd, -, -, he⟩ | ⟨k, hb', -⟩ | ⟨hb', -⟩ := step_cases (run l) b
    · rw [run_concat, he, ids, List.map_append] at hd
      exact (List.nodup_cons.mp (List.nodup_append_comm.mp hd)).1 hmem
    · exact hb' hb
    · exact hb' hb
  · intro h l hl
    induction l using List.reverseRecOn with
    | nil => exact sound_iff.mpr ⟨List.nodup_nil, Nat.zero_le _⟩
    | append_singleton l b ih =>
      obtain ⟨hd, hf⟩ := sound_iff.mp (ih ((List.prefix_append l [b]).trans hl))
      rw [run_concat]
      exact sound_iff.mpr ⟨nodup_step hd (h l b hl), length_step hf⟩

/-! ## A client that stays -/

/-- Others come and go. -/
def comings (n : Nat) : List (Call Nat) := (List.range n).flatMap fun k => [.accept (some 1), .close (k + 1)]

theorem comings_succ (n : Nat) : comings (n + 1) = comings n ++ [.accept (some 1), .close (n + 1)] := by
  rw [comings, List.range_succ, List.flatMap_append, List.flatMap_singleton]
  rfl

theorem run_comings {n : Nat} (h : n < 2 ^ 32) :
    run (.accept (some 0) :: comings n) = { clients := [{ id := 0, fd := 0 }], nextId := (n + 1) % 2 ^ 32 } := by
  induction n with
  | zero => rfl
  | succ n ih =>
    rw [comings_succ, ← List.cons_append, run_append, ih (by omega), Nat.mod_eq_of_lt h]
    simp [step, accept, close, maxClients]

/-- One client stays while the counter goes all the way round. -/
def wrapped : List (Call Nat) := .accept (some 0) :: comings (2 ^ 32 - 1) ++ [.accept (some 1)]

/-- The first client is still there when its id comes round. -/
theorem run_wrapped : run wrapped = { clients := [{ id := 0, fd := 0 }, { id := 0, fd := 1 }], nextId := 1 } := by
  rw [wrapped, run_concat, run_comings (by omega)]
  rfl

/-- What the second asks would be answered to the first, and closing one closes both. -/
theorem wrapped_is_not_sound : ¬ Sound (run wrapped) ∧ (run wrapped).fd 0 = some 0 ∧
    (∀ message, (run wrapped).reply 0 message = some (0, message)) ∧ ((run wrapped).close 0).clients = [] := by
  rw [run_wrapped]
  refine ⟨fun h => ?_, rfl, fun _ => rfl, rfl⟩
  exact absurd h.distinct (by decide)

/-! ## The handlers -/

/-- A handler makes no other calls. -/
theorem onConnect_calls (register : Fd → Bool) (pending : Option Fd) :
    c.onConnect register pending = step c (.accept pending) ∨
      ∃ id, c.onConnect register pending = [.accept pending, .close id].foldl step c := by
  unfold onConnect
  match h : c.accept pending with
  | (none, c') => exact .inl (congrArg Prod.snd h).symm
  | (some id, c') =>
    have hc' : step c (.accept pending) = c' := congrArg Prod.snd h
    dsimp only
    split
    · exact .inl hc'.symm
    · exact .inr ⟨id, by rw [List.foldl_cons, hc']; rfl⟩

/-- To answer a client is, for the clients, to close it. -/
theorem onRequest_calls (j : Json) (w : World) (socket : Fd → Option Bytes) (s : Supervisor) :
    (c.onRequest j w socket id s).2.1 = step c (.close id) := by
  unfold onRequest
  split <;> rfl

/-- Whatever is sent for a client goes to that client, and no other is dropped. -/
theorem onRequest_answers (h : Sound c) (hc : client ∈ c.clients) {j : Json} {w : World} {socket : Fd → Option Bytes}
    {s : Supervisor} :
    (∀ m ∈ (c.onRequest j w socket client.id s).1, m.1 = client.fd) ∧
      ∀ other, other ∈ (c.onRequest j w socket client.id s).2.1.clients ↔ other ∈ c.clients ∧ other ≠ client := by
  refine ⟨fun m hm => ?_, fun other => onRequest_calls j w socket s ▸ h.close client hc other⟩
  unfold onRequest at hm
  split at hm
  · exact absurd hm (by simp)
  · dsimp only at hm
    split at hm
    · rw [h.reply client hc] at hm
      exact Option.mem_some_iff.mp hm ▸ rfl
    · exact absurd hm (by simp)

/-- Where the counter is at the id of a client, whose descriptor epoll has and so
refuses, whoever connects is dropped, and that client too. -/
theorem onConnect_drops {register : Fd → Bool} {fd : Fd} (hmem : c.nextId ∈ c.ids)
    (hroom : c.clients.length < maxClients) (hreg : ∀ client ∈ c.clients, register client.fd = false) :
    (c.onConnect register (some fd)).clients = c.clients.filter (·.id ≠ c.nextId) := by
  obtain ⟨client, hc, hid⟩ := List.mem_map.mp hmem
  have hsome : (c.client c.nextId).isSome := List.find?_isSome.mpr ⟨client, hc, by simp [hid]⟩
  obtain ⟨first, hfirst⟩ := Option.isSome_iff_exists.mp hsome
  have hfd : register first.fd = false := hreg first (List.mem_of_find?_eq_some hfirst)
  rw [Clients.client] at hfirst
  simp [onConnect, accept, Nat.not_le.mpr hroom, Clients.fd, Clients.client, hfirst, hfd, close]

end Oxinit.Clients
