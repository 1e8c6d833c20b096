import Oxinit.Framework.Runs
import Oxinit.Model.Logs

/-!
# What becomes of unread output

`close` is where bytes are lost: `close_lost` says when. A step that closes
nothing that is the last read end of a pipe with something in it is `Careful`;
the others destroy what a service wrote.
-/

namespace Oxinit.Pipes

open Framework

variable {s : State} {p q : Nat}

/-! ## Closing -/

@[simp] theorem close_nil : s.close [] = s := rfl

theorem close_cons {reads : List Nat} :
    s.close (p :: reads) =
      if s.logs.reads p then s.close reads
      else State.close { s with
        pipes := Function.update s.pipes p { s.pipes p with unread := [] }
        lost := s.lost ++ (s.pipes p).unread } reads := by
  unfold State.close
  rw [List.foldl_cons]
  split <;> rfl

@[simp] theorem close_logs {reads : List Nat} : (s.close reads).logs = s.logs := by
  induction reads generalizing s with
  | nil => rfl
  | cons p reads ih =>
    rw [close_cons]
    split <;> rw [ih]

@[simp] theorem close_made {reads : List Nat} : (s.close reads).made = s.made := by
  induction reads generalizing s with
  | nil => rfl
  | cons p reads ih =>
    rw [close_cons]
    split <;> rw [ih]

/-- A pipe that was closed for the last time is empty; the others are as they
were. -/
theorem close_unread {reads : List Nat} :
    ((s.close reads).pipes q).unread = if q ∈ reads ∧ !s.logs.reads q then [] else (s.pipes q).unread := by
  induction reads generalizing s with
  | nil => simp
  | cons p reads ih =>
    rw [close_cons]
    by_cases hp : s.logs.reads p
    · rw [if_pos hp, ih]
      by_cases hq : q = p
      · subst hq
        simp [hp]
      · simp [hq]
    · rw [if_neg hp, ih]
      by_cases hq : q = p
      · subst hq
        simp [hp]
      · simp [hq]

/-- To close a read end loses what is in it, unless somebody else holds it. -/
theorem close_lost {reads : List Nat} :
    (s.close reads).lost = [] ↔ s.lost = [] ∧ ∀ p ∈ reads, (s.pipes p).unread = [] ∨ s.logs.reads p := by
  induction reads generalizing s with
  | nil => simp
  | cons p reads ih =>
    rw [close_cons, List.forall_mem_cons]
    by_cases hp : s.logs.reads p
    · rw [if_pos hp, ih]
      simp [hp]
    · rw [if_neg hp, ih, List.append_eq_nil_iff, and_assoc]
      simp only [hp, Bool.false_eq_true, or_false]
      refine and_congr_right fun _ => and_congr_right fun hup => forall₂_congr fun q _ => ?_
      by_cases hq : q = p
      · subst hq
        simp [hup]
      · rw [Function.update_of_ne hq]

/-! ## What is always so -/

/-- Who holds a read end: oxinit, or its shipper. -/
theorem reads_iff {l : Logs} :
    l.reads p ↔ (∃ held ∈ l.held, held.read = p) ∨ ∃ c ∈ l.shipper, p ∈ c.ends := by
  cases h : l.shipper <;> simp [Logs.reads, h]

/-- Pipes are numbered as they are made, a read end is held once, and a
shipper that has gone has nothing. -/
structure Tidy (s : State) : Prop where
  held_lt : ∀ held ∈ s.logs.held, held.read < s.made
  ends_lt : ∀ c ∈ s.logs.shipper, ∀ p ∈ c.ends, p < s.made
  fresh : ∀ p, s.made ≤ p → (s.pipes p).unread = []
  unique : ∀ held ∈ s.logs.held, ∀ other ∈ s.logs.held, held.read = other.read → held = other
  offered : ∀ c ∈ s.logs.shipper, ∀ held ∈ s.logs.held, held.read ∈ c.offered
  dead : ∀ c ∈ s.logs.shipper, c.alive = false → c.ends = []

/-- And what has not been read has a reader. -/
structure Kept (s : State) : Prop extends Tidy s where
  unread : ∀ p, (s.pipes p).unread ≠ [] → s.logs.reads p

/-- What is closed was read, or is held by another. -/
theorem Tidy.close {reads : List Nat} (h : Tidy s)
    (hr : ∀ p, (s.pipes p).unread ≠ [] → s.logs.reads p ∨ p ∈ reads) : Kept (s.close reads) where
  held_lt := by simpa using h.held_lt
  ends_lt := by simpa using h.ends_lt
  fresh p hp := by
    rw [close_unread, h.fresh p (by simpa using hp), ite_self]
  unique := by simpa using h.unique
  offered := by simpa using h.offered
  dead := by simpa using h.dead
  unread p hp := by
    rw [close_unread] at hp
    rw [close_logs]
    split at hp
    · exact absurd rfl hp
    · next hn =>
      rcases hr p hp with hr | hr
      · exact hr
      · simpa [hr] using hn

/-- The steps that destroy nothing. A start finds the pipe of the one before
it read empty, or a copy of its read end with the shipper; and a shipper that
goes has read empty whatever only it could read. -/
def Careful (s : State) : Event → Prop
  | .start unit _ => s.logs.listener → ∀ held ∈ s.logs.held, held.unit = unit →
      (s.pipes held.read).unread = [] ∨ ∃ c ∈ s.logs.shipper, held.read ∈ c.ends
  | .hangup => ∀ c ∈ s.logs.shipper, ∀ p ∈ c.ends, (s.pipes p).unread = [] ∨ ∃ held ∈ s.logs.held, held.read = p
  | _ => True

/-! ## One step -/

variable {unit : Name} {delivered registered : Bool} {undelivered : List Nat}

theorem mem_offer {c : Connection} : q ∈ (c.offer p delivered).ends → q = p ∨ q ∈ c.ends := by
  unfold Connection.offer
  dsimp only
  split
  · exact List.mem_cons.mp
  · exact .inr

theorem mem_offer_of_mem {c : Connection} (h : q ∈ c.ends) : q ∈ (c.offer p delivered).ends := by
  unfold Connection.offer
  dsimp only
  split
  · exact List.mem_cons_of_mem _ h
  · exact h

/-- A shipper that is gone takes nothing. -/
theorem offer_dead {c : Connection} (h : c.alive = false) : (c.offer p delivered).ends = c.ends := by
  simp [Connection.offer, h]

theorem mem_shipper_offer {o : Option Connection} {c : Connection} :
    c ∈ o.map (Connection.offer p delivered) ↔ ∃ c' ∈ o, c'.offer p delivered = c := by
  cases o <;> simp

/-- The state in which the replaced read ends are still to be closed. -/
def replacing (s : State) (unit : Name) (delivered : Bool) : State :=
  { s with
    logs := { s.logs with
      shipper := s.logs.shipper.map (Connection.offer s.made delivered)
      held := s.logs.held.filter (¬·.unit = unit) ++ [⟨unit, s.made⟩] }
    pipes := Function.update s.pipes s.made {}
    made := s.made + 1 }

/-- A fresh pipe replaces the one that is held. -/
theorem pipe_eq (hl : s.logs.listener) :
    s.pipe unit delivered
      = (replacing s unit delivered).close ((s.logs.held.filter (·.unit = unit)).map (·.read)) := by
  unfold State.pipe replacing
  simp [hl, List.partition_eq_filter_filter]
  rfl

theorem mem_replacing_held {held : Held} :
    held ∈ (replacing s unit delivered).logs.held
      ↔ held ∈ s.logs.held ∧ held.unit ≠ unit ∨ held = ⟨unit, s.made⟩ := by
  simp [replacing]

theorem Tidy.replacing (h : Tidy s) : Tidy (replacing s unit delivered) where
  held_lt held hh := by
    rcases mem_replacing_held.mp hh with ⟨hh, -⟩ | rfl
    · exact Nat.lt_succ_of_lt (h.held_lt held hh)
    · exact Nat.lt_succ_self _
  ends_lt c hc p hp := by
    obtain ⟨c, hc', rfl⟩ := mem_shipper_offer.mp hc
    rcases mem_offer hp with rfl | hp
    · exact Nat.lt_succ_self _
    · exact Nat.lt_succ_of_lt (h.ends_lt c hc' p hp)
  fresh p hp := by
    have : p ≠ s.made := Nat.ne_of_gt hp
    simp only [Pipes.replacing, Function.update_of_ne this]
    exact h.fresh p (Nat.le_of_lt hp)
  unique held hh other ho he := by
    rcases mem_replacing_held.mp hh with ⟨hh, -⟩ | rfl
    · rcases mem_replacing_held.mp ho with ⟨ho, -⟩ | rfl
      · exact h.unique held hh other ho he
      · exact absurd he (Nat.ne_of_lt (h.held_lt held hh))
    · rcases mem_replacing_held.mp ho with ⟨ho, -⟩ | rfl
      · exact absurd he.symm (Nat.ne_of_lt (h.held_lt other ho))
      · rfl
  offered c hc held hh := by
    obtain ⟨c, hc', rfl⟩ := mem_shipper_offer.mp hc
    rcases mem_replacing_held.mp hh with ⟨hh, -⟩ | rfl
    · exact List.mem_cons_of_mem _ (h.offered c hc' held hh)
    · exact List.mem_cons_self
  dead c hc ha := by
    obtain ⟨c, hc', rfl⟩ := mem_shipper_offer.mp hc
    have ha : c.alive = false := ha
    rw [offer_dead ha]
    exact h.dead c hc' ha

/-- A reader of a pipe made before is not the new descriptor. -/
theorem replacing_reads (hp : p ≠ s.made) :
    (replacing s unit delivered).logs.reads p
      ↔ (∃ held ∈ s.logs.held, held.unit ≠ unit ∧ held.read = p) ∨ ∃ c ∈ s.logs.shipper, p ∈ c.ends := by
  rw [reads_iff]
  refine or_congr ⟨?_, ?_⟩ ⟨?_, ?_⟩
  · rintro ⟨held, hh, rfl⟩
    rcases mem_replacing_held.mp hh with ⟨hh, hu⟩ | rfl
    · exact ⟨held, hh, hu, rfl⟩
    · exact absurd rfl hp
  · rintro ⟨held, hh, hu, rfl⟩
    exact ⟨held, mem_replacing_held.mpr (.inl ⟨hh, hu⟩), rfl⟩
  · rintro ⟨c, hc, hpc⟩
    obtain ⟨c, hc', rfl⟩ := mem_shipper_offer.mp hc
    exact ⟨c, hc', (mem_offer hpc).resolve_left hp⟩
  · rintro ⟨c, hc, hpc⟩
    exact ⟨_, mem_shipper_offer.mpr ⟨c, hc, rfl⟩, mem_offer_of_mem hpc⟩

theorem pipe_spec (h : Kept s) :
    Kept (s.pipe unit delivered)
    ∧ ((s.pipe unit delivered).lost = [] ↔ s.lost = [] ∧ Careful s (.start unit delivered)) := by
  by_cases hl : s.logs.listener
  · rw [pipe_eq hl]
    have hold : ∀ p, p ≠ s.made → ((replacing s unit delivered).pipes p).unread = (s.pipes p).unread := fun p hp => by
      simp [replacing, hp]
    have hmade : ((replacing s unit delivered).pipes s.made).unread = [] := by simp [replacing]
    refine ⟨h.toTidy.replacing.close fun p hp => ?_, ?_⟩
    · have hne : p ≠ s.made := fun he => hp (he ▸ hmade)
      rw [hold p hne] at hp
      rw [replacing_reads hne]
      rcases reads_iff.mp (h.unread p hp) with ⟨held, hh, rfl⟩ | hc
      · by_cases hu : held.unit = unit
        · exact .inr (List.mem_map_of_mem (List.mem_filter.mpr ⟨hh, by simpa using hu⟩))
        · exact .inl (.inl ⟨held, hh, hu, rfl⟩)
      · exact .inl (.inr hc)
    · rw [close_lost, show (replacing s unit delivered).lost = s.lost from rfl, List.forall_mem_map]
      refine and_congr_right fun _ => ?_
      simp only [Careful, hl, forall_const, List.mem_filter, decide_eq_true_eq, and_imp]
      refine forall₃_congr fun held hh hu => ?_
      have hne : held.read ≠ s.made := Nat.ne_of_lt (h.held_lt held hh)
      rw [hold _ hne, replacing_reads hne]
      refine or_congr_right ⟨?_, .inr⟩
      rintro (⟨other, ho, hou, he⟩ | hc)
      · exact absurd (h.unique other ho held hh he ▸ hu) hou
      · exact hc
  · have : s.pipe unit delivered = s := by simp [State.pipe, hl]
    rw [this]
    exact ⟨h, by simp [Careful, hl]⟩

/-- A new shipper is offered what is held, and gets nothing else. -/
theorem foldl_offer (undelivered : List Nat) (held : List Held) (c : Connection) :
    let after := held.foldl (fun c held => c.offer held.read (held.read ∉ undelivered)) c
    after.alive = c.alive
    ∧ (∀ p ∈ after.ends, p ∈ c.ends ∨ ∃ h ∈ held, h.read = p)
    ∧ (∀ p ∈ c.offered, p ∈ after.offered) ∧ ∀ h ∈ held, h.read ∈ after.offered := by
  induction held generalizing c with
  | nil => simp
  | cons h held ih =>
    obtain ⟨ha, he, ho, hh⟩ := ih (c := c.offer h.read (h.read ∉ undelivered))
    rw [List.foldl_cons]
    refine ⟨ha, fun p hp => ?_, fun p hp => ho p (List.mem_cons_of_mem _ hp), ?_⟩
    · rcases he p hp with hp | ⟨h', hh', rfl⟩
      · rcases mem_offer hp with rfl | hp
        · exact .inr ⟨h, List.mem_cons_self, rfl⟩
        · exact .inl hp
      · exact .inr ⟨h', List.mem_cons_of_mem _ hh', rfl⟩
    · rintro h' (_ | ⟨_, hh'⟩)
      · exact ho _ List.mem_cons_self
      · exact hh h' hh'

/-- The descriptors of a shipper close; `after` is what is left of it. -/
theorem Kept.leave {after : Option Connection} (h : Kept s) (c : Connection) (hc : c ∈ s.logs.shipper)
    (ha : ∀ c' ∈ after, c'.offered = c.offered ∧ c'.ends ⊆ c.ends ∧ (c'.alive = false → c'.ends = []))
    {reads : List Nat} (hr : ∀ p ∈ c.ends, p ∈ reads ∨ ∃ c' ∈ after, p ∈ c'.ends) :
    Kept (State.close { s with logs := { s.logs with shipper := after } } reads) := by
  refine Tidy.close ⟨h.held_lt, fun c' hc' p hp => ?_, h.fresh, h.unique, fun c' hc' held hh => ?_,
    fun c' hc' => (ha c' hc').2.2⟩ fun p hp => ?_
  · exact h.ends_lt c hc p ((ha c' hc').2.1 hp)
  · rw [(ha c' hc').1]
    exact h.offered c hc held hh
  · rw [reads_iff]
    rcases reads_iff.mp (h.unread p hp) with hh | ⟨c', hc', hpc⟩
    · exact .inl (.inl hh)
    · obtain rfl := Option.mem_unique hc hc'
      exact (hr p hpc).symm.imp_left .inr

/-- Less is left to read. -/
theorem Kept.shrink {pipes : Nat → Pipe} (h : Kept s) (hp : ∀ p, (pipes p).unread ≠ [] → (s.pipes p).unread ≠ []) :
    Kept { s with pipes } where
  held_lt := h.held_lt
  ends_lt := h.ends_lt
  fresh p hlt := by
    by_contra hne
    exact hp p hne (h.fresh p hlt)
  unique := h.unique
  offered := h.offered
  dead := h.dead
  unread p hne := h.unread p (hp p hne)

theorem hangup_spec (h : Kept s) : Kept s.hangup ∧ (s.hangup.lost = [] ↔ s.lost = [] ∧ Careful s .hangup) := by
  unfold State.hangup
  cases hs : s.logs.shipper with
  | none => exact ⟨h, by simp [Careful, hs]⟩
  | some c =>
    refine ⟨h.leave c hs (fun c' hc' => ?_) fun p hp => .inl hp, ?_⟩
    · obtain rfl := Option.some.inj hc'
      exact ⟨rfl, List.nil_subset _, fun _ => rfl⟩
    · rw [close_lost]
      simp [Careful, hs, Logs.reads]

/-- A shipper that is let go loses nothing that oxinit holds. -/
theorem disconnect_spec (h : Kept s)
    (hc : ∀ c ∈ s.logs.shipper, ∀ p ∈ c.ends, ∃ held ∈ s.logs.held, held.read = p) :
    Kept s.disconnect ∧ (s.disconnect.lost = [] ↔ s.lost = []) := by
  unfold State.disconnect
  cases hs : s.logs.shipper with
  | none =>
    have : { s with logs := { s.logs with shipper := none } } = s := by rw [← hs]
    rw [this]
    exact ⟨h, .rfl⟩
  | some c =>
    refine ⟨h.leave c hs (fun c' hc' => by cases hc') fun p hp => .inl hp, ?_⟩
    rw [close_lost]
    refine and_iff_left fun p hp => .inr ?_
    exact reads_iff.mpr (.inl (hc c hs p hp))

/-- Whoever has just connected has nothing that is not held. -/
theorem accept_spec (undelivered : List Nat) (h : Kept s) :
    Kept (s.accept undelivered) ∧ (s.accept undelivered).lost = s.lost
    ∧ (s.logs.shipper = none → ∀ c ∈ (s.accept undelivered).logs.shipper, ∀ p ∈ c.ends,
        ∃ held ∈ (s.accept undelivered).logs.held, held.read = p) := by
  unfold State.accept
  split
  · exact ⟨h, rfl, fun hn c hc => by rw [hn] at hc; cases hc⟩
  · next hn =>
    have hs : s.logs.shipper = none := by
      simp only [Bool.or_eq_true, not_or, Option.isSome_iff_ne_none, ne_eq, not_not] at hn
      exact hn.2
    obtain ⟨ha, he, -, hh⟩ := foldl_offer undelivered s.logs.held {}
    dsimp only
    generalize List.foldl _ _ s.logs.held = c at ha he hh ⊢
    have he : ∀ p ∈ c.ends, ∃ held ∈ s.logs.held, held.read = p := fun p hp =>
      (he p hp).resolve_left List.not_mem_nil
    refine ⟨⟨⟨h.held_lt, fun c' hc' p hp => ?_, h.fresh, h.unique, fun c' hc' held hheld => ?_, fun c' hc' hd => ?_⟩,
      fun p hp => ?_⟩, rfl, fun _ c' hc' => ?_⟩
    · obtain rfl := Option.some.inj hc'
      obtain ⟨held, hheld, rfl⟩ := he p hp
      exact h.held_lt held hheld
    · obtain rfl := Option.some.inj hc'
      exact hh held hheld
    · obtain rfl := Option.some.inj hc'
      exact absurd (ha.symm.trans hd) (by decide)
    · rw [reads_iff]
      refine .inl ((reads_iff.mp (h.unread p hp)).resolve_right ?_)
      rw [hs]
      rintro ⟨_, hc, -⟩
      cases hc
    · obtain rfl := Option.some.inj hc'
      exact he

/-- A new shipper loses nothing. -/
theorem connect_spec (h : Kept s) :
    Kept (s.onShipper undelivered registered) ∧ ((s.onShipper undelivered registered).lost = [] ↔ s.lost = []) := by
  obtain ⟨hk, hl, hc⟩ := accept_spec undelivered h
  unfold State.onShipper
  dsimp only
  split
  · next hn =>
    have hs : s.logs.shipper = none := by
      simp only [Bool.and_eq_true, Option.isNone_iff_eq_none] at hn
      exact hn.1.2
    rw [← hl]
    exact disconnect_spec hk (hc hs)
  · rw [hl]
    exact ⟨hk, .rfl⟩

theorem gone_spec (h : Kept s) : Kept s.onShipperGone ∧ (s.onShipperGone.lost = [] ↔ s.lost = []) := by
  unfold State.onShipperGone
  cases hs : s.logs.shipper with
  | none => exact ⟨h, .rfl⟩
  | some c =>
    dsimp only
    split
    · exact ⟨h, .rfl⟩
    · next ha =>
      refine disconnect_spec h fun c' hc' p hp => ?_
      rw [hs] at hc'
      obtain rfl := Option.some.inj hc'
      rw [h.dead c hs (by simpa using ha)] at hp
      cases hp

/-- A read loses nothing. -/
theorem read_spec {size : Nat} (h : Kept s) : Kept (s.read p size) ∧ ((s.read p size).lost = [] ↔ s.lost = []) := by
  unfold State.read
  cases hs : s.logs.shipper with
  | none => exact ⟨h, .rfl⟩
  | some c =>
    dsimp only
    split
    · exact ⟨h, .rfl⟩
    · split
      · next he =>
        refine ⟨h.leave c hs (fun c' hc' => ?_) fun q hq => ?_, ?_⟩
        · obtain rfl := Option.some.inj hc'
          refine ⟨rfl, fun q hq => (List.mem_filter.mp hq).1, fun ha => ?_⟩
          simp [h.dead c hs ha]
        · by_cases hqp : q = p
          · exact .inl (List.mem_singleton.mpr hqp)
          · exact .inr ⟨_, rfl, List.mem_filter.mpr ⟨hq, by simpa using hqp⟩⟩
        · rw [close_lost]
          simp [he.1]
      · refine ⟨h.shrink fun q hq => ?_, .rfl⟩
        rw [Function.update_apply] at hq
        split at hq
        · next hqp =>
          subst hqp
          exact fun hn => hq (by simp [hn])
        · exact hq

theorem quit_spec (h : Kept s) : Kept (s.quit p) := by
  refine h.shrink fun q hq => ?_
  rw [Function.update_apply] at hq
  split at hq
  · next hqp => exact hqp ▸ hq
  · exact hq

theorem write_spec {what : List UInt8} (h : Kept s) : Kept (s.write p what) ∧ (s.write p what).lost = s.lost := by
  unfold State.write
  split
  · next hw =>
    simp only [Bool.and_eq_true, decide_eq_true_eq] at hw
    obtain ⟨⟨hlt, -⟩, hr⟩ := hw
    refine ⟨⟨⟨h.held_lt, h.ends_lt, fun q hq => ?_, h.unique, h.offered, h.dead⟩, fun q hq => ?_⟩, rfl⟩
    · dsimp only at hq ⊢
      rw [Function.update_of_ne (Nat.ne_of_gt (Nat.lt_of_lt_of_le hlt hq))]
      exact h.fresh q hq
    · by_cases hqp : q = p
      · exact hqp ▸ hr
      · dsimp only at hq
        rw [Function.update_of_ne hqp] at hq
        exact h.unread q hq
  · exact ⟨h, rfl⟩

/-! ## Runs -/

/-- When an event loses nothing. -/
theorem step_spec {e : Event} (h : Kept s) : Kept (s.step e) ∧ ((s.step e).lost = [] ↔ s.lost = [] ∧ Careful s e) := by
  have hfree : ∀ {P : Prop}, Careful s e = True → (P ↔ s.lost = []) → (P ↔ s.lost = [] ∧ Careful s e) :=
    fun hc hp => by rw [hc, and_true, hp]
  cases e with
  | start unit delivered => exact pipe_spec h
  | hangup => exact hangup_spec h
  | write pipe what => exact ⟨(write_spec h).1, hfree rfl (by rw [State.step, (write_spec h).2])⟩
  | quit pipe => exact ⟨quit_spec h, hfree rfl .rfl⟩
  | connect undelivered registered => exact ⟨(connect_spec h).1, hfree rfl (connect_spec h).2⟩
  | read pipe size => exact ⟨(read_spec h).1, hfree rfl (read_spec h).2⟩
  | gone => exact ⟨(gone_spec h).1, hfree rfl (gone_spec h).2⟩

/-- When a run does. -/
theorem run_spec (events : List Event) (h : Kept s) :
    Kept (events.foldl State.step s)
    ∧ ((events.foldl State.step s).lost = [] ↔ s.lost = [] ∧ Each State.step Careful s events) := by
  induction events generalizing s with
  | nil => exact ⟨h, by simp [Each]⟩
  | cons e events ih =>
    obtain ⟨hk, hl⟩ := step_spec (e := e) h
    obtain ⟨hk', hl'⟩ := ih hk
    exact ⟨hk', by rw [List.foldl_cons, hl', hl, and_assoc]; rfl⟩

/-- Output is lost in exactly the runs with a step that is not careful; what
has not been read can be, and a shipper has been offered all that is held. -/
theorem output_survives_iff (bound : Bool) (events : List Event) :
    let s := run bound events
    (s.lost = [] ↔ Each State.step Careful { logs := { listener := bound } } events)
    ∧ (∀ p, (s.pipes p).unread ≠ [] → s.logs.reads p)
    ∧ ∀ c ∈ s.logs.shipper, ∀ held ∈ s.logs.held, held.read ∈ c.offered := by
  intro s
  have hinit : Kept { logs := { listener := bound } } := by
    refine ⟨⟨?_, ?_, ?_, ?_, ?_, ?_⟩, ?_⟩ <;> simp
  obtain ⟨hk, hl⟩ := run_spec events hinit
  exact ⟨by rw [show s.lost = [] ↔ _ from hl]; simp, hk.unread, hk.offered⟩

/-- A service that crashes before a shipper has connected and is started again
leaves its last words to nobody. -/
theorem output_lost_on_restart :
    (run true [.start "web" true, .write 0 [112, 97, 110, 105, 99, 10], .quit 0, .start "web" true]).lost
      = [112, 97, 110, 105, 99, 10] := by
  decide +kernel

end Oxinit.Pipes
