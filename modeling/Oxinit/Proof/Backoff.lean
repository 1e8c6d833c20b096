import Oxinit.Proof.Instance

/-!
# Backoff

What any sequence of operations on an `Instance` makes of its backoff. The
policy is applied where `Op.judged` says, and nothing else touches the backoff
or the counter: each delay it announces is the backoff then in force, which is
doubled, up to the cap, for the next one (`Restarted`). A stay in `Active` that
was longer than the backoff is found out only when the policy is applied next,
from a timestamp that other operations drop (`Ledger`).
-/

namespace Oxinit

/-- The operations of `Instance` that change its state. -/
inductive Op
  | enteredActivating (child : Pid)
  | failedToStart
  | enteredActive (ping : Nat)
  | forkedAway (ping : Nat)
  | enteredDeactivating (cause : StopCause)
  | stopTimedOut
  | cancelRestart
  | onExit (exit : Exit)
  | deactivated
  deriving DecidableEq

namespace Op

/-- An operation at the time `t`: the delay it answers, and what it leaves. -/
def perform (t : Nat) (i : Instance) : Op → Option Nat × Instance
  | .enteredActivating child => (none, i.enteredActivating child)
  | .failedToStart => (none, i.failedToStart)
  | .enteredActive ping => (none, i.enteredActive t ping)
  | .forkedAway ping => (none, i.forkedAway t ping)
  | .enteredDeactivating cause => (none, i.enteredDeactivating cause)
  | .stopTimedOut => (none, i.stopTimedOut)
  | .cancelRestart => (none, i.cancelRestart)
  | .onExit exit => i.onExit t exit
  | .deactivated => i.deactivated t

/-- The end to which an operation applies the policy, if it does. -/
def judged (i : Instance) : Op → Option Exit
  | .onExit exit => if i.state = .deactivating then none else some exit
  | .deactivated => if i.stopCause = some .watchdog then some .abnormal else none
  | _ => none

end Op

namespace Instance

/-- Whether the last entry into `Active` is longer ago than the backoff. -/
def rested (t : Nat) (i : Instance) : Bool := i.activeSince.any fun since => i.backoff < t - since

/-- What a sequence of operations leaves. -/
def performs (i : Instance) (ops : List (Nat × Op)) : Instance :=
  ops.foldl (fun i op => (op.2.perform op.1 i).2) i

/-- The delays that it announces. -/
def delays : Instance → List (Nat × Op) → List Nat
  | _, [] => []
  | i, op :: ops => (op.2.perform op.1 i).1.toList ++ delays (op.2.perform op.1 i).2 ops

/-- No stay in `Active` is long enough to reset the backoff. -/
def brief : Instance → List (Nat × Op) → Bool
  | _, [] => true
  | i, op :: ops => ((op.2.judged i).isNone || !i.rested op.1) && brief (op.2.perform op.1 i).2 ops

/-- No operation is an end that the policy restarts. -/
def unrestarted : Instance → List (Nat × Op) → Bool
  | _, [] => true
  | i, op :: ops => !(op.2.judged i).any (shouldRestart i.policy) && unrestarted (op.2.perform op.1 i).2 ops

end Instance

variable {t : Nat} {i : Instance} {op : Op} {exit : Exit}

/-! ## One operation -/

theorem Instance.forget_eq (t : Nat) (i : Instance) :
    i.forget t = if i.rested t then { i with restarts := 0, backoff := baseBackoff i.unit } else i := by
  rw [forget, rested]
  cases i.activeSince with
  | none => rfl
  | some since => simp

/-- The backoff that follows on `b`. -/
def nextBackoff (b : Nat) : Nat := min (min (b * 2) Duration.max) maxBackoff

/-- What applying the policy to `i` at `t` does, once the past is forgotten if it is to be. -/
structure Judged (t : Nat) (i : Instance) (r : Option Nat × Instance) : Prop where
  unit : r.2.unit = i.unit
  active : r.2.state ≠ .active
  since : r.2.activeSince = none
  left : r.1 = none → r.2.state ≠ .restarting ∧ r.2.backoff = (i.forget t).backoff ∧
    r.2.restarts = (i.forget t).restarts
  restarted : ∀ d, r.1 = some d → d = (i.forget t).backoff ∧ r.2.backoff = nextBackoff (i.forget t).backoff ∧
    r.2.restarts = min ((i.forget t).restarts + 1) (2 ^ 32 - 1)

/-- What `schedule_restart` answers and leaves. -/
theorem Instance.scheduleRestart_judged (t : Nat) (exit : Exit) (i : Instance) :
    Judged t i (i.scheduleRestart t exit) := by
  simp only [scheduleRestart]
  split
  · refine ⟨by simp, ?_, rfl, fun _ => ⟨?_, rfl, rfl⟩, by simp⟩
    · dsimp only
      split <;> simp
    · dsimp only
      split <;> simp
  · refine ⟨by simp, by simp, rfl, by simp, fun d hd => ?_⟩
    cases hd
    exact ⟨rfl, rfl, rfl⟩

theorem Judged.congr {r : Option Nat × Instance} {j : Instance} (h : Judged t j r) (hu : j.unit = i.unit)
    (hb : j.backoff = i.backoff) (hr : j.restarts = i.restarts) (hs : j.activeSince = i.activeSince) :
    Judged t i r := by
  have hf : (j.forget t).backoff = (i.forget t).backoff ∧ (j.forget t).restarts = (i.forget t).restarts := by
    have hrest : j.rested t = i.rested t := by rw [Instance.rested, Instance.rested, hs, hb]
    rw [Instance.forget_eq, Instance.forget_eq, hrest]
    split
    · exact ⟨congrArg Instance.baseBackoff hu, rfl⟩
    · exact ⟨hb, hr⟩
  refine ⟨h.unit.trans hu, h.active, h.since, fun hn => ?_, fun d hd => ?_⟩
  · rw [← hf.1, ← hf.2]
    exact h.left hn
  · rw [← hf.1, ← hf.2]
    exact h.restarted d hd

/-- An operation that applies the policy does what the policy says. -/
theorem Op.perform_judged (h : op.judged i = some exit) : Judged t i (op.perform t i) := by
  cases op with
  | onExit exit' =>
    simp only [judged] at h
    split at h
    · cases h
    · rename_i hs
      simp only [perform, Instance.onExit, hs, ↓reduceIte]
      split
      · exact (Instance.scheduleRestart_judged ..).congr rfl rfl rfl rfl
      · exact (Instance.scheduleRestart_judged ..).congr rfl rfl rfl rfl
  | deactivated =>
    simp only [judged] at h
    split at h
    · rename_i hc
      simp only [perform, Instance.deactivated, hc]
      exact (Instance.scheduleRestart_judged ..).congr rfl rfl rfl rfl
    · cases h
  | _ => cases h

/-- Where the policy is not applied the backoff stays as it is. -/
theorem Op.perform_unjudged (h : op.judged i = none) : (op.perform t i).1 = none ∧ (op.perform t i).2.unit = i.unit ∧
    (op.perform t i).2.backoff = i.backoff ∧ (op.perform t i).2.restarts = i.restarts := by
  cases op with
  | onExit exit =>
    simp only [judged] at h
    split at h
    · rename_i hs
      rw [perform, Instance.onExit_deactivating _ _ hs]
      exact ⟨rfl, rfl, rfl, rfl⟩
    · cases h
  | deactivated =>
    simp only [judged] at h
    split at h
    · cases h
    · rename_i hc
      simp only [perform, Instance.deactivated]
      split
      · exact absurd ‹_› hc
      all_goals exact ⟨rfl, rfl, rfl, rfl⟩
  | cancelRestart =>
    refine ⟨rfl, ?_⟩
    simp only [perform, Instance.cancelRestart]
    split <;> exact ⟨rfl, rfl, rfl⟩
  | _ => exact ⟨rfl, rfl, rfl, rfl⟩

theorem Instance.scheduleRestart_fst (t : Nat) (exit : Exit) (i : Instance) :
    (i.scheduleRestart t exit).1.isSome = shouldRestart i.policy exit := by
  have hp : Instance.policy { i.forget t with activeSince := none } = i.policy := by
    rw [Instance.forget_eq]
    split <;> rfl
  simp only [scheduleRestart, hp]
  split
  · rename_i hn
    exact hn.symm
  · rename_i hs
    exact (Bool.not_eq_false _ ▸ hs).symm

/-- A delay is announced exactly for the ends that the policy restarts. -/
theorem Op.perform_fst (t : Nat) (op : Op) (i : Instance) :
    (op.perform t i).1.isSome = (op.judged i).any (shouldRestart i.policy) := by
  cases hj : op.judged i with
  | none => rw [(Op.perform_unjudged (t := t) hj).1, Option.isSome_none, Option.any_none]
  | some exit =>
    rw [Option.any_some]
    cases op with
    | onExit exit' =>
      simp only [judged] at hj
      split at hj
      · cases hj
      · rename_i hs
        cases hj
        simp only [perform, Instance.onExit, hs, ↓reduceIte]
        split
        all_goals exact Instance.scheduleRestart_fst ..
    | deactivated =>
      simp only [judged] at hj
      split at hj
      · rename_i hc
        cases hj
        simp only [perform, Instance.deactivated, hc]
        exact Instance.scheduleRestart_fst ..
      · cases hj
    | _ => cases hj

/-- Nothing is announced if and only if the policy restarts nothing. -/
theorem Instance.delays_eq_nil_iff {ops : List (Nat × Op)} : i.delays ops = [] ↔ i.unrestarted ops = true := by
  induction ops generalizing i with
  | nil => exact iff_of_true rfl rfl
  | cons op ops ih =>
    have hfst := Op.perform_fst op.1 op.2 i
    rw [delays, unrestarted, List.append_eq_nil_iff, ih, ← hfst, Bool.and_eq_true, Bool.not_eq_true']
    cases (op.2.perform op.1 i).1 <;> simp

/-! ## Consecutive restarts -/

/-- The backoff after `k` restarts in a row, from a base of `b`. -/
def backoffAfter (b k : Nat) : Nat := if k = 0 then b else min (b * 2 ^ k) maxBackoff

/-- The backoff doubles. -/
theorem nextBackoff_after (b k : Nat) : nextBackoff (backoffAfter b k) = backoffAfter b (k + 1) := by
  have hmax : maxBackoff ≤ Duration.max := by decide
  have hpow : b * 2 ^ (k + 1) = b * 2 ^ k * 2 := by rw [Nat.pow_succ, Nat.mul_assoc]
  rw [nextBackoff, backoffAfter, backoffAfter, if_neg (Nat.succ_ne_zero k), hpow]
  split
  · rename_i hk
    subst hk
    rw [Nat.pow_zero, Nat.mul_one]
    omega
  · omega

/-- Where an instance is after `k` restarts in a row. -/
structure Restarted (b k : Nat) (i : Instance) : Prop where
  base : Instance.baseBackoff i.unit = b
  backoff : i.backoff = backoffAfter b k
  restarts : i.restarts = min k (2 ^ 32 - 1)

theorem Restarted.new (unit : Unit) : Restarted (Instance.baseBackoff unit) 0 (Instance.new unit) := ⟨rfl, rfl, rfl⟩

/-- One operation that does not reset the backoff announces the backoff, or nothing. -/
theorem Restarted.perform {b k : Nat} (h : Restarted b k i)
    (hb : ((op.judged i).isNone || !i.rested t) = true) :
    ((op.perform t i).1 = none ∧ Restarted b k (op.perform t i).2) ∨
      ((op.perform t i).1 = some (backoffAfter b k) ∧ Restarted b (k + 1) (op.perform t i).2) := by
  cases hj : op.judged i with
  | none =>
    obtain ⟨hn, hu, hbk, hr⟩ := Op.perform_unjudged (t := t) hj
    exact .inl ⟨hn, hu ▸ h.base, hbk.trans h.backoff, hr.trans h.restarts⟩
  | some exit =>
    have hjudged := Op.perform_judged (t := t) hj
    have hforget : i.forget t = i := by
      rw [hj] at hb
      rw [Instance.forget_eq, if_neg (by simpa using hb)]
    cases hd : (op.perform t i).1 with
    | none =>
      obtain ⟨-, hbk, hr⟩ := hjudged.left hd
      rw [hforget] at hbk hr
      exact .inl ⟨rfl, hjudged.unit ▸ h.base, hbk.trans h.backoff, hr.trans h.restarts⟩
    | some d =>
      obtain ⟨rfl, hbk, hr⟩ := hjudged.restarted d hd
      rw [hforget, h.backoff] at hbk
      rw [hforget, h.restarts] at hr
      refine .inr ⟨by rw [hforget, h.backoff], hjudged.unit ▸ h.base, ?_, ?_⟩
      · rw [hbk, nextBackoff_after]
      · rw [hr]
        omega

/-- What a sequence that does not reset the backoff announces. -/
theorem Restarted.performs {b k : Nat} {ops : List (Nat × Op)} (h : Restarted b k i) (hb : i.brief ops = true) :
    (∀ n d, (i.delays ops)[n]? = some d → d = backoffAfter b (k + n)) ∧
      Restarted b (k + (i.delays ops).length) (i.performs ops) := by
  induction ops generalizing i k with
  | nil => exact ⟨by simp [Instance.delays], h⟩
  | cons op ops ih =>
    obtain ⟨t, op⟩ := op
    rw [Instance.brief, Bool.and_eq_true] at hb
    rw [Instance.delays]
    rcases h.perform hb.1 with ⟨hn, h'⟩ | ⟨hd, h'⟩
    · rw [hn, Option.toList_none, List.nil_append]
      exact ih h' hb.2
    · obtain ⟨hnth, hlast⟩ := ih h' hb.2
      rw [hd, Option.toList_some, List.singleton_append, List.length_cons]
      refine ⟨fun n d hn => ?_, ?_⟩
      · cases n with
        | zero => exact (Option.some.inj hn).symm
        | succ n =>
          have := hnth n d hn
          rwa [Nat.add_right_comm] at this
      · rwa [Nat.add_right_comm] at hlast

/-- The delays of a base of `b` double up to the cap, and the counter counts them. -/
structure Doubles (b : Nat) (delays : List Nat) (restarts : Nat) : Prop where
  nth : ∀ k d, delays[k]? = some d → d = min (b * 2 ^ k) maxBackoff
  sorted : delays.Pairwise (· ≤ ·)
  capped : ∀ d ∈ delays, d ≤ maxBackoff
  counted : restarts = min delays.length (2 ^ 32 - 1)

/-- What is said of each delay says the rest. -/
theorem Doubles.of_nth {b restarts : Nat} {delays : List Nat}
    (h : ∀ k d, delays[k]? = some d → d = min (b * 2 ^ k) maxBackoff)
    (hc : restarts = min delays.length (2 ^ 32 - 1)) : Doubles b delays restarts := by
  refine ⟨h, ?_, fun d hd => ?_, hc⟩
  · rw [List.pairwise_iff_getElem]
    intro m n hm hn hmn
    rw [h m _ (List.getElem?_eq_getElem hm), h n _ (List.getElem?_eq_getElem hn)]
    have hpow : b * 2 ^ m ≤ b * 2 ^ n := Nat.mul_le_mul_left b (Nat.pow_le_pow_right (by decide) hmn.le)
    omega
  · obtain ⟨k, hk⟩ := List.mem_iff_getElem?.mp hd
    have := h k d hk
    omega

/-- As long as no stay in `Active` resets the backoff, the delays double from
`restart-sec` up to the cap, if and only if the policy restarts nothing or
`restart-sec` is not above the cap. -/
theorem backoff_doubles_iff {unit : Unit} {sv : Service} {ops : List (Nat × Op)} (hsv : unit.service = some sv)
    (hb : (Instance.new unit).brief ops = true) :
    Doubles sv.restartSec ((Instance.new unit).delays ops) ((Instance.new unit).performs ops).restarts ↔
      (Instance.new unit).unrestarted ops = true ∨ sv.restartSec ≤ maxBackoff := by
  rw [← Instance.delays_eq_nil_iff]
  have hbase : Instance.baseBackoff unit = sv.restartSec := by rw [Instance.baseBackoff, hsv]
  obtain ⟨hnth, hlast⟩ := (Restarted.new unit).performs hb
  rw [hbase] at hnth hlast
  have hcount := hlast.restarts
  simp only [Nat.zero_add] at hnth hcount
  constructor
  · intro h
    cases hds : (Instance.new unit).delays ops with
    | nil => exact .inl rfl
    | cons d ds =>
      have h0 := hnth 0 d (by rw [hds]; rfl)
      have := h.capped d (by rw [hds]; exact List.mem_cons_self ..)
      rw [backoffAfter, if_pos rfl] at h0
      exact .inr (h0 ▸ this)
  · intro h
    refine .of_nth (fun k d hk => ?_) hcount
    have hle : sv.restartSec ≤ maxBackoff := h.resolve_left fun hnil => by simp [hnil] at hk
    rw [hnth k d hk, backoffAfter]
    split
    · rename_i h0
      rw [h0, Nat.pow_zero, Nat.mul_one, Nat.min_eq_left hle]
    · rfl

/-- A service that is restarted whatever its end, every `sec` at first. -/
def crashing (sec : Nat) : Unit :=
  { name := "a", description := "", kind := .service { exec := ["/bin/a"], restart := .always, restartSec := sec } }

theorem backoff_doubles_iff_sample :
    Doubles (Duration.fromSecs 1)
        ((Instance.new (crashing (Duration.fromSecs 1))).delays [(0, .onExit .abnormal), (0, .onExit .abnormal)])
        ((Instance.new (crashing (Duration.fromSecs 1))).performs
          [(0, .onExit .abnormal), (0, .onExit .abnormal)]).restarts ↔
      (Instance.new (crashing (Duration.fromSecs 1))).unrestarted
          [(0, .onExit .abnormal), (0, .onExit .abnormal)] = true ∨
        Duration.fromSecs 1 ≤ maxBackoff :=
  @backoff_doubles_iff (crashing (Duration.fromSecs 1)) _ [(0, .onExit .abnormal), (0, .onExit .abnormal)] rfl
    (by decide)

/-- The first delay is above the cap, and the next one is shorter. -/
theorem first_delay_is_not_capped :
    let i := Instance.new (crashing (Duration.fromSecs 600))
    let ops : List (Nat × Op) := [(0, .onExit .abnormal), (0, .onExit .abnormal)]
    i.brief ops = true ∧ i.delays ops = [Duration.fromSecs 600, Duration.fromSecs 300] ∧
      ¬Doubles (Duration.fromSecs 600) (i.delays ops) (i.performs ops).restarts := by
  refine ⟨by decide, by decide, fun h => ?_⟩
  exact absurd (h.capped (Duration.fromSecs 600) (by decide)) (by decide)

/-! ## Staying up -/

/-- No failure is remembered. -/
def Instance.clean (i : Instance) : Bool := i.restarts = 0 && i.backoff = baseBackoff i.unit

/-- An instance, and what there is to remember of its stays in `Active`. -/
structure Ledger where
  inst : Instance
  /-- When it came to be `Active`, while it is. -/
  since : Option Nat := none
  /-- It has stayed `Active` for longer than the backoff then in force, and no
  delay has been announced since. -/
  earned : Bool := false

namespace Ledger

variable (t : Nat) (op : Op) (g : Ledger)

/-- It is `Active`, and has been for longer than the backoff. -/
def long : Bool := g.since.any fun since => g.inst.backoff < t - since

/-- The operation ends a stay that was longer than the backoff. -/
def stayed : Bool := g.inst.state = .active && (op.perform t g.inst).2.state ≠ .active && g.long t

def next : Ledger where
  inst := (op.perform t g.inst).2
  since :=
    if (op.perform t g.inst).2.state = .active then if g.inst.state = .active then g.since else some t else none
  earned := (op.perform t g.inst).1.isNone && (g.earned || g.stayed t op)

/-- The delay that follows on a long stay is the first one again. -/
def forgives : Prop := ∀ d, (op.perform t g.inst).1 = some d → (g.earned || g.stayed t op) = true →
  d = Instance.baseBackoff g.inst.unit ∧ (op.perform t g.inst).2.restarts = 1

/-- Whether the operation drops the time of the last entry into `Active` without
applying the policy. -/
def drops : Bool :=
  match op with
  | .enteredActive _ | .forkedAway _ | .failedToStart => true
  | .deactivated => g.inst.stopCause ≠ some .watchdog
  | _ => false

/-- Whether there would be something to forget then: a long stay, or one that is
entered anew before it is over. -/
def owed : Bool :=
  g.earned || g.long t || g.inst.state = .active && (op.perform t g.inst).2.state = .active

/-- The operation drops no stay that is owed something. -/
def mindful : Bool := !(g.drops op && g.owed t op) || g.inst.clean

/-- A property of each operation of a sequence. -/
def All (p : Nat → Op → Ledger → Prop) : Ledger → List (Nat × Op) → Prop
  | _, [] => True
  | g, op :: ops => p op.1 op.2 g ∧ All p (g.next op.1 op.2) ops

instance (p : Nat → Op → Ledger → Prop) [∀ t op g, Decidable (p t op g)] :
    ∀ g ops, Decidable (All p g ops)
  | _, [] => .isTrue trivial
  | g, op :: ops =>
    have := instDecidableAll p (g.next op.1 op.2) ops
    inferInstanceAs (Decidable (p op.1 op.2 g ∧ All p (g.next op.1 op.2) ops))

end Ledger

theorem Instance.clean_iff : i.clean = true ↔ i.restarts = 0 ∧ i.backoff = baseBackoff i.unit := by
  simp [clean]

/-- The failures of an instance are forgotten, or will be when the policy is
applied at `t` or later. -/
def Instance.Forgiven (t : Nat) (i : Instance) : Prop :=
  i.clean = true ∨ ∃ since, i.activeSince = some since ∧ i.backoff < t - since

theorem Instance.Forgiven.mono {t' : Nat} (ht : t ≤ t') (h : i.Forgiven t) : i.Forgiven t' := by
  refine h.imp_right fun ⟨since, hs, hlt⟩ => ⟨since, hs, ?_⟩
  omega

theorem Instance.Forgiven.forget (h : i.Forgiven t) : (i.forget t).clean = true := by
  rw [forget_eq]
  split
  · simp [clean]
  · rename_i hr
    refine h.resolve_right fun ⟨since, hs, hlt⟩ => hr ?_
    rw [rested, hs]
    exact decide_eq_true hlt

/-- What keeps the backoff, the counter and the time of the entry keeps this. -/
theorem Instance.Forgiven.congr {j : Instance} (h : i.Forgiven t) (hu : j.unit = i.unit) (hb : j.backoff = i.backoff)
    (hr : j.restarts = i.restarts) (hs : j.activeSince = i.activeSince) : j.Forgiven t := by
  rw [Forgiven, clean_iff] at h ⊢
  rwa [hu, hb, hr, hs]

/-- What is remembered is accounted for. -/
structure Ledger.Settled (t : Nat) (g : Ledger) : Prop where
  active : ∀ since, g.since = some since →
    g.inst.state = .active ∧ (g.inst.activeSince = some since ∨ g.inst.clean = true)
  earned : g.earned = true → g.inst.Forgiven t
  restarting : g.inst.state = .restarting → g.earned = false

namespace Ledger

variable {g : Ledger} {now : Nat}

/-- A stay that was long enough is forgiven when the policy is applied next. -/
theorem Settled.forgiven (h : g.Settled now) (ht : now ≤ t) (he : (g.earned || g.long t) = true) :
    g.inst.Forgiven t := by
  rcases (Bool.or_eq_true ..).mp he with he | he
  · exact (h.earned he).mono ht
  · obtain ⟨since, hs, hlt⟩ := (Option.any_eq_true ..).mp he
    rcases (h.active since hs).2 with ha | hc
    · exact .inr ⟨since, ha, of_decide_eq_true hlt⟩
    · exact .inl hc

theorem Settled.stayed_forgiven (h : g.Settled now) (ht : now ≤ t) (he : (g.earned || g.stayed t op) = true) :
    g.inst.Forgiven t := by
  refine h.forgiven ht ?_
  simp only [stayed, Bool.or_eq_true, Bool.and_eq_true] at he ⊢
  exact he.imp_right And.right

/-- What is earned after an operation was earned before it, or by it. -/
theorem next_earned (he : (g.next t op).earned = true) : (g.earned || g.stayed t op) = true := by
  rw [next, Bool.and_eq_true] at he
  exact he.2

/-- An operation to which the policy applies. -/
theorem Settled.judged (h : g.Settled now) (ht : now ≤ t) (hj : op.judged g.inst = some exit) :
    g.forgives t op ∧ (g.next t op).Settled t := by
  have hr := Op.perform_judged (t := t) hj
  have hclean : ∀ i' : Instance, i'.unit = g.inst.unit → i'.backoff = (g.inst.forget t).backoff →
      i'.restarts = (g.inst.forget t).restarts → (g.earned || g.stayed t op) = true → i'.clean = true := by
    intro i' hu hb hn he
    have hc := (h.stayed_forgiven ht he).forget
    rw [Instance.clean_iff] at hc ⊢
    rw [hu, hb, hn, hc.1, hc.2, Instance.forget_unit]
    exact ⟨rfl, rfl⟩
  refine ⟨fun d hd he => ?_, ⟨fun since hs => ?_, fun he => ?_, fun hs => ?_⟩⟩
  · obtain ⟨rfl, -, hn⟩ := hr.restarted d hd
    have hc := (h.stayed_forgiven ht he).forget
    rw [Instance.clean_iff, Instance.forget_unit] at hc
    rw [hn, hc.1]
    exact ⟨hc.2, rfl⟩
  · rw [next, if_neg hr.active] at hs
    cases hs
  · have he' := next_earned he
    rw [next, Bool.and_eq_true, Option.isNone_iff_eq_none] at he
    obtain ⟨-, hb, hn⟩ := hr.left he.1
    exact .inl (hclean _ hr.unit hb hn he')
  · cases hd : (op.perform t g.inst).1 with
    | none => exact absurd hs (hr.left hd).1
    | some d => rw [next, hd]; rfl

theorem Op.perform_clean (hj : op.judged g.inst = none) : (op.perform t g.inst).2.clean = g.inst.clean := by
  obtain ⟨-, hu, hb, hr⟩ := Op.perform_unjudged (t := t) hj
  rw [Instance.clean, Instance.clean, hr, hb, hu]

/-- An operation that keeps the time of the entry into `Active`. -/
theorem Settled.kept (h : g.Settled now) (ht : now ≤ t) (hj : op.judged g.inst = none)
    (hs : (op.perform t g.inst).2.activeSince = g.inst.activeSince)
    (hst : (op.perform t g.inst).2.state = g.inst.state ∨
      (op.perform t g.inst).2.state ≠ .active ∧ (op.perform t g.inst).2.state ≠ .restarting) :
    (g.next t op).Settled t := by
  obtain ⟨-, hu, hb, hr⟩ := Op.perform_unjudged (t := t) hj
  have hclean := Op.perform_clean (t := t) hj
  refine ⟨fun since hsince => ?_, fun he => ?_, fun hrs => ?_⟩
  · rw [next] at hsince
    split at hsince
    · rename_i ha
      have hsame := hst.resolve_right fun h => h.1 ha
      rw [if_pos (hsame ▸ ha)] at hsince
      refine ⟨ha, ?_⟩
      rw [next, hs, hclean]
      exact (h.active since hsince).2
    · cases hsince
  · exact (h.stayed_forgiven ht (next_earned he)).congr hu hb hr hs
  · have hsame := hst.resolve_right fun h => h.2 hrs
    have hrs' : g.inst.state = .restarting := hsame ▸ hrs
    have hstayed : g.stayed t op = false := by
      rw [stayed, hrs']
      rfl
    rw [next, h.restarting hrs', hstayed]
    simp

/-- An operation that makes the time of the entry another, or none. -/
theorem Settled.dropped (hj : op.judged g.inst = none) (hm : g.mindful t op = true) (hdrops : g.drops op = true)
    (hst : (op.perform t g.inst).2.state = .active ∧ (op.perform t g.inst).2.activeSince = some t ∨
      (op.perform t g.inst).2.state ≠ .active ∧ (op.perform t g.inst).2.state ≠ .restarting) :
    (g.next t op).Settled t := by
  have hclean := Op.perform_clean (t := t) hj
  have howed : g.owed t op = true → g.inst.clean = true := by
    intro ho
    rw [mindful, hdrops, ho] at hm
    simpa using hm
  refine ⟨fun since hsince => ?_, fun he => .inl ?_, fun hrs => ?_⟩
  · rw [next] at hsince
    split at hsince
    · rename_i ha
      refine ⟨ha, ?_⟩
      split at hsince
      · rename_i ha'
        refine .inr (hclean.trans (howed ?_))
        rw [owed, ha, ha']
        simp
      · cases hsince
        exact .inl (hst.resolve_right fun h => h.1 ha).2
    · cases hsince
  · refine hclean.trans (howed ?_)
    have := next_earned he
    simp only [stayed, owed, Bool.or_eq_true, Bool.and_eq_true] at this ⊢
    exact .inl (this.imp_right And.right)
  · rcases hst with ⟨ha, -⟩ | ⟨-, hne⟩
    · cases ha.symm.trans hrs
    · exact absurd hrs hne

/-- One operation. -/
theorem Settled.next (h : g.Settled now) (ht : now ≤ t) (hm : g.mindful t op = true) :
    g.forgives t op ∧ (g.next t op).Settled t := by
  cases hj : op.judged g.inst with
  | some exit => exact h.judged ht hj
  | none =>
    refine ⟨fun d hd => ?_, ?_⟩
    · rw [(Op.perform_unjudged hj).1] at hd
      cases hd
    · cases op with
      | enteredActivating | enteredDeactivating =>
        refine h.kept ht hj rfl (.inr ?_)
        simp [Op.perform, Instance.enteredActivating, Instance.enteredDeactivating]
      | stopTimedOut => exact h.kept ht hj rfl (.inl rfl)
      | enteredActive | forkedAway => exact .dropped hj hm rfl (.inl ⟨rfl, rfl⟩)
      | failedToStart => exact .dropped hj hm rfl (.inr (by simp [Op.perform, Instance.failedToStart]))
      | onExit exit =>
        have hs : g.inst.state = .deactivating := by
          by_contra hs
          simp [Op.judged, hs] at hj
        have hp : (Op.onExit exit).perform t g.inst = (none, { g.inst with child := none }) :=
          Instance.onExit_deactivating _ _ hs
        exact h.kept ht hj (by rw [hp]) (.inl (by rw [hp]))
      | deactivated =>
        have hc : g.inst.stopCause ≠ some .watchdog := by
          intro hc
          simp [Op.judged, hc] at hj
        refine .dropped hj hm (decide_eq_true hc) (.inr ?_)
        simp only [Op.perform, Instance.deactivated]
        split
        · exact absurd ‹_› hc
        all_goals
          dsimp only
          split <;> simp
      | cancelRestart =>
        by_cases hs : g.inst.state = .restarting
        · have hp : Op.cancelRestart.perform t g.inst =
              (none, { g.inst with child := none, activeSince := none, state := .inactive }) := by
            rw [Op.perform, Instance.cancelRestart, if_pos hs]
          have hst : (Op.cancelRestart.perform t g.inst).2.state = .inactive := by rw [hp]
          have hstayed : g.stayed t .cancelRestart = false := by
            rw [stayed, hs]
            rfl
          refine ⟨fun since hsince => ?_, fun he => ?_, fun hrs => ?_⟩
          · rw [Ledger.next, hst] at hsince
            cases hsince
          · have := next_earned he
            rw [h.restarting hs, hstayed] at this
            cases this
          · cases hst.symm.trans hrs
        · have hp : Op.cancelRestart.perform t g.inst = (none, g.inst) := by
            rw [Op.perform, Instance.cancelRestart, if_neg hs]
          exact h.kept ht hj (by rw [hp]) (.inl (by rw [hp]))

end Ledger

/-- After a stay in `Active` that was longer than the backoff, the next delay is
`restart-sec` and the counter then reads 1, in every sequence of operations in
which none drops the time of a stay that is owed something. -/
theorem staying_up_forgets {unit : Unit} {ops : List (Nat × Op)} (hs : (ops.map Prod.fst).Pairwise (· ≤ ·))
    (hm : Ledger.All (fun t op g => g.mindful t op = true) { inst := Instance.new unit } ops) :
    Ledger.All (fun t op g => g.forgives t op) { inst := Instance.new unit } ops := by
  suffices ∀ (g : Ledger) (now : Nat), g.Settled now → (∀ op ∈ ops, now ≤ op.1) →
      Ledger.All (fun t op g => g.mindful t op = true) g ops → Ledger.All (fun t op g => g.forgives t op) g ops from
    this _ 0 ⟨nofun, nofun, nofun⟩ (fun _ _ => Nat.zero_le _) hm
  clear hm
  induction ops with
  | nil => exact fun _ _ _ _ _ => trivial
  | cons op ops ih =>
    intro g now h ht hm
    rw [List.map_cons, List.pairwise_cons] at hs
    obtain ⟨hf, hn⟩ := h.next (ht op (List.mem_cons_self ..)) hm.1
    exact ⟨hf, ih hs.2 _ op.1 hn (fun op' hop' => hs.1 op'.1 (List.mem_map_of_mem hop')) hm.2⟩

/-- A service fails, then stays up for nine seconds until it is stopped for `cause`,
and fails again. -/
def stopAndFail (cause : StopCause) : List (Nat × Op) :=
  [(0, .onExit .abnormal), (Duration.fromSecs 1, .enteredActivating 2), (Duration.fromSecs 1, .enteredActive 0),
    (Duration.fromSecs 10, .enteredDeactivating cause), (Duration.fromSecs 10, .deactivated),
    (Duration.fromSecs 11, .enteredActivating 3), (Duration.fromSecs 11, .onExit .abnormal)]

theorem staying_up_forgets_sample : Ledger.All (fun t op g => g.forgives t op)
    { inst := Instance.new (crashing (Duration.fromSecs 1)) } (stopAndFail .watchdog) :=
  staying_up_forgets (by decide) (by decide)

/-- After a requested stop the failure before the stay counts still. -/
theorem requested_stop_forgets_nothing : ¬Ledger.All (fun t op g => g.forgives t op)
    { inst := Instance.new (crashing (Duration.fromSecs 1)) } (stopAndFail .requested) :=
  fun h => absurd (h.2.2.2.2.2.2.1 (Duration.fromSecs 2) rfl (by decide)).2 (by decide)

end Oxinit
