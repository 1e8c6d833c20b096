import Oxinit.Framework.Moments
import Oxinit.Model.Calendar
import Oxinit.Proof.Text

/-!
# The calendar

Which strings are a calendar, and which moments it names. Each calendar names
the moments with one remainder (`period`), and `next_at` is the one that is
less than a period away.
-/

namespace Oxinit

open Framework
open Text (Digits Numeral)

namespace Calendar

variable {c : Calendar} {text : String} {now t : Nat}

/-! ## The vocabulary -/

/-- Two or three numbers with colons between them, in the ranges of a time. -/
def IsTime (Field : List Char → Nat → Prop) (text : String) (hour minute second : Nat) : Prop :=
  hour ≤ 23 ∧ minute ≤ 59 ∧ second ≤ 59 ∧ ∃ h m, Field h hour ∧ Field m minute
    ∧ (text.toList = h ++ ':' :: m ∧ second = 0 ∨ ∃ s, Field s second ∧ text.toList = h ++ ':' :: (m ++ ':' :: s))

/-- Exactly two digits, and the number they are. -/
def TwoDigits (part : List Char) (n : Nat) : Prop := Digits part n ∧ part.length = 2

/-- What the document has a string mean. -/
def Means (text : String) : Calendar → Prop
  | .hourly => text = "hourly"
  | .daily => text = "daily"
  | .weekly => text = "weekly"
  | .at hour minute second => IsTime TwoDigits text hour minute second

/-- A number is accepted up to `max`. -/
theorem number_eq_ok_iff {part : List Char} {max n : Nat} (hmax : max < 2 ^ 32) :
    number part max text = .ok n ↔ Numeral part n ∧ n ≤ max := by
  have hread : (∃ value, Text.fromStr 32 part = some value ∧ value ≤ max ∧ value = n) ↔ Numeral part n ∧ n ≤ max := by
    constructor
    · rintro ⟨value, hv, hle, rfl⟩
      exact ⟨(Text.fromStr_eq_some_iff.mp hv).1, hle⟩
    · rintro ⟨hn, hle⟩
      exact ⟨n, Text.fromStr_eq_some_iff.mpr ⟨hn, by omega⟩, hle, rfl⟩
  rw [← hread]
  unfold number
  cases Text.fromStr 32 part with
  | none => simp
  | some value =>
    dsimp only
    split
    · next hlt => exact iff_of_false (by simp) (by rintro ⟨_, ⟨rfl⟩, hle, -⟩; omega)
    · next hge =>
      simp only [Except.ok.injEq, Option.some.injEq, exists_eq_left']
      omega

theorem colon_notMem {part : List Char} {n : Nat} (h : Numeral part n) : ':' ∉ part := by
  obtain ⟨digits, hd, rfl | rfl⟩ := h
  · exact fun hm => by cases hd.2.1 ':' hm
  · intro hm
    rcases List.mem_cons.mp hm with he | hm
    · cases he
    · cases hd.2.1 ':' hm

/-- The fields of a time are what stands between its colons. -/
theorem isTime_iff {hour minute second : Nat} :
    IsTime Numeral text hour minute second ↔
      hour ≤ 23 ∧ minute ≤ 59 ∧ second ≤ 59 ∧ ∃ h m, Numeral h hour ∧ Numeral m minute
        ∧ (text.toList.splitOn ':' = [h, m] ∧ second = 0
          ∨ ∃ s, Numeral s second ∧ text.toList.splitOn ':' = [h, m, s]) := by
  refine and_congr_right fun _ => and_congr_right fun _ => and_congr_right fun _ => exists_congr fun h =>
    exists_congr fun m => and_congr_right fun hh => and_congr_right fun hm => ?_
  refine or_congr (and_congr_left fun _ => ?_) (exists_congr fun s => and_congr_right fun hs => ?_)
  · rw [Text.splitOn_eq_iff]
    simp [Text.Splits, colon_notMem hh, colon_notMem hm, List.intercalate]
  · rw [Text.splitOn_eq_iff]
    simp [Text.Splits, colon_notMem hh, colon_notMem hm, colon_notMem hs, List.intercalate]

/-- The times of day that are accepted. -/
theorem parse_eq_at_iff {hour minute second : Nat} :
    parse text = .ok (.at hour minute second) ↔ IsTime Numeral text hour minute second := by
  have hnamed : ∀ name : String, ':' ∉ name.toList → text = name → ¬IsTime Numeral text hour minute second := by
    rintro name hc rfl ⟨-, -, -, h, m, -, -, ⟨he, -⟩ | ⟨s, -, he⟩⟩
    · exact hc (by simp [he])
    · exact hc (by simp [he])
  unfold parse
  split
  · next h => exact iff_of_false (by simp) (hnamed _ (by decide) h)
  · split
    · next h => exact iff_of_false (by simp) (hnamed _ (by decide) h)
    · split
      · next h => exact iff_of_false (by simp) (hnamed _ (by decide) h)
      · rw [isTime_iff]
        generalize text.toList.splitOn ':' = parts
        match parts with
        | [] => simp [field, Text.bind_eq_ok_iff]
        | [h] => simp [field, Text.bind_eq_ok_iff]
        | [h, m] =>
          simp [field, number_eq_ok_iff, Text.bind_eq_ok_iff]
          grind
        | [h, m, s] =>
          simp [field, number_eq_ok_iff, Text.bind_eq_ok_iff]
          grind
        | h :: m :: s :: x :: rest => simp [Text.bind_eq_ok_iff]

theorem IsTime.mono {F G : List Char → Nat → Prop} (hFG : ∀ part n, F part n → G part n) {hour minute second : Nat}
    (h : IsTime F text hour minute second) : IsTime G text hour minute second := by
  obtain ⟨h1, h2, h3, h, m, hh, hm, htext⟩ := h
  refine ⟨h1, h2, h3, h, m, hFG _ _ hh, hFG _ _ hm, htext.imp_right ?_⟩
  rintro ⟨s, hs, ht⟩
  exact ⟨s, hFG _ _ hs, ht⟩

theorem TwoDigits.numeral {part : List Char} {n : Nat} (h : TwoDigits part n) : Numeral part n := ⟨part, h.1, .inl rfl⟩

/-- Only the three words are not times. -/
theorem word_of_parse (h : parse text = .ok c) :
    (∃ hour minute second, c = .at hour minute second) ∨ text = "hourly" ∧ c = .hourly ∨ text = "daily" ∧ c = .daily
      ∨ text = "weekly" ∧ c = .weekly := by
  unfold parse at h
  split at h
  · next hw => exact .inr (.inl ⟨hw, by cases h; rfl⟩)
  · split at h
    · next hw => exact .inr (.inr (.inl ⟨hw, by cases h; rfl⟩))
    · split at h
      · next hw => exact .inr (.inr (.inr ⟨hw, by cases h; rfl⟩))
      · obtain ⟨hour, -, h⟩ := Text.bind_eq_ok_iff.mp h
        obtain ⟨minute, -, h⟩ := Text.bind_eq_ok_iff.mp h
        dsimp only at h
        refine .inl ⟨hour, minute, ?_⟩
        generalize hparts : text.toList.splitOn ':' = parts at h
        generalize parts[2]? = part, parts[3]?.isSome = more at h
        have hsecond : ∃ second, (if more = true then .error ⟨text⟩ else .ok (.at hour minute second)) =
            (.ok c : Except CalendarError Calendar) := by
          cases part with
          | none => exact ⟨0, h⟩
          | some part => exact (Text.bind_eq_ok_iff.mp h).imp fun _ h => h.2
        obtain ⟨second, h⟩ := hsecond
        cases more with
        | true => cases h
        | false => exact ⟨second, by cases h; rfl⟩

/-- What `parse` has a string mean. -/
theorem parse_eq_ok_iff : parse text = .ok c ↔
    match c with
    | .at hour minute second => IsTime Numeral text hour minute second
    | c => Means text c := by
  cases c with
  | «at» hour minute second => exact parse_eq_at_iff
  | hourly => exact ⟨fun h => by simpa [Means] using word_of_parse h, fun h => by rw [h]; decide⟩
  | daily => exact ⟨fun h => by simpa [Means] using word_of_parse h, fun h => by rw [h]; decide⟩
  | weekly => exact ⟨fun h => by simpa [Means] using word_of_parse h, fun h => by rw [h]; decide⟩

/-- The vocabulary of a string is that of the document exactly if each number of
a time in it is written in two digits. -/
theorem vocabulary_is_closed_iff (text : String) :
    (∀ c, parse text = .ok c ↔ Means text c) ↔
      ∀ hour minute second, IsTime Numeral text hour minute second → IsTime TwoDigits text hour minute second := by
  constructor
  · intro h hour minute second ht
    exact (h (.at hour minute second)).mp (parse_eq_at_iff.mpr ht)
  · intro h c
    rw [parse_eq_ok_iff]
    cases c with
    | «at» hour minute second => exact ⟨h hour minute second, fun hm => IsTime.mono (fun _ _ => TwoDigits.numeral) hm⟩
    | _ => exact Iff.rfl

/-- The hour may have one digit. -/
theorem parse_takes_one_digit : parse "9:05" = .ok (.at 9 5 0) ∧ ∀ c, ¬Means "9:05" c := by
  refine ⟨by decide, fun c => ?_⟩
  cases c with
  | «at» hour minute second =>
    rintro ⟨-, -, -, h, m, ⟨-, hh⟩, ⟨-, hm⟩, ⟨he, -⟩ | ⟨s, ⟨-, hs⟩, he⟩⟩
    · have := congrArg List.length he
      simp [hh, hm] at this
    · have := congrArg List.length he
      simp [hh, hm, hs] at this
  | _ => simp [Means]

/-! ## The next moment -/

/-- The moments a calendar names. Day 0 was a Thursday, so day 4 was a Monday. -/
def Names : Calendar → Nat → Prop
  | .hourly, t => t % Oxinit.hour = 0
  | .daily, t => t % day = 0
  | .weekly, t => t % day = 0 ∧ t / day % 7 = 4
  | .at hour minute second, t => t % day = hour * Oxinit.hour + minute * Oxinit.minute + second

instance (c : Calendar) (t : Nat) : Decidable (c.Names t) :=
  match c with
  | .hourly => inferInstanceAs (Decidable (t % Oxinit.hour = 0))
  | .daily => inferInstanceAs (Decidable (t % day = 0))
  | .weekly => inferInstanceAs (Decidable (t % day = 0 ∧ t / day % 7 = 4))
  | .at hour minute second =>
    inferInstanceAs (Decidable (t % day = hour * Oxinit.hour + minute * Oxinit.minute + second))

/-- How far apart the moments are. -/
def period : Calendar → Nat
  | .hourly => Oxinit.hour
  | .daily => day
  | .weekly => 7 * day
  | .at .. => day

/-- How long after the start of a period. -/
def offset : Calendar → Nat
  | .hourly => 0
  | .daily => 0
  | .weekly => 4 * day
  | .at hour minute second => hour * Oxinit.hour + minute * Oxinit.minute + second

/-- A calendar that the parser can produce. -/
def Valid (c : Calendar) : Prop := c.offset < c.period

theorem hour_eq : Oxinit.hour = 3600 := rfl

theorem day_eq : day = 86400 := rfl

theorem period_le (c : Calendar) : c.period ≤ 7 * day := by
  cases c with
  | _ => simp [period, hour_eq, day_eq]

/-- What is parsed is a calendar that there can be. -/
theorem valid_of_parse (h : parse text = .ok c) : c.Valid := by
  cases c with
  | «at» hour minute second =>
    obtain ⟨hh, hm, hs, -⟩ := parse_eq_at_iff.mp h
    show hour * Oxinit.hour + minute * Oxinit.minute + second < day
    simp only [hour_eq, day_eq, Oxinit.minute]
    omega
  | _ => exact Nat.lt_of_sub_pos (by decide)

/-- The moments that a calendar names are a period. -/
theorem names_iff : c.Names t ↔ t % c.period = c.offset := by
  cases c with
  | weekly =>
    show t % day = 0 ∧ t / day % 7 = 4 ↔ t % (7 * day) = 4 * day
    simp only [day_eq]
    omega
  | _ => exact Iff.rfl

end Calendar

theorem checkedAdd_eq {a b : Nat} (h : a + b < 2 ^ 64) : checkedAdd a b = some (a + b) := if_pos h

theorem checkedMul_eq {a b : Nat} (h : a * b < 2 ^ 64) : checkedMul a b = some (a * b) := if_pos h

theorem checkedSub_eq {a b : Nat} (h : b ≤ a) : checkedSub a b = some (a - b) := if_pos h

theorem bind_eq_some {α β : Type} {x : Option α} {f : α → Option β} {a : α} {b : β} (hx : x = some a)
    (hf : f a = some b) : x >>= f = some b := by
  rw [hx]
  exact hf

theorem roundUp_eq (now step : Nat) :
    roundUp now step = if now % step = 0 then now else now + (step - now % step) := by
  unfold roundUp
  split
  · next h => rw [if_pos h]
  · next h => rw [if_neg h]

theorem checkedRoundUp_eq {now step : Nat} (hs : 0 < step) (h : roundUp now step < 2 ^ 64) :
    checkedRoundUp now step = some (roundUp now step) := by
  have hlt := Nat.mod_lt now hs
  rw [roundUp_eq] at h ⊢
  unfold checkedRoundUp
  split
  · next hz => rw [if_pos hz]
  · next hz =>
    have hpos : now % step ≠ 0 := hz
    rw [if_neg hpos] at h ⊢
    rw [checkedSub, if_pos (by omega)]
    exact if_pos h

/-- The next multiple is less than a step away. -/
theorem roundUp_spec (now : Nat) {step : Nat} (hs : 0 < step) :
    now ≤ roundUp now step ∧ roundUp now step < now + step ∧ roundUp now step % step = 0 := by
  have hlt := Nat.mod_lt now hs
  rw [roundUp_eq]
  split
  · next h => exact ⟨Nat.le_refl _, by omega, h⟩
  · next h =>
    refine ⟨by omega, by omega, ?_⟩
    have hdiv := Nat.mod_add_div now step
    have hnext : now + (step - now % step) = step * (now / step + 1) := by rw [Nat.mul_add]; omega
    rw [hnext, Nat.mul_mod_right]

namespace Calendar

variable {c : Calendar} {text : String} {now : Nat}

theorem le_nextAt (c : Calendar) (now : Nat) : now ≤ c.nextAt now := by
  cases c with
  | hourly => exact (roundUp_spec now (by decide)).1
  | daily => exact (roundUp_spec now (by decide)).1
  | weekly =>
    have hstep : 0 < 7 * day := by decide
    have h := (roundUp_spec (now + (7 * day - 4 * day)) hstep).1
    exact Nat.le_sub_of_add_le h
  | «at» hour minute second =>
    have hmod := Nat.mod_lt now (show 0 < day by decide)
    simp only [nextAt]
    split <;> omega

/-- The next moment is less than a period away. -/
theorem nextAt_spec (hv : c.Valid) (now : Nat) :
    now ≤ c.nextAt now ∧ c.nextAt now < now + c.period ∧ c.nextAt now % c.period = c.offset := by
  cases c with
  | hourly => exact roundUp_spec now (by decide)
  | daily => exact roundUp_spec now (by decide)
  | weekly =>
    obtain ⟨hle, hlt, hmod⟩ := roundUp_spec (now + (7 * day - 4 * day)) (show 0 < 7 * day by decide)
    simp only [nextAt, period, offset, day_eq] at hle hlt hmod ⊢
    omega
  | «at» hour minute second =>
    simp only [Valid, nextAt, period, offset] at hv ⊢
    generalize hour * Oxinit.hour + minute * Oxinit.minute + second = offset at hv ⊢
    split
    · next h =>
      simp only [day_eq] at h hv ⊢
      omega
    · next h =>
      simp only [day_eq] at h hv ⊢
      omega

/-- `next_at` answers the next moment that the calendar names. -/
theorem nextAt_isNext (hv : c.Valid) (now : Nat) : IsNext c.Names now (c.nextAt now) := by
  obtain ⟨hle, hlt, hmod⟩ := nextAt_spec hv now
  have hnames : c.Names = (· % c.period = c.offset) := funext fun _ => propext names_iff
  exact hnames ▸ IsNext.of_mod hle hlt hmod

theorem nextAt_monotone (hv : c.Valid) : Monotone c.nextAt := fun now now' hle =>
  (nextAt_isNext hv now).mono (nextAt_isNext hv now') hle

/-- Well before the end of `u64` nothing overflows. -/
theorem checkedNextAt_eq (hv : c.Valid) (h : now + 7 * day < 2 ^ 64) : c.checkedNextAt now = some (c.nextAt now) := by
  have hday : day = 86400 := rfl
  have hhour : Oxinit.hour = 3600 := rfl
  cases c with
  | hourly =>
    have hround := (roundUp_spec now (show 0 < Oxinit.hour by decide)).2.1
    exact checkedRoundUp_eq (by decide) (by omega)
  | daily =>
    have hround := (roundUp_spec now (show 0 < day by decide)).2.1
    exact checkedRoundUp_eq (by decide) (by omega)
  | weekly =>
    obtain ⟨hle, hlt, hmod⟩ := roundUp_spec (now + (7 * day - 4 * day)) (show 0 < 7 * day by decide)
    refine bind_eq_some (checkedMul_eq (by omega)) (bind_eq_some (checkedSub_eq (by omega)) ?_)
    refine bind_eq_some (checkedAdd_eq (by omega)) (bind_eq_some (checkedRoundUp_eq (by decide) ?_) ?_)
    · -- `u64` ends early in a week, so what is rounded up to the end of one is representable too.
      rw [hday] at h hle hlt hmod ⊢
      omega
    · exact checkedSub_eq (by omega)
  | «at» hour minute second =>
    have hoffset : hour * Oxinit.hour + minute * Oxinit.minute + second < day := hv
    have hmidnight : now % day ≤ now := Nat.mod_le _ _
    refine bind_eq_some (checkedMul_eq (by omega)) (bind_eq_some (checkedMul_eq (by omega)) ?_)
    refine bind_eq_some (bind_eq_some (checkedAdd_eq (by omega)) (checkedAdd_eq (by omega))) ?_
    refine bind_eq_some (checkedSub_eq hmidnight) (bind_eq_some (checkedAdd_eq (by omega)) ?_)
    simp only [nextAt]
    split
    · rfl
    · exact bind_eq_some (checkedAdd_eq (by omega)) (checkedAdd_eq (by omega))

/-- `next_at` is the next moment of the schedule. -/
theorem next_at_is_the_next (hc : parse text = .ok c) :
    (∀ now, now + 8 * day < 2 ^ 64 →
      c.checkedNextAt now = some (c.nextAt now) ∧ IsNext c.Names now (c.nextAt now)) ∧ Monotone c.nextAt :=
  have hv := valid_of_parse hc
  ⟨fun now h => ⟨checkedNextAt_eq hv (by omega), nextAt_isNext hv now⟩, nextAt_monotone hv⟩

theorem next_at_is_the_next_sample :
    parse "03:30" = .ok (.at 3 30 0) ∧
      (∀ now, now + 8 * day < 2 ^ 64 →
        checkedNextAt (.at 3 30 0) now = some (nextAt (.at 3 30 0) now)
          ∧ IsNext (Names (.at 3 30 0)) now (nextAt (.at 3 30 0) now))
      ∧ Monotone (nextAt (.at 3 30 0)) :=
  have hc : parse "03:30" = .ok (.at 3 30 0) := by decide
  ⟨hc, next_at_is_the_next hc⟩

-- The first Monday is the fifth day.
example : nextAt .weekly 0 = 4 * day := by decide

end Calendar

end Oxinit
