import Mathlib.Data.List.TakeWhile
import Oxinit.Model.Duration
import Oxinit.Proof.Text

/-!
# What a duration string means

A duration is a sequence of pairs (`Pair`), each with the whitespace behind it.
One turn of the loop takes one pair off the front (`parsePairs_text`), and takes
nothing else (`parsePairs_sound`).
-/

namespace Oxinit

open Text (Digits isWhitespace trim trimStart)

variable {input rest more : List Char} {sum n : Nat}

/-- A number, one of the documented suffixes, and whitespace. -/
structure Pair where
  digits : List Char
  value : Nat
  suffix : List Char
  per : Nat
  space : List Char
  number : Digits digits value
  known : (suffix, per) ∈ microsPer
  blank : ∀ c ∈ space, isWhitespace c = true

namespace Pair

def text (p : Pair) : List Char := p.digits ++ (p.suffix ++ p.space)

def micros (p : Pair) : Nat := p.value * p.per

def total (ps : List Pair) : Nat := (ps.map micros).sum

end Pair

/-! ## Runs of characters -/

/-- A run of characters, and what does not go on with it. -/
theorem span_run {p : Char → Bool} {run more : List Char} (hr : ∀ c ∈ run, p c = true)
    (hm : ∀ c, more.head? = some c → p c = false) :
    (run ++ more).takeWhile p = run ∧ (run ++ more).dropWhile p = more := by
  rw [List.takeWhile_append_of_pos hr, List.dropWhile_append_of_pos hr]
  cases more with
  | nil => simp
  | cons c more => simp [hm c rfl]

theorem takeWhile_append_drop (p : Char → Bool) (text : List Char) :
    text.takeWhile p ++ text.drop (text.takeWhile p).length = text :=
  (List.prefix_iff_eq_append.mp (List.takeWhile_prefix p)).symm ▸ rfl

theorem ascii : '0'.val.toNat = 48 ∧ '9'.val.toNat = 57 ∧ 'A'.val.toNat = 65 ∧ 'Z'.val.toNat = 90
    ∧ 'a'.val.toNat = 97 ∧ 'z'.val.toNat = 122 := by
  decide

theorem of_isDigit {c : Char} (h : c.isDigit = true) : c.isAlpha = false ∧ isWhitespace c = false := by
  have hc : c.toNat = c.val.toNat := rfl
  delta Char.isAlpha Char.isUpper Char.isLower
  simp only [Char.isDigit, isWhitespace, Bool.and_eq_true,
    Bool.or_eq_false_iff, Bool.and_eq_false_iff, decide_eq_true_eq, decide_eq_false_iff_not, ge_iff_le,
    UInt32.le_iff_toNat_le] at h ⊢
  have := ascii
  omega

theorem of_isAlpha {c : Char} (h : c.isAlpha = true) : c.isDigit = false ∧ isWhitespace c = false := by
  have hc : c.toNat = c.val.toNat := rfl
  delta Char.isAlpha Char.isUpper Char.isLower at h
  simp only [Char.isDigit, isWhitespace, Bool.and_eq_true, Bool.or_eq_true,
    Bool.or_eq_false_iff, Bool.and_eq_false_iff, decide_eq_true_eq, decide_eq_false_iff_not, ge_iff_le,
    UInt32.le_iff_toNat_le] at h ⊢
  have := ascii
  omega

theorem of_isWhitespace {c : Char} (h : isWhitespace c = true) : c.isAlpha = false ∧ c.isDigit = false := by
  constructor
  · cases ha : c.isAlpha with
    | false => rfl
    | true => cases h.symm.trans (of_isAlpha ha).2
  · cases hd : c.isDigit with
    | false => rfl
    | true => cases h.symm.trans (of_isDigit hd).2

/-! ## One pair -/

theorem microsPer_spec : ∀ x ∈ microsPer,
    x.1 ≠ [] ∧ (∀ c ∈ x.1, c.isAlpha = true) ∧ 0 < x.2 ∧ microsPer.find? (·.1 = x.1) = some x := by
  simp [microsPer]

/-- A sum is checked, and a product. -/
theorem checked_eq_some_iff {value per t : Nat} :
    (checkedMul value per).bind (checkedAdd sum) = some t ↔ t = sum + value * per ∧ t < 2 ^ 64 := by
  unfold checkedMul checkedAdd
  split
  · next hlt =>
    rw [Option.bind_some]
    split
    · next hsum => grind
    · next hsum => grind
  · next hge => grind

/-- What is accepted is a sequence of pairs. -/
theorem parsePairs_sound (h : parsePairs input rest sum = .ok n) (hm : sum < 2 ^ 64) :
    ∃ ps : List Pair, rest = ps.flatMap Pair.text ∧ n = sum + Pair.total ps ∧ n < 2 ^ 64 := by
  fun_induction parsePairs input rest sum with
  | case1 sum =>
    cases h
    exact ⟨[], rfl, rfl, hm⟩
  | case2 | case3 | case4 | case5 | case6 => cases h
  | case7 rest sum hne digits hdigits afterDigits suffix hsuffix left name per hfind value hvalue sum' hsum ih =>
    obtain ⟨rfl, hlt⟩ := checked_eq_some_iff.mp hsum
    obtain ⟨ps, hleft, rfl, hn⟩ := ih h hlt
    have hname : name = suffix := by simpa using List.find?_some hfind
    subst hname
    have hdig : Digits digits value := by
      have hd : Digits digits (Nat.ofDigitChars 10 digits 0) := ⟨hdigits, fun c hc => List.mem_takeWhile_imp hc, rfl⟩
      rw [Text.fromStr_of_digits hd] at hvalue
      split at hvalue
      · exact Option.some.inj hvalue ▸ hd
      · cases hvalue
    let p : Pair :=
      { digits, value, suffix, per, space := (afterDigits.drop suffix.length).takeWhile isWhitespace, number := hdig
        known := List.mem_of_find?_eq_some hfind
        blank := fun c hc => List.mem_takeWhile_imp hc }
    refine ⟨p :: ps, ?_, ?_, hn⟩
    · have hspace : p.space ++ left = afterDigits.drop suffix.length := List.takeWhile_append_dropWhile
      have hsuf : suffix ++ afterDigits.drop suffix.length = afterDigits := takeWhile_append_drop _ afterDigits
      have hdigs : digits ++ afterDigits = rest := takeWhile_append_drop _ rest
      rw [List.flatMap_cons, ← hleft, Pair.text, List.append_assoc, List.append_assoc, hspace, hsuf, hdigs]
    · exact Nat.add_assoc sum (value * per) (Pair.total ps)

/-- Where a pair may end. -/
def Boundary (more : List Char) : Prop := ∀ c, more.head? = some c → c.isDigit = true

/-- A sequence of pairs starts with a digit. -/
theorem Pair.boundary (ps : List Pair) : Boundary (ps.flatMap Pair.text) := by
  intro c hc
  cases ps with
  | nil => cases hc
  | cons p ps =>
    obtain ⟨d, ds, hd⟩ := List.exists_cons_of_ne_nil p.number.1
    rw [List.flatMap_cons, text, hd] at hc
    obtain rfl := Option.some.inj hc
    exact p.number.2.1 d (by rw [hd]; exact List.mem_cons_self)

/-- The loop takes a pair that fits. -/
theorem parsePairs_text (p : Pair) (hmore : Boundary more) (hlt : sum + p.micros < 2 ^ 64) :
    parsePairs input (p.text ++ more) sum = parsePairs input more (sum + p.micros) := by
  obtain ⟨hne, halpha, hper, hfind⟩ := microsPer_spec _ p.known
  have hspace : ∀ c, (p.space ++ more).head? = some c → isWhitespace c = true ∨ c.isDigit = true := by
    intro c hc
    cases hs : p.space with
    | nil => exact .inr (hmore c (by simpa [hs] using hc))
    | cons x xs =>
      rw [hs, List.cons_append, List.head?_cons, Option.some.injEq] at hc
      exact .inl (p.blank c (by simp [hs, hc]))
  have hsuffix : ∀ c, (p.suffix ++ (p.space ++ more)).head? = some c → c.isDigit = false := by
    intro c hc
    obtain ⟨x, xs, hx⟩ := List.exists_cons_of_ne_nil hne
    dsimp only at hx
    rw [hx, List.cons_append, List.head?_cons, Option.some.injEq] at hc
    exact (of_isAlpha (halpha c (by simp [hx, hc]))).1
  have htext : p.text ++ more = p.digits ++ (p.suffix ++ (p.space ++ more)) := by
    simp only [Pair.text, List.append_assoc]
  have hdigits := (span_run p.number.2.1 hsuffix).1
  have hword : (p.suffix ++ (p.space ++ more)).takeWhile Char.isAlpha = p.suffix := by
    refine (span_run halpha fun c hc => ?_).1
    rcases hspace c hc with hw | hd
    · exact (of_isWhitespace hw).1
    · exact (of_isDigit hd).1
  have htrim : trimStart (p.space ++ more) = more := (span_run p.blank fun c hc => (of_isDigit (hmore c hc)).2).2
  have hvalue : Text.fromStr 64 p.digits = some p.value := by
    have hle : p.value ≤ p.micros := Nat.le_mul_of_pos_right _ hper
    rw [Text.fromStr_of_digits p.number, if_pos (by omega)]
  have hsum : (checkedMul p.value p.per).bind (checkedAdd sum) = some (sum + p.micros) :=
    checked_eq_some_iff.mpr ⟨rfl, hlt⟩
  have hnil : ¬p.digits ++ (p.suffix ++ (p.space ++ more)) = [] := by simp [p.number.1]
  rw [htext, parsePairs, dif_neg hnil]
  simp only [hdigits, if_neg p.number.1, List.drop_left, hword, dif_neg hne, hfind, hvalue, hsum, htrim]

/-- Every sequence of pairs is accepted, up to the end of `u64`. -/
theorem parsePairs_complete (ps : List Pair) (hlt : sum + Pair.total ps < 2 ^ 64) :
    parsePairs input (ps.flatMap Pair.text) sum = .ok (sum + Pair.total ps) := by
  induction ps generalizing sum with
  | nil =>
    rw [List.flatMap_nil, parsePairs, dif_pos rfl]
    rfl
  | cons p ps ih =>
    have htotal : sum + Pair.total (p :: ps) = sum + p.micros + Pair.total ps := (Nat.add_assoc ..).symm
    rw [htotal] at hlt ⊢
    rw [List.flatMap_cons, parsePairs_text p (Pair.boundary ps) (by omega), ih hlt]

/-- A string is a duration exactly if it is a sequence of pairs whose sum can be
represented, and then it is that sum. -/
theorem parseDuration_eq_ok_iff (input : List Char) (d : Nat) :
    parseDuration input = .ok d ↔
      ∃ ps : List Pair, ps ≠ [] ∧ trim input = ps.flatMap Pair.text ∧ Pair.total ps < 2 ^ 64
        ∧ d = Duration.fromMicros (Pair.total ps) := by
  unfold parseDuration
  dsimp only
  split
  · next hnil =>
    refine iff_of_false (by simp) ?_
    rintro ⟨ps, hne, he, -⟩
    obtain ⟨p, ps, rfl⟩ := List.exists_cons_of_ne_nil hne
    rw [hnil, List.flatMap_cons, Pair.text] at he
    simp only [List.append_assoc] at he
    exact p.number.1 (List.append_eq_nil_iff.mp he.symm).1
  · next hne =>
    constructor
    · intro h
      cases hp : parsePairs input (trim input) 0 with
      | error e => simp [hp, Except.map] at h
      | ok n =>
        obtain ⟨ps, hps, rfl, hlt⟩ := parsePairs_sound hp (by decide)
        rw [hp] at h
        cases h
        rw [Nat.zero_add] at hlt
        exact ⟨ps, fun hn => hne (by rw [hps, hn]; rfl), hps, hlt, by rw [Nat.zero_add]⟩
    · rintro ⟨ps, -, hps, hlt, rfl⟩
      rw [hps, parsePairs_complete ps (by rwa [Nat.zero_add]), Nat.zero_add]
      rfl

end Oxinit
