import Oxinit.Model.Log
import Oxinit.Model.Text

/-!
# Numerals and fields

When a reader that is made of readers accepts. What `from_str` reads: digits,
with a plus sign before them or without. What a text is split into: parts
without the separator, between separators. And which bytes are text.
-/

namespace Oxinit.Text

/-! ## What a reader answers -/

/-- Two readers one after the other: both accept. -/
theorem bind_eq_ok_iff {ε α β : Type} {x : Except ε α} {f : α → Except ε β} {b : β} :
    x >>= f = .ok b ↔ ∃ a, x = .ok a ∧ f a = .ok b := by
  cases x with
  | error e => exact iff_of_false (by rintro ⟨⟩) (by rintro ⟨_, ⟨⟩, -⟩)
  | ok a => exact ⟨fun h => ⟨a, rfl, h⟩, by rintro ⟨_, ⟨⟩, h⟩; exact h⟩

/-- What is made of an answer is an answer. -/
theorem map_eq_ok_iff {ε α β : Type} {f : α → β} {x : Except ε α} {b : β} :
    x.map f = .ok b ↔ ∃ a, x = .ok a ∧ f a = b := by
  cases x <;> simp [Except.map]

/-! ## Numerals -/

/-- One digit or more, and the number they are. -/
def Digits (text : List Char) (n : Nat) : Prop :=
  text ≠ [] ∧ (∀ c ∈ text, c.isDigit = true) ∧ n = Nat.ofDigitChars 10 text 0

/-- What `from_str` takes for a numeral, and the number it is. -/
def Numeral (text : List Char) (n : Nat) : Prop := ∃ digits, Digits digits n ∧ (text = digits ∨ text = '+' :: digits)

variable {text digits : List Char} {bits n : Nat}

theorem Digits.dropPlus (h : Digits digits n) : dropPlus digits = digits := by
  unfold Text.dropPlus
  split
  · next rest => cases h.2.1 '+' List.mem_cons_self
  · rfl

theorem eq_dropPlus (text : List Char) : text = dropPlus text ∨ text = '+' :: dropPlus text := by
  unfold dropPlus
  split
  · exact .inr rfl
  · exact .inl rfl

/-- A number is digits after at most one plus sign, and fits. -/
theorem fromStr_eq_some_iff : fromStr bits text = some n ↔ Numeral text n ∧ n < 2 ^ bits := by
  have hread : fromStr bits text = some n ↔ Digits (dropPlus text) n ∧ n < 2 ^ bits := by
    unfold fromStr Digits
    dsimp only
    split
    · next hbad =>
      refine iff_of_false (by simp) fun h => ?_
      rcases Bool.or_eq_true_iff.mp hbad with he | hd
      · exact h.1.1 (List.isEmpty_iff.mp he)
      · rw [Bool.not_eq_true', List.all_eq_false] at hd
        obtain ⟨c, hc, hnot⟩ := hd
        exact hnot (h.1.2.1 c hc)
    · next hgood =>
      simp only [Bool.or_eq_true, List.isEmpty_iff, Bool.not_eq_true', List.all_eq_false, not_or, not_exists, not_and,
        Bool.not_eq_true, Bool.not_eq_false] at hgood
      split
      · next hlt =>
        refine ⟨fun h => ?_, fun h => by rw [h.1.2.2]⟩
        obtain rfl := Option.some.inj h
        exact ⟨⟨hgood.1, hgood.2, rfl⟩, hlt⟩
      · next hge => exact iff_of_false (by simp) fun h => hge (h.1.2.2 ▸ h.2)
  rw [hread]
  refine and_congr_left fun _ => ⟨fun h => ⟨_, h, eq_dropPlus text⟩, ?_⟩
  rintro ⟨digits, h, rfl | rfl⟩
  · rwa [h.dropPlus]
  · exact h

theorem fromStr_of_digits (h : Digits digits n) : fromStr bits digits = if n < 2 ^ bits then some n else none := by
  split
  · next hlt => exact fromStr_eq_some_iff.mpr ⟨⟨digits, h, .inl rfl⟩, hlt⟩
  · next hge =>
    refine Option.eq_none_iff_forall_ne_some.mpr fun m hm => hge ?_
    obtain ⟨⟨ds, hds, he⟩, hlt⟩ := fromStr_eq_some_iff.mp hm
    have : digits = ds := by
      rcases he with he | he
      · exact he
      · cases h.2.1 '+' (by rw [he]; exact List.mem_cons_self)
    subst this
    exact h.2.2 ▸ hds.2.2 ▸ hlt

/-- The first separator splits. -/
theorem splitOnce_eq_some_iff {sep : Char} {key value : List Char} (h : sep ∉ key) :
    splitOnce sep text = some (key, value) ↔ text = key ++ sep :: value := by
  unfold splitOnce
  constructor
  · intro hs
    split at hs
    · cases hs
    · next c rest hd =>
      obtain ⟨rfl, rfl⟩ := Prod.mk.inj (Option.some.inj hs)
      have hc := List.head?_dropWhile_not (· ≠ sep) text
      rw [hd] at hc
      have hc : c = sep := by simpa using hc
      rw [hc] at hd
      rw [← hd, List.takeWhile_append_dropWhile]
  · rintro rfl
    have hkey : ∀ c ∈ key, (decide (c ≠ sep)) = true := fun c hc => decide_eq_true fun e => h (e ▸ hc)
    rw [List.dropWhile_append_of_pos hkey, List.takeWhile_append_of_pos hkey]
    simp

theorem fromUTF8?_eq_some_iff {body : Log.Bytes} {text : String} :
    String.fromUTF8? ⟨body.toArray⟩ = some text ↔ body = Log.bytes text := by
  unfold String.fromUTF8? Log.bytes
  constructor
  · intro h
    split at h
    · cases h
      rfl
    · cases h
  · rintro rfl
    show (if h : text.toByteArray.IsValidUTF8 then some (String.fromUTF8 text.toByteArray h) else none) = some text
    rw [dif_pos text.isValidUTF8]
    rfl

/-! ## Lines and words -/

/-- A line ends at the first newline. -/
theorem lines_cons {line rest : List Char} (h : '\n' ∉ line) :
    lines (line ++ '\n' :: rest) = dropReturn line :: lines rest := by
  simp only [lines, Framework.Lines.feed_append, Framework.Lines.feed_of_notMem h, Framework.Lines.feed_sep,
    List.nil_append, List.map_cons, List.cons_append]

theorem lines_of_notMem {line : List Char} (h : '\n' ∉ line) : lines line = Framework.Lines.rest line := by
  simp only [lines, Framework.Lines.feed_of_notMem h, List.nil_append, List.map_nil]

theorem dropReturn_of_notMem {line : List Char} (h : '\r' ∉ line) : dropReturn line = line :=
  if_neg fun hlast => h (List.mem_of_getLast? hlast)

/-- Lines that are written are read back. -/
theorem lines_flatMap {parts : List (List Char)} (h : ∀ line ∈ parts, '\n' ∉ line ∧ '\r' ∉ line) :
    lines (parts.flatMap (· ++ ['\n'])) = parts := by
  induction parts with
  | nil => rfl
  | cons line parts ih =>
    obtain ⟨⟨hn, hr⟩, hparts⟩ := List.forall_mem_cons.mp h
    rw [List.flatMap_cons, List.append_assoc, List.singleton_append, lines_cons hn, dropReturn_of_notMem hr, ih hparts]

/-- No space, which would end a word. -/
def Plain (text : List Char) : Prop := ∀ c ∈ text, isWhitespace c = false

theorem plain_of_any {text : List Char} (h : text.any isWhitespace = false) : Plain text := fun c hc => by
  simpa using List.any_eq_false.mp h c hc

theorem Plain.append {before after : List Char} (h : Plain before) (h' : Plain after) : Plain (before ++ after) :=
  List.forall_mem_append.mpr ⟨h, h'⟩

theorem Plain.notMem {text : List Char} (h : Plain text) {c : Char} (hc : isWhitespace c = true) : c ∉ text :=
  fun hm => by simp [h c hm] at hc

theorem trim_eq_self {text : List Char} (h : Plain text) : trim text = text := by
  have hstart : ∀ {text : List Char}, Plain text → trimStart text = text := by
    intro text h
    cases text with
    | nil => rfl
    | cons c text => exact List.dropWhile_cons_of_neg (by simp [h c List.mem_cons_self])
  rw [trim, hstart h, hstart fun c hc => h c (List.mem_reverse.mp hc), List.reverse_reverse]

theorem splitWhitespace_of_plain {word : List Char} (h : Plain word) (hne : word ≠ []) :
    splitWhitespace word = [word] := by
  rw [splitWhitespace, List.splitOnP_eq_singleton h]
  simpa using hne

/-- A word ends at white space. -/
theorem splitWhitespace_cons {word : List Char} (h : Plain word) (hne : word ≠ []) {space : Char}
    (hs : isWhitespace space = true) (rest : List Char) :
    splitWhitespace (word ++ space :: rest) = word :: splitWhitespace rest := by
  have hword := splitWhitespace_of_plain h hne
  rw [splitWhitespace] at hword
  rw [splitWhitespace, List.splitOnP_append_cons _ _ hs, List.filter_append, hword]
  rfl

/-- Words with blanks between them are read back. -/
theorem splitWhitespace_intercalate {words : List (List Char)} (h : ∀ word ∈ words, Plain word ∧ word ≠ []) :
    splitWhitespace ([' '].intercalate words) = words := by
  induction words with
  | nil => rfl
  | cons word words ih =>
    obtain ⟨⟨hp, hne⟩, hrest⟩ := List.forall_mem_cons.mp h
    cases words with
    | nil => simpa using splitWhitespace_of_plain hp hne
    | cons next words =>
      rw [List.intercalate_cons_cons, List.append_assoc, List.singleton_append, splitWhitespace_cons hp hne (by decide),
        ih hrest]

/-- What ends a text does not matter. -/
theorem splitWhitespace_concat (text : List Char) {space : Char} (hs : isWhitespace space = true) :
    splitWhitespace (text ++ [space]) = splitWhitespace text := by
  rw [splitWhitespace, List.splitOnP_append_cons _ _ hs, List.filter_append, List.splitOnP_nil]
  simp [splitWhitespace]

/-- What stands between the separators of a text. -/
def Splits (sep : Char) (text : List Char) (parts : List (List Char)) : Prop :=
  parts ≠ [] ∧ (∀ part ∈ parts, sep ∉ part) ∧ text = [sep].intercalate parts

theorem notMem_of_mem_splitOn {sep : Char} {part : List Char} (h : part ∈ text.splitOn sep) : sep ∉ part := by
  induction text generalizing part with
  | nil =>
    rw [List.splitOn_nil, List.mem_singleton] at h
    exact h ▸ List.not_mem_nil
  | cons c text ih =>
    rw [List.splitOn_cons_eq_if_modifyHead] at h
    split at h
    · rcases List.mem_cons.mp h with rfl | h
      · exact List.not_mem_nil
      · exact ih h
    · rename_i hc
      obtain ⟨first, rest, hsplit⟩ := List.exists_cons_of_ne_nil (List.splitOn_ne_nil sep text)
      rw [hsplit] at h ih
      rcases List.mem_cons.mp h with rfl | h
      · rw [List.mem_cons, not_or]
        exact ⟨fun he => hc (beq_iff_eq.mpr he.symm), ih List.mem_cons_self⟩
      · exact ih (List.mem_cons_of_mem _ h)

/-- The parts are what the separators part. -/
theorem splitOn_eq_iff {sep : Char} {parts : List (List Char)} : text.splitOn sep = parts ↔ Splits sep text parts := by
  constructor
  · rintro rfl
    exact ⟨List.splitOn_ne_nil sep text, fun _ => notMem_of_mem_splitOn, (List.intercalate_splitOn sep).symm⟩
  · rintro ⟨hne, hsep, rfl⟩
    exact List.splitOn_intercalate sep hsep hne

end Oxinit.Text
