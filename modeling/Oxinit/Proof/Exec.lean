import Oxinit.Model.Exec

/-!
# Any argv can be written

An argument can be quoted so that both passes of `parse` give it back: the
first takes one percent sign of two, the second the backslashes and the
quotes. What either does with one quoted argument is said for any text after
it.
-/

namespace Oxinit.Exec

/-- The double quote. -/
def doubleQuote : Char := '\x22'

/-- A character, as it is written in an argument. -/
def escaped (c : Char) : List Char :=
  if c = '%' then ['%', '%'] else if c = backslash ∨ c = doubleQuote then [backslash, c] else [c]

/-- An argument, as it is written in an `exec` string. -/
def quoted (arg : List Char) : List Char := doubleQuote :: arg.flatMap escaped ++ [doubleQuote]

/-- Arguments, each but the first after what separates it from the one before. -/
def joined (f : List Char → List Char) (program : List Char) (args : List (List Char × List Char)) : List Char :=
  f program ++ args.flatMap fun a => a.1 ++ f a.2

/-- An argv, as it is written in `exec`. -/
def encode (program : List Char) (args : List (List Char × List Char)) : List Char := joined quoted program args

/-- What the first pass leaves of a character. -/
def backslashed (c : Char) : List Char := if c = backslash ∨ c = doubleQuote then [backslash, c] else [c]

/-- What it leaves of an argument. -/
def halfway (arg : List Char) : List Char := doubleQuote :: arg.flatMap backslashed ++ [doubleQuote]

variable {s : Specifiers} {out rest space arg : List Char} {c d : Char}

/-! ## The first pass -/

theorem expandFrom_cons (hc : c ≠ '%') (rest : List Char) :
    expandFrom s out (c :: rest) = expandFrom s (out ++ [c]) rest := by
  cases rest with
  | nil => simp [expandFrom, hc]
  | cons d rest => rw [expandFrom, if_neg hc]

theorem expandFrom_append {text : List Char} (h : ∀ c ∈ text, c ≠ '%') :
    expandFrom s out (text ++ rest) = expandFrom s (out ++ text) rest := by
  induction text generalizing out with
  | nil => rw [List.nil_append, List.append_nil]
  | cons c text ih =>
    rw [List.forall_mem_cons] at h
    rw [List.cons_append, expandFrom_cons h.1, ih h.2, List.append_assoc, List.singleton_append]

theorem expandFrom_escaped (c : Char) :
    expandFrom s out (escaped c ++ rest) = expandFrom s (out ++ backslashed c) rest := by
  by_cases hc : c = '%'
  · subst hc
    rfl
  · rw [escaped, if_neg hc]
    apply expandFrom_append
    intro x hx
    split at hx
    · rcases List.mem_pair.mp hx with rfl | rfl
      · decide
      · exact hc
    · exact List.mem_singleton.mp hx ▸ hc

theorem expandFrom_flatMap (arg : List Char) :
    expandFrom s out (arg.flatMap escaped ++ rest) = expandFrom s (out ++ arg.flatMap backslashed) rest := by
  induction arg generalizing out with
  | nil => simp
  | cons c arg ih =>
    rw [List.flatMap_cons, List.append_assoc, expandFrom_escaped, ih, List.append_assoc, List.flatMap_cons]

/-- The first pass takes out the second of two percent signs, and nothing else. -/
theorem expandFrom_quoted (arg : List Char) :
    expandFrom s out (quoted arg ++ rest) = expandFrom s (out ++ halfway arg) rest := by
  have hquote : ∀ {out rest}, expandFrom s out (doubleQuote :: rest) = expandFrom s (out ++ [doubleQuote]) rest :=
    expandFrom_cons (by decide) _
  simp only [quoted, halfway, List.append_assoc, List.cons_append, List.nil_append, hquote, expandFrom_flatMap]

/-- The specifiers of an encoded line are its escaped percent signs. -/
theorem expand_encode (program : List Char) {args : List (List Char × List Char)}
    (h : ∀ a ∈ args, ∀ c ∈ a.1, Text.isWhitespace c = true) :
    expand s (encode program args) = .ok (joined halfway program args) := by
  have hargs : ∀ out, expandFrom s out (args.flatMap fun a => a.1 ++ quoted a.2)
      = .ok (out ++ args.flatMap fun a => a.1 ++ halfway a.2) := by
    induction args with
    | nil => simp [expandFrom]
    | cons a args ih =>
      rw [List.forall_mem_cons] at h
      have hspace : ∀ c ∈ a.1, c ≠ '%' := by
        rintro c hc rfl
        exact absurd (h.1 '%' hc) (by decide)
      intro out
      simp only [List.flatMap_cons, List.append_assoc]
      rw [expandFrom_append hspace, expandFrom_quoted, ih h.2]
      simp only [List.append_assoc]
  rw [expand, encode, joined, expandFrom_quoted, hargs, List.nil_append]
  rfl

/-! ## The second pass -/

namespace Splitting

variable {t : Splitting}

theorem run_cons (hc : c ≠ backslash) (rest : List Char) : run t (c :: rest) = run (t.next c) rest := by
  cases rest with
  | nil => simp [run, hc]
  | cons d rest => rw [run, if_neg hc]

theorem run_escape (d : Char) (rest : List Char) : run t (backslash :: d :: rest) = run (t.push d) rest := by
  rw [run, if_pos rfl]

/-- In double quotes a character is itself, with a backslash if it needs one. -/
theorem run_backslashed (ht : t.quote = some doubleQuote) (c : Char) :
    run t (backslashed c ++ rest) = run (t.push c) rest := by
  unfold backslashed
  split
  · exact run_escape c rest
  · rename_i hc
    rw [not_or] at hc
    rw [List.singleton_append, run_cons hc.1]
    simp [next, ht, Ne.symm hc.2]

/-- An escaped argument is read back. -/
theorem run_flatMap {current : List Char} {argv : List (List Char)} (arg : List Char) :
    run ⟨argv, current, true, some doubleQuote⟩ (arg.flatMap backslashed ++ rest)
      = run ⟨argv, current ++ arg, true, some doubleQuote⟩ rest := by
  induction arg generalizing current with
  | nil => simp
  | cons c arg ih =>
    rw [List.flatMap_cons, List.append_assoc, run_backslashed rfl, push, ih, List.append_assoc, List.singleton_append]

/-- A quoted argument, where there was none. -/
theorem run_quoted {argv : List (List Char)} (arg : List Char) :
    run ⟨argv, [], false, none⟩ (halfway arg ++ rest) = run ⟨argv, arg, true, none⟩ rest := by
  rw [halfway, List.append_assoc, List.cons_append, run_cons (by decide)]
  show run ⟨argv, [], true, some doubleQuote⟩ _ = _
  rw [run_flatMap, List.nil_append, List.singleton_append, run_cons (by decide)]
  rfl

/-- White space ends a word. -/
theorem next_space (hc : Text.isWhitespace c = true) (argv : List (List Char)) (current : List Char) (has : Bool) :
    next c ⟨argv, current, has, none⟩
      = if has then ⟨argv ++ [current], [], false, none⟩ else ⟨argv, current, has, none⟩ := by
  have hq : isQuote c = false := by
    refine eq_false_of_ne_true fun h => ?_
    rcases Bool.or_eq_true_iff.mp h with h | h <;> rw [of_decide_eq_true h] at hc <;> exact absurd hc (by decide)
  simp [next, hq, hc]

/-- Whitespace ends an argument, once. -/
theorem run_space {argv : List (List Char)} (hne : space ≠ []) (h : ∀ c ∈ space, Text.isWhitespace c = true) :
    run ⟨argv, arg, true, none⟩ (space ++ rest) = run ⟨argv ++ [arg], [], false, none⟩ rest := by
  have hblank : ∀ {c}, Text.isWhitespace c = true → c ≠ backslash := by
    rintro c hc rfl
    exact absurd hc (by decide)
  have hmore : ∀ space : List Char, (∀ c ∈ space, Text.isWhitespace c = true) →
      run ⟨argv ++ [arg], [], false, none⟩ (space ++ rest) = run ⟨argv ++ [arg], [], false, none⟩ rest := by
    intro space h
    induction space with
    | nil => rfl
    | cons c space ih =>
      rw [List.forall_mem_cons] at h
      rw [List.cons_append, run_cons (hblank h.1), next_space h.1]
      exact ih h.2
  obtain ⟨c, space, rfl⟩ := List.exists_cons_of_ne_nil hne
  rw [List.forall_mem_cons] at h
  rw [List.cons_append, run_cons (hblank h.1), next_space h.1]
  exact hmore space h.2

/-- The arguments after the one that is being read. -/
theorem run_args {args : List (List Char × List Char)} (argv : List (List Char)) (arg : List Char)
    (h : ∀ a ∈ args, a.1 ≠ [] ∧ ∀ c ∈ a.1, Text.isWhitespace c = true) :
    (run ⟨argv, arg, true, none⟩ (args.flatMap fun a => a.1 ++ halfway a.2)).bind finish
      = .ok (argv ++ arg :: args.map (·.2)) := by
  induction args generalizing argv arg with
  | nil => rfl
  | cons a args ih =>
    rw [List.forall_mem_cons] at h
    rw [List.flatMap_cons, List.append_assoc, run_space h.1.1 h.1.2, run_quoted, ih _ _ h.2]
    simp

end Splitting

/-- Any argv can be written in `exec`, and comes back unchanged. -/
theorem parse_encode (s : Specifiers) (program : List Char) (args : List (List Char × List Char))
    (hp : program.head? = some '/') (ha : ∀ a ∈ args, a.1 ≠ [] ∧ ∀ c ∈ a.1, Text.isWhitespace c = true) :
    parse (encode program args) s = .ok (program :: args.map (·.2)) := by
  have hsplit : split (joined halfway program args) = .ok (program :: args.map (·.2)) := by
    show (Splitting.run ⟨[], [], false, none⟩ _).bind Splitting.finish = _
    rw [joined, Splitting.run_quoted, Splitting.run_args [] program ha, List.nil_append]
  unfold parse
  rw [expand_encode program fun a h => (ha a h).2]
  show (split _).bind _ = _
  rw [hsplit]
  simp [Except.bind, hp]

theorem parse_encode_sample :
    parse (encode ['/', '%'] [([' ', '\t'], []), ([' '], [backslash, doubleQuote, ' '])]) ⟨['a'], [], [], []⟩
      = .ok [['/', '%'], [], [backslash, doubleQuote, ' ']] := by
  have hspace : Text.isWhitespace ' ' = true ∧ Text.isWhitespace '\t' = true := by decide
  exact parse_encode _ _ _ rfl (by simp [hspace])

end Oxinit.Exec
