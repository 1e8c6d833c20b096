import Mathlib.Data.List.Basic

/-!
# Lines out of a stream

A stream is cut at a separator, and what stands behind the last separator is
held until more comes: so it gives the same lines in chunks as in one piece
(`feed_append`). `push` is a buffer that lets go of what it holds once that is
`bound` long. It loses nothing and stays small (`pushes_flatten`,
`length_held_lt`), and it gives the lines of the stream unless a chunk ends
between a line of that length and its separator (`drained_eq_lines_iff`).
-/

namespace Framework.Lines

variable {α : Type*} {sep : α} {bound : Nat} {held chunk xs : List α}

/-- What is held when nothing more comes is a line too, if there is any. -/
def rest (held : List α) : List (List α) := if held.isEmpty then [] else [held]

/-- The lines as they were written, each with its separator. -/
def text (sep : α) (ls : List (List α)) : List α := (ls.map (· ++ [sep])).flatten

@[simp] theorem rest_nil : rest ([] : List α) = [] := rfl

theorem rest_of_ne_nil (h : held ≠ []) : rest held = [held] := if_neg (by simpa using h)

theorem length_rest_le (held : List α) : (rest held).length ≤ 1 := by
  unfold rest
  split <;> simp

@[simp] theorem text_append (ls ls' : List (List α)) : text sep (ls ++ ls') = text sep ls ++ text sep ls' := by
  simp [text]

variable [DecidableEq α]

/-- The lines that end in a chunk, and what is held after it. -/
def feed (sep : α) (held : List α) : List α → List (List α) × List α
  | [] => ([], held)
  | x :: xs => if x = sep then (held :: (feed sep [] xs).1, (feed sep [] xs).2) else feed sep (held ++ [x]) xs

/-- The lines of a stream that goes on from what is held. -/
def lines (sep : α) (held xs : List α) : List (List α) := (feed sep held xs).1 ++ rest (feed sep held xs).2

/-- One chunk, into a buffer that holds less than `bound`. -/
def push (sep : α) (bound : Nat) (held chunk : List α) : List (List α) × List α :=
  let r := feed sep held chunk
  if bound ≤ r.2.length then (r.1 ++ [r.2], []) else r

def pushes (sep : α) (bound : Nat) (held : List α) : List (List α) → List (List α) × List α
  | [] => ([], held)
  | chunk :: chunks =>
    let r := push sep bound held chunk
    let t := pushes sep bound r.2 chunks
    (r.1 ++ t.1, t.2)

/-- All the lines that come of a buffer. -/
def drained (sep : α) (bound : Nat) (held : List α) (chunks : List (List α)) : List (List α) :=
  (pushes sep bound held chunks).1 ++ rest (pushes sep bound held chunks).2

/-! ## A stream -/

@[simp] theorem feed_sep : feed sep held (sep :: xs) = (held :: (feed sep [] xs).1, (feed sep [] xs).2) := if_pos rfl

theorem feed_cons {x : α} (h : x ≠ sep) : feed sep held (x :: xs) = feed sep (held ++ [x]) xs := if_neg h

/-- What is held after a first part is held before the second. -/
theorem feed_append (held xs ys : List α) :
    feed sep held (xs ++ ys) =
      ((feed sep held xs).1 ++ (feed sep (feed sep held xs).2 ys).1, (feed sep (feed sep held xs).2 ys).2) := by
  induction xs generalizing held with
  | nil => rfl
  | cons x xs ih =>
    by_cases hx : x = sep
    · subst hx
      simp only [List.cons_append, feed_sep, ih]
    · simp only [List.cons_append, feed_cons hx, ih]

/-- No line ends. -/
theorem feed_of_notMem (h : sep ∉ xs) : feed sep held xs = ([], held ++ xs) := by
  induction xs generalizing held with
  | nil => simp [feed]
  | cons x xs ih =>
    obtain ⟨hx, hxs⟩ := List.ne_and_not_mem_of_not_mem_cons h
    rw [feed_cons (Ne.symm hx), ih hxs, List.append_assoc, List.singleton_append]

/-- The lines of a text are those of its parts. -/
theorem lines_append (held xs ys : List α) :
    lines sep held (xs ++ ys) = (feed sep held xs).1 ++ lines sep (feed sep held xs).2 ys := by
  simp only [lines, feed_append, List.append_assoc]

/-- What was fed is there but for the separators. -/
theorem feed_flatten (sep : α) (held xs : List α) :
    (feed sep held xs).1.flatten ++ (feed sep held xs).2 = held ++ xs.filter (· ≠ sep) := by
  induction xs generalizing held with
  | nil => simp [feed]
  | cons x xs ih =>
    by_cases hx : x = sep
    · subst hx
      simp [List.append_assoc, ih]
    · simp [feed_cons hx, ih, hx]

/-- The lines have their separators back; the last of them got one more if it had none. -/
theorem text_lines (sep : α) (held xs : List α) :
    text sep (lines sep held xs) = held ++ xs ++ if (feed sep held xs).2 = [] then [] else [sep] := by
  induction xs generalizing held with
  | nil =>
    by_cases hh : held = []
    · simp [lines, feed, hh, text]
    · simp [lines, feed, rest_of_ne_nil hh, hh, text]
  | cons x xs ih =>
    by_cases hx : x = sep
    · subst hx
      have := ih []
      simp only [lines, feed_sep, text, List.cons_append, List.map_cons, List.flatten_cons, List.nil_append] at this ⊢
      rw [this]
      simp
    · have := ih (held ++ [x])
      simp only [lines, feed_cons hx] at this ⊢
      rw [this]
      simp

/-- More than what was fed is there only if it is one separator and a line was open. -/
theorem sublist_text_lines_iff (sep : α) (held xs ys : List α) :
    (held ++ (xs ++ ys)).Sublist (text sep (lines sep held xs)) ↔
      ys = [] ∨ ys = [sep] ∧ (feed sep held xs).2 ≠ [] := by
  rw [text_lines, ← List.append_assoc, List.append_sublist_append_left]
  split
  · next h => simp [h]
  · next h => simp [h, List.sublist_singleton]

theorem length_feed_fst (sep : α) (held xs : List α) : (feed sep held xs).1.length = xs.count sep := by
  induction xs generalizing held with
  | nil => rfl
  | cons x xs ih =>
    by_cases hx : x = sep
    · subst hx
      simp [ih]
    · rw [feed_cons hx, ih, List.count_cons_of_ne hx]

theorem length_feed_snd (sep : α) (held xs : List α) : (feed sep held xs).2.length ≤ held.length + xs.length := by
  induction xs generalizing held with
  | nil => simp [feed]
  | cons x xs ih =>
    by_cases hx : x = sep
    · subst hx
      have := ih []
      simp only [feed_sep, List.length_cons, List.length_nil] at this ⊢
      omega
    · have := ih (held ++ [x])
      rw [feed_cons hx]
      simp only [List.length_append, List.length_cons, List.length_nil] at this ⊢
      omega

theorem length_lt_of_mem_feed {l : List α} (h : l ∈ (feed sep held xs).1) : l.length < held.length + xs.length := by
  induction xs generalizing held with
  | nil => cases h
  | cons x xs ih =>
    by_cases hx : x = sep
    · subst hx
      rw [feed_sep] at h
      simp only [List.length_cons]
      rcases List.mem_cons.mp h with rfl | h
      · omega
      · have := ih h
        simp only [List.length_nil] at this
        omega
    · rw [feed_cons hx] at h
      have := ih h
      simp only [List.length_append, List.length_cons, List.length_nil] at this ⊢
      omega

/-- A line has no separator in it. -/
theorem notMem_lines {l : List α} (h : sep ∉ held) (hl : l ∈ lines sep held xs) : sep ∉ l := by
  induction xs generalizing held with
  | nil =>
    have hrest : ∀ l ∈ rest held, l = held := by
      unfold rest
      split <;> simp
    rwa [hrest l (by simpa [lines, feed] using hl)]
  | cons x xs ih =>
    by_cases hx : x = sep
    · subst hx
      rw [lines, feed_sep, List.cons_append] at hl
      rcases List.mem_cons.mp hl with rfl | hl
      · exact h
      · exact ih List.not_mem_nil hl
    · rw [lines, feed_cons hx] at hl
      exact ih (by simpa [h] using Ne.symm hx) hl

/-- Nothing is held exactly after a separator. -/
theorem feed_snd_eq_nil_iff (h : xs ≠ []) : (feed sep held xs).2 = [] ↔ xs.getLast? = some sep := by
  obtain ⟨ys, y, rfl⟩ := List.eq_nil_or_concat xs |>.resolve_left h
  rw [List.concat_eq_append, feed_append, List.getLast?_concat]
  by_cases hy : y = sep
  · simp [hy, feed]
  · simp [feed, hy]

/-- What is held begins one of the lines. -/
theorem exists_line (h : held ≠ []) (xs : List α) : ∃ l ∈ lines sep held xs, held <+: l := by
  induction xs generalizing held with
  | nil => exact ⟨held, by simp [lines, feed, rest_of_ne_nil h], List.prefix_rfl⟩
  | cons x xs ih =>
    by_cases hx : x = sep
    · subst hx
      exact ⟨held, by simp [lines], List.prefix_rfl⟩
    · obtain ⟨l, hl, hp⟩ := ih (show held ++ [x] ≠ [] by simp)
      exact ⟨l, by rwa [lines, feed_cons hx], (List.prefix_append held [x]).trans hp⟩

theorem length_lines_le (held xs : List α) : (lines sep held xs).length ≤ (lines sep [] xs).length + 1 := by
  have := length_rest_le (feed sep held xs).2
  simp only [lines, List.length_append, length_feed_fst]
  omega

/-! ## A buffer -/

/-- Nothing is lost but the separators. -/
theorem push_flatten (sep : α) (bound : Nat) (held chunk : List α) :
    (push sep bound held chunk).1.flatten ++ (push sep bound held chunk).2 = held ++ chunk.filter (· ≠ sep) := by
  rw [← feed_flatten sep held chunk]
  unfold push
  dsimp only
  split <;> simp

/-- The buffer loses nothing but the separators. -/
theorem pushes_flatten (sep : α) (bound : Nat) (held : List α) (chunks : List (List α)) :
    (pushes sep bound held chunks).1.flatten ++ (pushes sep bound held chunks).2
      = held ++ chunks.flatten.filter (· ≠ sep) := by
  induction chunks generalizing held with
  | nil => simp [pushes]
  | cons c cs ih =>
    simp only [pushes, List.flatten_append, List.append_assoc, List.flatten_cons, List.filter_append]
    rw [ih, ← List.append_assoc, push_flatten, List.append_assoc]

theorem push_length_lt (hb : 0 < bound) (held chunk : List α) : (push sep bound held chunk).2.length < bound := by
  unfold push
  dsimp only
  split
  · exact hb
  · exact Nat.lt_of_not_le ‹_›

theorem length_held_lt (h : held.length < bound) (chunks : List (List α)) :
    (pushes sep bound held chunks).2.length < bound := by
  induction chunks generalizing held with
  | nil => exact h
  | cons c cs ih => exact ih (push_length_lt (Nat.zero_lt_of_lt h) held c)

theorem length_lt_of_mem_push {l : List α} (h : held.length < bound) (hl : l ∈ (push sep bound held chunk).1) :
    l.length < bound + chunk.length := by
  have hfeed : ∀ {l}, l ∈ (feed sep held chunk).1 → l.length < bound + chunk.length := fun hl =>
    Nat.lt_trans (length_lt_of_mem_feed hl) (Nat.add_lt_add_right h _)
  unfold push at hl
  dsimp only at hl
  split at hl
  · rcases List.mem_append.mp hl with hl | hl
    · exact hfeed hl
    · rw [List.mem_singleton.mp hl]
      have := length_feed_snd sep held chunk
      omega
  · exact hfeed hl

/-- One chunk gives the lines it has. -/
theorem push_eq_lines (hb : 0 < bound) (held chunk : List α) :
    (push sep bound held chunk).1 ++ rest (push sep bound held chunk).2 = lines sep held chunk := by
  unfold push lines
  dsimp only
  split
  · have hne : (feed sep held chunk).2 ≠ [] := List.ne_nil_of_length_pos (Nat.lt_of_lt_of_le hb ‹_›)
    rw [rest_of_ne_nil hne, rest_nil, List.append_nil]
  · rfl

theorem drained_cons (sep : α) (bound : Nat) (held chunk : List α) (chunks : List (List α)) :
    drained sep bound held (chunk :: chunks) =
      (push sep bound held chunk).1 ++ drained sep bound (push sep bound held chunk).2 chunks := by
  simp only [drained, pushes, List.append_assoc]

/-- The buffer gives no fewer lines than there are. -/
theorem length_lines_le_drained (held : List α) (chunks : List (List α)) :
    (lines sep held chunks.flatten).length ≤ (drained sep bound held chunks).length := by
  induction chunks generalizing held with
  | nil => simp [lines, feed, drained, pushes]
  | cons c cs ih =>
    rw [List.flatten_cons, lines_append, drained_cons, List.length_append, List.length_append]
    unfold push
    dsimp only
    split
    · have := ih []
      have : (lines sep (feed sep held c).2 cs.flatten).length ≤ _ := length_lines_le _ _
      rw [List.length_append, List.length_singleton]
      dsimp only
      omega
    · exact Nat.add_le_add_left (ih _) _

/-- No chunk ends between a line of `bound` items and its separator. -/
def Unbroken (sep : α) (bound : Nat) (held : List α) (chunks : List (List α)) : Prop :=
  ∀ before after, chunks = before ++ after → (feed sep held before.flatten).2.length = bound →
    after.flatten.head? ≠ some sep

theorem unbroken_cons {chunks : List (List α)} (h : held.length < bound) :
    Unbroken sep bound held (chunk :: chunks) ↔ Unbroken sep bound (feed sep held chunk).2 chunks := by
  constructor
  · intro hu before after he hl
    refine hu (chunk :: before) after (by rw [he, List.cons_append]) ?_
    rw [List.flatten_cons, feed_append]
    exact hl
  · intro hu before after he hl
    cases before with
    | nil => exact absurd hl (Nat.ne_of_lt h)
    | cons c before =>
      obtain ⟨rfl, rfl⟩ := List.cons.inj he
      rw [List.flatten_cons, feed_append] at hl
      exact hu before after rfl hl

theorem unbroken_of_flatten_eq_nil {chunks : List (List α)} (h : chunks.flatten = []) :
    Unbroken sep bound held chunks := by
  rintro before after rfl -
  rw [List.flatten_append, List.append_eq_nil_iff] at h
  simp [h.2]

/-- A line that may not go on is followed by its separator, if by anything. -/
theorem eq_sep_of_full {x : α} (hl : ∀ l ∈ lines sep held (x :: xs), l.length ≤ held.length) : x = sep := by
  by_contra hx
  obtain ⟨l, hm, hp⟩ : ∃ l ∈ lines sep (held ++ [x]) xs, held ++ [x] <+: l := exists_line (by simp) xs
  have := hl l (by rwa [lines, feed_cons hx])
  have := hp.length_le
  rw [List.length_append, List.length_singleton] at this
  omega

/-- A full line comes out whole, and it is a matter of what comes next whether an
empty one comes after it. -/
theorem drained_eq_lines_iff {chunks : List (List α)} (h : held.length < bound)
    (hl : ∀ l ∈ lines sep held chunks.flatten, l.length ≤ bound) :
    drained sep bound held chunks = lines sep held chunks.flatten ↔ Unbroken sep bound held chunks := by
  have hb := Nat.zero_lt_of_lt h
  induction chunks generalizing held with
  | nil => exact iff_of_true rfl (unbroken_of_flatten_eq_nil rfl)
  | cons c cs ih =>
    rw [List.flatten_cons, lines_append] at hl ⊢
    have hl' : ∀ l ∈ lines sep (feed sep held c).2 cs.flatten, l.length ≤ bound :=
      fun l hm => hl l (List.mem_append_right _ hm)
    rw [unbroken_cons h, drained_cons]
    unfold push
    dsimp only
    by_cases hfull : bound ≤ (feed sep held c).2.length
    · -- the line is let go
      rw [if_pos hfull, List.append_assoc, List.append_cancel_left_eq, List.singleton_append]
      generalize (feed sep held c).2 = full at hfull hl'
      have hne : full ≠ [] := List.ne_nil_of_length_pos (Nat.lt_of_lt_of_le hb hfull)
      cases hx : cs.flatten with
      | nil =>
        have hempty : ∀ l ∈ lines sep [] cs.flatten, l.length ≤ bound := by simp [hx, lines, feed]
        rw [(ih (show ([] : List α).length < bound from hb) hempty).mpr (unbroken_of_flatten_eq_nil hx), hx]
        exact iff_of_true (by simp [lines, feed, rest_of_ne_nil hne]) (unbroken_of_flatten_eq_nil hx)
      | cons x xs =>
        rw [hx] at hl'
        have hsep := eq_sep_of_full fun l hm => Nat.le_trans (hl' l hm) hfull
        subst hsep
        refine iff_of_false (fun he => ?_) fun hu => ?_
        · have hlen := congrArg List.length he
          have hmore : (lines x [] cs.flatten).length ≤ (drained x bound [] cs).length := length_lines_le_drained [] cs
          rw [hx] at hmore
          simp only [lines, feed_sep, List.length_cons, List.cons_append] at hlen hmore
          omega
        · obtain ⟨l, hm, hp⟩ : ∃ l ∈ lines x full (x :: xs), full <+: l := exists_line hne (x :: xs)
          have hle : full.length ≤ bound := Nat.le_trans hp.length_le (hl' l hm)
          exact hu [] cs rfl (Nat.le_antisymm hle hfull) (by rw [hx]; rfl)
    · rw [if_neg hfull, List.append_cancel_left_eq]
      exact ih (Nat.lt_of_not_le hfull) hl'

/-- What a cut before its separator makes of a full line. -/
theorem drained_full_line {full : List α} (hb : 0 < bound) (h : sep ∉ full) (hl : full.length = bound) :
    lines sep [] (full ++ [sep]) = [full] ∧ drained sep bound [] [full ++ [sep]] = [full]
      ∧ drained sep bound [] [full, [sep]] = [full, []] := by
  have hnot : ¬bound ≤ 0 := Nat.not_le_of_lt hb
  have hfeed : feed sep [] full = ([], full) := feed_of_notMem h
  have hsep : ∀ held, feed sep held [sep] = ([held], []) := fun held => by rw [feed_sep, feed]
  have hcut : feed sep [] (full ++ [sep]) = ([full], []) := by rw [feed_append, hfeed, hsep]; rfl
  refine ⟨by rw [lines, hcut, rest_nil, List.append_nil], ?_, ?_⟩
  · simp [drained, pushes, push, hcut, hnot]
  · simp [drained, pushes, push, hfeed, hsep, hl, hnot]

end Framework.Lines
