import Oxinit.Framework.Generations
import Oxinit.Framework.Runs
import Oxinit.Model.Log

/-!
# What rotation keeps

A unit's files are numbered from the live one (`fileName`), and no two units
share a file name. A rotation moves each of them to the next number
(`entries_rotate`), so that writing a record is `Generations.push` on the
records in the files: `Holds` says which records are where.
-/

namespace Oxinit.Log

open Framework

variable {r : Rotation} {u v : Name} {fs : Files} {s : Shipper} {n m : Nat}

/-! ## Names -/

/-- The live file of a unit, then its generations. -/
def fileName (u : Name) : Nat → String
  | 0 => path u
  | n + 1 => generation u (n + 1)

/-- The digits a name ends in. -/
def suffixDigits : Nat → List Char
  | 0 => []
  | n + 1 => Nat.toDigits 10 (n + 1)

/-- What stands before them. -/
def stem (u : Name) : Nat → List Char
  | 0 => u.toList ++ ['.', 'l', 'o', 'g']
  | _ + 1 => u.toList ++ ['.', 'l', 'o', 'g', '.']

theorem fileName_toList : (fileName u n).toList = stem u n ++ suffixDigits n := by
  cases n with
  | zero => simp [fileName, path, stem, suffixDigits]
  | succ n => simp [fileName, generation, stem, suffixDigits, Nat.toString_eq_repr]

theorem suffixDigits_eq :
    suffixDigits n = ((fileName u n).toList.reverse.takeWhile Char.isDigit).reverse := by
  have hd : ∀ c ∈ (suffixDigits n).reverse, c.isDigit := by
    intro c hc
    rw [List.mem_reverse] at hc
    cases n with
    | zero => cases hc
    | succ n => exact Nat.isDigit_of_mem_toDigits (by decide) (by decide) hc
  have hs : (stem u n).reverse.takeWhile Char.isDigit = [] := by
    cases n with
    | zero => simp [stem]
    | succ n => simp [stem]
  rw [fileName_toList, List.reverse_append, List.takeWhile_append_of_pos hd, hs, List.append_nil, List.reverse_reverse]

theorem suffixDigits_injective (h : suffixDigits n = suffixDigits m) : n = m := by
  cases n with
  | zero =>
    cases m with
    | zero => rfl
    | succ m => exact absurd h.symm Nat.toDigits_ne_nil
  | succ n =>
    cases m with
    | zero => exact absurd h Nat.toDigits_ne_nil
    | succ m =>
      have := congrArg (Nat.ofDigitChars 10 · 0) h
      simpa only [suffixDigits, Nat.ofDigitChars_ten_toDigits] using this

/-- A file's name says whose it is, and which. -/
theorem fileName_inj : fileName u n = fileName v m ↔ u = v ∧ n = m := by
  refine ⟨fun h => ?_, fun ⟨hu, hn⟩ => by rw [hu, hn]⟩
  have hn : n = m := suffixDigits_injective (by rw [suffixDigits_eq (u := u), suffixDigits_eq (u := v), h])
  subst hn
  refine ⟨?_, rfl⟩
  have := congrArg String.toList h
  rw [fileName_toList, fileName_toList, List.append_left_inj] at this
  have hu : u.toList = v.toList := by cases n <;> simpa [stem] using this
  exact String.toList_inj.mp hu

/-! ## A rotation -/

theorem Files.rename_entries {source target : String} {f : String} (h : source ≠ target) :
    (fs.rename source target).entries f
      = if f = source then none
        else if f = target then (fs.entries source).or (fs.entries target)
        else fs.entries f := by
  unfold rename
  cases he : fs.entries source with
  | none =>
    dsimp only
    split
    · next hf => rw [hf, he]
    · split
      · next hf => rw [hf]; rfl
      · rfl
  | some file =>
    dsimp only
    by_cases ht : f = target
    · rw [ht, if_neg h.symm, if_pos rfl]
      simp
    · by_cases hf : f = source
      · rw [hf]
        simp [h]
      · simp [ht, hf]

@[simp] theorem Files.remove_entries {name f : String} :
    (fs.remove name).entries f = if f = name then none else fs.entries f := by
  simp [remove, Function.update_apply]

theorem Files.move_data {mv : Move} : (fs.move mv).data = fs.data ∧ (fs.move mv).created = fs.created := by
  cases mv with
  | remove => exact ⟨rfl, rfl⟩
  | rename source target =>
    unfold move rename
    dsimp only
    split <;> exact ⟨rfl, rfl⟩

/-- To rotate moves names, and no data. -/
theorem rotate_data : (rotate r u fs).data = fs.data ∧ (rotate r u fs).created = fs.created := by
  unfold rotate
  refine List.foldlRecOn (r.plan u) Files.move (motive := fun f => f.data = fs.data ∧ f.created = fs.created)
    ⟨rfl, rfl⟩ fun f hf mv _ => ?_
  rw [Files.move_data.1, Files.move_data.2]
  exact hf

/-- The moves that a rotation makes once there is room at `k`. -/
def renames (u : Name) (k : Nat) : List Move :=
  (List.range k).reverse.map fun n => .rename (fileName u n) (fileName u (n + 1))

/-- The live file moves as the generations do. -/
theorem plan_eq : r.plan u = .remove (fileName u r.keep) :: renames u r.keep := by
  unfold Rotation.plan renames
  cases hk : r.keep with
  | zero => rfl
  | succ k =>
    rw [if_neg (Nat.succ_ne_zero k), List.range_succ_eq_map, List.reverse_cons, List.map_append, List.cons_append,
      Nat.add_sub_cancel, List.range'_eq_map_range]
    simp [fileName, Nat.add_comm 1]

/-- From the highest number down, each finds its target free. -/
theorem entries_renames (u : Name) (k : Nat) (h : fs.entries (fileName u k) = none) :
    let after := (renames u k).foldl Files.move fs
    after.entries (fileName u 0) = none
    ∧ (∀ n < k, after.entries (fileName u (n + 1)) = fs.entries (fileName u n))
    ∧ ∀ f, (∀ n ≤ k, f ≠ fileName u n) → after.entries f = fs.entries f := by
  induction k generalizing fs with
  | zero => exact ⟨h, fun n hn => absurd hn (Nat.not_lt_zero n), fun f _ => rfl⟩
  | succ k ih =>
    have hstep : renames u (k + 1) = .rename (fileName u k) (fileName u (k + 1)) :: renames u k := by
      simp [renames, List.range_succ]
    have hne : fileName u k ≠ fileName u (k + 1) := by simp [fileName_inj]
    have hfree : (fs.rename (fileName u k) (fileName u (k + 1))).entries (fileName u k) = none := by
      rw [Files.rename_entries hne, if_pos rfl]
    obtain ⟨h0, hn, hf⟩ := ih hfree
    simp only [hstep, List.foldl_cons, Files.move]
    refine ⟨h0, fun n hlt => ?_, fun f hfk => ?_⟩
    · rcases Nat.lt_succ_iff_lt_or_eq.mp hlt with hlt | rfl
      · rw [hn n hlt, Files.rename_entries hne, if_neg (by simp [fileName_inj]; omega),
          if_neg (by simp [fileName_inj]; omega)]
      · rw [hf _ (fun m hm => by simp [fileName_inj]; omega), Files.rename_entries hne, if_neg hne.symm, if_pos rfl, h,
          Option.or_none]
    · rw [hf f fun m hm => hfk m (Nat.le_succ_of_le hm), Files.rename_entries hne, if_neg (hfk k (Nat.le_succ k)),
        if_neg (hfk (k + 1) (Nat.le_refl _))]

/-- Every file of the unit goes to the next number, the one that was at `keep`
is gone, and nothing else moves. -/
theorem entries_rotate (r : Rotation) (u : Name) (fs : Files) :
    (rotate r u fs).entries (fileName u 0) = none
    ∧ (∀ n, (rotate r u fs).entries (fileName u (n + 1))
        = if n < r.keep then fs.entries (fileName u n) else fs.entries (fileName u (n + 1)))
    ∧ ∀ f, (∀ n, f ≠ fileName u n) → (rotate r u fs).entries f = fs.entries f := by
  unfold rotate
  rw [plan_eq, List.foldl_cons]
  have hfree : (fs.remove (fileName u r.keep)).entries (fileName u r.keep) = none := by simp
  obtain ⟨h0, hn, hf⟩ := entries_renames u r.keep hfree
  refine ⟨h0, fun n => ?_, fun f hne => ?_⟩
  · split
    · next hlt =>
      rw [Files.move, hn n hlt, Files.remove_entries, if_neg (by simp [fileName_inj]; omega)]
    · next hge =>
      rw [Files.move, hf _ (fun m hm => by simp [fileName_inj]; omega), Files.remove_entries,
        if_neg (by simp [fileName_inj]; omega)]
  · rw [Files.move, hf f fun n _ => hne n, Files.remove_entries, if_neg (hne _)]

/-- Where each generation is after a rotation. -/
theorem contents_rotate (r : Rotation) (u : Name) (fs : Files) :
    (rotate r u fs).contents (fileName u 0) = none
    ∧ (∀ n, (rotate r u fs).contents (fileName u (n + 1))
        = if n < r.keep then fs.contents (fileName u n) else fs.contents (fileName u (n + 1)))
    ∧ ∀ f, (∀ n, f ≠ fileName u n) → (rotate r u fs).contents f = fs.contents f := by
  obtain ⟨h0, hn, hf⟩ := entries_rotate r u fs
  unfold Files.contents
  rw [rotate_data.1]
  refine ⟨by rw [h0]; rfl, fun n => ?_, fun f hne => by rw [hf f hne]⟩
  rw [hn n]
  split <;> rfl

/-- The live file becomes the first generation, if there is to be one, and each
generation but the last the next. Nothing else changes, and of another unit
nothing could: it has no file name in common with this one. -/
theorem rotation_shifts_by_one (r : Rotation) (u : Name) (fs : Files) :
    let after := rotate r u fs
    after.contents (path u) = none
    ∧ (0 < r.keep → after.contents (generation u 1) = fs.contents (path u))
    ∧ (∀ n, 1 ≤ n → n < r.keep → after.contents (generation u (n + 1)) = fs.contents (generation u n))
    ∧ (∀ f, f ≠ path u → (∀ n, 1 ≤ n → n ≤ r.keep → f ≠ generation u n) → after.contents f = fs.contents f)
    ∧ ∀ v, v ≠ u → ∀ n, after.contents (fileName v n) = fs.contents (fileName v n) ∧ ∀ m, fileName v n ≠ fileName u m := by
  obtain ⟨hlive, hnext, hother⟩ := contents_rotate r u fs
  have hdisjoint : ∀ v, v ≠ u → ∀ n m, fileName v n ≠ fileName u m := fun v hv n m he => hv (fileName_inj.mp he).1
  refine ⟨hlive, fun hk => (hnext 0).trans (if_pos hk), fun n hn hk => ?_, fun f hf hgen => ?_, fun v hv n =>
    ⟨hother _ (hdisjoint v hv n), hdisjoint v hv n⟩⟩
  · obtain ⟨n, rfl⟩ := Nat.exists_eq_succ_of_ne_zero (Nat.ne_of_gt hn)
    exact (hnext (n + 1)).trans (if_pos hk)
  · by_cases hu : ∃ n, f = fileName u n
    · -- a generation beyond the last that is kept
      obtain ⟨n, rfl⟩ := hu
      cases n with
      | zero => exact absurd rfl hf
      | succ n =>
        have hge : ¬n < r.keep := fun hlt => hgen (n + 1) (Nat.le_add_left 1 n) hlt rfl
        exact (hnext n).trans (if_neg hge)
    · push Not at hu
      exact hother f hu

/-- Nothing is kept: the live file is not moved but deleted. -/
theorem rotation_deletes_the_live_file :
    let fs : Files := (({} : Files).openAppend (path "a")).2
    fs.contents (path "a") = some [] ∧ (rotate ⟨1, 0⟩ "a" fs).contents (generation "a" 1) = none := by
  decide +kernel

/-- Where the file of a name was before. -/
theorem rotate_source {f : String} {i : Nat} (h : (rotate r u fs).entries f = some i) :
    (fs.entries f = some i ∧ ∀ n ≤ r.keep, f ≠ fileName u n)
    ∨ ∃ n < r.keep, f = fileName u (n + 1) ∧ fs.entries (fileName u n) = some i := by
  obtain ⟨h0, hn, hf⟩ := entries_rotate r u fs
  by_cases hu : ∃ n, f = fileName u n
  · obtain ⟨n, rfl⟩ := hu
    cases n with
    | zero => rw [h0] at h; cases h
    | succ n =>
      rw [hn n] at h
      split at h
      · next hlt => exact .inr ⟨n, hlt, rfl, h⟩
      · exact .inl ⟨h, fun m hm => by simp [fileName_inj]; omega⟩
  · push Not at hu
    rw [hf f hu] at h
    exact .inl ⟨h, fun n _ => hu n⟩

/-! ## The shipper and its files -/

/-- No file has two names, and an open file is the live file of its unit, as
large as it is thought to be. -/
structure Shipper.Sound (s : Shipper) : Prop where
  inj : ∀ {f g i}, s.files.entries f = some i → s.files.entries g = some i → f = g
  created : ∀ {f i}, s.files.entries f = some i → i < s.files.created
  sinks : ∀ {u : Name} {k : Sink}, s.sinks[u]? = some k →
    s.files.entries (path u) = some k.file ∧ k.size = (s.files.data k.file).length

namespace Shipper

theorem Sound.empty : ({} : Shipper).Sound where
  inj h := by cases h
  created h := by cases h
  sinks h := by simp at h

theorem Sound.restart (h : s.Sound) : Sound { s with sinks := ∅ } where
  inj := h.inj
  created := h.created
  sinks h := by simp at h

theorem Sound.rotate (h : s.Sound) : Sound { sinks := s.sinks.erase u, files := rotate r u s.files } where
  inj := by
    intro f g i hf hg
    rcases rotate_source hf with ⟨hf', hfk⟩ | ⟨n, hn, rfl, hf'⟩
    · rcases rotate_source hg with ⟨hg', -⟩ | ⟨m, hm, rfl, hg'⟩
      · exact h.inj hf' hg'
      · exact absurd (h.inj hf' hg') (hfk m (Nat.le_of_lt hm))
    · rcases rotate_source hg with ⟨hg', hgk⟩ | ⟨m, hm, rfl, hg'⟩
      · exact absurd (h.inj hg' hf') (hgk n (Nat.le_of_lt hn))
      · have := (fileName_inj.mp (h.inj hf' hg')).2
        rw [this]
  created := by
    intro f i hf
    rw [rotate_data.2]
    rcases rotate_source hf with ⟨hf, -⟩ | ⟨n, -, -, hf⟩ <;> exact h.created hf
  sinks := by
    intro v k hk
    dsimp only at hk ⊢
    rw [Std.TreeMap.getElem?_erase] at hk
    split at hk
    · cases hk
    · next hv =>
      have hne : ∀ n, path v ≠ fileName u n := fun n he => hv (by
        have := ((fileName_inj (u := v) (n := 0)).mp he).1
        simp [this])
      rw [rotate_data.1, (entries_rotate _ _ _).2.2 _ hne]
      exact h.sinks hk

theorem sink_of_open {k : Sink} (h : s.sinks[u]? = some k) : s.sink u = (k, s) := by
  unfold sink
  rw [h]

theorem Sound.openAppend (h : s.Sound) (hn : s.files.entries (path u) = none) :
    let opened := s.files.openAppend (path u)
    Sound { sinks := s.sinks.insert u ⟨opened.1, (opened.2.data opened.1).length⟩, files := opened.2 } := by
  have he : ∀ {f i}, (Function.update s.files.entries (path u) (some s.files.created)) f = some i →
      f = path u ∧ i = s.files.created ∨ f ≠ path u ∧ s.files.entries f = some i := by
    intro f i hf
    rw [Function.update_apply] at hf
    split at hf
    · next hu => exact .inl ⟨hu, by simpa using hf.symm⟩
    · next hu => exact .inr ⟨hu, hf⟩
  unfold Files.openAppend
  rw [hn]
  refine ⟨fun hf hg => ?_, fun hf => ?_, fun {v k} hk => ?_⟩
  · rcases he hf with ⟨rfl, rfl⟩ | ⟨-, hf'⟩
    · rcases he hg with ⟨rfl, -⟩ | ⟨-, hg'⟩
      · rfl
      · exact absurd (h.created hg') (Nat.lt_irrefl _)
    · rcases he hg with ⟨rfl, rfl⟩ | ⟨-, hg'⟩
      · exact absurd (h.created hf') (Nat.lt_irrefl _)
      · exact h.inj hf' hg'
  · rcases he hf with ⟨-, rfl⟩ | ⟨-, hf'⟩
    · exact Nat.lt_succ_self _
    · exact Nat.lt_succ_of_lt (h.created hf')
  · dsimp only at hk ⊢
    rw [Std.TreeMap.getElem?_insert] at hk
    split at hk
    · next hu =>
      obtain rfl : u = v := by simpa using hu
      cases hk
      exact ⟨by simp, rfl⟩
    · obtain ⟨hv, hs⟩ := h.sinks hk
      have hlt := h.created hv
      have hne : path v ≠ path u := fun hvu => by rw [hvu, hn] at hv; cases hv
      rw [Function.update_of_ne hne, Function.update_of_ne (Nat.ne_of_lt hlt)]
      exact ⟨hv, hs⟩

/-- What opening the file of a unit gives. -/
theorem sink_spec (h : s.Sound) :
    (s.sink u).2.Sound ∧ (s.sink u).2.sinks[u]? = some (s.sink u).1
    ∧ (s.sink u).2.files.contents (path u) = some ((s.files.contents (path u)).getD [])
    ∧ ∀ f ≠ path u, (s.sink u).2.files.contents f = s.files.contents f := by
  cases hk : s.sinks[u]? with
  | some k =>
    rw [sink_of_open hk]
    have hc : s.files.contents (path u) = some (s.files.data k.file) := by
      rw [Files.contents, (h.sinks hk).1]
      rfl
    exact ⟨h, hk, by rw [hc]; rfl, fun _ _ => rfl⟩
  | none =>
    unfold sink
    rw [hk]
    dsimp only
    cases hn : s.files.entries (path u) with
    | some file =>
      have ho : s.files.openAppend (path u) = (file, s.files) := by
        unfold Files.openAppend
        rw [hn]
      rw [ho]
      refine ⟨⟨h.inj, h.created, fun {v k} hv => ?_⟩, by simp, by simp [Files.contents, hn], fun _ _ => rfl⟩
      dsimp only at hv ⊢
      rw [Std.TreeMap.getElem?_insert] at hv
      split at hv
      · next hu =>
        obtain rfl : u = v := by simpa using hu
        cases hv
        exact ⟨hn, rfl⟩
      · exact h.sinks hv
    | none =>
      refine ⟨h.openAppend hn, by simp, ?_, fun f hf => ?_⟩
      · simp [Files.openAppend, Files.contents, hn]
      · simp only [Files.openAppend, Files.contents, hn]
        rw [Function.update_of_ne hf]
        cases hfi : s.files.entries f with
        | none => rfl
        | some i =>
          rw [Option.map_some, Option.map_some, Function.update_of_ne (Nat.ne_of_lt (h.created hfi))]

/-- What is appended to an open file is at its end, and its sink knows. -/
theorem append_spec {k : Sink} {what : Bytes} {files : Files} (h : s.Sound) (hk : s.sinks[u]? = some k)
    (ha : s.files.append k.file what = some files) :
    Sound { sinks := s.sinks.insert u { k with size := saturatingAdd k.size what.length }, files }
    ∧ k.size + what.length ≤ maxFileSize
    ∧ files.contents (path u) = some ((s.files.contents (path u)).getD [] ++ what)
    ∧ ∀ f ≠ path u, files.contents f = s.files.contents f := by
  obtain ⟨he, hs⟩ := h.sinks hk
  unfold Files.append at ha
  split at ha
  · next hle =>
    obtain rfl := Option.some.inj ha
    rw [← hs] at hle
    refine ⟨⟨h.inj, h.created, fun {v j} hj => ?_⟩, hle, by simp [Files.contents, he], fun f hf => ?_⟩
    · dsimp only at hj ⊢
      rw [Std.TreeMap.getElem?_insert] at hj
      split at hj
      · next hu =>
        obtain rfl : u = v := by simpa using hu
        cases hj
        refine ⟨he, ?_⟩
        have : maxFileSize ≤ 2 ^ 64 - 1 := by decide
        simp only [Function.update_self, List.length_append, ← hs, saturatingAdd]
        omega
      · next hu =>
        obtain ⟨hv, hsize⟩ := h.sinks hj
        have hne : j.file ≠ k.file := fun hf => hu (by
          have := (fileName_inj (n := 0) (m := 0)).mp (h.inj (hf ▸ hv) he)
          simp [this.1])
        rw [Function.update_of_ne hne]
        exact ⟨hv, hsize⟩
    · simp only [Files.contents]
      cases hfi : s.files.entries f with
      | none => rfl
      | some i =>
        have hne : i ≠ k.file := fun hi => hf (h.inj (hi ▸ hfi) he)
        rw [Option.map_some, Option.map_some, Function.update_of_ne hne]
  · cases ha

end Shipper

/-! ## Writing a record -/

/-- A file that can be written to is not so large that the sum saturates. -/
theorem shouldRotate_iff {a b : Nat} :
    r.shouldRotate a b ↔ 0 < a ∧ r.maxSize < a + b ∧ r.maxSize < 2 ^ 64 - 1 := by
  unfold Rotation.shouldRotate saturatingAdd
  rw [Bool.and_eq_true, decide_eq_true_iff, decide_eq_true_iff, Nat.lt_min]

/-- What a write that works does to the files of its unit; `old` is what the
live file holds. -/
structure Written (r : Rotation) (u : Name) (what : Bytes) (fs fs' : Files) : Prop where
  others : ∀ f, (∀ n, f ≠ fileName u n) → fs'.contents f = fs.contents f
  kept : let old := (fs.contents (path u)).getD []
    ¬r.shouldRotate old.length what.length → old.length + what.length ≤ maxFileSize
      ∧ fs'.contents (fileName u 0) = some (old ++ what)
      ∧ ∀ n, fs'.contents (fileName u (n + 1)) = fs.contents (fileName u (n + 1))
  rotated : r.shouldRotate ((fs.contents (path u)).getD []).length what.length →
    fs'.contents (fileName u 0) = some what
      ∧ ∀ n, fs'.contents (fileName u (n + 1))
        = if n < r.keep then fs.contents (fileName u n) else fs.contents (fileName u (n + 1))

theorem path_ne_fileName : path u ≠ fileName u (n + 1) := fun h => by
  simpa using (fileName_inj (n := 0)).mp h

/-- What a write leaves. -/
theorem Shipper.write_spec {now : Timestamp} {line : Bytes} (h : s.Sound) (hw : (s.write r u now line).1) :
    (s.write r u now line).2.Sound ∧ Written r u (record now line) s.files (s.write r u now line).2.files := by
  obtain ⟨h1, hk1, hlive1, hother1⟩ := sink_spec (u := u) h
  have hsize : (s.sink u).1.size = ((s.files.contents (path u)).getD []).length := by
    obtain ⟨he, hs⟩ := h1.sinks hk1
    rw [Files.contents, he, Option.map_some, Option.some_inj] at hlive1
    rw [hs, hlive1]
  generalize hold : (s.files.contents (path u)).getD [] = old at hlive1 hsize
  generalize hwhat : record now line = what
  unfold write at hw ⊢
  rw [hwhat] at hw ⊢
  dsimp only at hw ⊢
  rw [hsize] at hw ⊢
  by_cases hr : r.shouldRotate old.length what.length
  · rw [if_pos hr] at hw ⊢
    have h2 := h1.rotate (r := r) (u := u)
    obtain ⟨h3, hk3, hlive3, hother3⟩ := sink_spec (u := u) h2
    obtain ⟨hc0, hcn, hcf⟩ := contents_rotate r u (s.sink u).2.files
    generalize hs3 : Shipper.sink u
      { sinks := (s.sink u).2.sinks.erase u, files := rotate r u (s.sink u).2.files } = p at h3 hk3 hlive3 hother3 hw ⊢
    obtain ⟨k, s3⟩ := p
    dsimp only at h3 hk3 hlive3 hother3 hw ⊢
    cases ha : s3.files.append k.file what with
    | none => rw [ha] at hw; cases hw
    | some files =>
      obtain ⟨h4, -, hlive4, hother4⟩ := append_spec h3 hk3 ha
      refine ⟨h4, fun f hf => ?_, fun hn => absurd (hold ▸ hr) hn, fun _ => ⟨?_, fun n => ?_⟩⟩
      · rw [hother4 f (hf 0), hother3 f (hf 0), hcf f hf, hother1 f (hf 0)]
      · rw [show fileName u 0 = path u from rfl] at hc0 ⊢
        rw [hlive4, hlive3, hc0]
        rfl
      · rw [hother4 _ path_ne_fileName.symm, hother3 _ path_ne_fileName.symm, hcn n]
        split
        · cases n with
          | zero =>
            -- there was something in the live file, or it would not be too large
            rw [show fileName u 0 = path u from rfl, hlive1]
            have hpos := (shouldRotate_iff.mp hr).1
            cases hc : s.files.contents (path u) with
            | none => rw [hc] at hold; subst hold; cases hpos
            | some c => rw [hc] at hold; rw [← hold]; rfl
          | succ n => exact hother1 _ path_ne_fileName.symm
        · exact hother1 _ path_ne_fileName.symm
  · rw [if_neg hr, sink_of_open hk1] at hw ⊢
    dsimp only at hw ⊢
    cases ha : (s.sink u).2.files.append (s.sink u).1.file what with
    | none => rw [ha] at hw; cases hw
    | some files =>
      obtain ⟨h4, hle, hlive4, hother4⟩ := append_spec h1 hk1 ha
      refine ⟨h4, fun f hf => ?_, fun _ => ⟨?_, ?_, fun n => ?_⟩, fun hy => absurd (hold ▸ hy) hr⟩
      · rw [hother4 f (hf 0), hother1 f (hf 0)]
      · rwa [hold, ← hsize]
      · rw [show fileName u 0 = path u from rfl, hlive4, hlive1, hold]
        rfl
      · rw [hother4 _ path_ne_fileName.symm, hother1 _ path_ne_fileName.symm]

/-! ## Records in files -/

/-- The files of a unit hold these records, the live one first. -/
def Holds (fs : Files) (u : Name) (gens : List (List Bytes)) : Prop :=
  ∀ n, fs.contents (fileName u n) = gens[n]?.map List.flatten

theorem Holds.congr {fs' : Files} {gens : List (List Bytes)} (h : Holds fs v gens) (hv : u ≠ v)
    (hf : ∀ f, (∀ n, f ≠ fileName u n) → fs'.contents f = fs.contents f) : Holds fs' v gens := fun n => by
  rw [hf _ fun m hm => hv (fileName_inj.mp hm).1.symm]
  exact h n

theorem record_ne_nil {now : Timestamp} {line : Bytes} : record now line ≠ [] := by
  simp [record]

abbrev push (r : Rotation) : List (List Bytes) → Bytes → List (List Bytes) :=
  Generations.push List.length r.maxSize r.keep

theorem size_eq {chunk : List Bytes} : Generations.size List.length chunk = chunk.flatten.length :=
  List.length_flatten.symm

/-- A write puts the record where `push` puts it. -/
theorem Holds.push {fs' : Files} {gens : List (List Bytes)} {what : Bytes} (h : Holds fs u gens)
    (hne : ∀ chunk ∈ gens, chunk.flatten ≠ []) (hlen : gens.length ≤ r.keep + 1) (hw : Written r u what fs fs') :
    Holds fs' u (push r gens what) := by
  have h0 := h 0
  cases gens with
  | nil =>
    have hold : (fs.contents (path u)).getD [] = [] := by
      rw [show path u = fileName u 0 from rfl, h0]
      rfl
    obtain ⟨-, hlive, hgen⟩ := hw.kept (by rw [hold]; simp [Rotation.shouldRotate])
    rintro (_ | n)
    · rw [hlive, hold]
      simp [Log.push, Generations.push]
    · rw [hgen n, h (n + 1)]
      simp [Log.push, Generations.push]
  | cons live older =>
    have hold : (fs.contents (path u)).getD [] = live.flatten := by
      rw [show path u = fileName u 0 from rfl, h0]
      rfl
    have hpos := List.length_pos_iff.mpr (hne live List.mem_cons_self)
    simp only [Log.push, Generations.push, size_eq]
    by_cases hr : r.shouldRotate live.flatten.length what.length
    · obtain ⟨hlive, hgen⟩ := hw.rotated (hold ▸ hr)
      rw [if_neg (Nat.not_le.mpr (shouldRotate_iff.mp hr).2.1)]
      rintro (_ | n)
      · rw [hlive]
        simp
      · rw [hgen n, List.getElem?_cons_succ, List.getElem?_take]
        split
        · exact h n
        · next hn =>
          rw [h (n + 1), List.getElem?_eq_none (by omega), Option.map_none]
    · obtain ⟨hle, hlive, hgen⟩ := hw.kept (hold ▸ hr)
      rw [hold] at hle hlive
      have hfit : live.flatten.length + what.length ≤ r.maxSize := by
        have : maxFileSize < 2 ^ 64 - 1 := by decide
        rw [shouldRotate_iff] at hr
        omega
      rw [if_pos hfit]
      rintro (_ | n)
      · rw [hlive]
        simp
      · rw [hgen n, h (n + 1)]
        rfl

/-! ## Runs -/

theorem recordsOf_cons {op : Op} {ops : List Op} : recordsOf u (op :: ops) = recordsOf u [op] ++ recordsOf u ops :=
  List.filterMap_append (l := [op])

theorem ne_nil_of_mem_recordsOf {ops : List Op} {x : Bytes} (h : x ∈ recordsOf u ops) : x ≠ [] := by
  obtain ⟨op, -, hop⟩ := List.mem_filterMap.mp h
  cases op with
  | restart => cases hop
  | write v now line =>
    dsimp only at hop
    split at hop
    · obtain rfl := Option.some.inj hop
      exact record_ne_nil
    · cases hop

/-- The files of every unit hold what is kept of the records written so far. -/
structure Shipper.Full (r : Rotation) (s : Shipper) (written : Name → List Bytes) : Prop where
  sound : s.Sound
  records : ∀ u, ∀ x ∈ written u, x ≠ []
  holds : ∀ u, Holds s.files u ((written u).foldl (push r) [])

/-- A chunk of records is not empty, as no record is. -/
theorem flatten_ne_nil {items : List Bytes} (h : ∀ x ∈ items, x ≠ []) :
    ∀ chunk ∈ items.foldl (push r) [], chunk.flatten ≠ [] := by
  intro chunk hc hnil
  have hk := Generations.keeps_foldl List.length r.maxSize r.keep items
  obtain ⟨x, hx⟩ := List.exists_mem_of_ne_nil chunk (hk.ne_nil chunk hc)
  have hheld : x ∈ Generations.held (items.foldl (push r) []) :=
    List.mem_flatten.mpr ⟨chunk, List.mem_reverse.mpr hc, hx⟩
  exact h x (hk.suffix.mem hheld) (List.flatten_eq_nil_iff.mp hnil x hx)

theorem Shipper.full_step {written : Name → List Bytes} {op : Op} (h : s.Full r written) (ho : s.Succeeds r op) :
    (s.step r op).Full r fun u => written u ++ recordsOf u [op] := by
  cases op with
  | restart =>
    have hnone : ∀ u, recordsOf u [.restart] = [] := fun u => rfl
    simp only [hnone, List.append_nil]
    exact ⟨h.sound.restart, h.records, h.holds⟩
  | write v now line =>
    obtain ⟨hs, hw⟩ := write_spec h.sound ho
    rw [show s.step r (.write v now line) = (s.write r v now line).2 from rfl]
    generalize (s.write r v now line).2 = s' at hs hw ⊢
    refine ⟨hs, fun u x hx => ?_, fun u => ?_⟩
    · rcases List.mem_append.mp hx with hx | hx
      · exact h.records u x hx
      · exact ne_nil_of_mem_recordsOf hx
    · by_cases hu : v = u
      · subst hu
        have hone : recordsOf v [.write v now line] = [record now line] := by simp [recordsOf]
        rw [hone, List.foldl_append]
        exact (h.holds v).push (flatten_ne_nil (h.records v)) (Generations.keeps_foldl _ _ _ _).length hw
      · have hnone : recordsOf u [.write v now line] = [] := by simp [recordsOf, hu]
        rw [hnone, List.append_nil]
        exact (h.holds u).congr hu hw.others

theorem Shipper.full_run {written : Name → List Bytes} {ops : List Op} (h : s.Full r written)
    (ho : Each (step r) (Succeeds r) s ops) : (ops.foldl (step r) s).Full r fun u => written u ++ recordsOf u ops := by
  induction ops generalizing s written with
  | nil => simpa [recordsOf] using h
  | cons op ops ih =>
    have := ih (full_step h ho.1) ho.2
    simp only [List.append_assoc, ← recordsOf_cons] at this
    exact this

theorem filterMap_getElem? {α : Type*} {l : List α} {k : Nat} (h : l.length ≤ k) :
    (List.range k).filterMap (l[·]?) = l := by
  induction l generalizing k with
  | nil => simp
  | cons a l ih =>
    obtain ⟨k, rfl⟩ := Nat.exists_eq_succ_of_ne_zero (Nat.ne_of_gt (Nat.lt_of_lt_of_le (Nat.succ_pos _) h))
    rw [Nat.succ_eq_add_one, List.range_succ_eq_map, List.filterMap_cons, List.filterMap_map]
    exact congrArg (a :: ·) (ih (Nat.le_of_succ_le_succ h))

/-- Each file holds no more than it should, there are no more generations than
asked for, and read from the oldest on they are the end of what was written,
the last record included. -/
theorem rotation_keeps_the_newest {ops : List Op} (h : Each (Shipper.step r) (Shipper.Succeeds r) {} ops) (u : Name) :
    let files := (Shipper.run r ops).files
    let written := recordsOf u ops
    (∀ n what, files.contents (fileName u n) = some what → what.length ≤ r.maxSize ∨ what ∈ written)
    ∧ (∀ n, r.keep < n → files.contents (fileName u n) = none)
    ∧ ∃ n, ((List.range (r.keep + 1)).reverse.filterMap fun n => files.contents (fileName u n)).flatten
          = (written.drop n).flatten
        ∧ (written ≠ [] → n < written.length) := by
  intro files written
  have hempty : Shipper.Full r {} fun _ => [] := ⟨.empty, fun _ _ hx => absurd hx List.not_mem_nil, fun _ _ => rfl⟩
  have hfull := Shipper.full_run hempty h
  have hkeeps := Generations.keeps_foldl List.length r.maxSize r.keep written
  have hholds : Holds files u (written.foldl (push r) []) := hfull.holds u
  generalize written.foldl (push r) [] = gens at hholds hkeeps
  refine ⟨fun n what hn => ?_, fun n hn => ?_, ?_⟩
  · rw [hholds n, Option.map_eq_some_iff] at hn
    obtain ⟨chunk, hc, rfl⟩ := hn
    have hc := List.mem_of_getElem? hc
    rcases hkeeps.bounded chunk hc with hle | hone
    · exact .inl (size_eq ▸ hle)
    · obtain ⟨x, rfl⟩ := List.length_eq_one_iff.mp hone
      have hheld : x ∈ Generations.held gens := List.mem_flatten.mpr ⟨[x], List.mem_reverse.mpr hc, by simp⟩
      exact .inr (by simpa using hkeeps.suffix.mem hheld)
  · rw [hholds n, List.getElem?_eq_none (by have := hkeeps.length; omega)]
    rfl
  · obtain ⟨n, hn, hlt⟩ := hkeeps.exists_drop
    refine ⟨n, ?_, hlt⟩
    have hread : (fun n => files.contents (fileName u n)) = fun n => gens[n]?.map List.flatten := funext hholds
    rw [← hn, hread, List.filterMap_reverse, ← List.map_filterMap, filterMap_getElem? hkeeps.length, ← List.map_reverse,
      Generations.held, List.flatten_flatten]

/-- Two files of forty bytes, a restart in between, and a record that is larger
than both. -/
theorem rotation_keeps_the_newest_sample :
    let files := (Shipper.run ⟨40, 1⟩
      [.write "a" ⟨1, 1⟩ (bytes "started"), .write "a" ⟨2, 1⟩ (bytes "running"), .write "b" ⟨2, 2⟩ (bytes "other"),
        .restart, .write "a" ⟨3, 1⟩ (bytes "a line that does not fit into forty bytes"),
        .write "a" ⟨4, 1⟩ (bytes "done")]).files
    (∀ n, 1 < n → files.contents (fileName "a" n) = none)
    ∧ files.contents "a.log" = some (record ⟨4, 1⟩ (bytes "done")) :=
  have h : Each (Shipper.step ⟨40, 1⟩) (Shipper.Succeeds ⟨40, 1⟩) {}
      [.write "a" ⟨1, 1⟩ (bytes "started"), .write "a" ⟨2, 1⟩ (bytes "running"), .write "b" ⟨2, 2⟩ (bytes "other"),
        .restart, .write "a" ⟨3, 1⟩ (bytes "a line that does not fit into forty bytes"),
        .write "a" ⟨4, 1⟩ (bytes "done")] := by decide +kernel
  ⟨(rotation_keeps_the_newest h "a").2.1, by decide +kernel⟩

end Oxinit.Log
