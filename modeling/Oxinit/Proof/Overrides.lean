import Oxinit.Proof.Loading

/-!
# Directory precedence

A unit directory as a map from unit names to file texts. A file that parses
replaces what earlier directories have under its name; one that does not is
reported, and replaces nothing.
-/

namespace Oxinit

/-- A unit directory: the text of the file of each unit that has one. -/
abbrev Texts := Std.TreeMap Name String

variable (parse : Name → String → Except UnitError Unit)

/-- What reading a directory at `d.1` with the texts `d.2` gives. -/
def textFiles (d : String × Texts) : Directory :=
  { path := d.1, listing := .files (d.2.toList.map fun p => (p.1, parse p.1 p.2)) }

/-- The text of a unit in the last directory that has a file for it. -/
def lastText (dirs : List (String × Texts)) (n : Name) : Option String := dirs.reverse.findSome? (·.2[n]?)

/-- The unit that a directory has by itself. -/
def parsedIn (n : Name) (d : String × Texts) : Option Unit := d.2[n]?.bind fun text => (parse n text).toOption

/-- What is wrong with the files of a directory, one by one. -/
def failures (d : String × Texts) : List UnitError :=
  d.2.toList.filterMap fun p =>
    match parse p.1 p.2 with
    | .ok _ => none
    | .error e => some e

variable {parse} {n : Name}

theorem addFiles_errors (l : List (Name × String)) (loaded : Loaded) :
    ((l.map fun p => (p.1, parse p.1 p.2)).foldl Loaded.addFile loaded).errors =
      loaded.errors ++ l.filterMap fun p => match parse p.1 p.2 with
        | .ok _ => none
        | .error e => some e := by
  induction l generalizing loaded with
  | nil => simp
  | cons p l ih =>
    rw [List.map_cons, List.foldl_cons, ih, List.filterMap_cons]
    cases parse p.1 p.2 <;> simp [Loaded.addFile]

/-- What the files of a directory make of a name. -/
theorem addFiles_get (l : List (Name × String)) (hl : (l.map Prod.fst).Nodup) (loaded : Loaded) :
    ((l.map fun p => (p.1, parse p.1 p.2)).foldl Loaded.addFile loaded).units[n]? =
      ((l.lookup n).bind fun text => (parse n text).toOption).or loaded.units[n]? := by
  induction l generalizing loaded with
  | nil => simp
  | cons p l ih =>
    obtain ⟨k, text⟩ := p
    rw [List.map_cons, List.nodup_cons] at hl
    rw [List.map_cons, List.foldl_cons, ih hl.2, List.lookup_cons]
    by_cases e : k = n
    · subst e
      rw [Supervisor.lookup_eq_none_of_notMem hl.1]
      cases hp : parse k text <;> simp [Loaded.addFile, hp, Except.toOption]
    · have hne : (n == k) = false := by simpa using Ne.symm e
      rw [hne]
      cases hp : parse k text <;> simp [Loaded.addFile, Std.TreeMap.getElem?_insert, e]

/-- What one directory adds. -/
theorem addDir_spec (parse : Name → String → Except UnitError Unit) (n : Name) (d : String × Texts) (loaded : Loaded) :
    (loaded.addDir (textFiles parse d)).errors = loaded.errors ++ failures parse d ∧
      (loaded.addDir (textFiles parse d)).units[n]? = (parsedIn parse n d).or loaded.units[n]? := by
  refine ⟨addFiles_errors _ loaded, ?_⟩
  rw [parsedIn, ← Supervisor.lookup_toList d.2]
  exact addFiles_get d.2.toList (Graph.keys_nodup d.2) loaded

/-- What the directories make of it, one after another. -/
theorem addDirs_spec (parse : Name → String → Except UnitError Unit) (n : Name) (dirs : List (String × Texts))
    (loaded : Loaded) :
    ((dirs.map (textFiles parse)).foldl Loaded.addDir loaded).errors = loaded.errors ++ dirs.flatMap (failures parse) ∧
      ((dirs.map (textFiles parse)).foldl Loaded.addDir loaded).units[n]? =
        (dirs.reverse.findSome? (parsedIn parse n)).or loaded.units[n]? := by
  induction dirs generalizing loaded with
  | nil => simp
  | cons d dirs ih =>
    obtain ⟨he, hu⟩ := addDir_spec parse n d loaded
    obtain ⟨he', hu'⟩ := ih (loaded.addDir (textFiles parse d))
    rw [List.map_cons, List.foldl_cons]
    refine ⟨?_, ?_⟩
    · rw [he', he, List.flatMap_cons, List.append_assoc]
    · have hone : [d].findSome? (parsedIn parse n) = parsedIn parse n d := by
        rw [List.findSome?_cons]
        cases parsedIn parse n d <;> rfl
      rw [hu', hu, List.reverse_cons, List.findSome?_append, Option.or_assoc, hone]

theorem findSome?_parsedIn_eq_none {dirs : List (String × Texts)} : dirs.reverse.findSome? (parsedIn parse n) = none ↔
    ∀ d ∈ dirs, ∀ text, d.2[n]? = some text → ∀ unit, parse n text ≠ .ok unit := by
  rw [List.findSome?_eq_none_iff]
  simp only [List.mem_reverse]
  refine forall₂_congr fun d _ => ?_
  rw [parsedIn]
  cases hd : d.2[n]? with
  | none => simp
  | some text =>
    cases hp : parse n text <;> simp [hp, Except.toOption]

/-- The last unit of a name that parses is what the last file of that name says,
if that parses, and is none at all otherwise if no other parses. -/
theorem findSome?_parsedIn (dirs : List (String × Texts)) :
    dirs.reverse.findSome? (parsedIn parse n) = (lastText dirs n).bind (fun text => (parse n text).toOption) ↔
      ((∃ text e, lastText dirs n = some text ∧ parse n text = .error e) →
        ∀ d ∈ dirs, ∀ text, d.2[n]? = some text → ∀ unit, parse n text ≠ .ok unit) := by
  rw [← findSome?_parsedIn_eq_none]
  cases ht : lastText dirs n with
  | none =>
    rw [lastText, List.findSome?_eq_none_iff] at ht
    have hnone : dirs.reverse.findSome? (parsedIn parse n) = none :=
      List.findSome?_eq_none_iff.mpr fun d hd => by rw [parsedIn, ht d hd, Option.bind_none]
    simp [hnone]
  | some text =>
    obtain ⟨l₁, d, l₂, he, hd, hl₁⟩ := List.findSome?_eq_some_iff.mp ht
    cases hp : parse n text with
    | ok unit =>
      have hfound : dirs.reverse.findSome? (parsedIn parse n) = some unit := by
        refine List.findSome?_eq_some_iff.mpr ⟨l₁, d, l₂, he, ?_, fun x hx => ?_⟩
        · rw [parsedIn, hd, Option.bind_some, hp]
          rfl
        · rw [parsedIn, hl₁ x hx, Option.bind_none]
      simp [hfound, hp, Except.toOption]
    | error e => simp [hp, Except.toOption]

/-- Each file that fails is reported once; and what is loaded under a name is what
the last file of that name says, if and only if that file parses or no file of the
name does. -/
theorem later_file_replaces_iff (dirs : List (String × Texts)) :
    (loadDirsIn (dirs.map (textFiles parse))).errors = dirs.flatMap (failures parse) ∧
      ∀ n : Name, (loadDirsIn (dirs.map (textFiles parse))).units[n]? =
          (lastText dirs n).bind (fun text => (parse n text).toOption) ↔
        ((∃ text e, lastText dirs n = some text ∧ parse n text = .error e) →
          ∀ d ∈ dirs, ∀ text, d.2[n]? = some text → ∀ unit, parse n text ≠ .ok unit) := by
  have h := fun n => addDirs_spec parse n dirs {}
  refine ⟨(h "").1, fun n => ?_⟩
  rw [loadDirsIn, (h n).2, ← findSome?_parsedIn]
  simp

/-- A parser that knows one good text. -/
def parseGood (n : Name) (text : String) : Except UnitError Unit :=
  if text = "good" then .ok { name := n, description := n, kind := .target } else .error (.noKind n)

/-- The packaged unit is loaded although the operator has a file for it. -/
theorem bad_file_replaces_nothing :
    let dirs : List (String × Texts) :=
      [("/usr/lib/oxinit/units", .ofList [("a", "good")]), ("/etc/oxinit/units", .ofList [("a", "bad")])]
    (loadDirsIn (dirs.map (textFiles parseGood))).units["a"]? ≠
      (lastText dirs "a").bind fun text => (parseGood "a" text).toOption := by
  decide +kernel

end Oxinit
