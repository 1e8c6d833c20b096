import Oxinit.Framework.Canonical
import Oxinit.Model.User
import Oxinit.Proof.Text

/-!
# What the files grant

`resolve` is compared with what the two files say, line by line: the first
account of the name, and the groups that name it as a member. Lines that are
not entries say nothing.
-/

namespace Oxinit.User

open Text (Numeral Splits)

/-- A line is an entry with these fields. -/
structure Entry (line : List Char) (fields : List (List Char)) : Prop where
  nonempty : Text.trim line ≠ []
  noComment : (Text.trim line).head? ≠ some '#'
  splits : Splits ':' (Text.trim line) fields
  enough : 4 ≤ fields.length

/-- A field is a number of 32 bits. -/
def Number (fields : List (List Char)) (index n : Nat) : Prop :=
  ∃ text, fields[index]? = some text ∧ Numeral text n ∧ n < 2 ^ 32

/-- The first entry of the name has these ids. -/
def Account (name passwd : List Char) (uid gid : Nat) : Prop :=
  ∃ before line after entry, Text.lines passwd = before ++ line :: after ∧ Entry line entry ∧ entry.head? = some name
    ∧ (∀ earlier ∈ before, ∀ other, Entry earlier other → other.head? ≠ some name)
    ∧ Number entry 2 uid ∧ Number entry 3 gid

/-- A line has the name among the members of the group. -/
def Grants (name line : List Char) (gid : Nat) : Prop :=
  ∃ entry members list, Entry line entry ∧ entry[3]? = some members ∧ Splits ',' members list ∧ name ∈ list
    ∧ Number entry 2 gid

variable {name passwd group line : List Char} {entry : List (List Char)} {index n : Nat}

/-! ## One line -/

/-- The fields of a line are its entry, unless it is a comment or has fewer than four. -/
theorem fields_eq_some_iff : fields line = some entry ↔ Entry line entry := by
  unfold fields
  dsimp only
  split
  · rename_i h
    exact iff_of_false nofun fun he => h.elim he.nonempty he.noComment
  · rename_i h
    rw [not_or] at h
    split
    · rename_i hlen
      refine iff_of_false nofun fun he => ?_
      rw [Text.splitOn_eq_iff.mpr he.splits] at hlen
      exact Nat.not_lt_of_le he.enough hlen
    · rename_i hlen
      rw [Option.some.injEq]
      constructor
      · rintro rfl
        exact ⟨h.1, h.2, Text.splitOn_eq_iff.mp rfl, Nat.le_of_not_lt hlen⟩
      · exact fun he => Text.splitOn_eq_iff.mpr he.splits

theorem number_eq_some_iff : number entry index = some n ↔ Number entry index n := by
  rw [number, Option.bind_eq_some_iff]
  exact exists_congr fun text => and_congr_right fun _ => Text.fromStr_eq_some_iff

/-- Which groups an entry grants. -/
theorem granted_eq_some_iff : granted name entry = some n ↔
    ∃ members list, entry[3]? = some members ∧ Splits ',' members list ∧ name ∈ list ∧ Number entry 2 n := by
  unfold granted
  cases entry[3]? with
  | none => exact iff_of_false nofun fun ⟨_, _, h, _⟩ => nomatch h
  | some members =>
    dsimp only
    split
    · rename_i h
      rw [List.any_beq', List.contains_iff_mem] at h
      rw [number_eq_some_iff]
      refine ⟨fun hn => ⟨members, _, rfl, Text.splitOn_eq_iff.mp rfl, h, hn⟩, ?_⟩
      rintro ⟨_, _, -, -, -, hn⟩
      exact hn
    · rename_i h
      refine iff_of_false nofun ?_
      rintro ⟨_, list, hm, hsplits, hname, -⟩
      cases hm
      rw [Text.splitOn_eq_iff.mpr hsplits, List.any_beq', List.contains_iff_mem] at h
      exact h hname

theorem mem_granted_iff : n ∈ ((Text.lines group).filterMap fields).filterMap (granted name) ↔
    ∃ line ∈ Text.lines group, Grants name line n := by
  rw [List.filterMap_filterMap, List.mem_filterMap]
  refine exists_congr fun line => and_congr_right fun _ => ?_
  rw [Option.bind_eq_some_iff]
  refine exists_congr fun entry => ?_
  rw [fields_eq_some_iff, granted_eq_some_iff]
  simp only [exists_and_left]

/-! ## The files -/

theorem find?_eq_some_iff : ((Text.lines passwd).filterMap fields).find? (·.head? == some name) = some entry ↔
    ∃ before line after, Text.lines passwd = before ++ line :: after ∧ Entry line entry ∧ entry.head? = some name
      ∧ ∀ earlier ∈ before, ∀ other, Entry earlier other → other.head? ≠ some name := by
  rw [List.find?_filterMap, Option.bind_eq_some_iff]
  constructor
  · rintro ⟨line, hfind, hf⟩
    obtain ⟨hany, before, after, hlines, hbefore⟩ := List.find?_eq_some_iff_append.mp hfind
    refine ⟨before, line, after, hlines, fields_eq_some_iff.mp hf, ?_, fun earlier he other hother hhead => ?_⟩
    · simpa [hf] using hany
    · have := hbefore earlier he
      simp [fields_eq_some_iff.mpr hother, hhead] at this
  · rintro ⟨before, line, after, hlines, hentry, hhead, hbefore⟩
    have hf := fields_eq_some_iff.mpr hentry
    refine ⟨line, List.find?_eq_some_iff_append.mpr ⟨?_, before, after, hlines, fun earlier he => ?_⟩, hf⟩
    · simp [hf, hhead]
    · rw [Bool.not_eq_true', ← Bool.not_eq_true]
      intro hany
      obtain ⟨other, hother, hp⟩ := (Option.any_eq_true _ _).mp hany
      exact hbefore earlier he other (fields_eq_some_iff.mp hother) (eq_of_beq hp)

/-- The account of a user is its first entry. -/
theorem account_iff {uid gid : Nat} : Account name passwd uid gid ↔
    ∃ entry, ((Text.lines passwd).filterMap fields).find? (·.head? == some name) = some entry
      ∧ number entry 2 = some uid ∧ number entry 3 = some gid := by
  simp only [find?_eq_some_iff, number_eq_some_iff, Account]
  constructor
  · rintro ⟨before, line, after, entry, hlines, hentry, hhead, hbefore, hids⟩
    exact ⟨entry, ⟨before, line, after, hlines, hentry, hhead, hbefore⟩, hids⟩
  · rintro ⟨entry, ⟨before, line, after, hlines, hentry, hhead, hbefore⟩, hids⟩
    exact ⟨before, line, after, entry, hlines, hentry, hhead, hbefore, hids⟩

/-- The group list is the increasing list of what the files grant. -/
theorem resolve_eq_ok {i : Identity} : resolve name passwd group = .ok i ↔
    Account name passwd i.uid i.gid ∧ i.name = name
      ∧ i.groups = Framework.canonical (i.gid :: ((Text.lines group).filterMap fields).filterMap (granted name)) := by
  rw [account_iff]
  unfold resolve
  split
  · rename_i hfind
    rw [hfind]
    exact iff_of_false nofun fun ⟨⟨_, h, _⟩, _⟩ => nomatch h
  · rename_i entry hfind
    rw [hfind]
    split
    · rename_i uid gid huid hgid
      constructor
      · rintro ⟨⟩
        exact ⟨⟨entry, rfl, huid, hgid⟩, rfl, rfl⟩
      · obtain ⟨name', uid', gid', groups⟩ := i
        rintro ⟨⟨_, ⟨⟩, hu, hg⟩, hname, hgroups⟩
        cases huid.symm.trans hu
        cases hgid.symm.trans hg
        dsimp only at hname hgroups
        subst hname hgroups
        rfl
    · rename_i hnone
      refine iff_of_false nofun ?_
      rintro ⟨⟨_, ⟨⟩, hu, hg⟩, -⟩
      exact hnone _ _ hu hg

/-- The identity is exactly what the files say: the ids of the first account of
the name, and its group list is, in increasing order, the primary group and the
groups that name it as a member. -/
theorem identity_is_what_files_say (name passwd group : List Char) :
    ((∃ i, resolve name passwd group = .ok i) ↔ ∃ uid gid, Account name passwd uid gid)
    ∧ ∀ i, resolve name passwd group = .ok i ↔
        Account name passwd i.uid i.gid ∧ i.name = name ∧ i.groups.Pairwise (· < ·)
          ∧ ∀ g, g ∈ i.groups ↔ g = i.gid ∨ ∃ line ∈ Text.lines group, Grants name line g := by
  constructor
  · constructor
    · rintro ⟨i, h⟩
      exact ⟨i.uid, i.gid, (resolve_eq_ok.mp h).1⟩
    · rintro ⟨uid, gid, h⟩
      let groups := gid :: ((Text.lines group).filterMap fields).filterMap (granted name)
      exact ⟨⟨name, uid, gid, Framework.canonical groups⟩, resolve_eq_ok.mpr ⟨h, rfl, rfl⟩⟩
  · intro i
    rw [resolve_eq_ok, eq_comm (a := i.groups), Framework.canonical_eq_iff]
    simp only [List.mem_cons, mem_granted_iff]

-- A prefix of a member's name is no member.
example : resolve "ox".toList "#ox:x:1:1\nbad\n ox:x:5:5::/:/bin/sh".toList
      "w:x:10:oxinit,proxy\na:x:4:ox,b\nb:x:x:ox".toList
    = .ok ⟨"ox".toList, 5, 5, [4, 5]⟩ := by decide

end Oxinit.User
