import Mathlib.Data.List.Infix
import Oxinit.Model.Paths
import Oxinit.Model.Supervisor

/-!
# Processes that have left

`left_its_cgroup` takes a process for one that is still there if its path, or
one above it, is the tail of the path of the unit's cgroup. A path that begins
with an end of the unit's, or with an end of the mount point's and the unit's
after it, passes for one that is below it (`Unlike`).
-/

namespace Oxinit.Path

/-- A path begins with these components, behind its root. -/
def Starts (path : List Char) (names : List Component) : Prop := .rootDir :: names <+: components path

/-- A path is that of the unit's cgroup, or below it. -/
def Below (unit path : List Char) : Prop := Starts path (names unit)

/-- A path does not begin like the end of another one, or like its mount point's
and the other behind it. -/
def Unlike (mount unit path : List Char) : Prop :=
  (∀ tail, tail ≠ [] → tail <:+ names unit → ¬Starts path tail)
    ∧ ∀ tail, tail ≠ [] → tail <:+ names mount → ¬Starts path (tail ++ names unit)

variable {mount unit path cgroup text line : List Char} {c : Component} {q : List Component}

/-! ## Components -/

theorem names_append (mount unit : List Char) : names (mount ++ '/' :: unit) = names mount ++ names unit := by
  rw [names, names, names, ← List.filterMap_append, List.splitOn_eq_splitOnP, List.splitOn_eq_splitOnP,
    List.splitOn_eq_splitOnP]
  exact congrArg _ (List.splitOnP_append_cons mount unit (beq_self_eq_true '/'))

theorem plain_of_mem_names (h : c ∈ names path) : c ≠ .rootDir ∧ c ≠ .curDir := by
  obtain ⟨part, -, hc⟩ := List.mem_filterMap.mp h
  unfold component at hc
  split at hc
  · cases hc
  · split at hc <;> cases hc <;> exact ⟨nofun, nofun⟩

/-- The components of a path are its names, after a root or a dot. -/
theorem components_eq (path : List Char) :
    ∃ lead, components path = lead ++ names path ∧ ∀ c ∈ lead, c = .rootDir ∨ c = .curDir := by
  unfold components
  split
  · exact ⟨[.rootDir], rfl, by simp⟩
  · split
    · exact ⟨[.curDir], rfl, by simp⟩
    · exact ⟨[], rfl, by simp⟩

/-- Behind the root there are names only. -/
theorem Starts.names (h : Starts path q) : q <+: names path := by
  unfold Starts components at h
  split at h
  · exact (List.prefix_cons_inj _).mp h
  · split at h
    · cases ((List.cons_prefix_cons.mp h).1 : Component.rootDir = .curDir)
    · exact ((plain_of_mem_names (h.subset List.mem_cons_self)).1 rfl).elim

theorem suffix_append_iff {a b : List Component} : q <:+ a ++ b ↔ q <:+ b ∨ ∃ t, t <:+ a ∧ q = t ++ b := by
  constructor
  · rintro ⟨s, h⟩
    rcases List.append_eq_append_iff.mp h with ⟨t, ha, hq⟩ | ⟨t, hs, hb⟩
    · exact .inr ⟨t, ⟨s, ha.symm⟩, hq⟩
    · exact .inl ⟨t, hb.symm⟩
  · rintro (h | ⟨t, ⟨s, rfl⟩, rfl⟩)
    · exact h.trans (List.suffix_append a b)
    · exact ⟨s, (List.append_assoc ..).symm⟩

/-- Names that end a path are names of it. -/
theorem suffix_components_iff (hq : ∀ c ∈ q, c ≠ .rootDir ∧ c ≠ .curDir) :
    q <:+ components path ↔ q <:+ names path := by
  obtain ⟨lead, he, hlead⟩ := components_eq path
  rw [he]
  refine ⟨fun h => ?_, fun h => h.trans (List.suffix_append ..)⟩
  rcases suffix_append_iff.mp h with h | ⟨t, ht, rfl⟩
  · exact h
  · cases t with
    | nil => exact List.suffix_refl _
    | cons c t =>
      obtain ⟨hroot, hcur⟩ := hq c (List.mem_append_left _ List.mem_cons_self)
      exact ((hlead c (ht.subset List.mem_cons_self)).elim hroot hcur).elim

/-! ## What is compared -/

/-- An ancestor is what a path starts with. -/
theorem mem_ancestors_iff : q ∈ ((ancestors (components path)).filterMap stripRoot).filter (· ≠ []) ↔
    q ≠ [] ∧ Starts path q := by
  rw [List.mem_filter, decide_eq_true_iff, and_comm, List.mem_filterMap]
  refine and_congr_right fun _ => ⟨?_, fun h => ⟨.rootDir :: q, ?_, rfl⟩⟩
  · rintro ⟨ancestor, ha, hs⟩
    obtain ⟨hinit, -⟩ := List.mem_filter.mp ha
    unfold stripRoot at hs
    split at hs
    · cases hs
      exact List.mem_inits _ _ |>.mp (List.mem_reverse.mp hinit)
    · cases hs
  · rw [ancestors, List.mem_filter]
    exact ⟨List.mem_reverse.mpr ((List.mem_inits _ _).mpr h), rfl⟩

/-- A process is outside if nothing its path starts with is a tail of the cgroup's path. -/
theorem leftItsCgroup_iff (h : reported text = some path) : leftItsCgroup cgroup (some text) = true ↔
    ∀ q, q ≠ [] → Starts path q → ¬q <:+ names cgroup := by
  unfold leftItsCgroup
  rw [Option.bind_some, h]
  dsimp only
  rw [Bool.not_eq_true', List.any_eq_false]
  refine forall_congr' fun q => ?_
  rw [mem_ancestors_iff, and_imp, List.isSuffixOf_iff_suffix]
  refine forall_congr' fun _ => forall_congr' fun hs => not_congr (suffix_components_iff fun c hc => ?_)
  exact plain_of_mem_names (hs.names.subset hc)

/-- A process in the unit's cgroup or below it is never taken for one that has left. -/
theorem not_below_of_left (hunit : names unit ≠ []) (hr : reported text = some path)
    (h : leftItsCgroup (mount ++ '/' :: unit) (some text) = true) : ¬Below unit path := fun hb =>
  (leftItsCgroup_iff hr).mp h _ hunit hb (names_append mount unit ▸ List.suffix_append ..)

/-- The path is the first one of the unified hierarchy. -/
theorem reported_eq {before after : List (List Char)} (hl : Text.lines text = before ++ ("0::".toList ++ path) :: after)
    (hb : ∀ line ∈ before, ¬"0::".toList <+: line) : reported text = some path := by
  have hnone : before.findSome? (stripPrefix "0::".toList) = none :=
    List.findSome?_eq_none_iff.mpr fun line hm => if_neg fun hp => hb line hm (List.isPrefixOf_iff_prefix.mp hp)
  have hsome : stripPrefix "0::".toList ("0::".toList ++ path) = some path := by
    rw [stripPrefix, if_pos (List.isPrefixOf_iff_prefix.mpr (List.prefix_append ..)), List.drop_left]
  rw [reported, hl, List.findSome?_append, hnone, Option.none_or, List.findSome?_cons, hsome]

/-- What the supervisor is told of its processes: that one has left is true, and
the lookalikes are those of which it is not told. -/
theorem leftItsCgroup_told {k : Kernel} {name : Name} {proc : Pid → Option (List Char)} {paths : Pid → List Char}
    (hunit : names unit ≠ []) (hgone : ∀ pid, k.alive pid = false → proc pid = none)
    (hproc : ∀ p ∈ k.live, (proc p.pid).bind reported = some (paths p.pid))
    (hplace : ∀ p ∈ k.live, p.cgroup = some name ↔ Below unit (paths p.pid)) :
    ∃ lookalikes, ∀ pid, Supervisor.leftItsCgroup { lookalikes } k name pid
      = leftItsCgroup (mount ++ '/' :: unit) (proc pid) := by
  refine ⟨(k.live.map (·.pid)).filter fun pid => !leftItsCgroup (mount ++ '/' :: unit) (proc pid), fun pid => ?_⟩
  rw [Supervisor.leftItsCgroup, Kernel.leftItsCgroup]
  cases hfind : k.live.find? (·.pid = pid) with
  | none =>
    have hdead : k.alive pid = false := by
      rw [Kernel.alive, List.any_eq_false]
      exact List.find?_eq_none.mp hfind
    rw [hgone pid hdead]
    rfl
  | some p =>
    have hp := List.mem_of_find?_eq_some hfind
    obtain rfl : p.pid = pid := by simpa using List.find?_some hfind
    dsimp only
    cases hleft : leftItsCgroup (mount ++ '/' :: unit) (proc p.pid) with
    | true =>
      obtain ⟨text, htext, hr⟩ := Option.bind_eq_some_iff.mp (hproc p hp)
      rw [htext] at hleft
      have hout : p.cgroup ≠ some name := fun he => not_below_of_left hunit hr hleft ((hplace p hp).mp he)
      simp [hout, htext, hleft]
    | false =>
      have hmem : p.pid ∈ (k.live.map (·.pid)).filter fun pid => !leftItsCgroup (mount ++ '/' :: unit) (proc pid) :=
        List.mem_filter.mpr ⟨List.mem_map_of_mem hp, by rw [hleft]; rfl⟩
      rw [List.contains_iff_mem.mpr hmem, Bool.not_true, Bool.and_false]

/-- `left_its_cgroup` is exact for the paths that are the unit's or below it, and
for those that are unlike the ends of its path. -/
theorem left_its_cgroup_iff {before after : List (List Char)} (hunit : names unit ≠ [])
    (hl : Text.lines text = before ++ ("0::".toList ++ path) :: after) (hb : ∀ line ∈ before, ¬"0::".toList <+: line) :
    (leftItsCgroup (mount ++ '/' :: unit) (some text) = true ↔ ¬Below unit path) ↔
      Below unit path ∨ Unlike mount unit path := by
  have hr := reported_eq hl hb
  by_cases hbelow : Below unit path
  · have hleft : leftItsCgroup (mount ++ '/' :: unit) (some text) ≠ true :=
      fun h => not_below_of_left hunit hr h hbelow
    exact iff_of_true (iff_of_false hleft fun hn => hn hbelow) (.inl hbelow)
  rw [iff_true_right hbelow, leftItsCgroup_iff hr, or_iff_right hbelow, names_append]
  constructor
  · intro h
    refine ⟨fun tail hne ht hs => h tail hne hs (ht.trans (List.suffix_append ..)), fun tail hne ht hs => ?_⟩
    refine h _ ?_ hs (suffix_append_iff.mpr (.inr ⟨tail, ht, rfl⟩))
    exact List.append_ne_nil_of_left_ne_nil hne _
  · rintro ⟨hends, hmount⟩ q hne hs ht
    rcases suffix_append_iff.mp ht with hu | ⟨tail, hm, rfl⟩
    · exact hends q hne hu hs
    · by_cases htail : tail = []
      · subst htail
        exact hbelow hs
      · exact hmount tail htail hm hs

instance (unit path : List Char) : Decidable (Below unit path) :=
  inferInstanceAs (Decidable (.rootDir :: names unit <+: components path))

theorem left_its_cgroup_iff_sample :
    leftItsCgroup ("/sys/fs/cgroup".toList ++ '/' :: "oxinit.slice/a.service".toList)
        (some "1:name=systemd:/\n0::/oxinit.slice/a.service/x\n".toList) = true
      ↔ ¬Below "oxinit.slice/a.service".toList "/oxinit.slice/a.service/x".toList := by
  have hl : Text.lines "1:name=systemd:/\n0::/oxinit.slice/a.service/x\n".toList
      = ["1:name=systemd:/".toList] ++ ("0::".toList ++ "/oxinit.slice/a.service/x".toList) :: [] := by decide
  exact (left_its_cgroup_iff (by decide) hl (by decide)).mpr (.inl (by decide))

/-- A process that has moved to a cgroup at the root that is named like the
unit's passes for one that is still there. -/
theorem moved_process_passes :
    leftItsCgroup ("/sys/fs/cgroup".toList ++ '/' :: "oxinit.slice/a.service".toList) (some "0::/a.service\n".toList)
        = false
      ∧ ¬Below "oxinit.slice/a.service".toList "/a.service".toList := by decide

end Oxinit.Path
