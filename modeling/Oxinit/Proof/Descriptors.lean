import Mathlib.Data.List.Nodup
import Mathlib.Tactic.Common
import Oxinit.Framework.Moves
import Oxinit.Model.Descriptors

/-!
# Where a service finds its descriptors

The duplicates are distinct and above every number the child places one at
(`Duplicated`, `Duplicated.le`), so what the child does is an orderly list of
moves (`placeFrom_eq_moves`, `orderly_places`): the sockets are at 3 and upward
and outlive the exec, and the output is on 1 and 2, whatever its own number was
(`listening_descriptors_land`).
-/

namespace Oxinit.Table

variable {File : Type} {pick : Table File → Nat → Option Nat} {t t' t₁ t₂ : Table File} {listen fds : List Nat}
  {above fd k n target index : Nat} {d : Descriptor File}

/-- The kernel gives out a number that is free, at least the one asked for and
an `i32`. -/
def GivesFree (pick : Table File → Nat → Option Nat) : Prop :=
  ∀ t min n, pick t min = some n → t n = none ∧ min ≤ n ∧ n ≤ maxFd

/-! ## The duplicates -/

/-- `fds` are duplicates of `listen`, at free numbers from `above` on, and
nothing else changed. -/
structure Duplicated (above : Nat) (t : Table File) (listen fds : List Nat) (t₁ : Table File) : Prop where
  free : ∀ fd ∈ fds, t fd = none
  between : ∀ fd ∈ fds, above ≤ fd ∧ fd ≤ maxFd
  distinct : fds.Nodup
  length : fds.length = listen.length
  same : ∀ (i l : Nat), listen[i]? = some l →
    ∃ (fd : Nat) (d : _), fds[i]? = some fd ∧ t l = some d ∧ t₁ fd = some { d with cloexec := true }
  others : ∀ k ∉ fds, t₁ k = t k

theorem dupfdCloexec_eq_some (h : dupfdCloexec pick fd above t = some (n, t')) :
    ∃ d, t fd = some d ∧ pick t above = some n ∧
      t' = Function.update t n (some { file := d.file, cloexec := true }) := by
  unfold dupfdCloexec at h
  split at h
  · exact absurd h (by simp)
  · next d hd =>
    obtain ⟨m, hm, he⟩ := Option.map_eq_some_iff.mp h
    obtain ⟨rfl, rfl⟩ := Prod.mk.injEq .. ▸ he
    exact ⟨d, hd, hm, rfl⟩

theorem Duplicated.cons {l : Nat} (hd : t l = some d) (hopen : ∀ l ∈ listen, (t l).isSome) (hfree : t n = none)
    (hn : above ≤ n ∧ n ≤ maxFd)
    (h : Duplicated above (Function.update t n (some { d with cloexec := true })) listen fds t₁) :
    Duplicated above t (l :: listen) (n :: fds) t₁ := by
  -- a number that was taken still refers to what it did
  have hkeep : ∀ {k}, (t k).isSome → k ≠ n := by
    rintro k hk rfl
    simp [hfree] at hk
  have hnew : n ∉ fds := by
    intro hmem
    simpa using h.free n hmem
  have hne : ∀ {fd}, fd ∈ fds → fd ≠ n := fun hfd he => hnew (he ▸ hfd)
  constructor
  · intro fd hfd
    rcases List.mem_cons.mp hfd with rfl | hfd
    · exact hfree
    · exact Function.update_of_ne (hne hfd) _ t ▸ h.free fd hfd
  · intro fd hfd
    rcases List.mem_cons.mp hfd with rfl | hfd
    · exact hn
    · exact h.between fd hfd
  · exact List.nodup_cons.mpr ⟨hnew, h.distinct⟩
  · exact congrArg (· + 1) h.length
  · intro i l' hi
    match i with
    | 0 =>
      obtain rfl : l = l' := Option.some.inj hi
      exact ⟨n, d, rfl, hd, by rw [h.others n hnew, Function.update_self]⟩
    | i + 1 =>
      obtain ⟨fd, d, hfd, hd, hd'⟩ := h.same i l' hi
      rw [Function.update_of_ne (hkeep (hopen l' (List.mem_of_getElem? hi)))] at hd
      exact ⟨fd, d, hfd, hd, hd'⟩
  · intro k hk
    obtain ⟨hkn, hk⟩ := not_or.mp (mt List.mem_cons.mpr hk)
    rw [h.others k hk, Function.update_of_ne hkn]

theorem duplicateAbove_duplicated (hpick : GivesFree pick) (hopen : ∀ l ∈ listen, (t l).isSome)
    (h : duplicateAbove pick above listen t = some (fds, t₁)) : Duplicated above t listen fds t₁ := by
  induction listen generalizing t fds with
  | nil =>
    obtain ⟨rfl, rfl⟩ : [] = fds ∧ t = t₁ := by simpa [duplicateAbove] using h
    exact ⟨by simp, by simp, List.nodup_nil, rfl, by simp, fun _ _ => rfl⟩
  | cons l listen ih =>
    simp only [duplicateAbove, Option.bind_eq_bind, Option.bind_eq_some_iff, Prod.exists, Option.pure_def,
      Option.some.injEq, Prod.mk.injEq] at h
    obtain ⟨n, t', hdup, fds', t₁', hl, rfl, rfl⟩ := h
    obtain ⟨d, hd, hn, rfl⟩ := dupfdCloexec_eq_some hdup
    obtain ⟨hfree, habove, hmax⟩ := hpick t above n hn
    have hopen' : ∀ l ∈ listen, (t l).isSome := fun l hl => hopen l (.tail _ hl)
    refine .cons hd hopen' hfree ⟨habove, hmax⟩ (ih (fun l hl => ?_) hl)
    by_cases he : l = n
    · rw [he, Function.update_self]
      rfl
    · rw [Function.update_of_ne he]
      exact hopen' l hl

theorem Duplicated.isSome (h : Duplicated above t listen fds t₁) (hfd : fd ∈ fds) : (t₁ fd).isSome := by
  obtain ⟨i, hi⟩ := List.mem_iff_getElem?.mp hfd
  have hlt : i < listen.length := h.length ▸ (List.getElem?_eq_some_iff.mp hi).1
  obtain ⟨fd', d, hfd', -, hd⟩ := h.same i _ (List.getElem?_eq_getElem hlt)
  obtain rfl : fd = fd' := Option.some.inj (hi.symm.trans hfd')
  rw [hd]
  rfl

/-- What was open stays as it was. -/
theorem Duplicated.kept (h : Duplicated above t listen fds t₁) (hk : (t k).isSome) : t₁ k = t k := by
  apply h.others
  intro hmem
  simp [h.free k hmem] at hk

/-- There is one number below `above` for each place the child fills. Where the
sum saturates, only one number is left to give out. -/
theorem Duplicated.le (h : Duplicated (min (firstListenFd + min listen.length maxFd) maxFd) t listen fds t₁)
    (hfd : fd ∈ fds) : firstListenFd + fds.length ≤ fd := by
  rw [h.length]
  have hle := (h.between fd hfd).1
  by_cases hsat : firstListenFd + listen.length ≤ maxFd
  · unfold firstListenFd maxFd at *
    omega
  · have hall : ∀ k ∈ fds, k = maxFd := by
      intro k hk
      have := h.between k hk
      unfold firstListenFd maxFd at *
      omega
    have hone := List.nodup_replicate.mp (List.eq_replicate_of_mem hall ▸ h.distinct)
    rw [h.length] at hone
    unfold firstListenFd maxFd at hsat
    omega

theorem duplicateListenFds_duplicated (hpick : GivesFree pick) (hopen : ∀ l ∈ listen, (t l).isSome)
    (h : duplicateListenFds pick listen t = some (fds, t₁)) :
    Duplicated (min (firstListenFd + min listen.length maxFd) maxFd) t listen fds t₁ := by
  rw [Nat.min_def (n := listen.length)]
  exact duplicateAbove_duplicated hpick hopen h

/-! ## The moves in the child -/

/-- What `dup2` makes of a descriptor. -/
def survives : Option (Descriptor File) → Option (Descriptor File) := Option.map fun d => { d with cloexec := false }

theorem dup2_of_ne (h : (t fd).isSome) (hne : fd ≠ target) :
    dup2 fd target t = some (Function.update t target (survives (t fd))) := by
  obtain ⟨d, hd⟩ := Option.isSome_iff_exists.mp h
  simp [dup2, hd, hne, survives]

theorem dup2_self (h : (t fd).isSome) : dup2 fd fd t = some t := by
  obtain ⟨d, hd⟩ := Option.isSome_iff_exists.mp h
  simp [dup2, hd]

/-- The sources, each with the number it is moved to. -/
def places (index : Nat) (fds : List Nat) : List (Nat × Nat) :=
  (fds.zipIdx index).map fun m => (m.1, firstListenFd + m.2)

theorem places_cons : places index (fd :: fds) = (fd, firstListenFd + index) :: places (index + 1) fds := rfl

theorem mem_places {m : Nat × Nat} (h : m ∈ places index fds) :
    m.1 ∈ fds ∧ firstListenFd + index ≤ m.2 ∧ m.2 < firstListenFd + index + fds.length := by
  obtain ⟨p, hp, rfl⟩ := List.mem_map.mp h
  obtain ⟨hle, hlt, he⟩ := List.mem_zipIdx hp
  exact ⟨he ▸ List.getElem_mem _, by show _ ≤ _ + _; omega, by show _ + _ < _; omega⟩

theorem mem_places_of_getElem? {i : Nat} (h : fds[i]? = some fd) : (fd, firstListenFd + i) ∈ places 0 fds := by
  refine List.mem_map.mpr ⟨(fd, i), ?_, rfl⟩
  exact List.mem_zipIdx_iff_getElem?.mpr h

/-- Every source is above every place filled. -/
theorem orderly_places (h : ∀ fd ∈ fds, firstListenFd + index + fds.length ≤ fd) :
    Framework.Orderly (places index fds) := by
  induction fds generalizing index with
  | nil => exact List.Pairwise.nil
  | cons fd fds ih =>
    refine List.pairwise_cons.mpr ⟨fun m hm => ?_, ih fun k hk => ?_⟩
    · obtain ⟨hfd, hle, -⟩ := mem_places hm
      have := h m.1 (.tail _ hfd)
      rw [List.length_cons] at this
      constructor <;> show firstListenFd + index ≠ _ <;> omega
    · have := h k (.tail _ hk)
      rw [List.length_cons] at this
      omega

/-- The descriptors are moved by an orderly list of moves. -/
theorem placeFrom_eq_moves (hopen : ∀ fd ∈ fds, (t fd).isSome)
    (habove : ∀ fd ∈ fds, firstListenFd + index + fds.length ≤ fd ∧ fd ≤ maxFd) :
    placeFrom index fds t = some (Framework.moves survives t (places index fds)) := by
  induction fds generalizing index t with
  | nil => rfl
  | cons fd fds ih =>
    have hfd := habove fd (.head _)
    rw [List.length_cons] at hfd
    rw [placeFrom, if_neg (by omega), dup2_of_ne (hopen fd (.head _)) (by omega), Option.bind_some, places_cons,
      Framework.moves_cons]
    have hrest : ∀ k ∈ fds, firstListenFd + (index + 1) + fds.length ≤ k ∧ k ≤ maxFd := by
      intro k hk
      have := habove k (.tail _ hk)
      rw [List.length_cons] at this
      omega
    refine ih (fun k hk => ?_) hrest
    rw [Function.update_of_ne (by have := hrest k hk; omega)]
    exact hopen k (.tail _ hk)

/-! ## The output -/

/-- `target` refers to this file. Only where it did before may it still close on
exec. -/
def Refers (t : Table File) (file : File) (source target : Nat) : Prop :=
  ∃ cloexec, t target = some { file, cloexec } ∧ (source ≠ target → cloexec = false)

/-- 1 and 2 refer to the output, if there is one, and nothing else changed. -/
structure Redirected (output : Option Nat) (t t' : Table File) : Prop where
  output : ∀ o, output = some o → ∃ d, t o = some d ∧ Refers t' d.file o 1 ∧ Refers t' d.file o 2
  others : ∀ k, k ≠ 1 → k ≠ 2 → t' k = t k

/-- The places of the sockets are as they were. -/
theorem Redirected.places {output : Option Nat} (h : Redirected output t t') (hk : firstListenFd ≤ k) : t' k = t k := by
  unfold firstListenFd at hk
  exact h.others k (by omega) (by omega)

/-- The target refers to the same file, and stays open on `exec`. -/
theorem dup2_refers (target : Nat) (h : t fd = some d) :
    ∃ t', dup2 fd target t = some t' ∧ Refers t' d.file fd target ∧ ∀ k, k ≠ target → t' k = t k := by
  have hopen : (t fd).isSome := h ▸ rfl
  by_cases hfd : fd = target
  · subst hfd
    exact ⟨t, dup2_self hopen, ⟨d.cloexec, h, fun hne => absurd rfl hne⟩, fun _ _ => rfl⟩
  · refine ⟨_, dup2_of_ne hopen hfd, ⟨false, ?_, fun _ => rfl⟩, fun k hk => Function.update_of_ne hk ..⟩
    rw [Function.update_self, h]
    rfl

/-- Both outputs are redirected. -/
theorem redirectOutput_redirected (h : (t fd).isSome) :
    ∃ t', redirectOutput fd t = some t' ∧ Redirected (some fd) t t' := by
  obtain ⟨d, hd⟩ := Option.isSome_iff_exists.mp h
  obtain ⟨t', he, href, hkeep⟩ := dup2_refers 1 hd
  -- the output is still at its own number, which may be 1
  have hd' : ∃ c, t' fd = some { file := d.file, cloexec := c } := by
    by_cases hfd : fd = 1
    · obtain ⟨c, hc, -⟩ := href
      exact ⟨c, hfd ▸ hc⟩
    · exact ⟨d.cloexec, hkeep fd hfd ▸ hd⟩
  obtain ⟨c, hd'⟩ := hd'
  obtain ⟨t'', he', href', hkeep'⟩ := dup2_refers 2 hd'
  refine ⟨t'', by rw [redirectOutput, he]; exact he', ⟨?_, fun k h₁ h₂ => ?_⟩⟩
  · rintro o ⟨⟩
    refine ⟨d, hd, ?_, href'⟩
    rw [Refers, hkeep' 1 (by decide)]
    exact href
  · rw [hkeep' k h₂, hkeep k h₁]

/-- What the child does to its descriptors, as moves. -/
theorem setupChild_eq_moves {output : Option Nat} (hout : ∀ o, output = some o → (t o).isSome)
    (hopen : ∀ fd ∈ fds, (t fd).isSome) (habove : ∀ fd ∈ fds, firstListenFd + fds.length ≤ fd ∧ fd ≤ maxFd) :
    ∃ t', Redirected output t t' ∧ setupChild output fds t = some (Framework.moves survives t' (places 0 fds)) := by
  have hredirect : ∃ t', Redirected output t t' ∧ setupChild output fds t = placeDescriptors fds t' := by
    match output with
    | none => exact ⟨t, ⟨fun _ h => absurd h (by simp), fun _ _ _ => rfl⟩, rfl⟩
    | some o =>
      obtain ⟨t', he, hr⟩ := redirectOutput_redirected (hout o rfl)
      exact ⟨t', hr, by simp [setupChild, he]⟩
  obtain ⟨t', hr, he⟩ := hredirect
  refine ⟨t', hr, he.trans (placeFrom_eq_moves (fun k hk => ?_) habove)⟩
  rw [hr.places (by have := (habove k hk).1; omega)]
  exact hopen k hk

theorem notMem_targets (h : k < firstListenFd + index ∨ firstListenFd + index + fds.length ≤ k) :
    k ∉ (places index fds).map (·.2) := by
  intro hmem
  obtain ⟨m, hm, rfl⟩ := List.mem_map.mp hmem
  have := mem_places hm
  omega

/-- In the child, whose table is the parent's as far as what it was handed goes,
every listening socket is at its place and outlives the exec, the output is on
1 and 2, and after any number of the moves every duplicate is still what it was. -/
theorem listening_descriptors_land (output : Option Nat) (hpick : GivesFree pick)
    (hopen : ∀ l ∈ listen, (t l).isSome) (hout : ∀ o, output = some o → (t o).isSome)
    (h : duplicateListenFds pick listen t = some (fds, t₁))
    (hchild : ∀ k, k ∈ fds ∨ output = some k → t₂ k = t₁ k) :
    ∃ t₃, setupChild output fds t₂ = some t₃ ∧
      (∀ i l, listen[i]? = some l → ∃ d, t l = some d ∧
        t₃ (firstListenFd + i) = some { file := d.file, cloexec := false }) ∧
      (∀ o, output = some o → ∃ d, t o = some d ∧ Refers t₃ d.file o 1 ∧ Refers t₃ d.file o 2) ∧
      ∀ j, ∃ t', setupChild output (fds.take j) t₂ = some t' ∧ ∀ fd ∈ fds, t' fd = t₁ fd := by
  have hdup := duplicateListenFds_duplicated hpick hopen h
  have hsources : ∀ fd ∈ fds, (t₂ fd).isSome := fun fd hfd => hchild fd (.inl hfd) ▸ hdup.isSome hfd
  have hkept : ∀ o, output = some o → t₂ o = t o := fun o ho => (hchild o (.inr ho)).trans (hdup.kept (hout o ho))
  have hout₂ : ∀ o, output = some o → (t₂ o).isSome := fun o ho => hkept o ho ▸ hout o ho
  have habove : ∀ fd ∈ fds, firstListenFd + fds.length ≤ fd ∧ fd ≤ maxFd :=
    fun fd hfd => ⟨hdup.le hfd, (hdup.between fd hfd).2⟩
  obtain ⟨t', hr, he⟩ := setupChild_eq_moves hout₂ hsources habove
  refine ⟨_, he, fun i l hi => ?_, fun o ho => ?_, fun j => ?_⟩
  · obtain ⟨fd, d, hfd, hd, hd₁⟩ := hdup.same i l hi
    have hmem := List.mem_of_getElem? hfd
    refine ⟨d, hd, ?_⟩
    rw [Framework.moves_of_mem (orderly_places fun k hk => hdup.le hk) (mem_places_of_getElem? hfd),
      hr.places (by have := hdup.le hmem; omega), hchild fd (.inl hmem), hd₁]
    rfl
  · obtain ⟨d, hd, h₁, h₂⟩ := hr.output o ho
    refine ⟨d, hkept o ho ▸ hd, ?_, ?_⟩
    · rw [Refers, Framework.moves_of_notMem (notMem_targets (.inl (by decide)))]
      exact h₁
    · rw [Refers, Framework.moves_of_notMem (notMem_targets (.inl (by decide)))]
      exact h₂
  · have htake : ∀ fd ∈ fds.take j, fd ∈ fds := fun _ => List.mem_of_mem_take
    have hle : (fds.take j).length ≤ fds.length := List.length_take_le' j fds
    obtain ⟨t'', hr, he⟩ := setupChild_eq_moves hout₂ (fun fd hfd => hsources fd (htake fd hfd))
      fun fd hfd => ⟨by have := (habove fd (htake fd hfd)).1; omega, (habove fd (htake fd hfd)).2⟩
    refine ⟨_, he, fun fd hfd => ?_⟩
    have hlow := hdup.le hfd
    rw [Framework.moves_of_notMem (notMem_targets (.inr (by omega))), hr.places (by omega), hchild fd (.inl hfd)]

/-- The lowest number that is free, as the kernel has it. -/
def lowestFree (t : Table File) (min : Nat) : Option Nat :=
  (List.range' min (maxFd + 1 - min)).find? fun n => (t n).isNone

theorem lowestFree_givesFree : GivesFree (lowestFree : Table File → Nat → Option Nat) := by
  intro t min n h
  have hmem := List.mem_range'_1.mp (List.mem_of_find?_eq_some h)
  have hfree := List.find?_some (p := fun n => (t n).isNone) h
  exact ⟨Option.isNone_iff_eq_none.mp hfree, hmem.1, by omega⟩

/-- Standard streams, an output at 4 and sockets at 5 and 6. -/
def sampleTable : Table Nat := fun n => if n ≤ 6 ∧ n ≠ 3 then some { file := n, cloexec := 2 < n } else none

/-- The sockets' duplicates at 7 and 8. -/
def sampleDuplicated : Table Nat :=
  Function.update (Function.update sampleTable 7 (some { file := 5, cloexec := true })) 8
    (some { file := 6, cloexec := true })

/-- The output's own number is one that a socket is moved to. -/
theorem listening_descriptors_land_sample :
    duplicateListenFds lowestFree [5, 6] sampleTable = some ([7, 8], sampleDuplicated) ∧
      ∃ t₃, setupChild (some 4) [7, 8] sampleDuplicated = some t₃ ∧
        t₃ 3 = some { file := 5, cloexec := false } ∧ t₃ 4 = some { file := 6, cloexec := false } ∧
        Refers t₃ 4 4 1 ∧ Refers t₃ 4 4 2 := by
  have hdup : duplicateListenFds lowestFree [5, 6] sampleTable = some ([7, 8], sampleDuplicated) := rfl
  obtain ⟨t₃, he, hlisten, hout, -⟩ := listening_descriptors_land (some 4) lowestFree_givesFree
    (by decide) (by rintro o ⟨⟩; rfl) hdup (fun _ _ => rfl)
  obtain ⟨d, hd, h₁, h₂⟩ := hout 4 rfl
  obtain ⟨d₀, hd₀, hd₀'⟩ := hlisten 0 5 rfl
  obtain ⟨d₁, hd₁, hd₁'⟩ := hlisten 1 6 rfl
  obtain rfl : ⟨4, true⟩ = d := Option.some.inj hd
  obtain rfl : ⟨5, true⟩ = d₀ := Option.some.inj hd₀
  obtain rfl : ⟨6, true⟩ = d₁ := Option.some.inj hd₁
  exact ⟨hdup, t₃, he, hd₀', hd₁', h₁, h₂⟩

end Oxinit.Table
