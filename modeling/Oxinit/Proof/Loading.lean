import Oxinit.Proof.Reload

/-!
# Load errors

`load` goes by the units that load, and only prints the errors. So a unit set
with an error in it is refused only if what is left does not resolve.
-/

namespace Oxinit

/-- The last file of a name, which is the one that counts. -/
def effective (dirs : List Directory) (n : Name) : Option (Except UnitError Unit) :=
  (dirs.flatMap Directory.files).reverse.lookup n

/-- Nothing of a unit set is started or bound, and no unit is held in place of
one whose file is in error. -/
structure WhollyRefused (dirs : List Directory) (s : Supervisor) : Prop where
  order : s.order = []
  started : ∀ e ∈ s.history, e.1.isMove = true
  bound : s.sockets = []
  replaced : ∀ n e, effective dirs n = some (.error e) → s.knows n = false

namespace Supervisor

variable {w : World} {hierarchy : Bool} {kernel : Kernel} {s : Supervisor}

/-- The machine before anything is loaded. -/
def blank (hierarchy : Bool) (kernel : Kernel) : Supervisor := { cgroups := { hierarchy }, kernel }

/-! ## What is loaded -/

/-- What `addUnit` and `bindSocket` leave alone. -/
theorem addUnit_frame (w : World) (name : Name) (unit : Unit) (s : Supervisor) :
    (addUnit w name unit s).order = s.order ∧ (addUnit w name unit s).sockets = s.sockets := by
  simp only [addUnit, addCgroup]
  split
  · exact ⟨by simp [Manager.insertUnit, Manager.addHandle], by simp [Manager.insertUnit, Manager.addHandle]⟩
  · exact ⟨rfl, rfl⟩

/-- To add units leaves the order and the sockets. -/
theorem addUnits_frame (w : World) (l : List (Name × Unit)) (hl : (l.map Prod.fst).Nodup) (s : Supervisor) :
    (l.foldl (fun s p => addUnit w p.1 p.2 s) s).order = s.order ∧
      (l.foldl (fun s p => addUnit w p.1 p.2 s) s).sockets = s.sockets ∧
      ∀ n, (l.foldl (fun s p => addUnit w p.1 p.2 s) s).unitOf n = (l.lookup n).or (s.unitOf n) := by
  induction l generalizing s with
  | nil => simp
  | cons p l ih =>
    obtain ⟨k, u⟩ := p
    rw [List.map_cons, List.nodup_cons] at hl
    obtain ⟨ho, hs, hu⟩ := ih hl.2 (addUnit w k u s)
    obtain ⟨ho', hs'⟩ := addUnit_frame w k u s
    refine ⟨ho.trans ho', hs.trans hs', fun n => ?_⟩
    have hget := addUnit_get (n := n) w k u s
    rw [List.foldl_cons, hu, List.lookup_cons, Manager.unitOf, hget]
    by_cases e : k = n
    · subst e
      simp [lookup_eq_none_of_notMem hl.1, Instance.new]
    · have hne : (n == k) = false := by simpa using Ne.symm e
      simp [e, hne, Manager.unitOf]

/-- The cgroups that are created while units are added. -/
theorem addUnits_handles (w : World) (l : List (Name × Unit)) (s : Supervisor) :
    ∃ names, names.Sublist (l.map Prod.fst) ∧
      (l.foldl (fun s p => addUnit w p.1 p.2 s) s).cgroups.handles = s.cgroups.handles ++ names := by
  induction l generalizing s with
  | nil => exact ⟨[], .slnil, (List.append_nil _).symm⟩
  | cons p l ih =>
    obtain ⟨names, hn, h⟩ := ih (addUnit w p.1 p.2 s)
    have h' : (addUnit w p.1 p.2 s).cgroups.handles = s.cgroups.handles ∨
        (addUnit w p.1 p.2 s).cgroups.handles = s.cgroups.handles ++ [p.1] := by
      simp only [addUnit, addCgroup]
      split
      · simp only [update_toManager, turn_toManager, Manager.insertUnit, Manager.addHandle, Cgroups.add]
        split
        · exact .inr rfl
        · exact .inl rfl
      · exact .inl rfl
    rcases h' with h' | h'
    · exact ⟨names, hn.cons _, h.trans (by rw [h'])⟩
    · exact ⟨p.1 :: names, hn.cons_cons _, h.trans (by rw [h', List.append_assoc, List.singleton_append])⟩

/-- To bind a socket leaves the units. -/
theorem bindSocket_frame (w : World) (unit : Name) (socket : Socket) (s : Supervisor) :
    (bindSocket w unit socket s).order = s.order ∧ (bindSocket w unit socket s).instances = s.instances ∧
      (bindSocket w unit socket s).cgroups = s.cgroups := by
  simp only [bindSocket]
  induction socket.listen generalizing s with
  | nil => exact ⟨rfl, rfl, rfl⟩
  | cons address l ih =>
    rw [List.foldl_cons, (ih _).1, (ih _).2.1, (ih _).2.2]
    split
    · exact ⟨by simp [Manager.bind], by simp [Manager.bind], by simp [Manager.bind]⟩
    · exact ⟨by simp, by simp, by simp⟩

theorem bindSockets_frame (w : World) (units : Units) (l : List Name) (s : Supervisor) :
    let s' := l.foldl (fun s name => match units[name]?.bind Unit.socket with
      | some socket => bindSocket w name socket s
      | none => s) s
    s'.order = s.order ∧ s'.instances = s.instances ∧ s'.cgroups = s.cgroups := by
  induction l generalizing s with
  | nil => exact ⟨rfl, rfl, rfl⟩
  | cons n l ih =>
    simp only [List.foldl_cons] at ih ⊢
    rw [(ih _).1, (ih _).2.1, (ih _).2.2]
    split
    · exact bindSocket_frame ..
    · exact ⟨rfl, rfl, rfl⟩

/-- The order of a unit set, or none. -/
def orderOf (units : Units) : List Name :=
  match Graph.resolve units with
  | .ok plan => plan.order
  | .error _ => []

theorem orderOf_eq_nil {units : Units} : orderOf units = [] ↔ ∀ plan, Graph.resolve units ≠ .ok plan := by
  simp only [orderOf]
  split
  · rename_i plan h
    have hd : defaultUnit ∈ plan.order := ((Graph.resolveFrom_legal h).wanted _).mpr .refl
    exact ⟨fun he => absurd (he ▸ hd) List.not_mem_nil, fun hno => absurd h (hno plan)⟩
  · rename_i e h
    simp [h]

theorem orderOf_of_isEmpty {units : Units} (h : units.isEmpty = true) : orderOf units = [] := by
  refine orderOf_eq_nil.mpr fun plan hp => ?_
  have hd := (Graph.coherent_iff.mpr ⟨plan, hp⟩).checks.known
  rw [Std.TreeMap.isEmpty_iff_forall_not_mem] at h
  exact h _ hd

/-- What `load` leaves of the units on disk. -/
theorem load_spec (w : World) (hierarchy : Bool) (kernel : Kernel) :
    (load w hierarchy kernel).order = orderOf (onDisk w (blank hierarchy kernel)).units ∧
      (∀ n, (load w hierarchy kernel).unitOf n = (onDisk w (blank hierarchy kernel)).units[n]?) ∧
      ((load w hierarchy kernel).order = [] → (load w hierarchy kernel).sockets = []) ∧
      (load w hierarchy kernel).cgroups.handles.Nodup := by
  have hb : ((blank hierarchy kernel).turn w).toManager = (blank hierarchy kernel).toManager := turn_toManager ..
  have hload : load w hierarchy kernel =
      if (onDisk w (blank hierarchy kernel)).units.isEmpty then (blank hierarchy kernel).turn w
      else (orderOf (onDisk w (blank hierarchy kernel)).units).foldl
        (fun s name => match (onDisk w (blank hierarchy kernel)).units[name]?.bind Unit.socket with
          | some socket => bindSocket w name socket s
          | none => s)
        ((onDisk w (blank hierarchy kernel)).units.toList.foldl (fun s p => addUnit w p.1 p.2 s)
          (((blank hierarchy kernel).turn w).update (·.setOrder (orderOf (onDisk w (blank hierarchy kernel)).units)))) :=
    rfl
  generalize onDisk w (blank hierarchy kernel) = loaded at hload
  rw [hload]
  split
  · rename_i he
    refine ⟨by rw [hb, orderOf_of_isEmpty he]; rfl, fun n => ?_, fun _ => by rw [hb]; rfl, by rw [hb]; exact .nil⟩
    rw [hb, Std.TreeMap.getElem?_of_isEmpty he]
    simp [blank, Manager.unitOf]
  · generalize orderOf loaded.units = order
    obtain ⟨ho, hs, hk⟩ := addUnits_frame w loaded.units.toList (Graph.keys_nodup loaded.units)
      (((blank hierarchy kernel).turn w).update (·.setOrder order))
    obtain ⟨names, hsub, hh⟩ := addUnits_handles w loaded.units.toList
      (((blank hierarchy kernel).turn w).update (·.setOrder order))
    generalize loaded.units.toList.foldl (fun s p => addUnit w p.1 p.2 s) _ = s₁ at ho hs hk hh
    obtain ⟨ho', hi', hc'⟩ := bindSockets_frame w loaded.units order s₁
    refine ⟨ho'.trans ho, fun n => ?_, fun hn => ?_, ?_⟩
    · have hn : (((blank hierarchy kernel).turn w).update (·.setOrder order)).unitOf n = none := by
        rw [update_toManager, hb]
        simp [blank, Manager.setOrder, Manager.unitOf]
      rw [Manager.unitOf, hi']
      exact (hk n).trans (by rw [hn, Option.or_none, lookup_toList])
    · obtain rfl := (ho'.trans ho).symm.trans hn
      exact hs.trans (congrArg Manager.sockets hb)
    · have hnil : (((blank hierarchy kernel).turn w).update (·.setOrder order)).cgroups.handles = [] :=
        congrArg (·.cgroups.handles) hb
      rw [hc', hh, hnil, List.nil_append]
      exact hsub.nodup (Graph.keys_nodup loaded.units)

/-- A machine with nothing in its order boots into nothing. -/
theorem boot_of_nil (h : (load w hierarchy kernel).order = []) :
    boot w hierarchy kernel = (wire w (load w hierarchy kernel)).update (·.setPending []) := by
  have hd : ((wire w (load w hierarchy kernel)).update (·.setPending [])).shuttingDown = false := by
    rw [Manager.shuttingDown]
    exact congrArg Option.isSome (load_loading w hierarchy kernel).fresh.shutdown
  have ho : (wire w (load w hierarchy kernel)).order = [] := h
  rw [boot, startAll, ho, pump, if_neg (by rw [hd]; decide)]
  rfl

/-- A load error refuses the whole unit set if and only if what loads in spite
of it is not coherent by itself, and no file in error takes precedence over one
that loads. -/
theorem load_error_refuses_iff (w : World) (hierarchy : Bool) (kernel : Kernel) :
    let dirs := ((blank hierarchy kernel).turn w).kernel.disk
    ((loadDirsIn dirs).errors ≠ [] → WhollyRefused dirs (boot w hierarchy kernel)) ↔
      ((loadDirsIn dirs).errors = [] ∨ ¬Graph.Coherent (loadDirsIn dirs).units defaultUnit ∧
        ∀ n e, effective dirs n = some (.error e) → n ∉ (loadDirsIn dirs).units) := by
  intro dirs
  obtain ⟨ho, hu, hs, -⟩ := load_spec w hierarchy kernel
  have hd : (onDisk w (blank hierarchy kernel)).units = (loadDirsIn dirs).units := rfl
  rw [hd] at ho hu
  have hk : ∀ n, (load w hierarchy kernel).knows n = (loadDirsIn dirs).units.contains n := fun n => by
    rw [Manager.knows_eq, hu, Std.TreeMap.contains_eq_isSome_getElem?]
  rw [Graph.coherent_iff, not_exists]
  by_cases he : (loadDirsIn dirs).errors = []
  · simp [he]
  · simp only [he, ne_eq, not_false_eq_true, true_implies, false_or]
    constructor
    · intro h
      have horder : (load w hierarchy kernel).order = [] :=
        (boot_deeds w (a := none) hierarchy kernel).acts.kept.order.symm.trans h.order
      refine ⟨orderOf_eq_nil.mp (ho.symm.trans horder), fun n e hn hmem => ?_⟩
      have hf := h.replaced n e hn
      rw [boot_of_nil horder] at hf
      have := (hk n).symm.trans hf
      rw [Std.TreeMap.contains_iff_mem.mpr hmem] at this
      cases this
    · rintro ⟨hr, hn⟩
      have horder := ho.trans (orderOf_eq_nil.mpr hr)
      rw [boot_of_nil horder]
      refine ⟨horder, (load_loading w hierarchy kernel).log, hs horder, fun n e he' => ?_⟩
      refine (hk n).trans (eq_false_of_ne_true fun hc => hn n e he' ?_)
      exact Std.TreeMap.contains_iff_mem.mp hc

/-- A bad file that nothing depends on. -/
def badFile : UnitFile := ("b", .error (.noKind "b"))

/-- A unit set with an error in it is started. -/
theorem load_starts_in_spite_of_an_error :
    let dirs := [directory [bootTarget ["a"], serviceUnit "a" {} .simple .no],
      { path := "/etc/oxinit/units", listing := .files [badFile] }]
    (loadDirsIn dirs).errors ≠ [] ∧ ¬WhollyRefused dirs (boot calm true { disk := dirs }) := by
  refine ⟨by simp [loadDirsIn, Loaded.addDir, Loaded.addFile, badFile], fun h => absurd h.order ?_⟩
  decide +kernel

end Supervisor

end Oxinit
