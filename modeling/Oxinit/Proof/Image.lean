import Mathlib.Data.List.Basic
import Oxinit.Model.Image

/-!
# What a service is handed

The image stores its strings in one list and points into it. `build` refuses
what cannot be a C string (`build_eq`); what is read through the pointers is
what was stored (`strings_range`).
-/

namespace Oxinit

open Log (Bytes bytes)

namespace Image

/-- The strings that `build` stores as they are. -/
def stored (environ exec : List Bytes) (env : List (Bytes × Bytes)) : List Bytes :=
  exec ++ (((varsOs environ).filter (passes env)) ++ env).map entry

/-- The variable of the child's pid, before it is known and after. -/
def slot (listen : Bool) (digits : Bytes) : List Bytes := if listen then [Oxinit.listenPid ++ digits] else []

variable {environ environ' exec : List Bytes} {env : List (Bytes × Bytes)} {listen : Bool} {image : Image} {text : Bytes}

/-! ## Strings -/

theorem takeWhile_ne {sep : UInt8} (h : sep ∉ text) (more : Bytes) :
    (text ++ sep :: more).takeWhile (· ≠ sep) = text := by
  have hne : ∀ c ∈ text, decide (c ≠ sep) = true := fun c hc => decide_eq_true fun he => h (he ▸ hc)
  rw [List.takeWhile_append_of_pos hne]
  simp

/-- What is read from a string is what was terminated. -/
theorem cString_terminated (h : 0 ∉ text) (more : Bytes) : cString (text ++ 0 :: more) = text := takeWhile_ne h more

theorem mapM_terminate {α : Type} {f : α → Bytes} {l : List α} (h : ∀ a ∈ l, 0 ∉ f a) :
    l.mapM (fun a => terminate (f a)) = some (l.map fun a => f a ++ [0]) := by
  induction l with
  | nil => rfl
  | cons a l ih =>
    rw [List.forall_mem_cons] at h
    rw [List.mapM_cons, ih h.2, terminate, if_neg h.1]
    rfl

theorem mapM_terminate_none {α : Type} {f : α → Bytes} {l : List α} (h : ∃ a ∈ l, 0 ∈ f a) :
    l.mapM (fun a => terminate (f a)) = none := by
  induction l with
  | nil => simp at h
  | cons a l ih =>
    rw [List.mapM_cons]
    by_cases ha : 0 ∈ f a
    · rw [terminate, if_pos ha]
      rfl
    · rw [terminate, if_neg ha, ih (by simpa [ha] using h)]
      rfl

/-- A null-terminated array of pointers to successive strings. -/
theorem strings_range {first n : Nat} (h : first + n ≤ image.storage.length) :
    image.strings ((List.range' first n).map some ++ [none]) = ((image.storage.drop first).take n).map cString := by
  induction n generalizing first with
  | zero => simp [strings]
  | succ n ih =>
    have hlt : first < image.storage.length := by omega
    rw [List.range'_succ, List.map_cons, List.cons_append, strings, ih (by omega), List.drop_eq_getElem_cons hlt,
      List.take_succ_cons, List.map_cons, List.getD_eq_getElem?_getD, List.getElem?_eq_getElem hlt]
    rfl

/-! ## Laying it out -/

/-- The image of what can be stored. -/
def laidOut (environ exec : List Bytes) (env : List (Bytes × Bytes)) (listen : Bool) : Image :=
  let storage := (stored environ exec env).map (· ++ [0]) ++ slot listen (List.replicate (pidDigits + 1) 0)
  { storage
    argv := (List.range exec.length).map some ++ [none]
    envp := (List.range' exec.length (storage.length - exec.length)).map some ++ [none]
    listenPid := if listen then some (storage.length - 1, Oxinit.listenPid.length) else none }

theorem forall_mem_stored : (∀ text ∈ stored environ exec env, 0 ∉ text) ↔ (∀ text ∈ exec, 0 ∉ text)
    ∧ (∀ var ∈ (varsOs environ).filter (passes env), 0 ∉ entry var) ∧ ∀ var ∈ env, 0 ∉ entry var := by
  simp only [stored, List.forall_mem_append, List.forall_mem_map]

/-- Without a NUL in any text the image is laid out. -/
theorem build_eq_some (hne : exec ≠ []) (h : ∀ text ∈ stored environ exec env, 0 ∉ text) :
    build environ exec env listen = some (laidOut environ exec env listen) := by
  obtain ⟨hexec, hvars, henv⟩ := forall_mem_stored.mp h
  have hargs : exec.mapM terminate = _ := mapM_terminate (f := id) hexec
  rw [build, hargs, mapM_terminate hvars, mapM_terminate henv]
  show (if (exec.map fun text => text ++ [0]).length = 0 then none else some _) = _
  rw [List.length_map, if_neg (by simpa using hne)]
  simp [laidOut, stored, slot, Function.comp_def]

theorem build_eq_none (h : exec = [] ∨ ∃ text ∈ stored environ exec env, 0 ∈ text) :
    build environ exec env listen = none := by
  rcases h with rfl | ⟨text, ht, hz⟩
  · rfl
  rcases List.mem_append.mp ht with ht | ht
  · have hargs : exec.mapM terminate = none := mapM_terminate_none (f := id) ⟨text, ht, hz⟩
    rw [build, hargs]
    rfl
  · obtain ⟨var, hv, rfl⟩ := List.mem_map.mp ht
    rw [build]
    cases exec.mapM terminate with
    | none => rfl
    | some args =>
      show (if args.length = 0 then none else _) = none
      split
      · rfl
      rcases List.mem_append.mp hv with hv | hv
      · rw [mapM_terminate_none ⟨var, hv, hz⟩]
        rfl
      · rw [mapM_terminate_none ⟨var, hv, hz⟩]
        cases List.mapM (fun var => terminate (entry var)) ((varsOs environ).filter (passes env)) <;> rfl

theorem of_build (h : build environ exec env listen = some image) :
    exec ≠ [] ∧ (∀ text ∈ stored environ exec env, 0 ∉ text) ∧ image = laidOut environ exec env listen := by
  by_cases hbad : exec = [] ∨ ∃ text ∈ stored environ exec env, 0 ∈ text
  · rw [build_eq_none hbad] at h
    cases h
  · rw [not_or, not_exists] at hbad
    have hstored : ∀ text ∈ stored environ exec env, 0 ∉ text := fun text ht hz => hbad.2 text ⟨ht, hz⟩
    rw [build_eq_some hbad.1 hstored] at h
    exact ⟨hbad.1, hstored, (Option.some.inj h).symm⟩

/-! ## What is read from it -/

theorem map_cString {texts : List Bytes} (h : ∀ text ∈ texts, 0 ∉ text) :
    (texts.map (· ++ [0])).map cString = texts := by
  rw [List.map_map]
  exact (List.map_congr_left fun text ht => cString_terminated (h text ht) []).trans (List.map_id _)

/-- What `execve` reads through the pointers of an image that is laid out in
this way. -/
theorem strings_of_storage (image : Image) {vars last : List Bytes}
    (hs : image.storage = (exec ++ vars).map (· ++ [0]) ++ last)
    (h : ∀ text ∈ exec ++ vars, 0 ∉ text) :
    image.strings ((List.range exec.length).map some ++ [none]) = exec
      ∧ image.strings ((List.range' exec.length (image.storage.length - exec.length)).map some ++ [none])
        = vars ++ last.map cString := by
  have hlen : image.storage.length = exec.length + vars.length + last.length := by
    simp [hs, Nat.add_assoc]
  have hread : image.storage.map cString = exec ++ (vars ++ last.map cString) := by
    rw [hs, List.map_append, map_cString h, List.append_assoc]
  constructor
  · rw [List.range_eq_range', strings_range (by omega), List.map_take, List.map_drop, hread, List.drop_zero,
      List.take_left]
  · rw [strings_range (by omega), List.map_take, List.map_drop, hread, List.drop_left,
      List.take_of_length_le (by simp; omega)]

/-- The variables of oxinit's own that are passed on. -/
def inherited (environ : List Bytes) (env : List (Bytes × Bytes)) : List (Bytes × Bytes) :=
  (varsOs environ).filter fun var => decide (var.1 ∉ reserved ∧ ∀ added ∈ env, added.1 ≠ var.1)

/-- A variable is inherited unless it is reserved or given. -/
theorem passes_eq (env : List (Bytes × Bytes)) (var : Bytes × Bytes) :
    passes env var = decide (var.1 ∉ reserved ∧ ∀ added ∈ env, added.1 ≠ var.1) := by
  rw [Bool.eq_iff_iff, decide_eq_true_iff, passes, Bool.and_eq_true, Bool.not_eq_true', Bool.not_eq_true',
    List.any_eq_false, List.any_eq_false]
  simp only [beq_iff_eq]
  exact and_congr_left fun _ => ⟨fun h hm => h _ hm rfl, fun h name hn he => h (he ▸ hn)⟩

/-- A name of oxinit's own has no sign in it that could end it early. -/
theorem equals_notMem_of_parseVar {var : Bytes} {key value : Bytes} (h : parseVar var = some (key, value)) :
    ∃ first rest, key = first :: rest ∧ equals ∉ rest := by
  cases var with
  | nil => cases h
  | cons first rest =>
    obtain ⟨pos, hpos, he⟩ := Option.map_eq_some_iff.mp h
    cases he
    refine ⟨first, rest.take pos, rfl, fun hm => ?_⟩
    obtain ⟨hlt, -, hbefore⟩ := List.findIdx?_eq_some_iff_getElem.mp hpos
    obtain ⟨n, hn, he⟩ := List.mem_take_iff_getElem.mp hm
    exact hbefore n (by omega) (by rw [he]; rfl)

/-- So an entry of it that reads as another variable is that variable. -/
theorem eq_of_begins {key value name : Bytes} {first : UInt8} {rest : Bytes} (hk : key = first :: rest)
    (hrest : equals ∉ rest) (hname : equals ∉ name) (hne : name ≠ []) (h : name ++ [equals] <+: entry (key, value)) :
    name = key := by
  obtain ⟨more, h⟩ := h
  obtain ⟨c, name, rfl⟩ := List.exists_cons_of_ne_nil hne
  subst hk
  rw [List.mem_cons, not_or] at hname
  simp only [entry, List.append_assoc, List.cons_append, List.cons.injEq] at h
  obtain ⟨rfl, h⟩ := h
  have hread := congrArg (List.takeWhile (· ≠ equals)) h
  rw [takeWhile_ne hname.2, takeWhile_ne hrest] at hread
  rw [hread]

/-- The image holds the arguments, and then the variables. -/
theorem stored_eq : stored environ exec env = exec ++ (inherited environ env ++ env).map entry := by
  rw [stored, inherited, List.filter_congr fun var _ => passes_eq env var]

theorem reserved_plain {name : Bytes} (h : name ∈ reserved) : equals ∉ name ∧ name ≠ [] := by
  have hall : ∀ name ∈ reserved, equals ∉ name ∧ name ≠ [] := by decide
  exact hall name h

/-- No variable of oxinit's own that is passed on reads as a reserved one. -/
theorem not_prefix_of_inherited {name : Bytes} {var : Bytes × Bytes} (hname : name ∈ reserved)
    (h : var ∈ inherited environ env) : ¬name ++ [equals] <+: entry var := by
  obtain ⟨hm, hpass⟩ := List.mem_filter.mp h
  obtain ⟨raw, -, hraw⟩ := List.mem_filterMap.mp hm
  obtain ⟨first, rest, hk, hrest⟩ := equals_notMem_of_parseVar hraw
  obtain ⟨hplain, hne⟩ := reserved_plain hname
  intro hp
  exact (of_decide_eq_true hpass).1 (eq_of_begins hk hrest hplain hne hp ▸ hname)

/-- A service's environment is what oxinit decided: the image holds the argv it
was given, and the variables of oxinit's own that are neither reserved nor
replaced, what is added, and a place for the pid, in this order. Nothing
reserved comes from oxinit's own environment. -/
theorem image_is_decided (environ exec : List Bytes) (env : List (Bytes × Bytes)) (listen : Bool) :
    (build environ exec env listen = none ↔
      exec = [] ∨ ∃ text ∈ exec ++ (inherited environ env ++ env).map entry, 0 ∈ text)
    ∧ (∀ image, build environ exec env listen = some image →
        image.strings image.argv = exec
        ∧ image.strings image.envp = (inherited environ env ++ env).map entry ++ slot listen []
        ∧ ∀ name ∈ reserved, ∀ text ∈ image.strings image.envp, name ++ [equals] <+: text →
            text ∈ env.map entry ++ slot listen [])
    ∧ ∀ environ', (varsOs environ').filter (·.1 ∉ reserved) = (varsOs environ).filter (·.1 ∉ reserved) →
        build environ' exec env listen = build environ exec env listen := by
  refine ⟨?_, fun image h => ?_, fun environ' h => ?_⟩
  · rw [← stored_eq]
    refine ⟨fun h => by_contra fun hn => ?_, build_eq_none⟩
    rw [not_or, not_exists] at hn
    rw [build_eq_some hn.1 fun text ht hz => hn.2 text ⟨ht, hz⟩] at h
    cases h
  · obtain ⟨-, hstored, rfl⟩ := of_build h
    rw [stored_eq] at hstored
    have hlast : (slot listen (List.replicate (pidDigits + 1) 0)).map cString = slot listen [] := by
      cases listen with
      | false => rfl
      | true => decide
    obtain ⟨hargv, henvp⟩ := strings_of_storage (laidOut environ exec env listen)
      (by rw [laidOut, stored_eq]) hstored
    rw [hlast] at henvp
    refine ⟨hargv, henvp, fun name hname text ht hp => ?_⟩
    rw [show (laidOut environ exec env listen).strings (laidOut environ exec env listen).envp = _ from henvp,
      List.map_append, List.append_assoc] at ht
    refine (List.mem_append.mp ht).resolve_left fun hm => ?_
    obtain ⟨var, hvar, rfl⟩ := List.mem_map.mp hm
    exact not_prefix_of_inherited hname hvar hp
  · have hown : (varsOs environ').filter (passes env) = (varsOs environ).filter (passes env) := by
      have hpass : ∀ var, passes env var = (passes env var && decide (var.1 ∉ reserved)) := by
        intro var
        rw [Bool.eq_iff_iff, Bool.and_eq_true, passes_eq, decide_eq_true_iff, decide_eq_true_iff]
        exact ⟨fun h => ⟨h, h.1⟩, And.left⟩
      rw [List.filter_congr fun var _ => hpass var, ← List.filter_filter, h, List.filter_filter,
        List.filter_congr fun var _ => (hpass var).symm]
    simp only [build, hown]

/-- What `spawn` adds are reserved names, each once, and the descriptors are
announced when there are any. -/
theorem environment_names (service : Service) (notify : String) (listen : List Name) :
    let names := (environment service notify listen).map (·.1)
    names.Nodup ∧ (∀ name ∈ names, name ∈ reserved ∧ name ≠ bytes "LISTEN_PID")
      ∧ (bytes "LISTEN_FDS" ∈ names ↔ listen ≠ []) := by
  intro names
  have hnames : names
      = (if decide (service.ty = .notify) then
          bytes "NOTIFY_SOCKET" :: if service.watchdogSec.isSome then [bytes "WATCHDOG_USEC"] else []
        else []) ++ if decide (listen ≠ []) then [bytes "LISTEN_FDS", bytes "LISTEN_FDNAMES"] else [] := by
    cases hw : service.watchdogSec <;> by_cases hn : service.ty = .notify <;> by_cases hl : listen = [] <;>
      simp [names, environment, hw, hn, hl]
  have hall : ∀ notifies watches listens : Bool,
      let names := (if notifies then bytes "NOTIFY_SOCKET" :: if watches then [bytes "WATCHDOG_USEC"] else [] else [])
        ++ if listens then [bytes "LISTEN_FDS", bytes "LISTEN_FDNAMES"] else []
      names.Nodup ∧ (∀ name ∈ names, name ∈ reserved ∧ name ≠ bytes "LISTEN_PID")
        ∧ (bytes "LISTEN_FDS" ∈ names ↔ listens = true) := by decide
  obtain ⟨hnodup, hreserved, hlisten⟩ :=
    hall (decide (service.ty = .notify)) service.watchdogSec.isSome (decide (listen ≠ []))
  rw [hnames]
  exact ⟨hnodup, hreserved, hlisten.trans decide_eq_true_iff⟩

end Image

end Oxinit
