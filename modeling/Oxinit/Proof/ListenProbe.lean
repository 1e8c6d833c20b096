import Oxinit.Model.ListenProbe
import Oxinit.Proof.Descriptors
import Oxinit.Proof.Pid
import Oxinit.Proof.UnitFile

/-!
# A service finds its sockets

What oxinit writes into a service's environment is what the service reads there:
none of the variables is set by another (`varOs_handed`), and the names come
apart where they were put together.
-/

namespace Oxinit

open Log (Bytes bytes)

/-! ## Numbers as bytes -/

/-- Every character of this text is one byte. -/
theorem bytes_ofList {text : List Char} (h : ∀ c ∈ text, c.utf8Size = 1) :
    bytes (String.ofList text) = text.map asciiByte := by
  have hflat : text.flatMap String.utf8EncodeChar = text.map asciiByte := by
    induction text with
    | nil => rfl
    | cons c text ih =>
      rw [List.forall_mem_cons] at h
      rw [List.flatMap_cons, List.map_cons, ih h.2, String.utf8EncodeChar_eq_singleton h.1]
      rfl
  show (text.flatMap String.utf8EncodeChar).toByteArray.data.toList = _
  rw [List.data_toByteArray, hflat]

theorem decimal_eq_bytes (n : Nat) : decimal n = bytes (toString n) := by
  refine (bytes_ofList fun c hc => ?_).symm
  have hd : c.toNat ≤ 57 := (Char.isDigit_iff_toNat.mp ((digits_toDigits n).2.1 c hc)).2
  have hval : c.val.toNat ≤ 127 := Nat.le_trans hd (by decide)
  exact Char.utf8Size_eq_one_iff.mpr (UInt32.le_iff_toNat_le.mpr hval)

namespace ListenProbe

variable {environ : List Bytes} {env : List (Bytes × Bytes)} {name key value : Bytes}

/-- A plain name is set by its own entry only. -/
theorem isPrefixOf?_entry (hname : equals ∉ name) (hkey : equals ∉ key) :
    (name ++ [equals]).isPrefixOf? (entry (key, value)) = if key = name then some value else none := by
  split
  · next h =>
    rw [List.isPrefixOf?_eq_some_iff_append_eq, h, entry, List.append_assoc, List.singleton_append]
  · next h =>
    refine Option.eq_none_iff_forall_ne_some.mpr fun rest hrest => h ?_
    rw [List.isPrefixOf?_eq_some_iff_append_eq, entry, List.append_assoc, List.singleton_append] at hrest
    rw [← Image.takeWhile_ne hname rest, hrest, Image.takeWhile_ne hkey]

theorem varOs_inherited (h : name ∈ reserved) (more : List Bytes) :
    varOs ((Image.inherited environ env).map entry ++ more) name = varOs more name := by
  rw [varOs, List.findSome?_append]
  have hnone : ((Image.inherited environ env).map entry).findSome?
      (fun text => (name ++ [equals]).isPrefixOf? text) = none := by
    rw [List.findSome?_eq_none_iff]
    intro text ht
    obtain ⟨var, hvar, rfl⟩ := List.mem_map.mp ht
    refine Option.eq_none_iff_forall_ne_some.mpr fun rest hrest => Image.not_prefix_of_inherited h hvar ⟨rest, ?_⟩
    exact List.isPrefixOf?_eq_some_iff_append_eq.mp hrest
  rw [hnone]
  rfl

/-- A variable is found first among those that were added. -/
theorem varOs_env (hname : equals ∉ name) (henv : ∀ var ∈ env, equals ∉ var.1) (more : List Bytes) :
    varOs (env.map entry ++ more) name = ((env.find? (·.1 = name)).map (·.2)).or (varOs more name) := by
  induction env with
  | nil => rfl
  | cons var env ih =>
    rw [List.forall_mem_cons] at henv
    rw [List.find?_cons, List.map_cons, List.cons_append, varOs, List.findSome?_cons, isPrefixOf?_entry hname henv.1]
    by_cases h : var.1 = name
    · simp [h]
    · simp only [h, ↓reduceIte, decide_false]
      exact ih henv.2

/-! ## What is announced -/

theorem var_eq_ok {environ : List Bytes} {name value : String} (h : varOs environ (bytes name) = some (bytes value)) :
    var environ name = .ok value := by
  rw [var, h, Option.bind_some, Text.fromUTF8?_eq_some_iff.mpr rfl]

/-- A number that is written is read back. -/
theorem parse_toString {bits n : Nat} (h : n < 2 ^ bits) (error : String) : parse bits (toString n) error = .ok n := by
  have hread : Text.fromStr bits (toString n).toList = some n := by
    show Text.fromStr bits (String.ofList (Nat.toDigits 10 n)).toList = some n
    rw [String.toList_ofList, fromStr_toDigits h]
  rw [parse, hread]

/-- No name takes part of another. -/
theorem splitOn_names {names : List String} (hne : names ≠ []) (h : ∀ name ∈ names, ':' ∉ name.toList) :
    (":".intercalate names).toList.splitOn ':' = names.map String.toList := by
  rw [Text.splitOn_eq_iff, String.toList_intercalate]
  refine ⟨by simpa using hne, fun part hp => ?_, rfl⟩
  obtain ⟨name, hn, rfl⟩ := List.mem_map.mp hp
  exact h name hn

/-- What a process is handed: what it inherits, what it is told and its pid. -/
def handed (environ : List Bytes) (env : List (Bytes × Bytes)) (pid : Nat) : List Bytes :=
  (Image.inherited environ env ++ env).map entry ++ Image.slot true (decimal pid)

theorem varOs_handed (h : name ∈ reserved) (henv : ∀ var ∈ env, var.1 ∈ reserved) (pid : Nat) :
    varOs (handed environ env pid) name =
      ((env.find? (·.1 = name)).map (·.2)).or (if bytes "LISTEN_PID" = name then some (decimal pid) else none) := by
  have hplain : equals ∉ name := (Image.reserved_plain h).1
  rw [handed, List.map_append, List.append_assoc, varOs_inherited h,
    varOs_env hplain fun var hv => (Image.reserved_plain (henv var hv)).1]
  have hslot : Image.slot true (decimal pid) = [entry (bytes "LISTEN_PID", decimal pid)] := by
    have hname : listenPid = bytes "LISTEN_PID" ++ [equals] := by decide
    rw [Image.slot, if_pos rfl, hname, entry, List.append_assoc, List.singleton_append]
  rw [hslot, varOs, List.findSome?_singleton, isPrefixOf?_entry hplain (by decide)]

/-- What `spawn` adds is what the service reads. -/
theorem varOs_environment (environ : List Bytes) {listen : List Name} (hl : listen ≠ []) (service : Service)
    (notify : String) (pid : Nat) :
    let vars := handed environ (environment service notify listen) pid
    varOs vars (bytes "LISTEN_FDS") = some (bytes (toString listen.length)) ∧
      varOs vars (bytes "LISTEN_FDNAMES") = some (bytes (":".intercalate listen)) ∧
      varOs vars (bytes "LISTEN_PID") = some (bytes (toString pid)) := by
  intro vars
  have henv : ∀ var ∈ environment service notify listen, var.1 ∈ reserved := fun var hv =>
    ((Image.environment_names service notify listen).2.1 var.1 (List.mem_map_of_mem hv)).1
  have hfirst : ∀ name, name ≠ bytes "NOTIFY_SOCKET" → name ≠ bytes "WATCHDOG_USEC" →
      (environment service notify listen).find? (·.1 = name) =
        [(bytes "LISTEN_FDS", bytes (toString listen.length)),
          (bytes "LISTEN_FDNAMES", bytes (":".intercalate listen))].find?
          (·.1 = name) := by
    intro name hn hw
    unfold environment
    rw [if_neg hl, List.find?_append]
    refine (congrArg (Option.or · _) ?_).trans (Option.none_or ..)
    split
    · cases service.watchdogSec <;> simp [hn.symm, hw.symm]
    · rfl
  refine ⟨?_, ?_, ?_⟩
  · rw [varOs_handed (by decide) henv, hfirst _ (by decide) (by decide)]
    rfl
  · rw [varOs_handed (by decide) henv, hfirst _ (by decide) (by decide)]
    rfl
  · rw [varOs_handed (by decide) henv, hfirst _ (by decide) (by decide), decimal_eq_bytes]
    rfl

/-- Which process is asked does not matter but for its id. -/
theorem inherited_handed {listen : List Name} (hl : listen ≠ []) (hv : ∀ unit ∈ listen, ':' ∉ unit.toList)
    (hlen : listen.length < 2 ^ 31) (service : Service) (notify : String) {pid : Nat} (hp : pid < 2 ^ 32) (mine index : Nat)
    (unit : String) :
    inherited mine (handed environ (environment service notify listen) pid) unit = .ok index ↔
      mine = pid ∧ listen.findIdx? (· = unit) = some index := by
  obtain ⟨hfds, hnames, hpid⟩ := varOs_environment environ hl service notify pid
  have hcount : parse 64 (toString listen.length) "LISTEN_FDS is not a number" = .ok listen.length :=
    parse_toString (by omega) _
  have hannounced : parse 32 (toString pid) "LISTEN_PID is not a number" = .ok pid := parse_toString hp _
  have hfind : ((":".intercalate listen).toList.splitOn ':').findIdx? (· = unit.toList) = listen.findIdx? (· = unit) := by
    rw [splitOn_names hl hv, List.findIdx?_map]
    exact congrArg (List.findIdx? · listen) (funext fun name => decide_eq_decide.mpr String.toList_inj)
  unfold inherited
  rw [var_eq_ok hfds, var_eq_ok hnames, var_eq_ok hpid]
  simp only [bind, Except.bind, hcount, hannounced, hfind]
  by_cases hm : pid = mine
  · cases hi : listen.findIdx? (· = unit) with
    | none => simp [hm, throw, throwThe, MonadExceptOf.throw]
    | some i =>
      have hlt : i < 2 ^ 31 := by
        obtain ⟨hlt, -⟩ := List.findIdx?_eq_some_iff_getElem.mp hi
        omega
      simp only [hm, ne_eq, not_true_eq_false, ↓reduceIte, pure, Except.pure, hlt, true_and, Except.ok.injEq,
        Option.some.injEq]
  · refine iff_of_false ?_ fun h => hm h.1.symm
    simp [hm, throw, throwThe, MonadExceptOf.throw]

/-! ## What is handed over -/

open Table (GivesFree duplicateListenFds setupChild firstListenFd)

/-- The sockets of a service: the unit that each is of, and its number in oxinit. -/
abbrev Sockets := List (Name × Nat)

variable {File : Type} {pick : Table File → Nat → Option Nat} {t t₁ t₂ : Table File} {listen : Sockets} {fds : List Nat}
  {output : Option Nat} {service : Service} {notify : String} {image : Image}

/-- What the parent and the child do to the descriptors, and what the child is
given to exec. -/
structure Handover (pick : Table File → Nat → Option Nat) (service : Service) (notify : String) (environ : List Bytes)
    (listen : Sockets) (output : Option Nat) (t t₂ : Table File) (fds : List Nat) (image : Image) : Prop where
  sockets : listen ≠ []
  names : ∀ l ∈ listen, ValidName l.1
  free : GivesFree pick
  sources : ∀ l ∈ listen, (t l.2).isSome
  target : ∀ o, output = some o → (t o).isSome
  child : ∃ t₁, duplicateListenFds pick (listen.map (·.2)) t = some (fds, t₁) ∧
    ∀ k, k ∈ fds ∨ output = some k → t₂ k = t₁ k
  image : Image.build environ (service.exec.map bytes) (environment service notify (listen.map (·.1))) true = some image

namespace Handover

variable (h : Handover pick service notify environ listen output t t₂ fds image)

include h

/-- The listening descriptors are copied out of the way. -/
theorem duplicated : ∃ t₁, Table.Duplicated
    (min (firstListenFd + min (listen.map (·.2)).length Table.maxFd) Table.maxFd) t (listen.map (·.2)) fds t₁ ∧
      ∀ k, k ∈ fds ∨ output = some k → t₂ k = t₁ k := by
  obtain ⟨t₁, hdup, hchild⟩ := h.child
  have hopen : ∀ l ∈ listen.map (·.2), (t l).isSome := List.forall_mem_map.mpr h.sources
  exact ⟨t₁, Table.duplicateListenFds_duplicated h.free hopen hdup, hchild⟩

/-- There are no more descriptors than numbers. -/
theorem length_lt : listen.length < 2 ^ 31 := by
  obtain ⟨t₁, hdup, -⟩ := h.duplicated
  have hlen : fds.length = listen.length := hdup.length.trans (List.length_map ..)
  obtain ⟨fd, rest, rfl⟩ := List.exists_cons_of_length_pos (hlen ▸ List.length_pos_of_ne_nil h.sockets)
  have hle := hdup.le List.mem_cons_self
  have hmax := (hdup.between fd List.mem_cons_self).2
  unfold Table.maxFd at hmax
  omega

/-- The names come apart at the colons. -/
theorem plain : ∀ unit ∈ listen.map (·.1), ':' ∉ unit.toList := by
  intro unit hu hc
  obtain ⟨l, hl, rfl⟩ := List.mem_map.mp hu
  exact absurd ((h.names l hl).2 ':' hc) (by decide)

/-- Each of the sockets is at its place, and outlives the exec. -/
theorem placed : ∃ t₃, setupChild output fds t₂ = some t₃ ∧ ∀ i unit l, listen[i]? = some (unit, l) →
    ∃ d, t l = some d ∧ t₃.afterExec (firstListenFd + i) = some { file := d.file, cloexec := false } := by
  obtain ⟨t₁, hdup, hchild⟩ := h.duplicated
  have hsources : ∀ fd ∈ fds, (t₂ fd).isSome := fun fd hfd => hchild fd (.inl hfd) ▸ hdup.isSome hfd
  have hout : ∀ o, output = some o → (t₂ o).isSome := fun o ho => by
    rw [hchild o (.inr ho), hdup.kept (h.target o ho)]
    exact h.target o ho
  obtain ⟨t', hr, he⟩ := Table.setupChild_eq_moves hout hsources fun fd hfd => ⟨hdup.le hfd, (hdup.between fd hfd).2⟩
  refine ⟨_, he, fun i unit l hi => ?_⟩
  have hl : (listen.map (·.2))[i]? = some l := by rw [List.getElem?_map, hi, Option.map_some]
  obtain ⟨fd, d, hfd, hd, hd₁⟩ := hdup.same i l hl
  have hmem := List.mem_of_getElem? hfd
  have hplace : Framework.moves Table.survives t' (Table.places 0 fds) (firstListenFd + i) =
      some { file := d.file, cloexec := false } := by
    rw [Framework.moves_of_mem (Table.orderly_places fun k hk => hdup.le hk) (Table.mem_places_of_getElem? hfd),
      hr.places (by have := hdup.le hmem; omega), hchild fd (.inl hmem), hd₁]
    rfl
  exact ⟨d, hd, by rw [Table.afterExec, hplace]; rfl⟩

end Handover

/-- Each socket of a service is where oxinit put it, and by the name of a unit
the service finds the first of that unit's, and nothing else; a process that it
starts finds nothing. -/
theorem a_service_finds_its_sockets (pid : Nat) (hp : pid < 2 ^ 31)
    (h : Handover pick service notify environ listen output t t₂ fds image) :
    ∃ t₃, setupChild output fds t₂ = some t₃ ∧
      let vars := (image.filled pid).strings image.envp
      (∀ i unit l, listen[i]? = some (unit, l) →
        ∃ d, t l = some d ∧ t₃.afterExec (firstListenFd + i) = some { file := d.file, cloexec := false }) ∧
      (∀ mine unit index, inherited mine vars unit = .ok index → mine = pid ∧ ∃ l d, listen[index]? = some (unit, l) ∧
        (∀ i < index, ∀ l', listen[i]? ≠ some (unit, l')) ∧ t l = some d ∧
        t₃.afterExec (firstListenFd + index) = some { file := d.file, cloexec := false }) ∧
      ∀ l ∈ listen, ∃ index, inherited pid vars l.1 = .ok index := by
  obtain ⟨t₃, he, hplaced⟩ := h.placed
  refine ⟨t₃, he, ?_⟩
  intro vars
  have hvars : vars = handed environ (environment service notify (listen.map (·.1))) pid :=
    (Image.execve_reads h.image (show pid < 10 ^ 10 by omega)).2
  have hiff : ∀ mine index unit, inherited mine (handed environ _ pid) unit = .ok index ↔ _ :=
    inherited_handed (by simpa using h.sockets) h.plain (by simpa using h.length_lt) service notify
      (show pid < 2 ^ 32 by omega)
  rw [← hvars] at hiff
  refine ⟨hplaced, fun mine unit index hi => ?_, fun l hl => ?_⟩
  · obtain ⟨hm, hfind⟩ := (hiff mine index unit).mp hi
    refine ⟨hm, ?_⟩
    obtain ⟨hlt, hunit, hfirst⟩ := List.findIdx?_eq_some_iff_getElem.mp hfind
    rw [List.length_map] at hlt
    have hat : listen[index]? = some (unit, listen[index].2) := by
      have hunit : listen[index].1 = unit := by simpa using hunit
      rw [List.getElem?_eq_getElem hlt, ← hunit]
    obtain ⟨d, hd, hd'⟩ := hplaced index unit _ hat
    refine ⟨_, d, hat, fun i hlt' l' hl' => ?_, hd, hd'⟩
    obtain ⟨hi, hl'⟩ := List.getElem?_eq_some_iff.mp hl'
    have := hfirst i hlt'
    simp [hl'] at this
  · have hsome : (listen.map (·.1)).findIdx? (· = l.1) ≠ none := by
      rw [ne_eq, List.findIdx?_eq_none_iff]
      exact fun hno => by simpa using hno l.1 (List.mem_map_of_mem hl)
    obtain ⟨index, hi⟩ := Option.ne_none_iff_exists'.mp hsome
    exact ⟨index, (hiff pid index l.1).mpr ⟨rfl, hi⟩⟩

/-- Two sockets, at 5 and 6. -/
def probe : Service := { exec := ["/bin/listen-probe", "--serve", "admin"] }

def probed : Image := Image.laidOut [] (probe.exec.map bytes) (environment probe "" ["http", "admin"]) true

theorem probed_handover : Handover Table.lowestFree probe "" [] [("http", 5), ("admin", 6)] (some 4) Table.sampleTable
    Table.sampleDuplicated [7, 8] probed where
  sockets := by simp
  names := by
    have hhttp : ValidName "http" := validateName_eq_ok_iff.{0}.mp rfl
    have hadmin : ValidName "admin" := validateName_eq_ok_iff.{0}.mp rfl
    simp [hhttp, hadmin]
  free := Table.lowestFree_givesFree
  sources := by simp [Table.sampleTable]
  target := by rintro o ⟨⟩; rfl
  child := ⟨Table.sampleDuplicated, rfl, fun _ _ => rfl⟩
  image := rfl

theorem a_service_finds_its_sockets_sample :
    ∃ t₃, setupChild (some 4) [7, 8] Table.sampleDuplicated = some t₃ ∧
      let vars := (probed.filled 42).strings probed.envp
      (∀ i unit l, [("http", 5), ("admin", 6)][i]? = some (unit, l) → ∃ d, Table.sampleTable l = some d ∧
        t₃.afterExec (firstListenFd + i) = some { file := d.file, cloexec := false }) ∧
      (∀ mine unit index, inherited mine vars unit = .ok index → mine = 42 ∧
        ∃ l d, [("http", 5), ("admin", 6)][index]? = some (unit, l) ∧
          (∀ i < index, ∀ l', [("http", 5), ("admin", 6)][i]? ≠ some (unit, l')) ∧ Table.sampleTable l = some d ∧
          t₃.afterExec (firstListenFd + index) = some { file := d.file, cloexec := false }) ∧
      ∀ l ∈ [("http", 5), ("admin", 6)], ∃ index, inherited 42 vars l.1 = .ok index :=
  a_service_finds_its_sockets 42 (by decide) probed_handover

end ListenProbe

end Oxinit
