import Mathlib.Data.Set.List
import Oxinit.Model.UnitFile
import Oxinit.Proof.Calendar
import Oxinit.Proof.Duration
import Oxinit.Proof.Exec
import Oxinit.Proof.Pid

/-!
# What a unit file can say

A unit is read from a file exactly if it is well formed (`WellFormed`): what is
accepted is, and whatever is can be written. Sizes come first (`parseSize`),
then each kind.
-/

namespace Oxinit

open Text (Digits trim)

/-! ## Sizes -/

variable {input digits suffix : List Char} {per n : Nat} {v : SizeValue}

theorem bytesPer_spec : ∀ x ∈ bytesPer, 0 < x.2 ∧ (∀ c, x.1.head? = some c → c.isDigit = false) ∧
    bytesPer.find? (·.1 = x.1) = some x := by
  simp [bytesPer]

/-- What a string has to be to be so many bytes. -/
def IsSize (text : List Char) (bytes : Nat) : Prop :=
  ∃ digits value suffix per, Digits digits value ∧ (suffix, per) ∈ bytesPer ∧ text = digits ++ suffix ∧
    bytes = value * per ∧ bytes < 2 ^ 64

theorem IsSize.ne_max {text : List Char} (h : IsSize text n) : text ≠ "max".toList ∧ text ≠ [] := by
  obtain ⟨digits, value, suffix, per, hd, -, rfl, -⟩ := h
  obtain ⟨d, ds, rfl⟩ := List.exists_cons_of_ne_nil hd.1
  refine ⟨fun he => ?_, by simp⟩
  have hm : d = 'm' := by simpa using congrArg List.head? he
  exact absurd (hd.2.1 d List.mem_cons_self) (by rw [hm]; decide)

/-- The sizes in bytes that are accepted. -/
theorem parseSize_eq_bytes_iff : parseSize input = .ok (.bytes n) ↔ IsSize (trim input) n := by
  unfold parseSize
  generalize trim input = text
  constructor
  · intro h
    simp only at h
    split at h
    · cases h
    · split at h
      · cases h
      · split at h
        · cases h
        · next hdigits =>
          split at h
          · cases h
          · next suffix per hfind =>
            split at h
            · cases h
            · next value hvalue =>
              split at h
              · cases h
              · next bytes hmul =>
                cases h
                have hd : Digits (text.takeWhile Char.isDigit) (Nat.ofDigitChars 10 (text.takeWhile Char.isDigit) 0) :=
                  ⟨hdigits, fun c hc => List.mem_takeWhile_imp hc, rfl⟩
                have hsuffix : suffix = text.drop (text.takeWhile Char.isDigit).length := by
                  simpa using List.find?_some hfind
                rw [Text.fromStr_of_digits hd] at hvalue
                unfold checkedMul at hmul
                split at hvalue
                · split at hmul
                  · next hlt =>
                    cases hvalue
                    cases hmul
                    refine ⟨_, _, suffix, per, hd, List.mem_of_find?_eq_some hfind, ?_, rfl, hlt⟩
                    rw [hsuffix, takeWhile_append_drop]
                  · cases hmul
                · cases hvalue
  · intro h
    obtain ⟨hmax, hne⟩ := h.ne_max
    obtain ⟨digits, value, suffix, per, hd, hmem, rfl, rfl, hlt⟩ := h
    obtain ⟨hper, hhead, hfind⟩ := bytesPer_spec _ hmem
    obtain ⟨htake, -⟩ := span_run (p := Char.isDigit) hd.2.1 hhead
    have hvalue : value < 2 ^ 64 := (Nat.le_mul_of_pos_right value hper).trans_lt hlt
    simp only [hmax, hne, htake, hd.1, ↓reduceIte, List.drop_left, hfind, Text.fromStr_of_digits hd, hvalue, checkedMul,
      hlt]

theorem parseSize_eq_max_iff : parseSize input = .ok .max ↔ trim input = "max".toList := by
  unfold parseSize
  generalize trim input = text
  constructor
  · intro h
    by_contra hmax
    simp only [hmax, ↓reduceIte] at h
    repeat' split at h
    all_goals cases h
  · intro h
    simp only [h, ↓reduceIte]

/-- What a string has to be to be this size. -/
def SizeValue.Written (text : List Char) : SizeValue → Prop
  | .bytes n => IsSize text n
  | .max => text = "max".toList

theorem isSize_toDigits (h : n < 2 ^ 64) : IsSize (trim (Nat.toDigits 10 n)) n := by
  have hd := digits_toDigits n
  rw [Text.trim_eq_self fun c hc => (of_isDigit (hd.2.1 c hc)).2]
  exact ⟨_, n, [], 1, hd, by decide, by rw [List.append_nil], (Nat.mul_one n).symm, h⟩

theorem parseSize_eq_ok_iff : parseSize input = .ok v ↔ v.Written (trim input) := by
  cases v with
  | bytes n => exact parseSize_eq_bytes_iff
  | max => exact parseSize_eq_max_iff

/-- A size that is written is read back. -/
theorem parseSize_toText (h : ∀ n, v = .bytes n → n < 2 ^ 64) : parseSize v.toText = .ok v := by
  rw [parseSize_eq_ok_iff]
  cases v with
  | bytes n => exact isSize_toDigits (h n rfl)
  | max => exact Text.trim_eq_self (Text.plain_of_any (by decide))

/-- A size is a number with a suffix, or `max`; and what is written to a cgroup
for it is the same size again. -/
theorem size_reads_back (input : List Char) (v : SizeValue) :
    (parseSize input = .ok v ↔ v.Written (trim input)) ∧ (parseSize input = .ok v → parseSize v.toText = .ok v) := by
  refine ⟨parseSize_eq_ok_iff, fun h => parseSize_toText fun n hv => ?_⟩
  subst hv
  obtain ⟨-, -, -, -, -, -, -, -, hlt⟩ := parseSize_eq_bytes_iff.mp h
  exact hlt

/-! ## Durations -/

/-- A number of microseconds that can be represented. -/
def IsDuration (d : Nat) : Prop := ∃ micros < 2 ^ 64, d = Duration.fromMicros micros

/-- So many microseconds. -/
def microseconds (n : Nat) : Pair :=
  { digits := Nat.toDigits 10 n, value := n, suffix := "us".toList, per := 1, space := [], number := digits_toDigits n
    known := by simp [microsPer], blank := by simp }

theorem text_microseconds (n : Nat) : (microseconds n).text = Nat.toDigits 10 n ++ "us".toList := by
  rw [Pair.text, microseconds, List.append_nil]

theorem not_isWhitespace_microseconds {n : Nat} : ∀ c ∈ (microseconds n).text, Text.isWhitespace c = false := by
  intro c hc
  rw [text_microseconds] at hc
  rcases List.mem_append.mp hc with hc | hc
  · exact (of_isDigit ((digits_toDigits n).2.1 c hc)).2
  · have hall : ∀ c ∈ "us".toList, Text.isWhitespace c = false := by
      simp [Text.isWhitespace]
    exact hall c hc

theorem parseDuration_microseconds {n : Nat} (h : n < 2 ^ 64) :
    parseDuration (microseconds n).text = .ok (Duration.fromMicros n) := by
  have hpairs : parsePairs (microseconds n).text _ 0 = _ := parsePairs_complete [microseconds n]
    (by simpa [Pair.total, Pair.micros, microseconds] using h)
  unfold parseDuration
  rw [Text.trim_eq_self not_isWhitespace_microseconds, if_neg (by simp [text_microseconds])]
  rw [List.flatMap_cons, List.flatMap_nil, List.append_nil] at hpairs
  rw [hpairs]
  simp [Pair.total, Pair.micros, microseconds, Except.map]

theorem isDuration_iff {d : Nat} : (∃ input, parseDuration input = .ok d) ↔ IsDuration d := by
  constructor
  · rintro ⟨input, h⟩
    unfold parseDuration at h
    simp only at h
    split at h
    · cases h
    · cases hp : parsePairs input (trim input) 0 with
      | error e => simp [hp, Except.map] at h
      | ok micros =>
        rw [hp] at h
        cases h
        obtain ⟨-, -, -, hlt⟩ := parsePairs_sound hp (by decide)
        exact ⟨micros, hlt, rfl⟩
  · rintro ⟨micros, hlt, rfl⟩
    exact ⟨_, parseDuration_microseconds hlt⟩

theorem DurationValue.isDuration (d : DurationValue) : IsDuration d.duration := isDuration_iff.mp d.written

theorem IsDuration.written {d : Nat} (h : IsDuration d) : ∃ value : DurationValue, value.duration = d :=
  ⟨⟨d, isDuration_iff.mpr h⟩, rfl⟩

theorem exists_map_eq {α β : Type} {f : α → β} {o : Option β} (h : ∀ b, o = some b → ∃ a, f a = b) :
    ∃ o' : Option α, o'.map f = o := by
  cases o with
  | none => exact ⟨none, rfl⟩
  | some b =>
    obtain ⟨a, rfl⟩ := h b rfl
    exact ⟨some a, rfl⟩

/-! ## Well-formed units -/

/-- What keeps a name from being more than one component of a path. -/
def ValidName (name : Name) : Prop := name ≠ "" ∧ ∀ c ∈ name.toList, nameChar c = true

structure Service.WellFormed (scope : Scope) (s : Service) : Prop where
  exec : ∃ program args, s.exec = program :: args ∧ program.toList.head? = some '/'
  restartSec : IsDuration s.restartSec
  startSec : IsDuration s.startSec
  stopSec : IsDuration s.stopSec
  watchdogSec : ∀ d, s.watchdogSec = some d → IsDuration d ∧ s.ty = .notify
  owner : ∀ owner, scope = .user owner → s.user = owner ∧ s.tty = false
  memoryMax : ∀ n, s.resources.memoryMax = some (.bytes n) → n < 2 ^ 64
  tasksMax : ∀ n, s.resources.tasksMax = some n → n < 2 ^ 64

structure Socket.WellFormed (inet : String → Option String) (s : Socket) : Prop where
  listen : s.listen ≠ []
  address : ∀ l ∈ s.listen, ∃ text, parseListen inet text = some l
  datagram : s.ty = .datagram → s.backlog = 128
  backlog : s.backlog < 2 ^ 32

/-- A time of day. -/
def Calendar.InRange : Calendar → Prop
  | .at hour minute second => hour ≤ 23 ∧ minute ≤ 59 ∧ second ≤ 59
  | _ => True

structure Timer.WellFormed (t : Timer) : Prop where
  schedule : t.schedule.isEmpty = false
  onBoot : ∀ d, t.schedule.onBoot = some d → IsDuration d
  interval : ∀ d, t.schedule.interval = some d → IsDuration d
  calendar : ∀ c, t.schedule.calendar = some c → c.InRange

def Kind.WellFormed (inet : String → Option String) (scope : Scope) : Kind → Prop
  | .service s => s.WellFormed scope
  | .target => True
  | .socket s => s.WellFormed inet
  | .timer t => t.WellFormed

/-- What a manager can rely on, of a unit that it knows by `name`. -/
structure Unit.WellFormed (inet : String → Option String) (scope : Scope) (name : Name) (u : Unit) : Prop where
  valid : ValidName name
  name : u.name = name
  deps : ∀ other ∈ u.deps.requires, other ∉ u.deps.conflicts
  kind : u.kind.WellFormed inet scope

/-- The limit is the one number of a file that TOML, whose integers are signed,
may not hold. -/
def RawFile.tasksMax (raw : RawFile) : Option UInt64 := raw.resources.bind (·.tasksMax)

def Kind.tasksMax : Kind → Option Nat
  | .service s => s.resources.tasksMax
  | _ => none

/-! ## Commands -/

variable {inet : String → Option String} {scope : Scope} {name : Name} {hostname user exec : String}

/-- An argv has a program, by its absolute path. -/
theorem parseExec_sound {argv : List String} (h : parseExec name hostname user exec = .ok argv) :
    ∃ program args, argv = program :: args ∧ program.toList.head? = some '/' := by
  unfold parseExec at h
  split at h
  · next argv' hp =>
    cases h
    unfold Exec.parse at hp
    obtain ⟨expanded, -, hp⟩ := Text.bind_eq_ok_iff.mp hp
    obtain ⟨argv'', -, hp⟩ := Text.bind_eq_ok_iff.mp hp
    split at hp
    · cases hp
    · next program hprogram =>
      split at hp
      · next habs =>
        cases hp
        obtain ⟨args, rfl⟩ := List.head?_eq_some_iff.mp hprogram
        exact ⟨.ofList program, args.map .ofList, rfl, by rwa [String.toList_ofList]⟩
      · cases hp
  · cases h

/-- Every such argv can be written. -/
theorem parseExec_complete (name : Name) (hostname user : String) {program : String} (args : List String)
    (hp : program.toList.head? = some '/') : ∃ exec, parseExec name hostname user exec = .ok (program :: args) := by
  -- Each argument is quoted, and one space put before it.
  let words : List (List Char × List Char) := args.map fun arg => ([' '], arg.toList)
  have hspace : ∀ a ∈ words, a.1 ≠ [] ∧ ∀ c ∈ a.1, Text.isWhitespace c = true := by
    intro a ha
    obtain ⟨arg, -, rfl⟩ := List.mem_map.mp ha
    exact ⟨by simp, by simp; decide⟩
  have hsplit : Exec.split (Exec.joined Exec.halfway program.toList words) = .ok (program.toList :: words.map (·.2)) := by
    show (Exec.Splitting.run ⟨[], [], false, none⟩ _).bind Exec.Splitting.finish = _
    rw [Exec.joined, Exec.Splitting.run_quoted, Exec.Splitting.run_args [] program.toList hspace, List.nil_append]
  refine ⟨.ofList (Exec.encode program.toList words), ?_⟩
  have hmap : words.map (·.2) = args.map String.toList := by simp [words]
  unfold parseExec Exec.parse
  rw [String.toList_ofList, Exec.expand_encode program.toList fun a h => (hspace a h).2]
  simp only [bind, Except.bind, hsplit, List.head?_cons, hp, ↓reduceIte, hmap, List.map_cons, String.ofList_toList,
    List.map_map, Function.comp_def, List.map_id']

/-! ## Kinds -/

theorem runsAs_eq_ok_iff {service : RawService} {user : String} : runsAs scope name service = .ok user ↔
    match scope with
    | .system => user = service.user.getD "root"
    | .user owner => user = owner ∧ service.user = none ∧ service.tty ≠ some true := by
  unfold runsAs
  cases scope with
  | system => exact ⟨fun h => by cases h; rfl, fun h => by rw [h]⟩
  | user owner =>
    simp only
    split
    · next h => exact iff_of_false (by simp) fun h' => by simp [h'.2.1] at h
    · next h =>
      split
      · next ht => exact iff_of_false (by simp) fun h' => h'.2.2 ht
      · next ht =>
        rw [Option.not_isSome_iff_eq_none] at h
        exact ⟨fun he => by cases he; exact ⟨rfl, h, ht⟩, fun he => by rw [he.1]⟩

/-- What is accepted for a service is well formed. -/
theorem parseService_sound {resources : Option RawResources} {service : RawService} {s : Service}
    (h : parseService scope hostname name resources service = .ok s) : s.WellFormed scope := by
  unfold parseService at h
  obtain ⟨user, huser, h⟩ := Text.bind_eq_ok_iff.mp h
  obtain ⟨argv, hexec, h⟩ := Text.bind_eq_ok_iff.mp h
  split at h
  · cases h
  · next hnotify =>
    cases h
    have hduration : ∀ (d : Option DurationValue) (default : Nat), IsDuration default →
        IsDuration (d.elim default (·.duration)) := by
      intro d default h
      cases d with
      | none => exact h
      | some d => exact d.isDuration
    refine ⟨parseExec_sound hexec, hduration _ _ ⟨100000, by decide, rfl⟩, hduration _ _ ⟨90000000, by decide, rfl⟩,
      hduration _ _ ⟨30000000, by decide, rfl⟩, fun d hd => ?_, fun owner ho => ?_, fun n hn => ?_, fun n hn => ?_⟩
    · obtain ⟨d', hd', rfl⟩ := Option.map_eq_some_iff.mp hd
      refine ⟨d'.isDuration, ?_⟩
      by_contra hty
      exact hnotify ⟨by rw [hd']; rfl, hty⟩
    · subst ho
      obtain ⟨rfl, -, ht⟩ := runsAs_eq_ok_iff.mp huser
      refine ⟨rfl, ?_⟩
      dsimp only
      cases htty : service.tty with
      | none => rfl
      | some b => cases b <;> simp [htty] at ht ⊢
    · cases resources with
      | none => cases hn
      | some res =>
        obtain ⟨size, -, hs⟩ := Option.map_eq_some_iff.mp hn
        obtain ⟨input, hw⟩ := size.written
        rw [hs, parseSize_eq_bytes_iff] at hw
        obtain ⟨-, -, -, -, -, -, -, -, hlt⟩ := hw
        exact hlt
    · cases resources with
      | none => cases hn
      | some res =>
        obtain ⟨tasks, -, rfl⟩ := Option.map_eq_some_iff.mp hn
        exact tasks.toNat_lt

/-- Every well-formed service can be written. -/
theorem parseService_complete (hostname : String) (name : Name) {s : Service} (h : s.WellFormed scope) :
    ∃ (resources : Option RawResources) (service : RawService),
      (resources.bind (·.tasksMax)).map UInt64.toNat = s.resources.tasksMax ∧
        parseService scope hostname name resources service = .ok s := by
  obtain ⟨program, args, hargv, habs⟩ := h.exec
  obtain ⟨exec, hexec⟩ := parseExec_complete name hostname s.user args habs
  rw [← hargv] at hexec
  obtain ⟨restartSec, hrestart⟩ := h.restartSec.written
  obtain ⟨startSec, hstart⟩ := h.startSec.written
  obtain ⟨stopSec, hstop⟩ := h.stopSec.written
  obtain ⟨watchdogSec, hwatchdog⟩ := exists_map_eq (f := DurationValue.duration) fun d hd =>
    (h.watchdogSec d hd).1.written
  obtain ⟨memoryMax, hmemory⟩ := exists_map_eq (f := Size.size) (o := s.resources.memoryMax) fun v hv =>
    ⟨⟨v, v.toText, parseSize_toText fun n hn => h.memoryMax n (hn ▸ hv)⟩, rfl⟩
  obtain ⟨tasksMax, htasks⟩ := exists_map_eq (f := UInt64.toNat) (o := s.resources.tasksMax) fun n hn =>
    ⟨.ofNat n, UInt64.toNat_ofNat_of_lt' (h.tasksMax n hn)⟩
  obtain ⟨owner, howner⟩ : ∃ owner : Option String, ∀ raw : RawService, raw.user = owner → raw.tty = some s.tty →
      runsAs scope name raw = .ok s.user := by
    cases scope with
    | system => exact ⟨some s.user, fun raw hu _ => by rw [runsAs_eq_ok_iff]; simp [hu]⟩
    | user owner =>
      obtain ⟨huser, htty⟩ := h.owner owner rfl
      exact ⟨none, fun raw hu ht => runsAs_eq_ok_iff.mpr ⟨huser, hu, by simp [ht, htty]⟩⟩
  refine ⟨some { memoryMax, tasksMax },
    { ty := some s.ty
      exec
      restart := some s.restart
      restartSec := some restartSec
      startSec := some startSec
      stopSec := some stopSec
      watchdogSec
      user := owner
      tty := some s.tty
      output := some s.output }, htasks, ?_⟩
  unfold parseService
  rw [howner _ rfl rfl]
  simp only [bind, Except.bind, hexec, Option.getD_some, Option.elim_some, hrestart, hstart, hstop, hwatchdog, hmemory,
    htasks]
  have hnotify : ¬(watchdogSec.isSome = true ∧ s.ty ≠ .notify) := by
    rintro ⟨hsome, hty⟩
    obtain ⟨d, hd⟩ := Option.isSome_iff_exists.mp hsome
    exact hty (h.watchdogSec d.duration (by rw [← hwatchdog, hd]; rfl)).2
  rw [if_neg hnotify]

theorem parseListens_eq_ok_iff {addresses : List String} {listen : List Listen} :
    parseListens inet name addresses = .ok listen ↔ addresses.map (parseListen inet) = listen.map some := by
  induction addresses generalizing listen with
  | nil =>
    rw [List.map_nil, eq_comm (b := listen.map some), List.map_eq_nil_iff]
    exact ⟨fun h => by cases h; rfl, fun h => by rw [h]; rfl⟩
  | cons address rest ih =>
    rw [List.map_cons, eq_comm (b := listen.map some), List.map_eq_cons_iff, parseListens]
    cases parseListen inet address with
    | none => exact iff_of_false (by simp) (by simp)
    | some l =>
      simp only [Text.bind_eq_ok_iff, ih, pure, Except.pure, Except.ok.injEq, Option.some.injEq]
      constructor
      · rintro ⟨ls, hls, rfl⟩
        exact ⟨l, ls, rfl, rfl, hls.symm⟩
      · rintro ⟨l', ls, rfl, rfl, hls⟩
        exact ⟨ls, hls.symm, rfl⟩

/-- What is accepted for a socket is well formed. -/
theorem parseSocket_sound {socket : RawSocket} {s : Socket} (h : parseSocket inet name socket = .ok s) :
    s.WellFormed inet := by
  unfold parseSocket at h
  simp only at h
  split at h
  · cases h
  · next hne =>
    split at h
    · cases h
    · next hbacklog =>
      obtain ⟨listen, hlisten, h⟩ := Text.bind_eq_ok_iff.mp h
      cases h
      have hall := parseListens_eq_ok_iff.mp hlisten
      refine ⟨fun he => hne ?_, fun l hl => ?_, fun hty => ?_, ?_⟩
      · exact List.map_eq_nil_iff.mp (hall.trans (by rw [show listen = [] from he, List.map_nil]))
      · obtain ⟨text, -, ht⟩ := List.mem_map.mp (hall ▸ List.mem_map_of_mem (f := some) hl)
        exact ⟨text, ht⟩
      · rw [not_and] at hbacklog
        cases hb : socket.backlog with
        | none => rfl
        | some b => exact absurd hty (hbacklog (by rw [hb]; rfl))
      · cases hb : socket.backlog with
        | none => exact Nat.lt_of_lt_of_le (m := 129) (by simp) (by decide)
        | some b => exact b.toNat_lt

/-- Every well-formed socket can be written. -/
theorem parseSocket_complete (name : Name) {s : Socket} (h : s.WellFormed inet) :
    ∃ socket, parseSocket inet name socket = .ok s := by
  obtain ⟨addresses, haddresses⟩ : s.listen.map some ∈ Set.range (List.map (parseListen inet)) := by
    rw [Set.range_list_map]
    intro o ho
    obtain ⟨l, hl, rfl⟩ := List.mem_map.mp ho
    exact h.address l hl
  have hne : addresses ≠ [] := fun hn => h.listen (by simpa [hn] using haddresses.symm)
  -- Only a socket that is listened on has a backlog to write.
  obtain ⟨backlog, hbacklog, hdatagram⟩ : ∃ backlog : Option UInt32, backlog.elim 128 (·.toNat) = s.backlog ∧
      ¬(backlog.isSome = true ∧ s.ty = .datagram) := by
    by_cases hty : s.ty = .datagram
    · exact ⟨none, (h.datagram hty).symm, by simp⟩
    · exact ⟨some (.ofNat s.backlog), UInt32.toNat_ofNat_of_lt' h.backlog, by simp [hty]⟩
  refine ⟨{ listen := addresses, service := s.service, ty := some s.ty, backlog }, ?_⟩
  unfold parseSocket
  simp only [Option.getD_some, hne, ↓reduceIte, hdatagram, bind, Except.bind, parseListens_eq_ok_iff.mpr haddresses,
    hbacklog]

theorem parseCalendar_eq_ok_iff {text : Option String} {c : Option Calendar} :
    parseCalendar name text = .ok c ↔ text.map Calendar.parse = c.map .ok := by
  unfold parseCalendar
  cases text with
  | none =>
    cases c with
    | none => simp
    | some c => simp
  | some text =>
    cases hp : Calendar.parse text with
    | error e => cases c <;> simp [hp]
    | ok calendar => cases c <;> simp [hp]

/-- A calendar that is in range has a name. -/
theorem inRange_iff {c : Calendar} : c.InRange ↔ ∃ text, Calendar.parse text = .ok c := by
  simp only [Calendar.parse_eq_ok_iff]
  cases c with
  | hourly => exact iff_of_true trivial ⟨"hourly", rfl⟩
  | daily => exact iff_of_true trivial ⟨"daily", rfl⟩
  | weekly => exact iff_of_true trivial ⟨"weekly", rfl⟩
  | «at» hour minute second =>
    constructor
    · rintro ⟨hh, hm, hs⟩
      have hnumeral : ∀ n, Text.Numeral (Nat.toDigits 10 n) n := fun n => ⟨_, digits_toDigits n, .inl rfl⟩
      refine ⟨.ofList (Nat.toDigits 10 hour ++ ':' :: (Nat.toDigits 10 minute ++ ':' :: Nat.toDigits 10 second)),
        hh, hm, hs, _, _, hnumeral hour, hnumeral minute, .inr ⟨_, hnumeral second, String.toList_ofList⟩⟩
    · rintro ⟨text, hh, hm, hs, -⟩
      exact ⟨hh, hm, hs⟩

/-- What is accepted for a timer is well formed. -/
theorem parseTimer_sound {timer : RawTimer} {t : Timer} (h : parseTimer name timer = .ok t) : t.WellFormed := by
  unfold parseTimer at h
  obtain ⟨calendar, hcalendar, h⟩ := Text.bind_eq_ok_iff.mp h
  rw [parseCalendar_eq_ok_iff] at hcalendar
  simp only at h
  split at h
  · cases h
  · next hempty =>
    cases h
    have hduration : ∀ (o : Option DurationValue) (d : Nat), o.map (·.duration) = some d → IsDuration d := by
      intro o d hd
      obtain ⟨value, -, rfl⟩ := Option.map_eq_some_iff.mp hd
      exact value.isDuration
    refine ⟨Bool.not_eq_true _ ▸ hempty, hduration _, hduration _, fun c hc => ?_⟩
    obtain rfl : calendar = some c := hc
    obtain ⟨text, -, hparse⟩ := Option.map_eq_some_iff.mp hcalendar
    exact inRange_iff.mpr ⟨text, hparse⟩

/-- Every well-formed timer can be written. -/
theorem parseTimer_complete (name : Name) {t : Timer} (h : t.WellFormed) :
    ∃ timer, parseTimer name timer = .ok t := by
  obtain ⟨onBoot, hboot⟩ := exists_map_eq (f := DurationValue.duration) fun d hd => (h.onBoot d hd).written
  obtain ⟨interval, hinterval⟩ := exists_map_eq (f := DurationValue.duration) fun d hd => (h.interval d hd).written
  obtain ⟨onCalendar, hcalendar⟩ := exists_map_eq (f := Calendar.parse) (o := t.schedule.calendar.map .ok) fun c hc => by
    obtain ⟨c', hc', rfl⟩ := Option.map_eq_some_iff.mp hc
    exact inRange_iff.mp (h.calendar c' hc')
  refine ⟨{ service := t.service, onBoot, interval, onCalendar }, ?_⟩
  unfold parseTimer
  rw [parseCalendar_eq_ok_iff.mpr hcalendar]
  simp only [bind, Except.bind, hboot, hinterval]
  rw [if_neg (by rw [show (⟨_, _, _⟩ : Schedule) = t.schedule from rfl, h.schedule]; decide)]

/-! ## Files -/

theorem parseKind_sound {raw : RawFile} {kind : Kind} (h : parseKind inet scope hostname name raw = .ok kind) :
    kind.WellFormed inet scope := by
  unfold parseKind at h
  split at h
  · obtain ⟨s, hs, rfl⟩ := Text.map_eq_ok_iff.mp h
    exact parseService_sound hs
  · obtain ⟨s, hs, rfl⟩ := Text.map_eq_ok_iff.mp h
    exact parseSocket_sound hs
  · obtain ⟨t, ht, rfl⟩ := Text.map_eq_ok_iff.mp h
    exact parseTimer_sound ht
  · cases h
    trivial

/-- One section, and limits for a service only. -/
def RawFile.OneKind (raw : RawFile) : Prop :=
  raw.sections = 1 ∧ (raw.resources.isSome = true → raw.service.isSome = true)

/-- Every well-formed unit has a file of one kind. -/
theorem parseKind_complete (hostname : String) (name : Name) {kind : Kind} (h : kind.WellFormed inet scope) :
    ∃ raw : RawFile, raw.OneKind ∧ raw.tasksMax.map UInt64.toNat = kind.tasksMax ∧
      ∀ unit, parseKind inet scope hostname name { raw with unit } = .ok kind := by
  cases kind with
  | service s =>
    obtain ⟨resources, service, htasks, hs⟩ := parseService_complete hostname name h
    exact ⟨{ service := some service, resources }, ⟨rfl, fun _ => rfl⟩, htasks,
      fun _ => by simp [parseKind, hs, Except.map]⟩
  | target => exact ⟨{ target := true }, ⟨rfl, by simp⟩, rfl, fun _ => rfl⟩
  | socket s =>
    obtain ⟨socket, hs⟩ := parseSocket_complete name h
    exact ⟨{ socket := some socket }, ⟨rfl, by simp⟩, rfl, fun _ => by simp [parseKind, hs, Except.map]⟩
  | timer t =>
    obtain ⟨timer, ht⟩ := parseTimer_complete name h
    exact ⟨{ timer := some timer }, ⟨rfl, by simp⟩, rfl, fun _ => by simp [parseKind, ht, Except.map]⟩

/-- What is accepted of a file's shape is well formed. -/
theorem parseRaw_sound {raw : RawFile} {u : Unit} (hn : ValidName name)
    (h : parseRaw inet scope hostname name raw = .ok u) : u.WellFormed inet scope name := by
  unfold parseRaw at h
  simp only at h
  split at h
  · cases h
  · next hnone =>
    repeat' split at h
    all_goals first | cases h | skip
    obtain ⟨kind, hkind, h⟩ := Text.bind_eq_ok_iff.mp h
    cases h
    refine ⟨hn, rfl, fun other ho hc => ?_, parseKind_sound hkind⟩
    exact absurd (List.find?_eq_none.mp hnone other ho) (by simpa using hc)

theorem parseRaw_complete (hostname : String) {u : Unit} (h : u.WellFormed inet scope name) :
    ∃ raw : RawFile, raw.tasksMax.map UInt64.toNat = u.kind.tasksMax ∧ parseRaw inet scope hostname name raw = .ok u := by
  obtain ⟨raw, ⟨hsections, hresources⟩, htasks, hkind⟩ := parseKind_complete hostname name h.kind
  have hnone : u.deps.requires.find? (u.deps.conflicts.contains ·) = none :=
    List.find?_eq_none.mpr fun other ho hc => h.deps other ho (by simpa using hc)
  have hone : ∀ unit, RawFile.sections { raw with unit } = 1 := fun _ => hsections
  have hlimits : ¬(raw.service.isNone = true ∧ raw.resources.isSome = true) := by
    rintro ⟨hn, hr⟩
    rw [Option.isNone_iff_eq_none] at hn
    simpa [hn] using hresources hr
  have hname := h.name
  obtain ⟨uname, description, deps, kind⟩ := u
  subst hname
  refine ⟨{ raw with unit := some { deps with description := some description } }, htasks, ?_⟩
  unfold parseRaw
  simp only [Option.getD_some, hnone, hone, hlimits, ↓reduceIte, Nat.one_ne_zero, Nat.lt_irrefl, bind, Except.bind, hkind]

/-! ## Texts -/

variable {toml : String → Except String RawFile} {text : String} {u : Unit}

/-- The names that are accepted. -/
theorem validateName_eq_ok_iff : validateName name = .ok ⟨⟩ ↔ ValidName name := by
  unfold validateName ValidName
  simp

/-- What is accepted of a text is well formed. -/
theorem parseIn_sound (h : parseIn toml inet scope hostname name text = .ok u) : u.WellFormed inet scope name := by
  unfold parseIn at h
  obtain ⟨_, hname, h⟩ := Text.bind_eq_ok_iff.mp h
  split at h
  · cases h
  · exact parseRaw_sound (validateName_eq_ok_iff.mp hname) h

/-- Every well-formed unit has a shape that every text of it is accepted with. -/
theorem parseIn_complete (hostname : String) (h : u.WellFormed inet scope name) :
    ∃ raw : RawFile, raw.tasksMax.map UInt64.toNat = u.kind.tasksMax ∧
      ∀ toml text, toml text = .ok raw → parseIn toml inet scope hostname name text = .ok u := by
  obtain ⟨raw, htasks, hraw⟩ := parseRaw_complete hostname h
  refine ⟨raw, htasks, fun toml text ht => ?_⟩
  unfold parseIn
  rw [validateName_eq_ok_iff.mpr h.valid, ht]
  exact hraw

/-- Units are read from files exactly if they are well formed: nothing else is
accepted, whatever the text, and each of them has a shape that is accepted as
that unit, however it is written. -/
theorem well_formed_iff_written (inet : String → Option String) (scope : Scope) (hostname : String) (name : Name)
    (u : Unit) :
    (∀ toml text, parseIn toml inet scope hostname name text = .ok u → u.WellFormed inet scope name) ∧
      (u.WellFormed inet scope name → ∃ raw : RawFile, raw.tasksMax.map UInt64.toNat = u.kind.tasksMax ∧
        ∀ toml text, toml text = .ok raw → parseIn toml inet scope hostname name text = .ok u) :=
  ⟨fun _ _ => parseIn_sound, parseIn_complete hostname⟩

theorem readAndParse_sound {path : String} {contents : Except String String}
    (h : readAndParse toml inet scope hostname name path contents = .ok u) :
    ValidName name ∧ u.WellFormed inet scope name := by
  unfold readAndParse at h
  split at h
  · cases h
  · have h := parseIn_sound h
    exact ⟨h.valid, h⟩

end Oxinit
