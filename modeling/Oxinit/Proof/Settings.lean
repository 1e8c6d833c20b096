import Oxinit.Model.Settings
import Oxinit.Proof.Text
import Oxinit.Proof.UnitFile

/-!
# What the watchdog is configured to

A command line is read word by word, each word a layer over what is said before
it (`foldlM_readWord`); so what is appended to it is a layer over all the rest.
-/

namespace Oxinit.Watchdog

open Text (isWhitespace splitWhitespace Plain plain_of_any)

namespace Settings

variable {words : List (List Char)} {a b c s : Settings} {d : Nat}

/-- Which setting wins does not depend on how they are put together. -/
theorem over_assoc (a b c : Settings) : (a.«over» b).«over» c = a.«over» (b.«over» c) := by
  simp only [«over», Option.or_assoc]

/-- A word is a layer. -/
theorem readWord_eq (settings : Settings) (word : List Char) :
    readWord settings word = (readWord {} word).map (·.«over» settings) := by
  have hnothing : settings = ({} : Settings).«over» settings := by simp only [«over», Option.none_or]
  unfold readWord
  cases cmdlinePrefix.isPrefixOf? word with
  | none => exact congrArg Except.ok hnothing
  | some rest =>
    dsimp only
    generalize (Text.splitOnce '=' rest).getD (rest, []) = keyValue
    repeat' split
    · simp only [Except.map, «over», Option.some_or, Option.none_or]
    · cases duration keyValue.1 keyValue.2 <;> simp only [Except.map, «over», Option.some_or, Option.none_or]
    · simp only [Except.map, «over», Option.some_or, Option.none_or]
    · cases duration keyValue.1 keyValue.2 <;> simp only [Except.map, «over», Option.some_or, Option.none_or]
    · rfl

/-- Words are read over what there is. -/
theorem foldlM_readWord (words : List (List Char)) (settings : Settings) :
    words.foldlM readWord settings = (words.foldlM readWord {}).map (·.«over» settings) := by
  induction words generalizing settings with
  | nil =>
    show Except.ok settings = Except.ok (({} : Settings).«over» settings)
    simp only [«over», Option.none_or]
  | cons word words ih =>
    rw [List.foldlM_cons, List.foldlM_cons, readWord_eq]
    cases readWord {} word with
    | error e => rfl
    | ok s =>
      show words.foldlM readWord (s.«over» settings) = (words.foldlM readWord s).map (·.«over» settings)
      rw [ih (s.«over» settings), ih s]
      cases words.foldlM readWord {} with
      | error e => rfl
      | ok t => exact congrArg Except.ok (over_assoc t s settings).symm

/-- Space between two command lines makes one of them. -/
theorem fromCmdline_append {sep : Char} (h : isWhitespace sep = true) (before after : List Char) :
    fromCmdline (before ++ sep :: after) = do
      let first ← fromCmdline before
      let last ← fromCmdline after
      return last.«over» first := by
  have hwords : splitWhitespace (before ++ sep :: after) = splitWhitespace before ++ splitWhitespace after := by
    rw [splitWhitespace, List.splitOnP_append_cons _ _ h, List.filter_append]
    rfl
  rw [fromCmdline, hwords, List.foldlM_append]
  cases h : (splitWhitespace before).foldlM readWord {} with
  | error e => simp only [fromCmdline, h]; rfl
  | ok first =>
    show (splitWhitespace after).foldlM readWord first = _
    rw [foldlM_readWord]
    simp only [fromCmdline, h]
    cases (splitWhitespace after).foldlM readWord {} <;> rfl

end Settings

variable {toml : String → Except String RawFile} {s : Sources} {c : Config}

/-- What stands later on the command line is read over what stands before. -/
theorem load_append (toml : String → Except String RawFile) (s : Sources) {sep : Char} (h : isWhitespace sep = true)
    (more : List Char) : load toml { s with cmdline := s.cmdline ++ sep :: more } = do
      let settings ← load toml s
      let exception ← Settings.fromCmdline more
      return exception.«over» settings := by
  unfold load
  cases loadFile toml s.etc s.vendor with
  | error e => rfl
  | ok file =>
    show (Settings.fromCmdline (s.cmdline ++ sep :: more) >>= fun cmdline => Except.ok (cmdline.«over» file)) = _
    rw [Settings.fromCmdline_append h]
    cases Settings.fromCmdline s.cmdline with
    | error e => rfl
    | ok first =>
      cases Settings.fromCmdline more with
      | error e => rfl
      | ok last => exact congrArg Except.ok (Settings.over_assoc last first file)

/-! ## What can run -/

/-- The driver is asked for a number of seconds that it can be asked for, and a
boot has some time. -/
structure Config.Valid (c : Config) : Prop where
  timeout : 0 < c.timeout ∧ c.timeout ≤ maxTimeoutSecs
  boot : ∀ b ∈ c.boot, 0 < b.within ∧ IsDuration b.within

/-- The durations are ones that can be written. -/
structure Settings.Written (s : Settings) : Prop where
  timeout : ∀ d ∈ s.timeout, IsDuration d
  boot : ∀ d ∈ s.boot, IsDuration d

theorem Settings.written_nothing : ({} : Settings).Written := ⟨fun _ hd => (by cases hd), fun _ hd => (by cases hd)⟩

theorem Settings.Written.of_over {a b : Settings} (ha : a.Written) (hb : b.Written) : (a.«over» b).Written := by
  refine ⟨fun d hd => ?_, fun d hd => ?_⟩
  · rcases Option.or_eq_some_iff.mp hd with hd | ⟨-, hd⟩
    · exact ha.timeout d hd
    · exact hb.timeout d hd
  · rcases Option.or_eq_some_iff.mp hd with hd | ⟨-, hd⟩
    · exact ha.boot d hd
    · exact hb.boot d hd

/-- A duration that is accepted is one. -/
theorem Settings.isDuration_of_duration {key value : List Char} {d : Nat} (h : duration key value = .ok d) :
    IsDuration d := by
  unfold duration at h
  cases hp : parseDuration value with
  | error e =>
    rw [hp] at h
    cases h
  | ok d' =>
    rw [hp] at h
    cases h
    exact isDuration_iff.mp ⟨value, hp⟩

/-- A word sets what can be written. -/
theorem Settings.Written.readWord {a b : Settings} (ha : a.Written) {word : List Char} (h : a.readWord word = .ok b) :
    b.Written := by
  unfold Settings.readWord at h
  cases hp : cmdlinePrefix.isPrefixOf? word with
  | none =>
    rw [hp] at h
    cases h
    exact ha
  | some rest =>
    rw [hp] at h
    dsimp only at h
    generalize (Text.splitOnce '=' rest).getD (rest, []) = keyValue at h
    repeat' split at h
    · cases h
      exact ⟨ha.timeout, ha.boot⟩
    · obtain ⟨d, hd, rfl⟩ := Text.map_eq_ok_iff.mp h
      exact ⟨fun d' hd' => Option.some.inj hd' ▸ isDuration_of_duration hd, ha.boot⟩
    · cases h
      exact ⟨ha.timeout, ha.boot⟩
    · obtain ⟨d, hd, rfl⟩ := Text.map_eq_ok_iff.mp h
      exact ⟨ha.timeout, fun d' hd' => Option.some.inj hd' ▸ isDuration_of_duration hd⟩
    · cases h

theorem Settings.written_of_fromCmdline {line : List Char} {a : Settings} (h : fromCmdline line = .ok a) :
    a.Written := by
  have hrun : ∀ (words : List (List Char)) (a b : Settings), a.Written → words.foldlM Settings.readWord a = .ok b →
      b.Written := by
    intro words
    induction words with
    | nil =>
      intro a b ha h
      cases h
      exact ha
    | cons word words ih =>
      intro a b ha h
      obtain ⟨s, hs, h⟩ := Text.bind_eq_ok_iff.mp h
      exact ih s b (ha.readWord hs) h
  exact hrun _ _ _ written_nothing h

theorem Settings.Written.of_deadline {a : Settings} {b : Boot} (ha : a.Written) (h : a.deadline = .ok (some b)) :
    0 < b.within ∧ IsDuration b.within := by
  unfold Settings.deadline at h
  split at h
  · cases h
  · split at h <;> cases h
  · cases h
  · next within unit hw hu =>
    cases h
    obtain ⟨hw, hne⟩ := Option.filter_eq_some_iff.mp hw
    exact ⟨Nat.pos_of_ne_zero (of_decide_eq_true hne), ha.boot within hw⟩

/-- Settings that resolve are a valid configuration. -/
theorem Settings.Written.resolve {a : Settings} (ha : a.Written) (h : a.resolve = .ok (some c)) : c.Valid := by
  unfold Settings.resolve at h
  repeat' split at h
  · cases h
  · cases h
  · cases h
  · next timeout ht hz hbad =>
    obtain ⟨boot, hboot, hc⟩ := Text.map_eq_ok_iff.mp h
    cases hc
    rw [not_or, not_not, Nat.not_lt] at hbad
    have hpos : 0 < timeout / Duration.fromSecs 1 :=
      Nat.div_pos (Nat.le_of_dvd (Nat.pos_of_ne_zero hz) (Nat.dvd_of_mod_eq_zero hbad.1)) (by decide)
    refine ⟨⟨hpos, hbad.2⟩, fun b hb => ?_⟩
    cases hb
    exact ha.of_deadline hboot

theorem read_written {path : String} {file : File} {settings : Settings} (h : read toml path file = .ok (some settings)) :
    settings.Written := by
  unfold read at h
  split at h
  · cases h
  · next text =>
    obtain ⟨a, ha, hs⟩ := Text.map_eq_ok_iff.mp h
    cases hs
    unfold Settings.parse at ha
    split at ha
    · cases ha
    · cases ha
      refine ⟨fun d hd => ?_, fun d hd => ?_⟩
      · obtain ⟨value, -, rfl⟩ := Option.map_eq_some_iff.mp hd
        exact value.isDuration
      · obtain ⟨value, -, rfl⟩ := Option.map_eq_some_iff.mp hd
        exact value.isDuration
  · cases h

theorem loadFile_written {etc vendor : File} {settings : Settings} (h : loadFile toml etc vendor = .ok settings) :
    settings.Written := by
  obtain ⟨first, hfirst, h⟩ := Text.bind_eq_ok_iff.mp h
  cases first with
  | some first =>
    cases h
    exact read_written hfirst
  | none =>
    obtain ⟨second, hsecond, h⟩ := Text.bind_eq_ok_iff.mp h
    cases h
    cases second with
    | none => exact Settings.written_nothing
    | some second => exact read_written hsecond

theorem load_written {settings : Settings} (h : load toml s = .ok settings) : settings.Written := by
  obtain ⟨file, hfile, h⟩ := Text.bind_eq_ok_iff.mp h
  obtain ⟨cmdline, hcmdline, h⟩ := Text.bind_eq_ok_iff.mp h
  cases h
  exact (Settings.written_of_fromCmdline hcmdline).of_over (loadFile_written hfile)

/-- A watchdog is configured if its sources load and resolve. -/
theorem configured_eq_some_iff : configured toml s = some c ↔
    ∃ settings, load toml s = .ok settings ∧ settings.resolve = .ok (some c) := by
  unfold configured
  cases load toml s with
  | error e => exact iff_of_false (by simp [bind, Except.bind]) (by simp)
  | ok settings =>
    have hbind : (Except.ok settings >>= Settings.resolve) = settings.resolve := rfl
    rw [hbind]
    cases hr : settings.resolve <;> simp [hr]

/-! ## What can be said -/

/-- One thing said. -/
def entry (key : String) (value : List Char) : List Char := cmdlinePrefix ++ (key.toList ++ '=' :: value)

/-- What one word of the command line sets. -/
theorem readWord_entry {key : String} (h : '=' ∉ key.toList) (a : Settings) (value : List Char) :
    a.readWord (entry key value) =
      if key.toList = "device".toList then .ok { a with device := some (.ofList value) }
      else if key.toList = "timeout-sec".toList then
        (Settings.duration key.toList value).map fun d => { a with timeout := some d }
      else if key.toList = "boot-unit".toList then .ok { a with bootUnit := some (.ofList value) }
      else if key.toList = "boot-sec".toList then
        (Settings.duration key.toList value).map fun d => { a with boot := some d }
      else .error (.unknownKey Settings.kernelCommandLine (cmdlinePrefix ++ key.toList)) := by
  have hrest : cmdlinePrefix.isPrefixOf? (entry key value) = some (key.toList ++ '=' :: value) :=
    List.isPrefixOf?_eq_some_iff_append_eq.mpr rfl
  have hkey : Text.splitOnce '=' (key.toList ++ '=' :: value) = some (key.toList, value) :=
    (Text.splitOnce_eq_some_iff h).mpr rfl
  unfold Settings.readWord
  rw [hrest]
  dsimp only
  rw [hkey]
  rfl

/-- A configuration as a command line says it. -/
def spell (c : Config) : List (List Char) :=
  [entry "device" c.device.toList, entry "timeout-sec" (microseconds (c.timeout * 1000000)).text] ++
    match c.boot with
    | none => [entry "boot-sec" (microseconds 0).text]
    | some b => [entry "boot-unit" b.unit.toList, entry "boot-sec" (microseconds (b.within / 1000)).text]

/-- A configuration whose names are words. -/
structure Config.Spellable (c : Config) : Prop where
  device : Plain c.device.toList
  unit : ∀ b ∈ c.boot, Plain b.unit.toList

/-- What the words of a configuration set. -/
def spelled (c : Config) : Settings :=
  { device := some c.device
    timeout := some (Duration.fromSecs c.timeout)
    bootUnit := c.boot.map (·.unit)
    boot := some ((c.boot.map (·.within)).getD 0) }

theorem duration_microseconds {n : Nat} (h : n < 2 ^ 64) (key : List Char) :
    Settings.duration key (microseconds n).text = .ok (Duration.fromMicros n) := by
  rw [Settings.duration, parseDuration_microseconds h]

theorem foldlM_ok {word : List Char} {a b : Settings} (h : a.readWord word = .ok b) {words : List (List Char)} :
    (word :: words).foldlM Settings.readWord a = words.foldlM Settings.readWord b := by
  rw [List.foldlM_cons, h]
  rfl

/-- The words that spell a configuration. -/
theorem foldlM_spell (h : c.Valid) : (spell c).foldlM Settings.readWord {} = .ok (spelled c) := by
  have hdevice : ∀ a value, Settings.readWord a (entry "device" value) = .ok { a with device := some (.ofList value) } :=
    fun a value => (readWord_entry (by decide) a value).trans (if_pos rfl)
  have htimeout : ∀ a, Settings.readWord a (entry "timeout-sec" (microseconds (c.timeout * 1000000)).text) =
      .ok { a with timeout := some (Duration.fromSecs c.timeout) } := fun a => by
    have hlt : c.timeout * 1000000 < 2 ^ 64 := by
      have := h.timeout.2
      unfold maxTimeoutSecs at this
      omega
    have hsecs : Duration.fromMicros (c.timeout * 1000000) = Duration.fromSecs c.timeout := by
      unfold Duration.fromMicros Duration.fromSecs
      omega
    rw [readWord_entry (by decide), if_neg (by decide), if_pos rfl, duration_microseconds hlt, hsecs]
    rfl
  have hunit : ∀ a value, Settings.readWord a (entry "boot-unit" value) = .ok { a with bootUnit := some (.ofList value) } :=
    fun a value => by rw [readWord_entry (by decide), if_neg (by decide), if_neg (by decide), if_pos rfl]
  have hboot : ∀ a n, n < 2 ^ 64 → Settings.readWord a (entry "boot-sec" (microseconds n).text) =
      .ok { a with boot := some (Duration.fromMicros n) } := fun a n hn => by
    rw [readWord_entry (by decide), if_neg (by decide), if_neg (by decide), if_neg (by decide), if_pos rfl,
      duration_microseconds hn]
    rfl
  cases hb : c.boot with
  | none =>
    rw [spell, spelled, hb, List.cons_append, List.cons_append, List.nil_append, foldlM_ok (hdevice _ _),
      foldlM_ok (htimeout _), foldlM_ok (hboot _ 0 (by decide)), String.ofList_toList]
    rfl
  | some b =>
    obtain ⟨micros, hlt, hwithin⟩ := (h.boot b hb).2
    have hmicros : b.within / 1000 = micros := by
      rw [hwithin, Duration.fromMicros, Nat.mul_div_cancel _ (by decide)]
    rw [spell, spelled, hb, List.cons_append, List.cons_append, List.nil_append, foldlM_ok (hdevice _ _),
      foldlM_ok (htimeout _), foldlM_ok (hunit _ _), hmicros, foldlM_ok (hboot _ micros hlt), String.ofList_toList,
      String.ofList_toList, ← hwithin]
    rfl

theorem resolve_spelled (h : c.Valid) (base : Settings) : ((spelled c).«over» base).resolve = .ok (some c) := by
  have hpos : Duration.fromSecs c.timeout ≠ 0 := by
    have := h.timeout.1
    unfold Duration.fromSecs
    omega
  have hsecs : Duration.fromSecs c.timeout % Duration.fromSecs 1 = 0 ∧
      Duration.fromSecs c.timeout / Duration.fromSecs 1 = c.timeout := by
    unfold Duration.fromSecs
    omega
  have hdeadline : ((spelled c).«over» base).deadline = .ok c.boot := by
    unfold Settings.deadline
    cases hb : c.boot with
    | none => cases hu : base.bootUnit <;> simp [spelled, Settings.«over», hb, hu, Option.filter]
    | some b =>
      have hne : b.within ≠ 0 := Nat.ne_of_gt (h.boot b hb).1
      simp [spelled, Settings.«over», hb, Option.filter, hne]
  have htimeout : ((spelled c).«over» base).timeout = some (Duration.fromSecs c.timeout) := rfl
  have hdevice : ((spelled c).«over» base).device = some c.device := rfl
  unfold Settings.resolve
  rw [htimeout, hdeadline, hdevice]
  dsimp only
  rw [if_neg hpos, if_neg (by rw [hsecs.1, hsecs.2]; simpa using h.timeout.2), hsecs.2]
  rfl

theorem fromCmdline_spell (h : c.Valid) (hs : c.Spellable) :
    Settings.fromCmdline ([' '].intercalate (spell c)) = .ok (spelled c) := by
  have hentry : ∀ (key : String) value, key.toList.any isWhitespace = false → Plain value →
      Plain (entry key value) ∧ entry key value ≠ [] := by
    intro key value hk hv
    have hplain : Plain cmdlinePrefix := plain_of_any (by decide)
    have hsign : Plain ['='] := plain_of_any (by decide)
    exact ⟨hplain.append ((plain_of_any hk).append (hsign.append hv)), by simp [entry]⟩
  have hwords : ∀ word ∈ spell c, Plain word ∧ word ≠ [] := by
    have hmicros : ∀ n, Plain (microseconds n).text := fun n => not_isWhitespace_microseconds
    refine List.forall_mem_append.mpr ⟨?_, ?_⟩
    · exact List.forall_mem_cons.mpr ⟨hentry _ _ (by decide) hs.device,
        List.forall_mem_singleton.mpr (hentry _ _ (by decide) (hmicros _))⟩
    · cases hb : c.boot with
      | none => exact List.forall_mem_singleton.mpr (hentry _ _ (by decide) (hmicros _))
      | some b =>
        exact List.forall_mem_cons.mpr ⟨hentry _ _ (by decide) (hs.unit b hb),
          List.forall_mem_singleton.mpr (hentry _ _ (by decide) (hmicros _))⟩
  rw [Settings.fromCmdline, Text.splitWhitespace_intercalate hwords, foldlM_spell h]

/-- What a command line goes on with is a layer over what it and the files say so
far. What runs can be run; and whatever can be run can be asked for in this way,
whatever they say. -/
theorem the_command_line_has_the_last_word (toml : String → Except String RawFile) :
    (∀ s more, ∀ sep, isWhitespace sep = true → load toml { s with cmdline := s.cmdline ++ sep :: more } = do
      let settings ← load toml s
      let exception ← Settings.fromCmdline more
      return exception.«over» settings) ∧
    (∀ s c, configured toml s = some c → c.Valid) ∧
    ∀ c : Config, c.Valid → c.Spellable → ∃ line, ∀ s, (∃ settings, load toml s = .ok settings) →
      configured toml { s with cmdline := s.cmdline ++ ' ' :: line } = some c := by
  refine ⟨fun s more sep h => load_append toml s h more, fun s c h => ?_,
    fun c h hs => ⟨[' '].intercalate (spell c), fun s hload => ?_⟩⟩
  · obtain ⟨settings, hload, hr⟩ := configured_eq_some_iff.mp h
    exact (load_written hload).resolve hr
  · obtain ⟨settings, hload⟩ := hload
    refine configured_eq_some_iff.mpr ⟨(spelled c).«over» settings, ?_, resolve_spelled h settings⟩
    rw [load_append toml s (by decide), hload, fromCmdline_spell h hs]
    rfl

end Oxinit.Watchdog
