import Mathlib.Algebra.Group.Int.Defs
import Oxinit.Proof.Image
import Oxinit.Proof.Text

/-!
# The pid in the environment

The digits are written into an array from its end, one for each division by
ten, and what the array then ends in is the decimal numeral (`writeDigits_eq`).
It is copied behind the name, and a NUL after it.
-/

namespace Oxinit

open Log (Bytes bytes)

/-- The byte of a character that has one. -/
def asciiByte (c : Char) : UInt8 := UInt8.ofNat c.toNat

/-- A number in decimal. -/
def decimal (n : Nat) : Bytes := (Nat.toDigits 10 n).map asciiByte

/-- A digit is its code. -/
theorem asciiByte_digitChar {d : Nat} (h : d < 10) : asciiByte d.digitChar = 48 + UInt8.ofNat d := by
  have hall : ∀ d < 10, asciiByte d.digitChar = 48 + UInt8.ofNat d := by decide
  exact hall d h

/-- The last digit comes off the end. -/
theorem decimal_eq (n : Nat) :
    decimal n = (if n / 10 = 0 then [] else decimal (n / 10)) ++ [48 + UInt8.ofNat (n % 10)] := by
  rw [← asciiByte_digitChar (Nat.mod_lt n (by decide)), decimal, Nat.toDigits_eq_if (by decide)]
  by_cases hn : n < 10
  · rw [if_pos hn, if_pos (Nat.div_eq_of_lt hn), Nat.mod_eq_of_lt hn]
    rfl
  · rw [if_neg hn, if_neg (by omega), List.map_append]
    rfl

/-- A number that is not zero begins with another digit. -/
theorem head_toDigits {n : Nat} (hn : 0 < n) : (Nat.toDigits 10 n).head? ≠ some '0' := by
  induction n using Nat.strongRecOn with
  | ind n ih =>
    rw [Nat.toDigits_eq_if (by decide)]
    split
    · have hall : ∀ d < 10, 0 < d → [d.digitChar].head? ≠ some '0' := by decide
      exact hall n ‹_› hn
    · rw [List.head?_append_of_ne_nil _ Nat.toDigits_ne_nil]
      exact ih (n / 10) (by omega) (by omega)

theorem digits_toDigits (n : Nat) : Text.Digits (Nat.toDigits 10 n) n :=
  ⟨Nat.toDigits_ne_nil, fun _ hc => Nat.isDigit_of_mem_toDigits (by decide) (by decide) hc,
    Nat.ofDigitChars_ten_toDigits.symm⟩

/-- A number that is written in decimal is read back. -/
theorem fromStr_toDigits {bits n : Nat} (h : n < 2 ^ bits) : Text.fromStr bits (Nat.toDigits 10 n) = some n := by
  rw [Text.fromStr_of_digits (digits_toDigits n), if_pos h]

/-! ## Into the array -/

/-- What the array ends in, from where the digits begin. -/
theorem writeDigits_eq (digits : Bytes) {value first : Nat} (hlen : first ≤ digits.length) (hv : value < 10 ^ first)
    (hf : 0 < first) : (writeDigits digits value first).1.drop (writeDigits digits value first).2
      = decimal value ++ digits.drop first := by
  induction first generalizing digits value with
  | zero => omega
  | succ first ih =>
    have hdrop : (digits.set first (48 + UInt8.ofNat (value % 10))).drop first
        = (48 + UInt8.ofNat (value % 10)) :: digits.drop (first + 1) := by
      rw [List.drop_eq_getElem_cons (by rw [List.length_set]; omega), List.getElem_set_self,
        List.drop_set_of_lt (Nat.lt_succ_self first)]
    rw [writeDigits, decimal_eq]
    split
    · exact hdrop
    · have hv' : value / 10 < 10 ^ first := by rw [Nat.pow_succ] at hv; omega
      have hf' : 0 < first := by
        rcases Nat.eq_zero_or_pos first with rfl | h
        · omega
        · exact h
      rw [ih _ (by rw [List.length_set]; omega) hv' hf', hdrop, List.append_assoc, List.singleton_append]

/-- A number below `10 ^ k` has at most `k` digits. -/
theorem length_decimal_le {n k : Nat} (hk : 0 < k) (h : n < 10 ^ k) : (decimal n).length ≤ k := by
  rw [decimal, List.length_map]
  exact (Nat.length_toDigits_le_iff (by decide) hk).mpr h

/-! ## Into the entry -/

/-- The bytes replace as many as they are. -/
theorem copyBytes_eq {before old after digits : Bytes} (h : old.length = digits.length) :
    copyBytes (before ++ old ++ after) before.length digits
      = (before ++ digits ++ after, (before ++ digits).length) := by
  induction digits generalizing before old with
  | nil =>
    obtain rfl := List.length_eq_zero_iff.mp h
    simp [copyBytes]
  | cons digit digits ih =>
    obtain ⟨o, old, rfl⟩ := List.exists_cons_of_length_eq_add_one h
    have hset : (before ++ o :: old ++ after).set before.length digit = before ++ [digit] ++ old ++ after := by
      simp
    have hlen : before.length + 1 = (before ++ [digit]).length := by simp
    rw [copyBytes, hset, hlen, ih (by simpa using h)]
    simp

/-- The digits replace as many bytes as they are, and a NUL the next one. -/
theorem writePid_eq {before old after : Bytes} (pid : Int) {z : UInt8} (hlt : pid.natAbs < 10 ^ pidDigits)
    (h : old.length = (decimal pid.natAbs).length) :
    writePid (before ++ old ++ z :: after) before.length pid = before ++ decimal pid.natAbs ++ 0 :: after := by
  have hdigits := writeDigits_eq (List.replicate pidDigits 0) (by simp) hlt (by decide)
  have hend : (List.replicate pidDigits (0 : UInt8)).drop pidDigits = [] := rfl
  rw [hend, List.append_nil] at hdigits
  unfold writePid
  dsimp only
  rw [hdigits, copyBytes_eq h]
  simp

theorem zero_notMem_decimal (n : Nat) : (0 : UInt8) ∉ decimal n := by
  induction n using Nat.strongRecOn with
  | ind n ih =>
    have hall : ∀ d < 10, (0 : UInt8) ≠ 48 + UInt8.ofNat d := by decide
    rw [decimal_eq, List.mem_append, List.mem_singleton]
    rintro (h | h)
    · split at h
      · exact absurd h List.not_mem_nil
      · exact ih (n / 10) (by omega) h
    · exact hall (n % 10) (Nat.mod_lt n (by decide)) h

namespace Image

variable {environ exec : List Bytes} {env : List (Bytes × Bytes)} {image : Image} {pid : Int}

theorem getElem?_last (texts : List Bytes) (text : Bytes) :
    (texts.map (· ++ [0]) ++ [text])[texts.length]? = some text := by
  rw [List.getElem?_append_right (by simp)]
  simp

/-- The place for the pid is the last string, and has room for the digits. -/
theorem place_for_pid (environ exec : List Bytes) (env : List (Bytes × Bytes)) {n : Nat} (hn : n < 10 ^ pidDigits) :
    (laidOut environ exec env true).listenPid = some ((stored environ exec env).length, Oxinit.listenPid.length)
      ∧ ∃ old z after, (laidOut environ exec env true).storage
          = (stored environ exec env).map (· ++ [0]) ++ [Oxinit.listenPid ++ old ++ z :: after]
        ∧ old.length = (decimal n).length := by
  have hlen : (decimal n).length ≤ pidDigits := length_decimal_le (by decide) hn
  refine ⟨by simp [laidOut, slot], List.replicate (decimal n).length 0, 0,
    List.replicate (pidDigits - (decimal n).length) 0, ?_, List.length_replicate⟩
  rw [laidOut, slot, if_pos rfl, ← List.replicate_succ, List.append_assoc, List.replicate_append_replicate,
    show (decimal n).length + (pidDigits - (decimal n).length + 1) = pidDigits + 1 by omega]

/-- To fill the slot is to write the pid's digits and nothing else. -/
theorem filled_eq (environ exec : List Bytes) (env : List (Bytes × Bytes)) {n : Nat} (hn : n < 10 ^ pidDigits) :
    ∃ after, (laidOut environ exec env true).filled n =
    { laidOut environ exec env true with
      storage := (stored environ exec env).map (· ++ [0]) ++ [Oxinit.listenPid ++ decimal n ++ 0 :: after] } := by
  obtain ⟨hslot, old, z, after, hstorage, hold⟩ := place_for_pid environ exec env hn
  refine ⟨after, ?_⟩
  unfold filled
  split
  · rename_i he
    cases hslot.symm.trans he
  · rename_i index offset he
    cases hslot.symm.trans he
    rw [hstorage, getElem?_last]
    dsimp only
    rw [writePid_eq n hn hold, List.set_append_right _ _ (by simp)]
    simp

theorem zero_notMem_slot (n : Nat) : 0 ∉ Oxinit.listenPid ++ decimal n := by
  rw [List.mem_append, not_or]
  exact ⟨by decide, zero_notMem_decimal n⟩

/-- `LISTEN_PID` is the pid in decimal: the digits stand behind the name, a NUL
after them inside the entry, and nothing else is written. -/
theorem pid_is_written (h : build environ exec env true = some image) (hp : 1 ≤ pid) (hlt : pid < 2 ^ 31) :
    (∃ index offset entry, image.listenPid = some (index, offset) ∧ image.storage[index]? = some entry
        ∧ offset + (decimal pid.toNat).length < entry.length
        ∧ writePid entry offset pid
          = entry.take offset ++ decimal pid.toNat ++ 0 :: entry.drop (offset + (decimal pid.toNat).length + 1)
        ∧ cString (writePid entry offset pid) = Oxinit.listenPid ++ decimal pid.toNat)
      ∧ (Nat.toDigits 10 pid.toNat).head? ≠ some '0'
      ∧ Text.fromStr 32 (Nat.toDigits 10 pid.toNat) = some pid.toNat := by
  obtain ⟨-, -, rfl⟩ := of_build h
  obtain ⟨n, rfl⟩ : ∃ n : Nat, pid = n := ⟨pid.toNat, by omega⟩
  have hn : n < 10 ^ pidDigits := by
    show n < 10 ^ 10
    omega
  obtain ⟨hslot, old, z, after, hstorage, hold⟩ := place_for_pid environ exec env hn
  have hwrite : writePid (Oxinit.listenPid ++ old ++ z :: after) Oxinit.listenPid.length n = _ := writePid_eq n hn hold
  have hdrop :
      (Oxinit.listenPid ++ old ++ z :: after).drop (Oxinit.listenPid.length + (decimal n).length + 1) = after := by
    rw [← hold, ← List.length_append, ← List.drop_drop, List.drop_left]
    rfl
  simp only [Int.toNat_natCast]
  refine ⟨⟨_, _, _, hslot, by rw [hstorage, getElem?_last], ?_, ?_, ?_⟩, head_toDigits (by omega), ?_⟩
  · simp [hold]
  · rw [hwrite, hdrop, List.append_assoc Oxinit.listenPid old, List.take_left]
    rfl
  · rw [hwrite]
    exact cString_terminated (zero_notMem_slot n) after
  · rw [Text.fromStr_of_digits (digits_toDigits n), if_pos (by omega)]

/-- What the service is handed when it listens: its argv, and the variables, the
pid last. -/
theorem execve_reads {n : Nat} (h : build environ exec env true = some image) (hn : n < 10 ^ pidDigits) :
    (image.filled n).strings image.argv = exec
      ∧ (image.filled n).strings image.envp = (inherited environ env ++ env).map entry ++ slot true (decimal n) := by
  obtain ⟨-, hstored, rfl⟩ := of_build h
  obtain ⟨after, hfilled⟩ := filled_eq environ exec env hn
  rw [stored_eq] at hstored
  obtain ⟨hargv, henvp⟩ := strings_of_storage ((laidOut environ exec env true).filled n)
    (by rw [hfilled, stored_eq]) hstored
  have hlen : ((laidOut environ exec env true).filled n).storage.length
      = (laidOut environ exec env true).storage.length := by
    rw [hfilled]
    simp [laidOut, slot]
  have hlast : [Oxinit.listenPid ++ decimal n ++ 0 :: after].map cString = slot true (decimal n) :=
    congrArg (fun text => [text]) (cString_terminated (zero_notMem_slot n) after)
  rw [hlen, hlast] at henvp
  exact ⟨hargv, henvp⟩

theorem pid_is_written_sample :
    (∃ entry, writePid entry 11 4711 = entry.take 11 ++ decimal 4711 ++ 0 :: entry.drop 16
        ∧ cString (writePid entry 11 4711) = bytes "LISTEN_PID=4711")
      ∧ Text.fromStr 32 (Nat.toDigits 10 4711) = some 4711 := by
  have hbuild : build [] [bytes "/bin/a"] [] true = some (laidOut [] [bytes "/bin/a"] [] true) := rfl
  obtain ⟨⟨index, offset, entry, hslot, -, -, hwrite, hread⟩, -, hparse⟩ :=
    pid_is_written hbuild (show (1 : Int) ≤ 4711 by decide) (by decide)
  cases hslot
  exact ⟨⟨entry, hwrite, hread⟩, hparse⟩

end Image

end Oxinit
