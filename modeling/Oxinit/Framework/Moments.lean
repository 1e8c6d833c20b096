import Mathlib.Data.Nat.Find
import Mathlib.Order.Bounds.Basic

/-!
# The next moment

A schedule names some moments, and the next one is the first of them at or
after a time. If it names those with one remainder, that is the one less than
a period away.
-/

namespace Framework

/-- `t` is the first moment named at or after `now`. -/
def IsNext (Names : Nat → Prop) (now t : Nat) : Prop := IsLeast {x | now ≤ x ∧ Names x} t

namespace IsNext

variable {Names : Nat → Prop} {now now' s t step r : Nat}

theorem le (h : IsNext Names now t) : now ≤ t := h.1.1

theorem named (h : IsNext Names now t) : Names t := h.1.2

theorem least (h : IsNext Names now t) (hn : now ≤ s) (hs : Names s) : t ≤ s := h.2 ⟨hn, hs⟩

/-- Before a moment there is a next one. -/
theorem exists_le (hn : now ≤ s) (hs : Names s) : ∃ t, IsNext Names now t ∧ t ≤ s := by
  classical
  have hex : ∃ x, now ≤ x ∧ Names x := ⟨s, hn, hs⟩
  exact ⟨Nat.find hex, ⟨Nat.find_spec hex, fun _ h => Nat.find_min' hex h⟩, Nat.find_min' hex ⟨hn, hs⟩⟩

/-- The next moment comes no sooner if it is asked for later. -/
theorem mono (h : IsNext Names now t) (h' : IsNext Names now' s) (hle : now ≤ now') : t ≤ s :=
  h.least (Nat.le_trans hle h'.le) h'.named

theorem unique (h : IsNext Names now t) (h' : IsNext Names now s) : t = s :=
  Nat.le_antisymm (h.mono h' (Nat.le_refl _)) (h'.mono h (Nat.le_refl _))

/-- The next moment of a period, from where it falls. -/
theorem of_mod (hle : now ≤ t) (hlt : t < now + step) (hr : t % step = r) : IsNext (· % step = r) now t := by
  refine ⟨⟨hle, hr⟩, fun s ⟨hs, hsr⟩ => Nat.le_of_not_lt fun hst => ?_⟩
  have hmod : (t - s) % step = 0 := Nat.sub_mod_eq_zero_of_mod_eq (hr.trans hsr.symm)
  rw [Nat.mod_eq_of_lt (by omega)] at hmod
  omega

end IsNext

end Framework
