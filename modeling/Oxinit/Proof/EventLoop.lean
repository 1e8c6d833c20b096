import Mathlib.Algebra.GroupWithZero.Nat
import Oxinit.Model.EventLoop

/-!
# Tokens

A token is a word of two halves, so none stands for two descriptors, whatever
their ids: `wait` reports each registration that is ready, and only those.
-/

namespace Oxinit.EventLoop

/-! ## Words of two halves -/

/-- A word of two halves. -/
def word (high : UInt64) (low : UInt32) : UInt64 := (high <<< kindShift) ||| low.toUInt64

variable {high : UInt64}

theorem kindShift_eq : kindShift.toNat % 64 = 32 := rfl

/-- A word as its two halves. -/
theorem word_toNat (h : high.toNat < 2 ^ 32) (low : UInt32) :
    (word high low).toNat = high.toNat * 2 ^ 32 + low.toNat := by
  have hlow := low.toNat_lt
  rw [word, UInt64.toNat_or, UInt64.toNat_shiftLeft, UInt32.toNat_toUInt64, kindShift_eq,
    Nat.mod_eq_of_lt (by rw [Nat.shiftLeft_eq]; omega), ← Nat.shiftLeft_add_eq_or_of_lt (by simpa using hlow),
    Nat.shiftLeft_eq]

theorem word_high (h : high.toNat < 2 ^ 32) (low : UInt32) : word high low >>> kindShift = high := by
  have hlow := low.toNat_lt
  apply UInt64.toNat_inj.mp
  rw [UInt64.toNat_shiftRight, word_toNat h, kindShift_eq, Nat.shiftRight_eq_div_pow]
  omega

theorem word_low (h : high.toNat < 2 ^ 32) (low : UInt32) : (word high low).toUInt32 = low := by
  have hlow := low.toNat_lt
  apply UInt32.toNat_inj.mp
  rw [UInt64.toNat_toUInt32, word_toNat h]
  omega

/-- Every word is one. -/
theorem eq_word (t : UInt64) : t = word (t >>> kindShift) t.toUInt32 := by
  have ht := t.toNat_lt
  have hhigh : (t >>> kindShift).toNat = t.toNat / 2 ^ 32 := by
    rw [UInt64.toNat_shiftRight, kindShift_eq, Nat.shiftRight_eq_div_pow]
  apply UInt64.toNat_inj.mp
  rw [word_toNat (by omega), hhigh, UInt64.toNat_toUInt32]
  omega

/-! ## Tokens -/

namespace Source

theorem kind_lt (s : Source) : s.kindAndId.1.toNat < 2 ^ 32 := by
  cases s <;> simp only [kindAndId] <;> decide

/-- The sources that there is one of each. -/
theorem fixed_eq_some_iff {id : UInt32} {s : Source} : fixed id = some s ↔ s.kindAndId = (kindFixed, id) := by
  constructor
  · intro h
    unfold fixed at h
    repeat' split at h
    all_goals cases h
    all_goals simp only [kindAndId, *]
  · intro h
    cases s <;> cases h <;> rfl

/-- A word is decoded by its halves. -/
theorem fromToken_word {kind : UInt64} (h : kind.toNat < 2 ^ 32) {id : UInt32} {s : Source} :
    fromToken (word kind id) = some s ↔ s.kindAndId = (kind, id) := by
  simp only [fromToken, word_high h, word_low h]
  split
  · next hk => rw [hk, fixed_eq_some_iff]
  · next hk =>
    -- No descriptor that there is one of has another kind.
    constructor
    · intro hs
      repeat' split at hs
      all_goals cases hs
      all_goals simp only [kindAndId, *]
    · intro hs
      cases s <;> cases hs <;> first | rfl | exact absurd rfl hk

theorem token_eq (s : Source) : s.token = word s.kindAndId.1 s.kindAndId.2 := rfl

/-- A token stands for the source that it was made of. -/
theorem fromToken_token (s : Source) : fromToken s.token = some s := by
  rw [token_eq, fromToken_word s.kind_lt]

/-- A token stands for one descriptor, and any other word for none. -/
theorem fromToken_eq_some_iff (token : UInt64) (s : Source) : fromToken token = some s ↔ token = s.token := by
  refine ⟨fun h => ?_, fun h => h ▸ fromToken_token s⟩
  have hhigh : (token >>> kindShift).toNat < 2 ^ 32 := by
    have ht := token.toNat_lt
    rw [UInt64.toNat_shiftRight, kindShift_eq, Nat.shiftRight_eq_div_pow]
    omega
  rw [eq_word token, fromToken_word hhigh] at h
  rw [eq_word token, token_eq, h]

end Source

/-- The loop is told of each registration that is ready, in the order in which epoll reports them. -/
theorem wait_map_token (ready : List Source) : wait (ready.map Source.token) = ready := by
  have hsome : Source.fromToken ∘ Source.token = some := funext Source.fromToken_token
  rw [wait, List.filterMap_map, hsome, List.filterMap_some]

end Oxinit.EventLoop
