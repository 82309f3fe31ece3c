import Mathlib.Algebra.Order.Ring.Nat

/-!
# Unsigned integers of a debug build

The sources compute on `usize`, `u64` and `u32`. The model keeps their values as `Nat` and
makes the two ways an operation can leave its width fallible: a subtraction that
underflows, and a product or a sum that overflows. A debug build panics on both; the
checked forms (`checked_mul`, `checked_add`) return `None`. Either way the model returns
`none`.
-/

namespace Miden

/-- Unsigned subtraction (`usize`, `u64`, `u32`): `none` on underflow. A difference that does
not underflow is at most the minuend, so the width plays no part. -/
def uintSub (a b : Nat) : Option Nat := if b ≤ a then some (a - b) else none

/-- A result of `w`-bit unsigned arithmetic: `none` when it overflows. -/
def uintFit (w n : Nat) : Option Nat := if n < 2 ^ w then some n else none

@[simp] theorem uintSub_eq_some {a b c : Nat} : uintSub a b = some c ↔ b ≤ a ∧ c = a - b := by
  unfold uintSub
  split_ifs with h
  · exact ⟨fun hc => ⟨h, (Option.some.inj hc).symm⟩, fun hc => hc.2 ▸ rfl⟩
  · exact ⟨nofun, fun hc => absurd hc.1 h⟩

theorem uintSub_of_le {a b : Nat} (h : b ≤ a) : uintSub a b = some (a - b) := if_pos h

theorem uintFit_of_lt {w n : Nat} (h : n < 2 ^ w) : uintFit w n = some n := if_pos h

theorem uintFit_of_le {w n : Nat} (h : 2 ^ w ≤ n) : uintFit w n = none := if_neg (Nat.not_lt.2 h)

theorem uintFit_eq_some {w n m : Nat} (h : uintFit w n = some m) : m = n := by
  unfold uintFit at h
  split_ifs at h
  exact (Option.some.inj h).symm

end Miden
