import Mathlib.Data.ZMod.Basic

/-!
# Field elements (`Felt`, winter-math's `f64::BaseElement`)

`Felt` is the field of the integers modulo `p = 2^64 - 2^32 + 1`. `Felt::new(n)` takes
a `u64` to its residue and `as_int` returns the canonical representative, below `p`.
A `Word` is four field elements. The memory chiplet (processor/src/memory/mod.rs)
stores words, reads clocks and addresses back with `as_int`, and subtracts.
-/

namespace Miden

/-- `Felt::MODULUS`. -/
def modulus : Nat := 2 ^ 64 - 2 ^ 32 + 1

instance : NeZero modulus := ⟨by decide⟩

/-- `Felt`. -/
abbrev Felt := ZMod modulus

/-- `Felt::new`: the residue of a `u64`. -/
def Felt.new (n : Nat) : Felt := n

/-- `Felt::as_int`: the canonical representative. -/
def Felt.asInt (x : Felt) : Nat := x.val

/-- `Word`: four field elements. -/
abbrev Word := Fin 4 → Felt

theorem Felt.asInt_lt (x : Felt) : x.asInt < modulus := ZMod.val_lt x

@[simp] theorem Felt.asInt_new {n : Nat} (h : n < modulus) : (Felt.new n).asInt = n :=
  ZMod.val_natCast_of_lt h

@[simp] theorem Felt.new_asInt (x : Felt) : Felt.new x.asInt = x := ZMod.natCast_zmod_val x

theorem Felt.asInt_inj {x y : Felt} : x.asInt = y.asInt ↔ x = y :=
  ⟨fun h => by rw [← Felt.new_asInt x, h, Felt.new_asInt], congrArg _⟩

theorem Felt.new_sub {a b : Nat} (h : b ≤ a) : Felt.new (a - b) = Felt.new a - Felt.new b :=
  Nat.cast_sub h

@[simp] theorem Felt.new_zero : Felt.new 0 = 0 := Nat.cast_zero

@[simp] theorem Felt.new_one : Felt.new 1 = 1 := Nat.cast_one

end Miden
