import Mathlib.Data.Nat.BitIndices
import Mathlib.Algebra.Order.Ring.Nat

/-!
# Forest arithmetic (mmr/full.rs:338-385)

A forest is a `usize` whose set bits are its trees: bit `b` stands for a perfect
tree of `2^b` leaves, and the trees own consecutive ranges of leaf positions,
from the highest bit to the lowest. `leaf_to_corresponding_tree` finds the tree
that owns a position, `high_bitmask` isolates the trees before it and
`nodes_in_forest` counts the buffer entries of a forest.

Integers are `Nat`. `high_bitmask` keeps the `usize` width, because its shift
of `usize::MAX` drops the bits above it and saturates to zero past it.
-/

namespace Miden.Mmr

/-- `usize::BITS`. -/
def usizeBits : Nat := 64

/-- `usize::MAX`. -/
def usizeMax : Nat := 2 ^ usizeBits - 1

/-! ### Set bits -/

/-- The positions of the set bits of `value`, lowest first, counted from `i`: each round
reads the low bit and halves `value`, and `fuel` bounds the rounds. -/
def bitsFrom : Nat → Nat → Nat → List Nat
  | 0, _, _ => []
  | fuel + 1, i, value =>
    if value = 0 then []
    else (if value % 2 = 1 then [i] else []) ++ bitsFrom fuel (i + 1) (value / 2)

/-- Modelled from the spec: `TrueBitPositionIterator::new(value)` (`bit.rs`, not among the
sources), collected: the positions of the set bits, lowest first. -/
def trueBitPositions (value : Nat) : List Nat := bitsFrom value 0 value

/-- `usize::count_ones`. -/
def countOnes (value : Nat) : Nat := (trueBitPositions value).length

theorem bitsFrom_eq : ∀ (fuel i value : Nat), value ≤ fuel →
    bitsFrom fuel i value = value.bitIndices.map (· + i)
  | 0, i, value, h => by
    obtain rfl : value = 0 := by omega
    simp [bitsFrom]
  | fuel + 1, i, value, h => by
    rcases Nat.eq_zero_or_pos value with rfl | h0
    · simp [bitsFrom]
    rw [bitsFrom, if_neg (by omega)]
    rcases Nat.even_or_odd' value with ⟨n, rfl | rfl⟩
    · rw [if_neg (by omega), show 2 * n / 2 = n by omega, bitsFrom_eq fuel _ n (by omega),
        Nat.bitIndices_two_mul]
      simp [Function.comp_def, Nat.add_assoc, Nat.add_comm 1]
    · rw [if_pos (by omega), show (2 * n + 1) / 2 = n by omega, bitsFrom_eq fuel _ n (by omega),
        Nat.bitIndices_two_mul_add_one]
      simp [Function.comp_def, Nat.add_assoc, Nat.add_comm 1]

theorem trueBitPositions_eq_bitIndices (n : Nat) : trueBitPositions n = n.bitIndices := by
  rw [trueBitPositions, bitsFrom_eq n 0 n le_rfl]
  simp

theorem mem_bitIndices {n i : Nat} : i ∈ n.bitIndices ↔ n.testBit i = true := by
  induction n using Nat.binaryRec generalizing i with
  | z => simp
  | f b n ih =>
    have h0 : 2 * n / 2 = n := by omega
    have h1 : (2 * n + 1) / 2 = n := by omega
    have h2 : (2 * n + 1) % 2 = 1 := by omega
    cases b <;> cases i <;> simp [Nat.testBit_succ, h0, h1, h2, ih]

@[simp] theorem mem_trueBitPositions {n i : Nat} :
    i ∈ trueBitPositions n ↔ n.testBit i = true := by
  rw [trueBitPositions_eq_bitIndices, mem_bitIndices]

theorem trueBitPositions_sorted (n : Nat) : (trueBitPositions n).Sorted (· < ·) := by
  rw [trueBitPositions_eq_bitIndices]
  exact Nat.bitIndices_sorted

theorem sum_trueBitPositions (n : Nat) : ((trueBitPositions n).map (2 ^ ·)).sum = n := by
  rw [trueBitPositions_eq_bitIndices]
  exact Nat.twoPowSum_bitIndices n

@[simp] theorem trueBitPositions_two_pow (b : Nat) : trueBitPositions (2 ^ b) = [b] := by
  rw [trueBitPositions_eq_bitIndices, Nat.bitIndices_two_pow]

@[simp] theorem trueBitPositions_zero : trueBitPositions 0 = [] := rfl

theorem land_two_pow_ne_zero {n i : Nat} : n &&& 2 ^ i ≠ 0 ↔ n.testBit i = true := by
  constructor
  · intro h
    by_contra hb
    refine h (Nat.eq_of_testBit_eq fun j => ?_)
    rw [Nat.testBit_land, Nat.testBit_two_pow, Nat.zero_testBit]
    by_cases hj : i = j
    · subst hj; simpa using hb
    · simp [hj]
  · intro hb h
    have := congrArg (·.testBit i) h
    simp [Nat.testBit_land, hb, Nat.testBit_two_pow_self] at this

theorem exists_trailing_ones (n : Nat) : ∃ t m, n + 1 = 2 ^ t * (2 * m + 1) := by
  induction n using Nat.strong_induction_on with
  | _ n ih =>
    rcases Nat.even_or_odd' n with ⟨k, rfl | rfl⟩
    · exact ⟨0, k, by simp⟩
    · obtain ⟨t, m, hkm⟩ := ih k (by omega)
      refine ⟨t + 1, m, ?_⟩
      rw [Nat.pow_succ, Nat.mul_comm (2 ^ t) 2, Nat.mul_assoc, ← hkm]
      omega

theorem two_pow_mul_odd (t m : Nat) : 2 ^ t * (2 * m + 1) = 2 ^ (t + 1) * m + 2 ^ t := by
  rw [Nat.mul_add, Nat.mul_one, Nat.pow_succ, Nat.mul_assoc]

theorem trueBitPositions_trailing (t m : Nat) :
    trueBitPositions (2 ^ t * (2 * m + 1) - 1) =
      List.range t ++ (trueBitPositions m).map (· + (t + 1)) := by
  simp only [trueBitPositions_eq_bitIndices]
  induction t with
  | zero => simp [Nat.add_sub_cancel, Function.comp_def]
  | succ t ih =>
    have hpos : 0 < 2 ^ t * (2 * m + 1) := Nat.mul_pos (Nat.two_pow_pos t) (by omega)
    have h : 2 ^ (t + 1) * (2 * m + 1) - 1 = 2 * (2 ^ t * (2 * m + 1) - 1) + 1 := by
      rw [Nat.pow_succ, Nat.mul_comm (2 ^ t) 2, Nat.mul_assoc]
      omega
    rw [h, Nat.bitIndices_two_mul_add_one, ih, List.range_succ_eq_map]
    simp [Function.comp_def, Nat.add_assoc]

theorem trueBitPositions_two_pow_mul_odd (t m : Nat) :
    trueBitPositions (2 ^ t * (2 * m + 1)) = t :: (trueBitPositions m).map (· + (t + 1)) := by
  simp only [trueBitPositions_eq_bitIndices, Nat.bitIndices_two_pow_mul,
    Nat.bitIndices_two_mul_add_one]
  simp [Function.comp_def, Nat.add_comm, Nat.add_left_comm]

theorem trueBitPositions_two_pow_mul (t m : Nat) :
    trueBitPositions (2 ^ t * m) = (trueBitPositions m).map (· + t) := by
  simp only [trueBitPositions_eq_bitIndices, Nat.bitIndices_two_pow_mul]

theorem trueBitPositions_two_pow_mul_add (q : Nat) :
    ∀ (k r : Nat), r < 2 ^ k →
      trueBitPositions (2 ^ k * q + r) = trueBitPositions r ++ (trueBitPositions q).map (· + k)
  | 0, r, hr => by
    obtain rfl : r = 0 := by simpa using hr
    simp [trueBitPositions_eq_bitIndices]
  | k + 1, r, hr => by
    have hq : 2 ^ (k + 1) * q = 2 * (2 ^ k * q) := by
      rw [Nat.pow_succ, Nat.mul_comm (2 ^ k) 2, Nat.mul_assoc]
    have hk : 2 ^ (k + 1) = 2 * 2 ^ k := by rw [Nat.pow_succ, Nat.mul_comm]
    rcases Nat.even_or_odd' r with ⟨r', rfl | rfl⟩
    · have ih := trueBitPositions_two_pow_mul_add q k r' (by omega)
      simp only [trueBitPositions_eq_bitIndices] at ih ⊢
      rw [show 2 ^ (k + 1) * q + 2 * r' = 2 * (2 ^ k * q + r') by omega, Nat.bitIndices_two_mul,
        Nat.bitIndices_two_mul, ih]
      simp [Function.comp_def, Nat.add_assoc]
    · have ih := trueBitPositions_two_pow_mul_add q k r' (by omega)
      simp only [trueBitPositions_eq_bitIndices] at ih ⊢
      rw [show 2 ^ (k + 1) * q + (2 * r' + 1) = 2 * (2 ^ k * q + r') + 1 by omega,
        Nat.bitIndices_two_mul_add_one, Nat.bitIndices_two_mul_add_one, ih]
      simp [Function.comp_def, Nat.add_assoc]

theorem mod_two_pow_succ_of_testBit {n b : Nat} (h : n.testBit b = true) :
    n % 2 ^ (b + 1) = 2 ^ b + n % 2 ^ b := by
  have h1 : n / 2 ^ b % 2 = 1 := by simpa [Nat.testBit_to_div_mod] using h
  rw [Nat.mod_pow_succ, h1]
  omega

theorem trueBitPositions_split {n b : Nat} (h : n.testBit b = true) :
    trueBitPositions n = trueBitPositions (n % 2 ^ b) ++ b ::
      (trueBitPositions (n >>> (b + 1))).map (· + (b + 1)) := by
  have hn : n = 2 ^ (b + 1) * (n >>> (b + 1)) + n % 2 ^ (b + 1) := by
    rw [Nat.shiftRight_eq_div_pow, Nat.div_add_mod]
  have hlow : trueBitPositions (2 ^ b + n % 2 ^ b) = trueBitPositions (n % 2 ^ b) ++ [b] := by
    simpa [show trueBitPositions 1 = [0] by decide] using
      trueBitPositions_two_pow_mul_add 1 b (n % 2 ^ b) (Nat.mod_lt _ (Nat.two_pow_pos _))
  conv_lhs => rw [hn, trueBitPositions_two_pow_mul_add _ _ _ (Nat.mod_lt _ (Nat.two_pow_pos _)),
    mod_two_pow_succ_of_testBit h, hlow]
  simp

/-! ### `nodes_in_forest` -/

/-- `nodes_in_forest` (full.rs:378): the entries of the postorder buffer of a forest. -/
def nodesInForest (forest : Nat) : Nat := forest * 2 - countOnes forest

theorem sum_tree_sizes (bits : List Nat) :
    (bits.map fun b => 2 ^ (b + 1) - 1).sum + bits.length = (bits.map (2 ^ ·)).sum * 2 := by
  induction bits with
  | nil => rfl
  | cons b bits ih =>
    simp only [List.map_cons, List.sum_cons, List.length_cons]
    have h1 := @Nat.one_le_two_pow b
    have h2 : 2 ^ (b + 1) = 2 ^ b * 2 := Nat.pow_succ 2 b
    omega

theorem nodesInForest_eq_sum (n : Nat) :
    nodesInForest n = ((trueBitPositions n).map fun b => 2 ^ (b + 1) - 1).sum := by
  have h := sum_tree_sizes (trueBitPositions n)
  rw [sum_trueBitPositions] at h
  simp only [nodesInForest, countOnes]
  omega

@[simp] theorem nodesInForest_two_pow (b : Nat) : nodesInForest (2 ^ b) = 2 ^ (b + 1) - 1 := by
  simp [nodesInForest_eq_sum]

theorem nodesInForest_zero : nodesInForest 0 = 0 := rfl

theorem trueBitPositions_or_perm {a c : Nat} (h : a &&& c = 0) :
    (trueBitPositions (a ||| c)).Perm (trueBitPositions a ++ trueBitPositions c) := by
  have hdisj : ∀ i, ¬(a.testBit i = true ∧ c.testBit i = true) := fun i hi => by
    simpa [hi.1, hi.2] using congrArg (Nat.testBit · i) h
  refine (List.perm_ext_iff_of_nodup (trueBitPositions_sorted _).nodup
    (List.nodup_append.2 ⟨(trueBitPositions_sorted a).nodup, (trueBitPositions_sorted c).nodup,
      fun _ hi hj => hdisj _ ⟨mem_trueBitPositions.1 hi, mem_trueBitPositions.1 hj⟩⟩)).2
    fun i => ?_
  simp [Nat.testBit_or]

/-- Below `usize::MAX / 2` the doubling fits in a `usize` and the subtraction of the set bits
does not underflow, the count is the sum of the tree sizes over the set bits, and disjoint
forests (the trees before a position and those after it) count apart. -/
theorem nodesInForest_sum_of_trees :
    (∀ f, f ≤ usizeMax / 2 → f * 2 ≤ usizeMax ∧ countOnes f ≤ f * 2 ∧
      nodesInForest f = ((trueBitPositions f).map fun b => 2 ^ (b + 1) - 1).sum) ∧
    ∀ a c, a &&& c = 0 → nodesInForest (a ||| c) = nodesInForest a + nodesInForest c := by
  refine ⟨fun f hf => ⟨by omega, ?_, nodesInForest_eq_sum f⟩, fun a c h => ?_⟩
  · have h := sum_tree_sizes (trueBitPositions f)
    rw [sum_trueBitPositions] at h
    unfold countOnes
    omega
  · rw [nodesInForest_eq_sum, nodesInForest_eq_sum, nodesInForest_eq_sum,
      ((trueBitPositions_or_perm h).map _).sum_eq, List.map_append, List.sum_append]

/-- The largest forest the bound admits: its buffer fills `usize` but for 64 entries. -/
example : nodesInForest (usizeMax / 2) = usizeMax - 64 := by decide

theorem two_pow_shiftLeft_one (i : Nat) : 2 ^ i <<< 1 = 2 ^ (i + 1) := by
  rw [Nat.shiftLeft_eq, pow_one, ← Nat.pow_succ]

@[simp] theorem countOnes_two_pow (i : Nat) : countOnes (2 ^ i) = 1 := by
  simp [countOnes]

/-! ### `high_bitmask` -/

/-- `high_bitmask` (full.rs:365): the bits at and above `bit`, zero once `bit` is past
the word. -/
def highBitmask (bit : Nat) : Nat :=
  if bit > usizeBits - 1 then 0 else (usizeMax <<< bit) % 2 ^ usizeBits

theorem testBit_highBitmask (bit j : Nat) :
    (highBitmask bit).testBit j = (decide (bit ≤ j) && decide (j < usizeBits)) := by
  unfold highBitmask usizeMax
  split
  · simp only [Nat.zero_testBit]
    by_cases h : bit ≤ j
    · simp [h]; omega
    · simp [h]
  · simp only [Nat.testBit_mod_two_pow, Nat.testBit_shiftLeft, Nat.testBit_two_pow_sub_one]
    by_cases h1 : bit ≤ j <;> by_cases h2 : j < usizeBits <;> simp [h1, h2]
    omega

theorem land_highBitmask {f : Nat} (hf : f < 2 ^ usizeBits) (bit : Nat) :
    f &&& highBitmask bit = f >>> bit <<< bit := by
  refine Nat.eq_of_testBit_eq fun j => ?_
  simp only [Nat.testBit_land, testBit_highBitmask, Nat.testBit_shiftLeft, Nat.testBit_shiftRight]
  by_cases h1 : bit ≤ j
  · by_cases h2 : j < usizeBits
    · simp [h1, h2, Nat.add_sub_cancel' h1]
    · have : f.testBit j = false :=
        Nat.testBit_lt_two_pow (lt_of_lt_of_le hf (Nat.pow_le_pow_right (by decide) (by omega)))
      simp [h1, h2, Nat.add_sub_cancel' h1, this]
  · simp [h1]

/-! ### `leaf_to_corresponding_tree` -/

/-- `leaf_to_corresponding_tree` (full.rs:345): the owning tree is the highest bit of
the forest that the position does not share. -/
def leafToCorrespondingTree (pos forest : Nat) : Option Nat :=
  if pos ≥ forest then none
  else
    let before := forest &&& pos
    let after := forest ^^^ before
    some after.log2

/-- Tree `b` of `forest` owns `pos`: the two agree above `b`, and bit `b` is set in the
forest and clear in the position. -/
def OwnsLeaf (forest b pos : Nat) : Prop :=
  forest.testBit b = true ∧ forest >>> (b + 1) = pos >>> (b + 1) ∧ pos.testBit b = false

theorem testBit_xor_land (f p j : Nat) :
    (f ^^^ (f &&& p)).testBit j = (f.testBit j && !p.testBit j) := by
  simp only [Nat.testBit_xor, Nat.testBit_land]
  cases f.testBit j <;> cases p.testBit j <;> rfl

theorem testBit_log2 {x : Nat} (hx : x ≠ 0) : x.testBit x.log2 = true := by
  have h1 := Nat.log2_self_le hx
  have h2 : x < 2 ^ x.log2 * 2 := Nat.pow_succ 2 _ ▸ Nat.lt_log2_self
  have h3 : x / 2 ^ x.log2 = 1 := Nat.div_eq_of_lt_le (by omega) (by omega)
  simp [Nat.testBit_to_div_mod, h3]

theorem mod_two_pow_succ_lt {p b : Nat} (h : p.testBit b = false) : p % 2 ^ (b + 1) < 2 ^ b := by
  have h0 : p / 2 ^ b % 2 = 0 := by
    simp only [Nat.testBit_to_div_mod, decide_eq_false_iff_not] at h
    omega
  rw [Nat.mod_pow_succ, h0, Nat.mul_zero, Nat.add_zero]
  exact Nat.mod_lt _ (Nat.two_pow_pos b)

theorem testBit_shiftRight_eq {f p b j : Nat} (h : f >>> (b + 1) = p >>> (b + 1)) (hj : b < j) :
    f.testBit j = p.testBit j := by
  have := congrArg (·.testBit (j - (b + 1))) h
  simpa only [Nat.testBit_shiftRight, Nat.add_sub_cancel' (show b + 1 ≤ j by omega)] using this

theorem OwnsLeaf.lt {f b p : Nat} (h : OwnsLeaf f b p) : p < f :=
  Nat.lt_of_testBit b h.2.2 h.1 fun _ hj => (testBit_shiftRight_eq h.2.1 hj).symm

theorem ownsLeaf_log2 {f p : Nat} (h : p < f) : OwnsLeaf f (f ^^^ (f &&& p)).log2 p := by
  have hne : f ^^^ (f &&& p) ≠ 0 := by
    intro h0
    have hle : f ≤ p := Nat.le_of_testBit fun i hi => by
      have := congrArg (·.testBit i) h0
      simp only [testBit_xor_land, hi, Nat.zero_testBit] at this
      simpa using this
    omega
  have hb := testBit_log2 hne
  rw [testBit_xor_land, Bool.and_eq_true, Bool.not_eq_true'] at hb
  have habove : ∀ j, (f ^^^ (f &&& p)).log2 < j → f.testBit j = true → p.testBit j = true :=
    fun j hj hf => by
      have := Nat.testBit_lt_two_pow (lt_of_lt_of_le Nat.lt_log2_self
        (Nat.pow_le_pow_right (by decide) hj))
      rw [testBit_xor_land, hf] at this
      simpa using this
  have hle : f >>> ((f ^^^ (f &&& p)).log2 + 1) ≤ p >>> ((f ^^^ (f &&& p)).log2 + 1) :=
    Nat.le_of_testBit fun i hi => by
    rw [Nat.testBit_shiftRight] at hi ⊢
    exact habove _ (by omega) hi
  have hge : p >>> ((f ^^^ (f &&& p)).log2 + 1) ≤ f >>> ((f ^^^ (f &&& p)).log2 + 1) := by
    simp only [Nat.shiftRight_eq_div_pow]
    exact Nat.div_le_div_right h.le
  exact ⟨hb.1, le_antisymm hle hge, hb.2⟩

theorem log2_of_ownsLeaf {f b p : Nat} (h : OwnsLeaf f b p) : (f ^^^ (f &&& p)).log2 = b := by
  obtain ⟨hfb, heq, hpb⟩ := h
  have hx : (f ^^^ (f &&& p)).testBit b = true := by rw [testBit_xor_land, hfb, hpb]; rfl
  have hlt : f ^^^ (f &&& p) < 2 ^ (b + 1) := Nat.lt_pow_two_of_testBit _ fun j hj => by
    rw [testBit_xor_land, testBit_shiftRight_eq heq (by omega)]
    cases p.testBit j <;> rfl
  have hne : f ^^^ (f &&& p) ≠ 0 := fun h0 => by simp [h0] at hx
  have h1 := (Nat.le_log2 hne).2 (Nat.testBit_implies_ge hx)
  have h2 := (Nat.log2_lt hne).2 hlt
  omega

theorem leafToCorrespondingTree_of_ownsLeaf {f b p : Nat} (h : OwnsLeaf f b p) :
    leafToCorrespondingTree p f = some b := by
  unfold leafToCorrespondingTree
  rw [if_neg (by have := h.lt; omega)]
  exact congrArg some (log2_of_ownsLeaf h)

theorem ownsLeaf_iff {f b p : Nat} (hf : f < 2 ^ usizeBits) :
    OwnsLeaf f b p ↔ f.testBit b = true ∧ f &&& highBitmask (b + 1) ≤ p ∧
      p < (f &&& highBitmask (b + 1)) + 2 ^ b := by
  rw [land_highBitmask hf, Nat.shiftLeft_eq, Nat.shiftRight_eq_div_pow]
  have hpow : 2 ^ (b + 1) = 2 ^ b * 2 := Nat.pow_succ 2 b
  have hp := Nat.div_add_mod p (2 ^ (b + 1))
  rw [Nat.mul_comm] at hp
  constructor
  · rintro ⟨hfb, heq, hpb⟩
    have hr := mod_two_pow_succ_lt hpb
    rw [Nat.shiftRight_eq_div_pow, Nat.shiftRight_eq_div_pow] at heq
    rw [heq]
    exact ⟨hfb, by omega, by omega⟩
  · rintro ⟨hfb, hlo, hhi⟩
    have hq : p / 2 ^ (b + 1) = f / 2 ^ (b + 1) :=
      Nat.div_eq_of_lt_le hlo (by rw [Nat.succ_mul]; omega)
    rw [hq] at hp
    have hr : p % 2 ^ (b + 1) < 2 ^ b := by omega
    have hpb : p.testBit b = false := by
      have := Nat.testBit_lt_two_pow (i := b) hr
      rwa [Nat.testBit_mod_two_pow, decide_eq_true (Nat.lt_succ_self b), Bool.true_and] at this
    exact ⟨hfb, by simp only [Nat.shiftRight_eq_div_pow, hq], hpb⟩

/-- Tree ownership is exact: no tree for positions past the leaves, and otherwise the
one tree whose block of positions holds `p`. -/
theorem leafToCorrespondingTree_owner (f p : Nat) (hf : f < 2 ^ usizeBits) :
    (leafToCorrespondingTree p f = none ↔ f ≤ p) ∧
    ∀ b, leafToCorrespondingTree p f = some b ↔
      f.testBit b = true ∧ f &&& highBitmask (b + 1) ≤ p ∧
        p < (f &&& highBitmask (b + 1)) + 2 ^ b := by
  refine ⟨by unfold leafToCorrespondingTree; split <;> simp_all, fun b => ?_⟩
  rw [← ownsLeaf_iff hf]
  unfold leafToCorrespondingTree
  split
  · exact ⟨nofun, fun h => absurd h.lt (by omega)⟩
  · simp only [Option.some.injEq]
    exact ⟨fun h => h ▸ ownsLeaf_log2 (by omega), log2_of_ownsLeaf⟩

theorem leafToCorrespondingTree_owner_seven :
    7 < 2 ^ usizeBits ∧ leafToCorrespondingTree 5 7 = some 1 :=
  ⟨by decide, ((leafToCorrespondingTree_owner 7 5 (by decide)).2 1).2 ⟨by decide, by decide, by decide⟩⟩

end Miden.Mmr
