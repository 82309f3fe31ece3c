import Miden.Mmr.Add

/-!
# `Mmr::get` and `Mmr::open` on trees of eight leaves or more (mmr/full.rs:99-152, 205-241)

`collect_merkle_path_and_value` starts its walk with `tree_depth = tree_bit` and
halves it, reading `relative_pos & tree_depth` and stepping over
`nodes_in_forest(tree_depth)` entries. A walk from the root of a tree of `2^b`
leaves needs the half-sizes `2^(b-1), …, 1` there; `b` and `2^(b-1)` agree only for
`b ≤ 2`. For the tree of eight leaves (`b = 3`) the walk takes the depths `3, 1`:
position `0` lands on the fifth leaf, with a path of two siblings instead of three.
On every tree the loop makes `⌊log2 b⌋ + 1` passes, one sibling each (`collectLoop_length`),
so `open` returns fewer siblings than the `b` levels of any tree of eight leaves or more.
-/

namespace Miden.Mmr

section
variable {α : Type} [Inhabited α] (merge : α → α → α) (d0 d1 d2 d3 d4 d5 d6 d7 : α)

theorem forestPostorder_eight :
    forestPostorder merge [d0, d1, d2, d3, d4, d5, d6, d7] =
      [d0, d1, merge d0 d1, d2, d3, merge d2 d3, merge (merge d0 d1) (merge d2 d3),
       d4, d5, merge d4 d5, d6, d7, merge d6 d7, merge (merge d4 d5) (merge d6 d7),
       merge (merge (merge d0 d1) (merge d2 d3)) (merge (merge d4 d5) (merge d6 d7))] := by
  have h : trueBitPositions 8 = [3] := by decide
  simp [forestPostorder, treesOf, blocksOf, h, forestBlocks, MerkleTree.ofBlock,
    MerkleTree.postorder, MerkleTree.root, List.take_one]

theorem collectAt_eight :
    (⟨8, forestPostorder merge [d0, d1, d2, d3, d4, d5, d6, d7]⟩ : Mmr α).collectAt 0 =
      some (.ok (d4, [d5, merge (merge d4 d5) (merge d6 d7)])) := by
  have h : leafToCorrespondingTree 0 8 = some 3 :=
    leafToCorrespondingTree_of_ownsLeaf ⟨by decide, by decide, by decide⟩
  have h1 : 8 &&& highBitmask 4 = 0 := by decide
  rw [forestPostorder_eight, Mmr.collectAt, h]
  simp only [h1]
  rfl

/-- `get(0)` on eight leaves returns the fifth leaf. -/
theorem get_eight_leaves_zero :
    (Mmr.fromValues merge [d0, d1, d2, d3, d4, d5, d6, d7]).bind (·.get 0) = some (.ok d4) := by
  have h := fromValues_eq merge [d0, d1, d2, d3, d4, d5, d6, d7]
  have hl : [d0, d1, d2, d3, d4, d5, d6, d7].length = 8 := rfl
  rw [hl] at h
  rw [h, Option.some_bind, Mmr.get, collectAt_eight, Option.map_some']
  rfl

/-- `open(0)` on eight leaves returns a path of two siblings, where the tree has depth three. -/
theorem open_eight_leaves_zero :
    (Mmr.fromValues merge [d0, d1, d2, d3, d4, d5, d6, d7]).bind (·.open 0) =
      some (.ok ⟨8, 0, [d5, merge (merge d4 d5) (merge d6 d7)]⟩) := by
  have h := fromValues_eq merge [d0, d1, d2, d3, d4, d5, d6, d7]
  have hl : [d0, d1, d2, d3, d4, d5, d6, d7].length = 8 := rfl
  rw [hl] at h
  rw [h, Option.some_bind, Mmr.open, collectAt_eight, Option.map_some']
  rfl

end

/-! ### Trees of eight leaves or more -/

section
variable {α : Type}

/-- The passes of `while tree_depth > 0 { …; tree_depth >>= 1 }` from `tree_depth = td`. -/
def halvings (td : Nat) : Nat := if td = 0 then 0 else td.log2 + 1

theorem halvings_shiftRight {td : Nat} (h : 0 < td) : halvings (td >>> 1) + 1 = halvings td := by
  rw [Nat.shiftRight_eq_div_pow, Nat.pow_one]
  unfold halvings
  rw [if_neg (Nat.pos_iff_ne_zero.1 h), Nat.log2.eq_1 td]
  by_cases h2 : 2 ≤ td
  · rw [if_neg (by omega), if_pos h2]
  · rw [if_pos (by omega), if_neg h2]

theorem halvings_le (td : Nat) : halvings td ≤ td := by
  unfold halvings
  split_ifs with h
  · exact Nat.zero_le _
  · have := (Nat.log2_lt h).2 (Nat.lt_two_pow td)
    omega

theorem halvings_lt {td : Nat} (h : 3 ≤ td) : halvings td < td := by
  have hpow : 2 ^ (td - 1) = 2 * 2 ^ (td - 2) := by
    rw [show td - 1 = td - 2 + 1 by omega, Nat.pow_succ, Nat.mul_comm]
  have hlt := Nat.lt_two_pow (td - 2)
  have hlog : td.log2 < td - 1 := (Nat.log2_lt (by omega)).2 (by omega)
  unfold halvings
  rw [if_neg (by omega)]
  omega

theorem collectLoop_length (nodes : List α) (rp off : Nat) :
    ∀ (fuel td index : Nat) (path : List α) (i : Nat) (p : List α), halvings td ≤ fuel →
      collectLoop nodes rp off fuel td index path = some (i, p) →
        p.length = path.length + halvings td
  | 0, td, _, _, _, _, hf, h => by
    cases h
    omega
  | fuel + 1, td, index, path, i, p, hf, h => by
    unfold collectLoop at h
    split_ifs at h with htd
    · have hh := halvings_shiftRight htd
      simp only [Option.bind_eq_bind, Option.bind_eq_some, uintSub_eq_some, Option.map_eq_map,
        Option.map_eq_some'] at h
      obtain ⟨_, ⟨-, rfl⟩, _, ⟨-, rfl⟩, h⟩ := h
      split_ifs at h <;> simp only [Option.bind_eq_some, Option.map_eq_some'] at h <;>
        obtain ⟨_, ⟨_, -, rfl⟩, h⟩ := h <;>
        rw [collectLoop_length nodes rp off fuel _ _ _ i p (by omega) h, List.length_append,
          List.length_singleton] <;>
        omega
    · cases h
      simp [halvings, show td = 0 by omega]

/-- Whenever `open` returns, its path has one sibling per halving of `tree_depth` from the
tree's bit `b`: `⌊log2 b⌋ + 1` siblings, fewer than the `b` levels of every tree of eight
leaves or more. -/
theorem open_path_length (mmr : Mmr α) (pos b : Nat) (proof : MmrProof α)
    (hb : leafToCorrespondingTree pos mmr.forest = some b) (h : mmr.open pos = some (.ok proof)) :
    proof.merklePath.length = halvings b ∧ (3 ≤ b → proof.merklePath.length < b) := by
  have hlen : proof.merklePath.length = halvings b := by
    unfold Mmr.open Mmr.collectAt at h
    rw [hb] at h
    simp only [Option.map_eq_some', Option.bind_eq_bind, Option.bind_eq_some, Option.pure_def,
      Option.some.injEq] at h
    obtain ⟨_, ⟨_, -, _, -, r, hr, rfl⟩, hp⟩ := h
    obtain rfl : proof = ⟨mmr.forest, pos, r.2⟩ := (Except.ok.inj hp).symm
    unfold Mmr.collectMerklePathAndValue at hr
    simp only [Option.bind_eq_bind, Option.bind_eq_some, Option.pure_def, Option.some.injEq] at hr
    obtain ⟨⟨i, p⟩, hloop, _, -, rfl⟩ := hr
    rw [List.length_reverse,
      collectLoop_length mmr.nodes _ _ b b _ [] i p (halvings_le b) hloop, List.length_nil,
      Nat.zero_add]
  exact ⟨hlen, fun h3 => hlen ▸ halvings_lt h3⟩

theorem open_path_length_eight :
    leafToCorrespondingTree 0 (⟨8, forestPostorder Nat.add [0, 1, 2, 3, 4, 5, 6, 7]⟩ : Mmr Nat).forest =
        some 3 ∧
      (⟨8, forestPostorder Nat.add [0, 1, 2, 3, 4, 5, 6, 7]⟩ : Mmr Nat).open 0 =
        some (.ok ⟨8, 0, [5, 22]⟩) ∧
      ((⟨8, 0, [5, 22]⟩ : MmrProof Nat).merklePath.length = halvings 3 ∧
        (3 ≤ 3 → (⟨8, 0, [5, 22]⟩ : MmrProof Nat).merklePath.length < 3)) :=
  have hb : leafToCorrespondingTree 0 8 = some 3 :=
    leafToCorrespondingTree_of_ownsLeaf ⟨by decide, by decide, by decide⟩
  have ho : (⟨8, forestPostorder Nat.add [0, 1, 2, 3, 4, 5, 6, 7]⟩ : Mmr Nat).open 0 =
      some (.ok ⟨8, 0, [5, 22]⟩) := by
    rw [Mmr.open, collectAt_eight]
    rfl
  ⟨hb, ho, open_path_length _ 0 3 _ hb ho⟩

end

end Miden.Mmr
