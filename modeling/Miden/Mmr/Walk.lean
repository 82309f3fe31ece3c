import Miden.Mmr.Path
import Miden.Mmr.Open

/-!
# `Mmr::get` and `Mmr::open` never panic (mmr/full.rs:99-152, 205-241)

The walk of `collect_merkle_path_and_value` starts at the root of the owning tree, at index
`2^(b+1) - 2` of its postorder listing, with `tree_depth = b`. A pass steps over the right
child and the `nodes_in_forest(tree_depth)` entries of the left subtree, at most
`2 * tree_depth` entries, and halves `tree_depth`: as long as `4 * tree_depth ≤ index + 2`,
neither `index - 1` nor `index - 1 - nodes_in_forest(tree_depth)` underflows and every read
stays inside the listing (`collectLoop_some`). The root meets that bound on every tree, not
only on the trees of at most four leaves where the walk follows the leaf's path
(`collectMerklePathAndValue_small`): on the larger trees `get` and `open` return wrong
entries, but entries of the owning tree, and never panic.
-/

namespace Miden.Mmr

section
variable {α : Type}

theorem countOnes_pos {n : Nat} (h : 0 < n) : 0 < countOnes n := by
  have hsum := sum_trueBitPositions n
  unfold countOnes
  cases hbits : trueBitPositions n with
  | nil => rw [hbits] at hsum; simp at hsum; omega
  | cons _ _ => exact Nat.succ_pos _

theorem nodesInForest_lt {td : Nat} (h : 0 < td) : nodesInForest td < 2 * td := by
  have := countOnes_pos h
  unfold nodesInForest
  omega

theorem four_mul_le_two_pow_succ (b : Nat) : 4 * b ≤ 2 ^ (b + 1) := by
  induction b with
  | zero => decide
  | succ b ih =>
    have h2 : 2 ≤ 2 ^ (b + 1) := Nat.le_self_pow (Nat.succ_ne_zero b) 2
    rw [Nat.pow_succ]
    omega

theorem collectLoop_some (P : List α) (rp : Nat) :
    ∀ (fuel td index : Nat) (path : List α), halvings td ≤ fuel → 4 * td ≤ index + 2 →
      index < P.length → ∃ i p, collectLoop P rp 0 fuel td index path = some (i, p) ∧
        ∀ s ∈ p, s ∈ path ∨ s ∈ P
  | 0, td, index, path, hf, _, _ => ⟨index, path, rfl, fun _ hs => .inl hs⟩
  | fuel + 1, td, index, path, hf, hbud, hi => by
    unfold collectLoop
    split_ifs with htd
    · have hn := nodesInForest_lt htd
      have hh := halvings_shiftRight htd
      have hhalf : td >>> 1 = td / 2 := by rw [Nat.shiftRight_eq_div_pow, Nat.pow_one]
      have step : ∀ (i : Nat) (s : α), index - 1 - nodesInForest td ≤ i → i < P.length →
          s ∈ P → ∃ i' p, collectLoop P rp 0 fuel (td >>> 1) i (path ++ [s]) = some (i', p) ∧
            ∀ s' ∈ p, s' ∈ path ∨ s' ∈ P := fun i s hlo hlt hs => by
        obtain ⟨i', p, hloop, hmem⟩ :=
          collectLoop_some P rp fuel (td >>> 1) i (path ++ [s]) (by omega) (by omega) hlt
        simp only [List.mem_append, List.mem_singleton] at hmem
        refine ⟨i', p, hloop, fun s' hs' => ?_⟩
        rcases hmem s' hs' with (h | rfl) | h
        exacts [.inl h, .inr hs, .inr h]
      simp only [uintSub_of_le (show 1 ≤ index by omega),
        uintSub_of_le (show nodesInForest td ≤ index - 1 by omega), Option.bind_eq_bind,
        Option.some_bind, Nat.zero_add]
      split_ifs
      · rw [List.getElem?_eq_getElem (by omega)]
        exact step (index - 1) _ (by omega) (by omega) (List.getElem_mem _)
      · rw [List.getElem?_eq_getElem (by omega)]
        exact step (index - 1 - nodesInForest td) _ le_rfl (by omega) (List.getElem_mem _)
    · exact ⟨index, path, rfl, fun _ hs => .inl hs⟩

theorem collectMerklePathAndValue_some (P : List α) (b rp f : Nat)
    (hP : P.length = 2 ^ (b + 1) - 1) :
    ∃ v path, (⟨f, P⟩ : Mmr α).collectMerklePathAndValue b rp 0 (2 ^ (b + 1) - 2) =
      some (v, path) ∧ v ∈ P ∧ ∀ s ∈ path, s ∈ P := by
  have h2 : 2 ≤ 2 ^ (b + 1) := Nat.le_self_pow (Nat.succ_ne_zero b) 2
  obtain ⟨i, p, hloop, hmem⟩ := collectLoop_some P rp b b (2 ^ (b + 1) - 2) []
    (halvings_le b) (by have := four_mul_le_two_pow_succ b; omega) (by omega)
  have hle := collectLoop_index_le P rp 0 b b _ [] i p hloop
  refine ⟨P[i], p.reverse, ?_, List.getElem_mem _, fun s hs => ?_⟩
  · simp only [Mmr.collectMerklePathAndValue, hloop, Option.bind_eq_bind, Option.some_bind,
      Nat.zero_add, List.getElem?_eq_getElem (show i < P.length by omega)]
    rfl
  · simpa using hmem s (List.mem_reverse.1 hs)

end

section
variable {α : Type} [Inhabited α] (merge : α → α → α)

/-- On the `Mmr` built from at most `usize::MAX / 2` digests, where `nodes_in_forest` does not
overflow, `get` and `open` never panic: past the leaves they
return `InvalidPosition(pos)`, and every leaf position has an owning tree, of which `get`
returns an entry and `open` a path of entries. -/
theorem get_open_never_panic (ds : List α) (hk : ds.length ≤ usizeMax / 2) :
    ∃ mmr, Mmr.fromValues merge ds = some mmr ∧ ∀ pos,
      (ds.length ≤ pos → mmr.get pos = some (.error (.invalidPosition pos)) ∧
        mmr.open pos = some (.error (.invalidPosition pos))) ∧
      (pos < ds.length → ∃ b v path, leafToCorrespondingTree pos ds.length = some b ∧
        mmr.get pos = some (.ok v) ∧ mmr.open pos = some (.ok ⟨ds.length, pos, path⟩) ∧
        v ∈ (MerkleTree.ofBlock b ((ds.drop (ds.length &&& highBitmask (b + 1))).take
          (2 ^ b))).postorder merge ∧
        ∀ s ∈ path, s ∈ (MerkleTree.ofBlock b ((ds.drop (ds.length &&& highBitmask (b + 1))).take
          (2 ^ b))).postorder merge) := by
  refine ⟨_, fromValues_eq merge ds, fun pos => ⟨fun hge => ?_, fun hlt => ?_⟩⟩
  · have hnone : leafToCorrespondingTree pos ds.length = none := if_pos hge
    simp only [Mmr.get, Mmr.open, Mmr.collectAt, hnone]
    exact ⟨rfl, rfl⟩
  · have hb := leafToCorrespondingTree_of_ownsLeaf (ownsLeaf_log2 hlt)
    generalize (ds.length ^^^ (ds.length &&& pos)).log2 = b at hb
    have hc := collectAt_eq_walk merge ds pos b (by simp only [usizeMax, usizeBits] at hk ⊢; omega) hb
    obtain ⟨v, path, hwalk, hv, hpath⟩ := collectMerklePathAndValue_some _ b
      (pos - (ds.length &&& highBitmask (b + 1))) ds.length
      (MerkleTree.length_postorder_ofBlock merge _ _)
    rw [hwalk] at hc
    refine ⟨b, v, path, hb, ?_, ?_, hv, hpath⟩ <;> simp only [Mmr.get, Mmr.open, hc] <;> rfl

theorem get_open_never_panic_eight :
    [0, 1, 2, 3, 4, 5, 6, 7].length ≤ usizeMax / 2 ∧
      ∃ mmr, Mmr.fromValues Nat.add [0, 1, 2, 3, 4, 5, 6, 7] = some mmr ∧ ∀ pos,
        ([0, 1, 2, 3, 4, 5, 6, 7].length ≤ pos →
          mmr.get pos = some (.error (.invalidPosition pos)) ∧
          mmr.open pos = some (.error (.invalidPosition pos))) ∧
        (pos < [0, 1, 2, 3, 4, 5, 6, 7].length → ∃ b v path,
          leafToCorrespondingTree pos [0, 1, 2, 3, 4, 5, 6, 7].length = some b ∧
          mmr.get pos = some (.ok v) ∧
          mmr.open pos = some (.ok ⟨[0, 1, 2, 3, 4, 5, 6, 7].length, pos, path⟩) ∧
          v ∈ (MerkleTree.ofBlock b (([0, 1, 2, 3, 4, 5, 6, 7].drop
            ([0, 1, 2, 3, 4, 5, 6, 7].length &&& highBitmask (b + 1))).take (2 ^ b))).postorder
              Nat.add ∧
          ∀ s ∈ path, s ∈ (MerkleTree.ofBlock b (([0, 1, 2, 3, 4, 5, 6, 7].drop
            ([0, 1, 2, 3, 4, 5, 6, 7].length &&& highBitmask (b + 1))).take (2 ^ b))).postorder
              Nat.add) :=
  ⟨by decide, get_open_never_panic Nat.add [0, 1, 2, 3, 4, 5, 6, 7] (by decide)⟩

end

end Miden.Mmr
