import Miden.Mmr.Add
import Mathlib.Tactic.IntervalCases

/-!
# `Mmr::get` and `Mmr::open` on trees of at most four leaves (mmr/full.rs:99-152, 205-241)

`leafPath` is what an opening should return: the siblings of a leaf in its perfect tree,
from the leaf up to the root. The buffer of the forest holds the owning tree's postorder
listing at offset `nodes_in_forest(forest & high_bitmask(b + 1))` (`forestPostorder_owner`),
and the walk of `collect_merkle_path_and_value` only reads inside that listing
(`collectMerklePathAndValue_local`). The walk starts at `tree_depth = b`, which is the
half tree size `2^(b-1)` exactly for `b ≤ 2`: on those trees `get` and `open` return the
leaf and its path.
-/

namespace Miden.Mmr

section
variable {α : Type} (merge : α → α → α)

/-- The siblings of leaf `i` of the perfect tree of height `h` over `ds`, leaf side first. -/
def leafPath [Inhabited α] : Nat → List α → Nat → List α
  | 0, _, _ => []
  | h + 1, ds, i =>
    if i < 2 ^ h then
      leafPath h (ds.take (2 ^ h)) i ++ [(MerkleTree.ofBlock h (ds.drop (2 ^ h))).root merge]
    else
      leafPath h (ds.drop (2 ^ h)) (i - 2 ^ h) ++ [(MerkleTree.ofBlock h (ds.take (2 ^ h))).root merge]

/-! ### The walk reads inside one tree -/

theorem collectLoop_index_le (nodes : List α) (rp off : Nat) :
    ∀ (fuel td index : Nat) (path : List α) (i : Nat) (p : List α),
      collectLoop nodes rp off fuel td index path = some (i, p) → i ≤ index
  | 0, _, _, _, _, _, h => by cases h; exact le_rfl
  | fuel + 1, td, index, path, i, p, h => by
    unfold collectLoop at h
    split_ifs at h with htd
    · simp only [Option.bind_eq_bind, Option.bind_eq_some, uintSub_eq_some, Option.map_eq_map,
        Option.map_eq_some'] at h
      obtain ⟨_, ⟨h1, rfl⟩, _, ⟨h2, rfl⟩, h⟩ := h
      split_ifs at h <;> simp only [Option.bind_eq_some, Option.map_eq_some'] at h <;>
        obtain ⟨_, ⟨_, -, rfl⟩, h⟩ := h <;>
        exact (collectLoop_index_le nodes rp off fuel _ _ _ i p h).trans (by omega)
    · cases h
      exact le_rfl

theorem collectLoop_local {nodes P : List α} {off : Nat}
    (hP : ∀ j < P.length, nodes[off + j]? = P[j]?) (rp : Nat) :
    ∀ (fuel td index : Nat) (path : List α), index < P.length →
      collectLoop nodes rp off fuel td index path = collectLoop P rp 0 fuel td index path
  | 0, _, _, _, _ => rfl
  | fuel + 1, td, index, path, hi => by
    unfold collectLoop
    split_ifs with htd
    · rcases index with _ | k
      · rfl
      by_cases hle : nodesInForest td ≤ k
      · have e1 : nodes[off + (k - nodesInForest td)]? = P[0 + (k - nodesInForest td)]? := by
          rw [Nat.zero_add]
          exact hP _ (by omega)
        have e2 : nodes[off + k]? = P[0 + k]? := by
          rw [Nat.zero_add]
          exact hP _ (by omega)
        simp only [uintSub_of_le (by omega : 1 ≤ k + 1), uintSub_of_le hle, Option.bind_eq_bind,
          Option.some_bind, Nat.add_sub_cancel, e1, e2]
        split_ifs
        · cases P[0 + (k - nodesInForest td)]? with
          | none => rfl
          | some v => exact collectLoop_local hP rp fuel _ k _ (by omega)
        · cases P[0 + k]? with
          | none => rfl
          | some v => exact collectLoop_local hP rp fuel _ (k - nodesInForest td) _ (by omega)
      · simp [uintSub, hle]
    · rfl

theorem collectMerklePathAndValue_local {nodes P : List α} {off : Nat}
    (hP : ∀ j < P.length, nodes[off + j]? = P[j]?) (f f' treeBit rp index : Nat)
    (hi : index < P.length) :
    (⟨f, nodes⟩ : Mmr α).collectMerklePathAndValue treeBit rp off index =
      (⟨f', P⟩ : Mmr α).collectMerklePathAndValue treeBit rp 0 index := by
  unfold Mmr.collectMerklePathAndValue
  dsimp only
  rw [collectLoop_local hP rp _ _ _ _ hi]
  cases hc : collectLoop P rp 0 treeBit treeBit index [] with
  | none => rfl
  | some r =>
    have hle := collectLoop_index_le P rp 0 _ _ _ _ r.1 r.2 hc
    simp [hP r.1 (by omega)]

/-! ### Trees of at most four leaves -/

theorem collectMerklePathAndValue_small [Inhabited α] {b : Nat} (hb : b ≤ 2) {blk : List α}
    (hlen : blk.length = 2 ^ b) {rp : Nat} (hrp : rp < 2 ^ b) (f : Nat) :
    (⟨f, (MerkleTree.ofBlock b blk).postorder merge⟩ : Mmr α).collectMerklePathAndValue b rp 0
        (2 ^ (b + 1) - 2) = blk[rp]?.map fun v => (v, leafPath merge b blk rp) := by
  interval_cases b
  · obtain ⟨x, rfl⟩ := List.length_eq_one.1 hlen
    interval_cases rp
    rfl
  · obtain ⟨x, y, rfl⟩ := List.length_eq_two.1 hlen
    interval_cases rp <;> rfl
  · rcases blk with _ | ⟨w, _ | ⟨x, _ | ⟨y, _ | ⟨z, _ | ⟨_, _⟩⟩⟩⟩⟩ <;> simp at hlen
    interval_cases rp <;> rfl

/-! ### The owning tree in the buffer -/

theorem sum_map_two_pow_add (k : Nat) (l : List Nat) :
    ((l.map (· + k)).map (2 ^ ·)).sum = 2 ^ k * (l.map (2 ^ ·)).sum := by
  induction l with
  | nil => rfl
  | cons x l ih => simp only [List.map_cons, List.sum_cons, ih, Nat.pow_add, Nat.mul_add, Nat.mul_comm]

theorem blocksOf_owner [Inhabited α] (ds : List α) {b : Nat} (hbit : ds.length.testBit b = true) :
    ∃ L, blocksOf ds =
      forestBlocks ((trueBitPositions (ds.length >>> (b + 1))).map (· + (b + 1))).reverse ds ++
        (b, (ds.drop (2 ^ (b + 1) * (ds.length >>> (b + 1)))).take (2 ^ b)) ::
          forestBlocks L ((ds.drop (2 ^ (b + 1) * (ds.length >>> (b + 1)))).drop (2 ^ b)) := by
  set Q := ds.length >>> (b + 1)
  set H := ((trueBitPositions Q).map (· + (b + 1))).reverse
  have hsum : (H.map (2 ^ ·)).sum = 2 ^ (b + 1) * Q := by
    rw [List.map_reverse, List.sum_reverse, sum_map_two_pow_add, sum_trueBitPositions]
  refine ⟨(trueBitPositions (ds.length % 2 ^ b)).reverse, ?_⟩
  rw [blocksOf, trueBitPositions_split hbit, List.reverse_append, List.reverse_cons,
    List.append_assoc, List.singleton_append, forestBlocks_append, hsum]
  rfl

theorem forestPostorder_owner [Inhabited α] (ds : List α) {b : Nat} (hbit : ds.length.testBit b = true) :
    ∃ pre suf, forestPostorder merge ds =
        pre ++ (MerkleTree.ofBlock b ((ds.drop (2 ^ (b + 1) * (ds.length >>> (b + 1)))).take
          (2 ^ b))).postorder merge ++ suf ∧
      pre.length = nodesInForest (2 ^ (b + 1) * (ds.length >>> (b + 1))) ∧
      2 ^ (b + 1) * (ds.length >>> (b + 1)) + 2 ^ b ≤ ds.length := by
  have hn : ds.length = 2 ^ (b + 1) * (ds.length >>> (b + 1)) + 2 ^ b + ds.length % 2 ^ b := by
    rw [Nat.add_assoc, ← mod_two_pow_succ_of_testBit hbit, Nat.shiftRight_eq_div_pow,
      Nat.div_add_mod]
  obtain ⟨L, hblocks⟩ := blocksOf_owner ds hbit
  refine ⟨flatBlocks merge (forestBlocks
    ((trueBitPositions (ds.length >>> (b + 1))).map (· + (b + 1))).reverse ds),
    flatBlocks merge (forestBlocks L ((ds.drop (2 ^ (b + 1) * (ds.length >>> (b + 1)))).drop (2 ^ b))),
    ?_, ?_, ?_⟩
  · rw [forestPostorder_eq, hblocks, flatBlocks_append, flatBlocks_cons, List.append_assoc]
  · rw [length_flatBlocks, map_fst_forestBlocks, nodesInForest_eq_sum,
      trueBitPositions_two_pow_mul, List.map_reverse, List.sum_reverse]
  · omega

theorem ownsLeaf_of_leafToCorrespondingTree {f b p : Nat} (h : leafToCorrespondingTree p f = some b) :
    OwnsLeaf f b p := by
  unfold leafToCorrespondingTree at h
  split at h
  · cases h
  · rw [Option.some.injEq] at h
    exact h ▸ ownsLeaf_log2 (by omega)

/-! ### `get` and `open` -/

theorem collectAt_eq_walk [Inhabited α] (ds : List α) (pos b : Nat)
    (hk : ds.length < 2 ^ usizeBits) (hb : leafToCorrespondingTree pos ds.length = some b) :
    (⟨ds.length, forestPostorder merge ds⟩ : Mmr α).collectAt pos =
      ((⟨ds.length, (MerkleTree.ofBlock b ((ds.drop (ds.length &&& highBitmask (b + 1))).take
        (2 ^ b))).postorder merge⟩ : Mmr α).collectMerklePathAndValue b
          (pos - (ds.length &&& highBitmask (b + 1))) 0 (2 ^ (b + 1) - 2)).map .ok := by
  have hF : ds.length &&& highBitmask (b + 1) = 2 ^ (b + 1) * (ds.length >>> (b + 1)) := by
    rw [land_highBitmask hk, Nat.shiftLeft_eq, Nat.mul_comm]
  obtain ⟨hbit, hlo, -⟩ := (ownsLeaf_iff hk).1 (ownsLeaf_of_leafToCorrespondingTree hb)
  obtain ⟨pre, suf, hpost, hpre, -⟩ := forestPostorder_owner merge ds hbit
  rw [hF] at hlo ⊢
  set P := (MerkleTree.ofBlock b ((ds.drop (2 ^ (b + 1) * (ds.length >>> (b + 1)))).take
    (2 ^ b))).postorder merge
  have hP : P.length = 2 ^ (b + 1) - 1 := MerkleTree.length_postorder_ofBlock merge b _
  have h2 : 2 ≤ 2 ^ (b + 1) := Nat.le_self_pow (Nat.succ_ne_zero b) 2
  have hlocal : ∀ j < P.length, (pre ++ P ++ suf)[pre.length + j]? = P[j]? := by
    intro j hj
    rw [List.append_assoc, List.getElem?_append_right (by omega), Nat.add_sub_cancel_left,
      List.getElem?_append_left hj]
  unfold Mmr.collectAt
  rw [hb]
  simp only [Nat.one_shiftLeft, nodesInForest_two_pow, hF, hpost, ← hpre]
  rw [uintSub_of_le (by omega), uintSub_of_le hlo, Option.bind_eq_bind, Option.some_bind,
    Option.some_bind, collectMerklePathAndValue_local hlocal _ ds.length _ _ _ (by omega),
    show 2 ^ (b + 1) - 1 - 1 = 2 ^ (b + 1) - 2 by omega, Option.map_eq_bind]
  rfl

theorem collectAt_small_tree [Inhabited α] (ds : List α) (pos b : Nat)
    (hk : ds.length < 2 ^ usizeBits) (hb : leafToCorrespondingTree pos ds.length = some b)
    (hsmall : b ≤ 2) :
    ∃ v, ds[pos]? = some v ∧
      ((ds.drop (ds.length &&& highBitmask (b + 1))).take (2 ^ b))[pos -
        (ds.length &&& highBitmask (b + 1))]? = some v ∧
      (⟨ds.length, forestPostorder merge ds⟩ : Mmr α).collectAt pos =
        some (.ok (v, leafPath merge b ((ds.drop (ds.length &&& highBitmask (b + 1))).take (2 ^ b))
          (pos - (ds.length &&& highBitmask (b + 1))))) := by
  have hF : ds.length &&& highBitmask (b + 1) = 2 ^ (b + 1) * (ds.length >>> (b + 1)) := by
    rw [land_highBitmask hk, Nat.shiftLeft_eq, Nat.mul_comm]
  obtain ⟨hbit, hlo, hhi⟩ := (ownsLeaf_iff hk).1 (ownsLeaf_of_leafToCorrespondingTree hb)
  obtain ⟨-, -, -, -, hle⟩ := forestPostorder_owner merge ds hbit
  rw [← hF] at hle
  set F := ds.length &&& highBitmask (b + 1)
  set blk := (ds.drop F).take (2 ^ b)
  have hblk : blk.length = 2 ^ b := by simp only [blk, List.length_take, List.length_drop]; omega
  obtain ⟨v, hv⟩ : ∃ v, ds[pos]? = some v := ⟨_, List.getElem?_eq_getElem (by omega)⟩
  have hblkv : blk[pos - F]? = some v := by
    rw [List.getElem?_take_of_lt (by omega), List.getElem?_drop, Nat.add_sub_cancel' hlo, hv]
  refine ⟨v, hv, hblkv, ?_⟩
  rw [collectAt_eq_walk merge ds pos b hk hb, collectMerklePathAndValue_small merge hsmall hblk
    (by omega), hblkv]
  rfl

/-- On every position whose tree has at most four leaves, `get` returns the leaf and `open`
returns the leaf's Merkle path in its tree, leaf side first. -/
theorem get_open_small_tree [Inhabited α] (ds : List α) (pos b : Nat)
    (hk : ds.length < 2 ^ usizeBits) (hb : leafToCorrespondingTree pos ds.length = some b)
    (hsmall : b ≤ 2) :
    (Mmr.fromValues merge ds).bind (·.get pos) = ds[pos]?.map .ok ∧
      (Mmr.fromValues merge ds).bind (·.open pos) =
        some (.ok ⟨ds.length, pos, leafPath merge b
          ((ds.drop (ds.length &&& highBitmask (b + 1))).take (2 ^ b))
          (pos - (ds.length &&& highBitmask (b + 1)))⟩) := by
  obtain ⟨v, hv, -, hcollect⟩ := collectAt_small_tree merge ds pos b hk hb hsmall
  rw [fromValues_eq, Option.some_bind, Option.some_bind, Mmr.get, Mmr.open, hcollect, hv]
  exact ⟨rfl, rfl⟩

theorem get_open_small_tree_seven :
    [0, 1, 2, 3, 4, 5, 6].length < 2 ^ usizeBits ∧ leafToCorrespondingTree 5 [0, 1, 2, 3, 4, 5, 6].length = some 1 ∧ 1 ≤ 2 ∧
      ((Mmr.fromValues Nat.add [0, 1, 2, 3, 4, 5, 6]).bind (·.get 5) = [0, 1, 2, 3, 4, 5, 6][5]?.map .ok ∧
        (Mmr.fromValues Nat.add [0, 1, 2, 3, 4, 5, 6]).bind (·.open 5) =
          some (.ok ⟨[0, 1, 2, 3, 4, 5, 6].length, 5, leafPath Nat.add 1
            (([0, 1, 2, 3, 4, 5, 6].drop ([0, 1, 2, 3, 4, 5, 6].length &&& highBitmask (1 + 1))).take (2 ^ 1))
            (5 - ([0, 1, 2, 3, 4, 5, 6].length &&& highBitmask (1 + 1)))⟩)) :=
  have hb := leafToCorrespondingTree_of_ownsLeaf ⟨by decide, by decide, by decide⟩
  ⟨by decide, hb, by decide, get_open_small_tree Nat.add [0, 1, 2, 3, 4, 5, 6] 5 1 (by decide) hb
    (by decide)⟩

end

end Miden.Mmr
