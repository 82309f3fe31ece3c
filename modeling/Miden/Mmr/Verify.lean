import Miden.Mmr.Path
import Miden.Mmr.Accumulator

/-!
# Openings of small trees verify against the peaks (mmr/full.rs:99-189)

A Merkle path authenticates a leaf at index `i` of a tree: hashing the leaf with each
sibling, the running node on the left when the index bit is 0 and on the right otherwise,
gives the tree's root (`pathRoot`, the computation a verifier of an `MmrProof` does outside
the sources). The path of a leaf in the reference tree does (`pathRoot_leafPath`), and the
tree of a set bit `b` of the forest is the peak after the `popcount(forest >> (b + 1))` trees
of the higher bits (`forestPeaks_owner`). On trees of at most four leaves, where the walk of
`get` and `open` returns the leaf and its path (`collectAt_small_tree`), the value `get`
returns and the path `open` returns hash up to the peak `accumulator` reports.
-/

namespace Miden.Mmr

section
variable {α : Type} (merge : α → α → α)

/-- The root a Merkle path gives for the leaf `v` at index `i`, the path leaf side first. -/
def pathRoot : α → Nat → List α → α
  | v, _, [] => v
  | v, i, s :: ss => pathRoot (if i % 2 = 0 then merge v s else merge s v) (i / 2) ss

theorem pathRoot_append_singleton (v : α) (i : Nat) (l : List α) (s : α) :
    pathRoot merge v i (l ++ [s]) =
      if i / 2 ^ l.length % 2 = 0 then merge (pathRoot merge v i l) s
      else merge s (pathRoot merge v i l) := by
  induction l generalizing v i with
  | nil => simp [pathRoot]
  | cons s' l ih =>
    rw [List.cons_append, pathRoot, pathRoot, ih, List.length_cons, Nat.pow_succ',
      ← Nat.div_div_eq_div_mul]

theorem pathRoot_add (l : List α) : ∀ (v : α) (i k : Nat),
    pathRoot merge v (i + 2 ^ l.length * k) l = pathRoot merge v i l := by
  induction l with
  | nil => intro _ _ _; rfl
  | cons s l ih =>
    intro v i k
    have hdiv : (i + 2 * (2 ^ l.length * k)) / 2 = i / 2 + 2 ^ l.length * k := by omega
    have hmod : (i + 2 * (2 ^ l.length * k)) % 2 = i % 2 := by omega
    rw [List.length_cons, Nat.pow_succ', Nat.mul_assoc, pathRoot, pathRoot, hdiv, hmod, ih]

variable [Inhabited α]

theorem length_leafPath (h : Nat) :
    ∀ (ds : List α) (i : Nat), (leafPath merge h ds i).length = h := by
  induction h with
  | zero => intro _ _; rfl
  | succ h ih =>
    intro ds i
    unfold leafPath
    split_ifs <;> simp [ih]

theorem pathRoot_leafPath (h : Nat) : ∀ (ds : List α) (i : Nat) (v : α), ds.length = 2 ^ h →
    ds[i]? = some v →
      pathRoot merge v i (leafPath merge h ds i) = (MerkleTree.ofBlock h ds).root merge := by
  induction h with
  | zero =>
    intro ds i v hlen hv
    obtain ⟨x, rfl⟩ := List.length_eq_one.1 hlen
    obtain ⟨hi, hx⟩ := List.getElem?_eq_some_iff.1 hv
    obtain rfl : i = 0 := by simpa using hi
    exact hx.symm
  | succ h ih =>
    intro ds i v hlen hv
    have hi : i < 2 ^ h * 2 := Nat.pow_succ 2 h ▸ hlen ▸ (List.getElem?_eq_some_iff.1 hv).1
    unfold leafPath
    simp only [MerkleTree.ofBlock, MerkleTree.root]
    split_ifs with hlt
    · have hv' : (ds.take (2 ^ h))[i]? = some v := by rw [List.getElem?_take_of_lt hlt]; exact hv
      rw [pathRoot_append_singleton, length_leafPath, Nat.div_eq_of_lt hlt, Nat.zero_mod,
        if_pos rfl, ih _ i v (by simp; omega) hv']
    · have hv' : (ds.drop (2 ^ h))[i - 2 ^ h]? = some v := by
        rw [List.getElem?_drop, Nat.add_sub_cancel' (by omega)]; exact hv
      have hshift :=
        pathRoot_add merge (leafPath merge h (ds.drop (2 ^ h)) (i - 2 ^ h)) v (i - 2 ^ h) 1
      rw [length_leafPath, Nat.mul_one, Nat.sub_add_cancel (by omega)] at hshift
      have hdiv : i / 2 ^ h = 1 :=
        Nat.div_eq_of_lt_le (show 1 * 2 ^ h ≤ i by omega) (show i < (1 + 1) * 2 ^ h by omega)
      rw [pathRoot_append_singleton, length_leafPath, hdiv, if_neg (by decide), hshift,
        ih _ (i - 2 ^ h) v (by simp; omega) hv']

theorem forestPeaks_owner (ds : List α) {b : Nat} (hbit : ds.length.testBit b = true) :
    (forestPeaks merge ds)[countOnes (ds.length >>> (b + 1))]? =
      some ((MerkleTree.ofBlock b ((ds.drop (2 ^ (b + 1) * (ds.length >>> (b + 1)))).take
        (2 ^ b))).root merge) := by
  obtain ⟨L, hblocks⟩ := blocksOf_owner ds hbit
  have hlen : countOnes (ds.length >>> (b + 1)) = (((forestBlocks
      ((trueBitPositions (ds.length >>> (b + 1))).map (· + (b + 1))).reverse ds).map
        fun b => MerkleTree.ofBlock b.1 b.2).map (·.root merge)).length := by
    simp [length_forestBlocks, countOnes]
  rw [forestPeaks, treesOf, hblocks, List.map_append, List.map_append, hlen,
    List.getElem?_append_right le_rfl, Nat.sub_self, List.map_cons, List.map_cons,
    List.getElem?_cons_zero]

/-! ### `get` and `open` against `accumulator` -/

/-- On every position whose tree has at most four leaves, the leaf `get` returns, hashed along
the path `open` returns, gives the peak `accumulator` reports for that tree. -/
theorem get_open_verify_small_tree (ds : List α) (pos b : Nat)
    (hk : ds.length < 2 ^ usizeBits) (hb : leafToCorrespondingTree pos ds.length = some b)
    (hsmall : b ≤ 2) :
    ∃ v path peaks, ds[pos]? = some v ∧
      (Mmr.fromValues merge ds).bind (·.get pos) = some (.ok v) ∧
      (Mmr.fromValues merge ds).bind (·.open pos) = some (.ok ⟨ds.length, pos, path⟩) ∧
      (Mmr.fromValues merge ds).bind (·.accumulator) = some ⟨ds.length, peaks⟩ ∧
      peaks[countOnes (ds.length >>> (b + 1))]? =
        some (pathRoot merge v (pos - (ds.length &&& highBitmask (b + 1))) path) := by
  obtain ⟨v, hv, hblkv, hcollect⟩ := collectAt_small_tree merge ds pos b hk hb hsmall
  obtain ⟨hbit, -, -⟩ := (ownsLeaf_iff hk).1 (ownsLeaf_of_leafToCorrespondingTree hb)
  obtain ⟨-, -, -, -, hle⟩ := forestPostorder_owner merge ds hbit
  have hF : ds.length &&& highBitmask (b + 1) = 2 ^ (b + 1) * (ds.length >>> (b + 1)) := by
    rw [land_highBitmask hk, Nat.shiftLeft_eq, Nat.mul_comm]
  refine ⟨v, leafPath merge b ((ds.drop (ds.length &&& highBitmask (b + 1))).take (2 ^ b))
    (pos - (ds.length &&& highBitmask (b + 1))), forestPeaks merge ds, hv, ?_, ?_, ?_, ?_⟩
  · rw [fromValues_eq, Option.some_bind, Mmr.get, hcollect]
    rfl
  · rw [fromValues_eq, Option.some_bind, Mmr.open, hcollect]
    rfl
  · rw [fromValues_eq, Option.some_bind, accumulator_forestPostorder]
  · have hblk : ((ds.drop (ds.length &&& highBitmask (b + 1))).take (2 ^ b)).length = 2 ^ b := by
      simp only [List.length_take, List.length_drop]
      omega
    rw [pathRoot_leafPath merge b _ _ v hblk hblkv, hF, forestPeaks_owner merge ds hbit]

theorem get_open_verify_small_tree_seven :
    [0, 1, 2, 3, 4, 5, 6].length < 2 ^ usizeBits ∧
      leafToCorrespondingTree 5 [0, 1, 2, 3, 4, 5, 6].length = some 1 ∧ 1 ≤ 2 ∧
      ∃ v path peaks, [0, 1, 2, 3, 4, 5, 6][5]? = some v ∧
        (Mmr.fromValues Nat.add [0, 1, 2, 3, 4, 5, 6]).bind (·.get 5) = some (.ok v) ∧
        (Mmr.fromValues Nat.add [0, 1, 2, 3, 4, 5, 6]).bind (·.open 5) =
          some (.ok ⟨[0, 1, 2, 3, 4, 5, 6].length, 5, path⟩) ∧
        (Mmr.fromValues Nat.add [0, 1, 2, 3, 4, 5, 6]).bind (·.accumulator) =
          some ⟨[0, 1, 2, 3, 4, 5, 6].length, peaks⟩ ∧
        peaks[countOnes ([0, 1, 2, 3, 4, 5, 6].length >>> (1 + 1))]? =
          some (pathRoot Nat.add v
            (5 - ([0, 1, 2, 3, 4, 5, 6].length &&& highBitmask (1 + 1))) path) :=
  have hb := leafToCorrespondingTree_of_ownsLeaf ⟨by decide, by decide, by decide⟩
  ⟨by decide, hb, by decide, get_open_verify_small_tree Nat.add [0, 1, 2, 3, 4, 5, 6] 5 1 (by decide)
    hb (by decide)⟩

end

end Miden.Mmr
