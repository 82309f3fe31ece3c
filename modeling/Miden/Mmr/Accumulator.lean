import Miden.Mmr.Add

/-!
# `Mmr::accumulator` lists the tree roots (mmr/full.rs:177-189)

The accumulator walks the set bits of the forest from the highest, adds up the
tree sizes `nodes_in_forest(1 << bit)` and reads the entry just before each
running offset. On the reference buffer each offset is the end of one tree's
postorder listing, whose last entry is that tree's root.
-/

namespace Miden.Mmr

section
variable {α : Type} (merge : α → α → α) [Inhabited α]

theorem tail_scanl_cons (c s : Nat) (l : List Nat) :
    ((s :: l).scanl (· + ·) c).tail = (c + s) :: (l.scanl (· + ·) (c + s)).tail := by
  cases l <;> rfl

theorem mapM_peaks (bs : List (Nat × List α)) (pre suf : List α) :
    ((bs.map fun b => nodesInForest (1 <<< b.1)).scanl (· + ·) pre.length).tail.mapM
        (fun offset => do
          let index ← uintSub offset 1
          (pre ++ flatBlocks merge bs ++ suf)[index]?) =
      some (blockRoots merge bs) := by
  induction bs generalizing pre with
  | nil => rfl
  | cons b bs ih =>
    obtain ⟨h, blk⟩ := b
    have hP : nodesInForest (1 <<< h) = ((MerkleTree.ofBlock h blk).postorder merge).length := by
      simp [Nat.one_shiftLeft, MerkleTree.length_postorder_ofBlock]
    have hne := MerkleTree.postorder_ne_nil merge (MerkleTree.ofBlock h blk)
    have hpos := List.length_pos.2 hne
    have hroot := getElem?_pred_length_append (flatBlocks merge bs ++ suf)
      (L := pre ++ (MerkleTree.ofBlock h blk).postorder merge) (by simp [hne])
    rw [List.getLast?_append_of_ne_nil _ hne, MerkleTree.getLast?_postorder] at hroot
    have hrest := ih (pre ++ (MerkleTree.ofBlock h blk).postorder merge)
    simp only [List.length_append, List.append_assoc, Option.bind_eq_bind] at hrest hroot
    simp only [List.map_cons, tail_scanl_cons, hP, List.mapM_cons, flatBlocks_cons,
      List.append_assoc, Option.bind_eq_bind]
    rw [uintSub_of_le (by omega), Option.some_bind, hroot, Option.some_bind, hrest]
    rfl

theorem accumulator_forestPostorder (ds : List α) :
    (⟨ds.length, forestPostorder merge ds⟩ : Mmr α).accumulator =
      some ⟨ds.length, forestPeaks merge ds⟩ := by
  have hsizes : (trueBitPositions ds.length).reverse.map (fun bit => nodesInForest (1 <<< bit)) =
      (blocksOf ds).map fun b => nodesInForest (1 <<< b.1) := by
    rw [← map_fst_forestBlocks (trueBitPositions ds.length).reverse ds, List.map_map]
    rfl
  have h := mapM_peaks merge (blocksOf ds) [] []
  simp only [List.nil_append, List.append_nil, List.length_nil, ← forestPostorder_eq,
    Option.bind_eq_bind] at h
  simp only [Mmr.accumulator, hsizes, Option.pure_def, Option.bind_eq_bind, h, Option.some_bind]
  simp [forestPeaks, treesOf, blockRoots]

/-- The peak snapshot of the `Mmr` built from `ds` is the roots of the reference trees,
highest first: one per set bit of `|ds|`, every read of `nodes[offset - 1]` in bounds. -/
theorem accumulator_fromValues (ds : List α) :
    ∃ mmr, Mmr.fromValues merge ds = some mmr ∧
      mmr.accumulator = some ⟨ds.length, forestPeaks merge ds⟩ ∧
      (forestPeaks merge ds).length = countOnes ds.length := by
  refine ⟨_, fromValues_eq merge ds, accumulator_forestPostorder merge ds, ?_⟩
  simp [forestPeaks, treesOf, blocksOf, length_forestBlocks, countOnes]

end

end Miden.Mmr
