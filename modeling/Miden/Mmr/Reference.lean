import Miden.Mmr.Full

/-!
# Reference forest: perfect Merkle trees over blocks of leaves

What an `Mmr` built from the digests `ds` stands for, stated without the code's
offsets. `ds` is cut into consecutive blocks, one of `2^b` leaves for each set bit
`b` of `ds.length`, highest first, and each block is the perfect Merkle tree over
it, inner nodes being `merge` of their children. The buffer should be the trees'
postorder listings end to end, the peaks their roots, and the inner nodes those of
each tree in postorder.
-/

namespace Miden.Mmr

/-- A binary Merkle tree. -/
inductive MerkleTree (α : Type) where
  | leaf (value : α)
  | node (left right : MerkleTree α)

section
variable {α : Type} (merge : α → α → α)

namespace MerkleTree

/-- The root digest. -/
def root : MerkleTree α → α
  | leaf v => v
  | node l r => merge (root l) (root r)

/-- Left subtree, right subtree, then the node. -/
def postorder : MerkleTree α → List α
  | leaf v => [v]
  | node l r => postorder l ++ postorder r ++ [merge (root merge l) (root merge r)]

/-- The inner nodes in postorder, each with its children's digests. -/
def innerNodes : MerkleTree α → List (InnerNodeInfo α)
  | leaf _ => []
  | node l r => innerNodes l ++ innerNodes r ++
      [⟨merge (root merge l) (root merge r), root merge l, root merge r⟩]

/-- The perfect tree of height `h` over a block of `2^h` leaves. -/
def ofBlock [Inhabited α] : Nat → List α → MerkleTree α
  | 0, ds => leaf (ds.headD default)
  | h + 1, ds => node (ofBlock h (ds.take (2 ^ h))) (ofBlock h (ds.drop (2 ^ h)))

theorem getLast?_postorder (t : MerkleTree α) : (t.postorder merge).getLast? = some (t.root merge) := by
  cases t <;> simp [postorder, root]

theorem postorder_ne_nil (t : MerkleTree α) : t.postorder merge ≠ [] := by
  cases t <;> simp [postorder]

theorem length_postorder_ofBlock [Inhabited α] (h : Nat) (ds : List α) :
    ((ofBlock h ds).postorder merge).length = 2 ^ (h + 1) - 1 := by
  induction h generalizing ds with
  | zero => rfl
  | succ h ih =>
    simp only [ofBlock, postorder, List.length_append, ih, List.length_singleton]
    have := @Nat.one_le_two_pow (h + 1)
    have : 2 ^ (h + 1 + 1) = 2 ^ (h + 1) * 2 := Nat.pow_succ 2 _
    omega

theorem length_innerNodes_ofBlock [Inhabited α] (h : Nat) (ds : List α) :
    ((ofBlock h ds).innerNodes merge).length = 2 ^ h - 1 := by
  induction h generalizing ds with
  | zero => rfl
  | succ h ih =>
    simp only [ofBlock, innerNodes, List.length_append, ih, List.length_singleton]
    have := @Nat.one_le_two_pow h
    have : 2 ^ (h + 1) = 2 ^ h * 2 := Nat.pow_succ 2 _
    omega

theorem innerNodes_spec (t : MerkleTree α) :
    ∀ r ∈ t.innerNodes merge, r.value = merge r.left r.right ∧
      r.value ∈ t.postorder merge ∧ r.left ∈ t.postorder merge ∧ r.right ∈ t.postorder merge := by
  induction t with
  | leaf => simp [innerNodes]
  | node l r ihl ihr =>
    simp only [innerNodes, postorder, List.mem_append, List.mem_singleton]
    rintro x ((hx | hx) | rfl)
    · obtain ⟨h1, h2, h3, h4⟩ := ihl x hx
      exact ⟨h1, .inl (.inl h2), .inl (.inl h3), .inl (.inl h4)⟩
    · obtain ⟨h1, h2, h3, h4⟩ := ihr x hx
      exact ⟨h1, .inl (.inr h2), .inl (.inr h3), .inl (.inr h4)⟩
    · exact ⟨rfl, .inr rfl, .inl (.inl (List.mem_of_getLast?_eq_some (getLast?_postorder merge l))),
        .inl (.inr (List.mem_of_getLast?_eq_some (getLast?_postorder merge r)))⟩

end MerkleTree

/-- Consecutive blocks of `ds`, one of `2^h` leaves for each height `h` of `heights`. -/
def forestBlocks : List Nat → List α → List (Nat × List α)
  | [], _ => []
  | h :: hs, ds => (h, ds.take (2 ^ h)) :: forestBlocks hs (ds.drop (2 ^ h))

/-- The blocks of the forest of `ds`: one per set bit of `ds.length`, highest first. -/
def blocksOf (ds : List α) : List (Nat × List α) :=
  forestBlocks (trueBitPositions ds.length).reverse ds

theorem map_fst_forestBlocks (hs : List Nat) (ds : List α) :
    (forestBlocks hs ds).map Prod.fst = hs := by
  induction hs generalizing ds with
  | nil => rfl
  | cons h hs ih => simp [forestBlocks, ih]

theorem forestBlocks_append (hs hs' : List Nat) (ds : List α) :
    forestBlocks (hs ++ hs') ds =
      forestBlocks hs ds ++ forestBlocks hs' (ds.drop (hs.map (2 ^ ·)).sum) := by
  induction hs generalizing ds with
  | nil => rfl
  | cons h hs ih => simp [forestBlocks, ih, List.drop_drop, Nat.add_comm]

theorem forestBlocks_append_right (hs : List Nat) (ds es : List α)
    (h : (hs.map (2 ^ ·)).sum ≤ ds.length) : forestBlocks hs (ds ++ es) = forestBlocks hs ds := by
  induction hs generalizing ds with
  | nil => rfl
  | cons b hs ih =>
    simp only [List.map_cons, List.sum_cons] at h
    simp only [forestBlocks, List.take_append_of_le_length (by omega : 2 ^ b ≤ ds.length),
      List.drop_append_of_le_length (by omega : 2 ^ b ≤ ds.length),
      ih (ds.drop (2 ^ b)) (by simp; omega)]

theorem forestBlocks_range_succ (t : Nat) (ds : List α) :
    forestBlocks (List.range (t + 1)).reverse ds =
      (t, ds.take (2 ^ t)) :: forestBlocks (List.range t).reverse (ds.drop (2 ^ t)) := by
  rw [List.range_succ, List.reverse_append, List.reverse_singleton, List.singleton_append,
    forestBlocks]

variable [Inhabited α]

/-- The trees of the forest of `ds`, highest first. -/
def treesOf (ds : List α) : List (MerkleTree α) :=
  (blocksOf ds).map fun b => .ofBlock b.1 b.2

/-- The reference buffer: the trees' postorder listings, end to end. -/
def forestPostorder (ds : List α) : List α := (treesOf ds).flatMap (·.postorder merge)

/-- The reference peaks: the trees' roots, highest tree first. -/
def forestPeaks (ds : List α) : List α := (treesOf ds).map (·.root merge)

/-- The reference inner nodes: tree by tree, each tree in postorder. -/
def forestInnerNodes (ds : List α) : List (InnerNodeInfo α) :=
  (treesOf ds).flatMap (·.innerNodes merge)

end

end Miden.Mmr
