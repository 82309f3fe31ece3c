import Miden.Mmr.Reference

/-!
# `Mmr::add` builds the reference buffer (mmr/full.rs:155-174, 244-255)

Appending a leaf to a forest of `n` leaves, with `t` trailing ones, merges the
`t` lowest trees (heights `0, …, t-1`) with the new leaf, lowest first: the new
roots are the `cascade` of merges. On the reference side the same leaves form
one perfect tree of height `t`, whose postorder listing is the low trees, the
leaf and the cascade (`postorder_ofBlock_snoc`). The loop of `add` walks
`left_offset` down the roots of the low trees (`addLoop_cascade`), so each
`add` turns the reference buffer of `ds` into that of `ds ++ [d]`.
-/

namespace Miden.Mmr

section
variable {α : Type} (merge : α → α → α)

/-- The roots `add` pushes: `right` merged with each root in turn, lowest tree first. -/
def cascade : List α → α → List α
  | [], _ => []
  | root :: roots, right => merge root right :: cascade roots (merge root right)

theorem cascade_append_singleton (roots : List α) (root right : α) :
    cascade merge (roots ++ [root]) right =
      cascade merge roots right ++ [merge root ((cascade merge roots right).getLastD right)] := by
  induction roots generalizing right with
  | nil => rfl
  | cons x xs ih =>
    rw [List.cons_append, cascade, cascade, ih, List.getLastD_cons, List.cons_append]

theorem getElem?_pred_length_append {L : List α} (acc : List α) (h : L ≠ []) :
    (L ++ acc)[L.length - 1]? = L.getLast? := by
  have := List.length_pos.2 h
  rw [List.getElem?_append_left (by omega), List.getLast?_eq_getElem?]

theorem addLoop_extends (forest : Nat) : ∀ (fuel : Nat) (nodes : List α) (leftOffset : Nat)
    (right : α) (leftTree : Nat) (r : List α),
    addLoop merge forest fuel nodes leftOffset right leftTree = some r → nodes <+: r := by
  intro fuel
  induction fuel with
  | zero =>
    intro nodes _ _ _ r h
    simp only [addLoop, Option.some.injEq] at h
    exact h ▸ List.prefix_refl _
  | succ fuel ih =>
    intro nodes leftOffset right leftTree r h
    simp only [addLoop] at h
    split at h
    · split at h
      · cases h
      · exact (List.prefix_append _ _).trans (ih _ _ _ _ _ h)
    · cases h
      exact List.prefix_refl _

theorem length_forestBlocks (hs : List Nat) (ds : List α) : (forestBlocks hs ds).length = hs.length := by
  simpa using congrArg List.length (map_fst_forestBlocks hs ds)

/-- The blocks of `ds` above its `t` trailing ones, when `|ds| + 1 = 2^t (2m + 1)`. -/
def highBlocks (ds : List α) (t m : Nat) : List (Nat × List α) :=
  forestBlocks (trueBitPositions (2 ^ (t + 1) * m)).reverse ds

/-- The `t` low blocks of `ds`, heights `t-1, …, 0`: the trees the next leaf merges with. -/
def lowBlocks (ds : List α) (t m : Nat) : List (Nat × List α) :=
  forestBlocks (List.range t).reverse (ds.drop (2 ^ (t + 1) * m))

theorem length_lowBlocks (ds : List α) (t m : Nat) : (lowBlocks ds t m).length = t := by
  simp [lowBlocks, length_forestBlocks]

theorem blocksOf_trailing (ds : List α) (t m : Nat) (htm : ds.length + 1 = 2 ^ t * (2 * m + 1)) :
    blocksOf ds = highBlocks ds t m ++ lowBlocks ds t m := by
  have hn : ds.length = 2 ^ t * (2 * m + 1) - 1 := by omega
  rw [highBlocks, lowBlocks, blocksOf, hn, trueBitPositions_trailing, trueBitPositions_two_pow_mul,
    List.reverse_append, forestBlocks_append, ← trueBitPositions_two_pow_mul, List.map_reverse,
    List.sum_reverse, sum_trueBitPositions]

theorem blocksOf_trailing_snoc (ds : List α) (d : α) (t m : Nat)
    (htm : ds.length + 1 = 2 ^ t * (2 * m + 1)) :
    blocksOf (ds ++ [d]) = highBlocks ds t m ++ [(t, ds.drop (2 ^ (t + 1) * m) ++ [d])] := by
  have hH := two_pow_mul_odd t m
  have hsum : ((trueBitPositions (2 ^ (t + 1) * m)).reverse.map (2 ^ ·)).sum = 2 ^ (t + 1) * m := by
    rw [List.map_reverse, List.sum_reverse, sum_trueBitPositions]
  rw [blocksOf, List.length_append, List.length_singleton, htm, trueBitPositions_two_pow_mul_odd,
    ← trueBitPositions_two_pow_mul, List.reverse_cons, forestBlocks_append, hsum, highBlocks]
  generalize 2 ^ (t + 1) * m = H at hH hsum ⊢
  generalize 2 ^ t * (2 * m + 1) = N at hH htm
  have h1 := @Nat.one_le_two_pow t
  have hlen : (ds.drop H ++ [d]).length = 2 ^ t := by simp; omega
  rw [forestBlocks_append_right _ _ _ (by omega), List.drop_append_of_le_length (by omega)]
  simp [forestBlocks, ← hlen]

variable [Inhabited α]

/-- The postorder listings of the trees over some blocks, end to end. -/
def flatBlocks (bs : List (Nat × List α)) : List α :=
  bs.flatMap fun b => (MerkleTree.ofBlock b.1 b.2).postorder merge

/-- The roots of the trees over some blocks. -/
def blockRoots (bs : List (Nat × List α)) : List α :=
  bs.map fun b => (MerkleTree.ofBlock b.1 b.2).root merge

@[simp] theorem flatBlocks_nil : flatBlocks merge ([] : List (Nat × List α)) = [] := rfl

@[simp] theorem flatBlocks_cons (b : Nat × List α) (bs : List (Nat × List α)) :
    flatBlocks merge (b :: bs) = (MerkleTree.ofBlock b.1 b.2).postorder merge ++ flatBlocks merge bs :=
  rfl

@[simp] theorem flatBlocks_append (bs cs : List (Nat × List α)) :
    flatBlocks merge (bs ++ cs) = flatBlocks merge bs ++ flatBlocks merge cs :=
  List.flatMap_append _ _ _

theorem forestPostorder_eq (ds : List α) : forestPostorder merge ds = flatBlocks merge (blocksOf ds) := by
  simp [forestPostorder, treesOf, flatBlocks, List.flatMap_map]

theorem root_ofBlock_snoc (t : Nat) (low : List α) (d : α) (hlen : low.length = 2 ^ t - 1) :
    (MerkleTree.ofBlock t (low ++ [d])).root merge =
      (cascade merge (blockRoots merge (forestBlocks (List.range t).reverse low).reverse) d).getLastD d := by
  induction t generalizing low with
  | zero =>
    obtain rfl : low = [] := List.eq_nil_of_length_eq_zero (by simpa using hlen)
    rfl
  | succ t ih =>
    have h2 : 2 ^ (t + 1) = 2 ^ t * 2 := Nat.pow_succ 2 t
    have hle : 2 ^ t ≤ low.length := by have := @Nat.one_le_two_pow t; omega
    simp only [forestBlocks_range_succ, MerkleTree.ofBlock, List.take_append_of_le_length hle,
      List.drop_append_of_le_length hle, MerkleTree.root, ih (low.drop (2 ^ t)) (by simp; omega),
      blockRoots, List.reverse_cons, List.map_append, List.map_singleton, cascade_append_singleton,
      List.getLastD_concat]

theorem postorder_ofBlock_snoc (t : Nat) (low : List α) (d : α) (hlen : low.length = 2 ^ t - 1) :
    (MerkleTree.ofBlock t (low ++ [d])).postorder merge =
      flatBlocks merge (forestBlocks (List.range t).reverse low) ++
        d :: cascade merge (blockRoots merge (forestBlocks (List.range t).reverse low).reverse) d := by
  induction t generalizing low with
  | zero =>
    obtain rfl : low = [] := List.eq_nil_of_length_eq_zero (by simpa using hlen)
    rfl
  | succ t ih =>
    have h2 : 2 ^ (t + 1) = 2 ^ t * 2 := Nat.pow_succ 2 t
    have hle : 2 ^ t ≤ low.length := by have := @Nat.one_le_two_pow t; omega
    have hrest : (low.drop (2 ^ t)).length = 2 ^ t - 1 := by simp; omega
    simp only [forestBlocks_range_succ, MerkleTree.ofBlock, List.take_append_of_le_length hle,
      List.drop_append_of_le_length hle, MerkleTree.postorder, ih _ hrest,
      root_ofBlock_snoc merge t _ d hrest, blockRoots, List.reverse_cons, List.map_append,
      List.map_singleton, cascade_append_singleton, flatBlocks_cons, List.append_assoc,
      List.cons_append, List.singleton_append]

theorem length_flatBlocks_cons (h : Nat) (blk : List α) (bs : List (Nat × List α)) :
    (flatBlocks merge ((h, blk) :: bs)).length = nodesInForest (2 ^ h) + (flatBlocks merge bs).length := by
  simp [MerkleTree.length_postorder_ofBlock]

theorem addLoop_cascade (forest : Nat) (us : List (Nat × List α)) :
    ∀ (i fuel : Nat) (pre acc : List α) (right : α),
      us.map Prod.fst = List.range' i us.length →
      (∀ j < us.length, forest.testBit (i + j) = true) →
      forest.testBit (i + us.length) = false → us.length ≤ fuel →
      addLoop merge forest fuel (pre ++ flatBlocks merge us.reverse ++ acc)
          ((pre ++ flatBlocks merge us.reverse).length - 1) right (2 ^ i) =
        some (pre ++ flatBlocks merge us.reverse ++ acc ++
          cascade merge (blockRoots merge us) right) := by
  induction us with
  | nil =>
    intro i fuel pre acc right _ _ hclear _
    cases fuel with
    | zero => simp [addLoop, cascade, blockRoots]
    | succ fuel =>
      have : ¬forest &&& 2 ^ i ≠ 0 := by rw [land_two_pow_ne_zero]; simpa using hclear
      simp [addLoop, this, cascade, blockRoots]
  | cons b us ih =>
    intro i fuel pre acc right hh hset hclear hfuel
    obtain ⟨h, blk⟩ := b
    simp only [List.map_cons, List.length_cons, List.range'_succ, List.cons.injEq] at hh
    obtain ⟨rfl, hh⟩ := hh
    obtain ⟨fuel, rfl⟩ : ∃ f, fuel = f + 1 := ⟨fuel - 1, by simp at hfuel; omega⟩
    have hbit : forest &&& 2 ^ h ≠ 0 := land_two_pow_ne_zero.2 (by simpa using hset 0 (by simp))
    set P := (MerkleTree.ofBlock h blk).postorder merge
    set F := flatBlocks merge us.reverse
    have hflat : flatBlocks merge ((h, blk) :: us).reverse = F ++ P := by simp [F, P]
    have hroot : (pre ++ (F ++ P) ++ acc)[(pre ++ (F ++ P)).length - 1]? =
        some ((MerkleTree.ofBlock h blk).root merge) := by
      rw [getElem?_pred_length_append _ (by simp [P, MerkleTree.postorder_ne_nil]),
        ← List.append_assoc, List.getLast?_append_of_ne_nil _ (MerkleTree.postorder_ne_nil _ _),
        MerkleTree.getLast?_postorder]
    have hP : P.length = nodesInForest (2 ^ h) := by
      simp [P, MerkleTree.length_postorder_ofBlock]
    have hoff : (pre ++ (F ++ P)).length - 1 - nodesInForest (2 ^ h) = (pre ++ F).length - 1 := by
      simp only [List.length_append] at hP ⊢
      have : 1 ≤ nodesInForest (2 ^ h) := by
        rw [nodesInForest_two_pow]; have := @Nat.one_le_two_pow (h + 1); omega
      omega
    rw [hflat]
    simp only [addLoop, if_pos hbit, hroot, hoff, two_pow_shiftLeft_one]
    have key := ih (h + 1) fuel pre (P ++ acc ++ [merge ((MerkleTree.ofBlock h blk).root merge) right])
      (merge ((MerkleTree.ofBlock h blk).root merge) right) hh
      (fun j hj => by simpa [Nat.add_assoc, Nat.add_comm 1 j] using hset (j + 1) (by simp; omega))
      (by simpa [Nat.add_assoc, Nat.add_comm 1] using hclear) (by simp at hfuel; omega)
    simp only [List.append_assoc] at key ⊢
    rw [key]
    simp [blockRoots, cascade]


theorem length_flatBlocks (bs : List (Nat × List α)) :
    (flatBlocks merge bs).length = ((bs.map Prod.fst).map fun b => 2 ^ (b + 1) - 1).sum := by
  induction bs with
  | nil => rfl
  | cons b bs ih => simp [ih, MerkleTree.length_postorder_ofBlock]

theorem forestPostorder_trailing (ds : List α) (t m : Nat) (htm : ds.length + 1 = 2 ^ t * (2 * m + 1)) :
    forestPostorder merge ds = flatBlocks merge (highBlocks ds t m) ++ flatBlocks merge (lowBlocks ds t m) := by
  rw [forestPostorder_eq, blocksOf_trailing ds t m htm, flatBlocks_append]

theorem forestPostorder_snoc (ds : List α) (d : α) (t m : Nat)
    (htm : ds.length + 1 = 2 ^ t * (2 * m + 1)) :
    forestPostorder merge (ds ++ [d]) =
      forestPostorder merge ds ++ d :: cascade merge (blockRoots merge (lowBlocks ds t m).reverse) d := by
  have hH := two_pow_mul_odd t m
  rw [forestPostorder_trailing merge ds t m htm, forestPostorder_eq, blocksOf_trailing_snoc ds d t m htm,
    flatBlocks_append, flatBlocks_cons, flatBlocks_nil, List.append_nil,
    postorder_ofBlock_snoc merge t _ d (by simp; omega), List.append_assoc]
  rfl

theorem add_forestPostorder (ds : List α) (d : α) :
    (⟨ds.length, forestPostorder merge ds⟩ : Mmr α).add merge d =
      some ⟨ds.length + 1, forestPostorder merge (ds ++ [d])⟩ := by
  obtain ⟨t, m, htm⟩ := exists_trailing_ones ds.length
  have hH := two_pow_mul_odd t m
  have hbits : trueBitPositions ds.length =
      List.range t ++ (trueBitPositions m).map (· + (t + 1)) := by
    rw [show ds.length = 2 ^ t * (2 * m + 1) - 1 by omega, trueBitPositions_trailing]
  have hset : ∀ j < t, ds.length.testBit (0 + j) = true := fun j hj =>
    mem_trueBitPositions.1 (by rw [hbits]; simp [hj])
  have hclear : ds.length.testBit (0 + t) = false := by
    cases h : ds.length.testBit (0 + t) with
    | false => rfl
    | true =>
      have := mem_trueBitPositions.2 h
      rw [hbits] at this
      obtain ⟨a, -, ha⟩ := by simpa using this
      omega
  have ht : t ≤ ds.length := by have := Nat.lt_two_pow t; omega
  set pre := flatBlocks merge (highBlocks ds t m)
  set low := lowBlocks ds t m
  have hlow : low.reverse.length = t := by simp [low, length_lowBlocks]
  have hfst : low.reverse.map Prod.fst = List.range' 0 low.reverse.length := by
    rw [hlow, List.map_reverse]
    simp only [low, lowBlocks, map_fst_forestBlocks, List.reverse_reverse, List.range_eq_range']
  have key := addLoop_cascade merge ds.length low.reverse 0 ds.length pre [d] d hfst
    (by rw [hlow]; exact hset) (by rw [hlow]; exact hclear) (by omega)
  rw [List.reverse_reverse, pow_zero] at key
  have hold := forestPostorder_trailing merge ds t m htm
  have hoff : (pre ++ flatBlocks merge low ++ [d]).length - 2 = (pre ++ flatBlocks merge low).length - 1 := by
    simp only [List.length_append, List.length_singleton]
    omega
  rw [forestPostorder_snoc merge ds d t m htm, hold]
  simp only [Mmr.add, hoff, key, Option.pure_def, Option.bind_eq_bind, Option.some_bind]
  simp

theorem fromValues_eq (ds : List α) :
    Mmr.fromValues merge ds = some ⟨ds.length, forestPostorder merge ds⟩ := by
  induction ds using List.reverseRecOn with
  | nil => rfl
  | append_singleton ds d ih =>
    simp only [Mmr.fromValues, List.foldlM_append] at ih ⊢
    rw [ih]
    simpa using add_forestPostorder merge ds d

/-- Representation invariant of the append-only buffer: the `Mmr` built from `ds` has forest
`|ds|` and the reference postorder buffer, whose length is the sum of the tree sizes and
`nodes_in_forest(|ds|)`, and every `add` only appends to the buffer. -/
theorem fromValues_postorder_buffer (ds : List α) :
    Mmr.fromValues merge ds = some ⟨ds.length, forestPostorder merge ds⟩ ∧
    (forestPostorder merge ds).length =
      ((trueBitPositions ds.length).map fun b => 2 ^ (b + 1) - 1).sum ∧
    (forestPostorder merge ds).length = nodesInForest ds.length ∧
    ∀ (mmr mmr' : Mmr α) (d : α), mmr.add merge d = some mmr' → mmr.nodes <+: mmr'.nodes := by
  have hlen : (forestPostorder merge ds).length =
      ((trueBitPositions ds.length).map fun b => 2 ^ (b + 1) - 1).sum := by
    rw [forestPostorder_eq, length_flatBlocks, blocksOf, map_fst_forestBlocks, List.map_reverse,
      List.sum_reverse]
  refine ⟨fromValues_eq merge ds, hlen, hlen.trans (nodesInForest_eq_sum _).symm, ?_⟩
  intro mmr mmr' d h
  simp only [Mmr.add, Option.pure_def, Option.bind_eq_bind, Option.bind_eq_some,
    Option.some.injEq] at h
  obtain ⟨nodes, hloop, rfl⟩ := h
  exact (List.prefix_append _ _).trans (addLoop_extends merge _ _ _ _ _ _ _ hloop)

end

end Miden.Mmr
