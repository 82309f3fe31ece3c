import Miden.Mmr.Add

/-!
# `MmrNodes` enumerates the reference inner nodes (mmr/full.rs:192-199, 261-332)

Appending the leaf `x` after `n` leaves with `t` trailing ones makes `t` inner nodes,
the `cascadeInfo` of merges with the roots of the low trees. The iterator replays the
appends two leaves at a time: with `last_right = 0` it steps over a left and a right
leaf, then it yields the cascade of the right leaf one record per call, the pending
right node `last_right = 2^i` and the scratch `forest` saying which low trees are
still to merge. Its states between calls are `NodesAt`; `next_nodesAt` is one call
and `nextN_nodesAt` a run of any number of calls. Since every state a run reaches is a
`NodesAt` state, the next call returns there, and what a returning call has checked
(`next_eq_some`) holds in every reachable state: the `debug_assert!`s of `next` never fire.
-/

namespace Miden.Mmr

section
variable {α : Type} (merge : α → α → α)

/-- The inner nodes `add` creates: `merge root right` with its two children, lowest tree first. -/
def cascadeInfo : List α → α → List (InnerNodeInfo α)
  | [], _ => []
  | root :: roots, right => ⟨merge root right, root, right⟩ :: cascadeInfo roots (merge root right)

@[simp] theorem length_cascade (roots : List α) (right : α) :
    (cascade merge roots right).length = roots.length := by
  induction roots generalizing right <;> simp [cascade, *]

@[simp] theorem length_cascadeInfo (roots : List α) (right : α) :
    (cascadeInfo merge roots right).length = roots.length := by
  induction roots generalizing right <;> simp [cascadeInfo, *]

theorem cascadeInfo_append_singleton (roots : List α) (root right : α) :
    cascadeInfo merge (roots ++ [root]) right =
      cascadeInfo merge roots right ++
        [⟨merge root ((cascade merge roots right).getLastD right), root,
          (cascade merge roots right).getLastD right⟩] := by
  induction roots generalizing right with
  | nil => rfl
  | cons x xs ih =>
    rw [List.cons_append, cascadeInfo, cascadeInfo, ih, cascade, List.getLastD_cons, List.cons_append]

theorem getElem?_cascadeInfo (roots : List α) (right : α) (i : Nat) :
    (cascadeInfo merge roots right)[i]? =
      (do
        let value ← (cascade merge roots right)[i]?
        let left ← roots[i]?
        let r ← (right :: cascade merge roots right)[i]?
        pure ⟨value, left, r⟩) := by
  induction roots generalizing right i with
  | nil => simp [cascadeInfo, cascade]
  | cons x xs ih =>
    cases i with
    | zero => simp [cascadeInfo, cascade]
    | succ i => simp [cascadeInfo, cascade, ih]

variable [Inhabited α]

/-- The inner nodes of the trees over some blocks, tree by tree. -/
def flatInner (bs : List (Nat × List α)) : List (InnerNodeInfo α) :=
  bs.flatMap fun b => (MerkleTree.ofBlock b.1 b.2).innerNodes merge

@[simp] theorem flatInner_nil : flatInner merge ([] : List (Nat × List α)) = [] := rfl

@[simp] theorem flatInner_cons (b : Nat × List α) (bs : List (Nat × List α)) :
    flatInner merge (b :: bs) = (MerkleTree.ofBlock b.1 b.2).innerNodes merge ++ flatInner merge bs :=
  rfl

@[simp] theorem flatInner_append (bs cs : List (Nat × List α)) :
    flatInner merge (bs ++ cs) = flatInner merge bs ++ flatInner merge cs :=
  List.flatMap_append _ _ _

theorem forestInnerNodes_eq (ds : List α) :
    forestInnerNodes merge ds = flatInner merge (blocksOf ds) := by
  simp [forestInnerNodes, treesOf, flatInner, List.flatMap_map]

theorem innerNodes_ofBlock_snoc (t : Nat) (low : List α) (d : α) (hlen : low.length = 2 ^ t - 1) :
    (MerkleTree.ofBlock t (low ++ [d])).innerNodes merge =
      flatInner merge (forestBlocks (List.range t).reverse low) ++
        cascadeInfo merge (blockRoots merge (forestBlocks (List.range t).reverse low).reverse) d := by
  induction t generalizing low with
  | zero =>
    obtain rfl : low = [] := List.eq_nil_of_length_eq_zero (by simpa using hlen)
    rfl
  | succ t ih =>
    have h2 : 2 ^ (t + 1) = 2 ^ t * 2 := Nat.pow_succ 2 t
    have hle : 2 ^ t ≤ low.length := by have := @Nat.one_le_two_pow t; omega
    have hrest : (low.drop (2 ^ t)).length = 2 ^ t - 1 := by simp; omega
    simp only [forestBlocks_range_succ, MerkleTree.ofBlock, List.take_append_of_le_length hle,
      List.drop_append_of_le_length hle, MerkleTree.innerNodes, ih _ hrest,
      root_ofBlock_snoc merge t _ d hrest, blockRoots, List.reverse_cons, List.map_append,
      List.map_singleton, cascadeInfo_append_singleton, flatInner_cons, List.append_assoc]

theorem forestInnerNodes_snoc (ds : List α) (d : α) (t m : Nat)
    (htm : ds.length + 1 = 2 ^ t * (2 * m + 1)) :
    forestInnerNodes merge (ds ++ [d]) =
      forestInnerNodes merge ds ++ cascadeInfo merge (blockRoots merge (lowBlocks ds t m).reverse) d := by
  have hH := two_pow_mul_odd t m
  rw [forestInnerNodes_eq, forestInnerNodes_eq, blocksOf_trailing_snoc ds d t m htm,
    blocksOf_trailing ds t m htm, flatInner_append, flatInner_append, flatInner_cons, flatInner_nil,
    List.append_nil, innerNodes_ofBlock_snoc merge t _ d (by simp; omega), List.append_assoc]
  rfl

theorem forestPostorder_extends (ds es : List α) :
    forestPostorder merge ds <+: forestPostorder merge (ds ++ es) := by
  induction es using List.reverseRecOn with
  | nil => simp
  | append_singleton es e ih =>
    obtain ⟨t, m, htm⟩ := exists_trailing_ones (ds ++ es).length
    rw [← List.append_assoc, forestPostorder_snoc merge _ e t m htm]
    exact ih.trans (List.prefix_append _ _)

theorem forestInnerNodes_extends (ds es : List α) :
    forestInnerNodes merge ds <+: forestInnerNodes merge (ds ++ es) := by
  induction es using List.reverseRecOn with
  | nil => simp
  | append_singleton es e ih =>
    obtain ⟨t, m, htm⟩ := exists_trailing_ones (ds ++ es).length
    rw [← List.append_assoc, forestInnerNodes_snoc merge _ e t m htm]
    exact ih.trans (List.prefix_append _ _)

theorem forestPostorder_snoc_even (ds : List α) (d : α) (h : ds.length % 2 = 0) :
    forestPostorder merge (ds ++ [d]) = forestPostorder merge ds ++ [d] ∧
      forestInnerNodes merge (ds ++ [d]) = forestInnerNodes merge ds := by
  have htm : ds.length + 1 = 2 ^ 0 * (2 * (ds.length / 2) + 1) := by omega
  have hlow : lowBlocks ds 0 (ds.length / 2) = [] := rfl
  rw [forestPostorder_snoc merge ds d 0 _ htm, forestInnerNodes_snoc merge ds d 0 _ htm, hlow]
  simp [blockRoots, cascade, cascadeInfo]

theorem length_forestInnerNodes (ds : List α) :
    (forestInnerNodes merge ds).length = ds.length - countOnes ds.length := by
  have h : ∀ bs : List (Nat × List α),
      (flatInner merge bs).length + bs.length = ((bs.map Prod.fst).map (2 ^ ·)).sum := by
    intro bs
    induction bs with
    | nil => rfl
    | cons b bs ih =>
      have := @Nat.one_le_two_pow b.1
      simp only [flatInner_cons, List.length_append, MerkleTree.length_innerNodes_ofBlock,
        List.length_cons, List.map_cons, List.sum_cons]
      omega
  have hb := h (blocksOf ds)
  rw [blocksOf, map_fst_forestBlocks, List.map_reverse, List.sum_reverse, sum_trueBitPositions,
    length_forestBlocks, List.length_reverse] at hb
  rw [forestInnerNodes_eq, countOnes, blocksOf]
  omega

end

/-! ### The scratch forest -/

theorem testBit_scratch (t m i j : Nat) (hi : i ≤ t) :
    (2 ^ (t + 1) * m + (2 ^ t - 2 ^ i)).testBit j =
      (decide (i ≤ j ∧ j < t) || (decide (t + 1 ≤ j) && m.testBit (j - (t + 1)))) := by
  have hsub : 2 ^ t - 2 ^ i = (2 ^ (t - i) - 1) <<< i := by
    rw [Nat.shiftLeft_eq, Nat.sub_mul, ← Nat.pow_add, Nat.sub_add_cancel hi, Nat.one_mul]
  have hlt : 2 ^ t - 2 ^ i < 2 ^ (t + 1) :=
    lt_of_le_of_lt (Nat.sub_le _ _) (Nat.pow_lt_pow_right (by decide) (Nat.lt_succ_self t))
  rw [Nat.testBit_mul_pow_two_add m hlt, hsub]
  by_cases hj : j < t + 1
  · simp only [hj, if_true, Nat.testBit_shiftLeft, Nat.testBit_two_pow_sub_one,
      show ¬(t + 1 ≤ j) by omega, decide_False, Bool.false_and, Bool.or_false]
    by_cases hij : i ≤ j
    · simp [hij]; omega
    · simp [hij]
  · simp only [hj, if_false]
    simp [show ¬(j < t) by omega, show t + 1 ≤ j by omega]

theorem scratch_land_ne_zero {t m i : Nat} (hi : i < t) :
    (2 ^ (t + 1) * m + (2 ^ t - 2 ^ i)) &&& 2 ^ i ≠ 0 := by
  rw [land_two_pow_ne_zero, testBit_scratch t m i i hi.le]
  simp [hi]

theorem scratch_xor {t m i : Nat} (hi : i < t) :
    (2 ^ (t + 1) * m + (2 ^ t - 2 ^ i)) ^^^ 2 ^ i = 2 ^ (t + 1) * m + (2 ^ t - 2 ^ (i + 1)) := by
  apply Nat.eq_of_testBit_eq
  intro j
  rw [Nat.testBit_xor, testBit_scratch t m i j hi.le, testBit_scratch t m (i + 1) j hi,
    Nat.testBit_two_pow]
  by_cases h : i = j
  · subst h; simp [hi, show ¬(t + 1 ≤ i) by omega]
  · by_cases h' : t + 1 ≤ j
    · simp [h, h', show ¬(j < t) by omega]
    · simp [h, h', show (i ≤ j ↔ i + 1 ≤ j) by omega]

theorem scratch_land_eq_zero {t m i : Nat} (hi : i < t) :
    (2 ^ (t + 1) * m + (2 ^ t - 2 ^ (i + 1))) &&& 2 ^ (i + 1) = 0 ↔ t = i + 1 := by
  have h := (land_two_pow_ne_zero (n := 2 ^ (t + 1) * m + (2 ^ t - 2 ^ (i + 1))) (i := i + 1)).not
  rw [not_not, testBit_scratch t m (i + 1) (i + 1) hi] at h
  rw [h]
  simp only [le_refl, true_and, Bool.or_eq_true, decide_eq_true_eq, Bool.and_eq_true]
  omega

theorem scratch_done (t m : Nat) :
    (2 ^ (t + 1) * m + (2 ^ t - 2 ^ t)) &&& 1 = 0 ∧
      (2 ^ (t + 1) * m + (2 ^ t - 2 ^ t)) ^^^ 2 ^ t = 2 ^ (t + 1) * m + 2 ^ t := by
  constructor
  · have h := (land_two_pow_ne_zero (n := 2 ^ (t + 1) * m + (2 ^ t - 2 ^ t)) (i := 0)).not
    rw [not_not, testBit_scratch t m t 0 le_rfl, pow_zero] at h
    exact h.2 (by simp)
  · have hlt : 2 ^ t < 2 ^ (t + 1) := Nat.pow_lt_pow_right (by decide) (Nat.lt_succ_self t)
    apply Nat.eq_of_testBit_eq
    intro j
    rw [Nat.testBit_xor, testBit_scratch t m t j le_rfl, Nat.testBit_mul_pow_two_add m hlt,
      Nat.testBit_two_pow]
    by_cases hj : j < t + 1
    · simp only [hj, if_true, Nat.testBit_two_pow]
      by_cases h : t = j
      · simp [h]
      · simp [h, show ¬(t + 1 ≤ j) by omega]
    · simp only [hj, if_false]
      simp [show ¬(t = j) by omega, show t + 1 ≤ j by omega]

theorem even_lor_one {L : Nat} (h : L % 2 = 0) : L ||| 1 = L + 1 ∧ (L + 1) &&& 1 = 1 := by
  have hb : ∀ j, (L ||| 1).testBit j = (L + 1).testBit j := by
    intro j
    cases j with
    | zero => simp [Nat.testBit_zero]; omega
    | succ j =>
      rw [Nat.testBit_or, Nat.testBit_succ, Nat.testBit_succ, Nat.testBit_succ,
        show (L + 1) / 2 = L / 2 by omega]
      simp
  refine ⟨Nat.eq_of_testBit_eq hb, Nat.eq_of_testBit_eq fun j => ?_⟩
  cases j with
  | zero => simp [Nat.testBit_zero]; omega
  | succ j => simp [Nat.testBit_succ]

theorem target_eq {n : Nat} (hn : n < 2 ^ usizeBits) :
    n &&& ((usizeMax <<< 1) % 2 ^ usizeBits) = n / 2 * 2 := by
  have h := land_highBitmask hn 1
  rw [highBitmask, if_neg (by decide), Nat.shiftLeft_eq, Nat.shiftRight_eq_div_pow] at h
  rw [Nat.shiftLeft_eq, h, Nat.shiftLeft_eq, pow_one]

/-! ### The buffer around a cascade -/

section
variable {α : Type} (merge : α → α → α) [Inhabited α]

theorem length_flatBlocks_range (t : Nat) (ys : List α) :
    (flatBlocks merge (forestBlocks (List.range t).reverse ys)).length + t + 2 = 2 ^ (t + 1) := by
  induction t generalizing ys with
  | zero => rfl
  | succ t ih =>
    have h := ih (ys.drop (2 ^ t))
    have h2 : 2 ^ (t + 1 + 1) = 2 ^ (t + 1) * 2 := Nat.pow_succ 2 _
    simp only [forestBlocks_range_succ, flatBlocks_cons, List.length_append,
      MerkleTree.length_postorder_ofBlock]
    have h1 := @Nat.one_le_two_pow (t + 1)
    omega

theorem getElem?_lowRoot (pre rest : List α) (t : Nat) (ys : List α) (i : Nat) (hi : i < t) :
    2 ^ (i + 1) ≤ (pre ++ flatBlocks merge (forestBlocks (List.range t).reverse ys)).length + 1 + i ∧
      (pre ++ flatBlocks merge (forestBlocks (List.range t).reverse ys) ++ rest)[
          (pre ++ flatBlocks merge (forestBlocks (List.range t).reverse ys)).length + 1 + i -
            2 ^ (i + 1)]? =
        (blockRoots merge (forestBlocks (List.range t).reverse ys).reverse)[i]? := by
  induction t generalizing pre ys with
  | zero => omega
  | succ t ih =>
    set B := MerkleTree.ofBlock t (ys.take (2 ^ t))
    set low := forestBlocks (List.range t).reverse (ys.drop (2 ^ t))
    have hroots : blockRoots merge ((t, ys.take (2 ^ t)) :: low).reverse =
        blockRoots merge low.reverse ++ [B.root merge] := by
      simp [blockRoots, B]
    have hlen : (blockRoots merge low.reverse).length = t := by
      simp [blockRoots, low, length_forestBlocks]
    have hflat : pre ++ flatBlocks merge ((t, ys.take (2 ^ t)) :: low) =
        pre ++ B.postorder merge ++ flatBlocks merge low := by
      simp [B]
    rw [forestBlocks_range_succ, hroots, hflat]
    rcases Nat.lt_succ_iff_lt_or_eq.1 hi with hi | rfl
    · have hr : (blockRoots merge low.reverse ++ [B.root merge])[i]? =
          (blockRoots merge low.reverse)[i]? := List.getElem?_append_left (by omega)
      rw [hr]
      exact ih (pre ++ B.postorder merge) _ hi
    · have hP : (B.postorder merge).length = 2 ^ (i + 1) - 1 :=
        MerkleTree.length_postorder_ofBlock merge _ _
      have hF : (flatBlocks merge low).length + i + 2 = 2 ^ (i + 1) :=
        length_flatBlocks_range merge i _
      have h1 := @Nat.one_le_two_pow (i + 1)
      have hidx : (pre ++ B.postorder merge ++ flatBlocks merge low).length + 1 + i - 2 ^ (i + 1) =
          (pre ++ B.postorder merge).length - 1 := by
        simp only [List.length_append] at hP ⊢; omega
      refine ⟨by simp only [List.length_append] at hP ⊢; omega, ?_⟩
      have hne := MerkleTree.postorder_ne_nil merge B
      rw [hidx, List.append_assoc, List.append_assoc, ← List.append_assoc pre,
        getElem?_pred_length_append _ (by simp [hne]), List.getLast?_append_of_ne_nil _ hne,
        MerkleTree.getLast?_postorder, List.getElem?_append_right (by omega), hlen, Nat.sub_self]
      rfl

end

/-! ### The iterator -/

section
variable {α : Type}

theorem yieldParent_scratch (mmr : Mmr α) {t m i : Nat} (index : Nat) (hi : i < t) {v l r : α}
    (hidx : 2 ^ (i + 1) ≤ index) (hv : mmr.nodes[index]? = some v)
    (hr : mmr.nodes[index - 1]? = some r) (hl : mmr.nodes[index - 2 ^ (i + 1)]? = some l) :
    MmrNodes.yieldParent mmr ⟨2 ^ (t + 1) * m + (2 ^ t - 2 ^ i), 2 ^ i, index⟩ =
      some (⟨v, l, r⟩, if i + 1 < t then
          ⟨2 ^ (t + 1) * m + (2 ^ t - 2 ^ (i + 1)), 2 ^ (i + 1), index + 1⟩
        else ⟨2 ^ (t + 1) * m + 2 ^ t, 0, index + 1⟩) := by
  have h1 := @Nat.one_le_two_pow (i + 1)
  have hsub : index - 1 - (2 ^ (i + 1) - 1) = index - 2 ^ (i + 1) := by omega
  have hne0 := scratch_land_ne_zero (m := m) hi
  unfold MmrNodes.yieldParent
  simp only [guard, ne_eq, hne0, not_false_eq_true, if_true, scratch_xor hi, two_pow_shiftLeft_one,
    nodesInForest_two_pow]
  by_cases hlt : i + 1 < t
  · have hne : ¬(2 ^ (t + 1) * m + (2 ^ t - 2 ^ (i + 1))) &&& 2 ^ (i + 1) = 0 := by
      rw [scratch_land_eq_zero hi]; omega
    simp [hne, hlt, hv, hr, hl, uintSub_of_le (show 1 ≤ index by omega),
      uintSub_of_le (show 2 ^ (i + 1) - 1 ≤ index - 1 by omega), hsub]
  · obtain rfl : t = i + 1 := by omega
    rw [if_pos ((scratch_land_eq_zero hi).2 rfl), if_pos (scratch_done _ m).1, (scratch_done _ m).2]
    simp [hlt, hv, hr, hl, uintSub_of_le (show 1 ≤ index by omega),
      uintSub_of_le (show 2 ^ (i + 1) - 1 ≤ index - 1 by omega), hsub]
end

section
variable {α : Type} (merge : α → α → α) [Inhabited α]

/-- The states of `MmrNodes` between calls on the `Mmr` built from `ds`, with the records
still to come: `clean L` once the inner nodes over the first `L` leaves are yielded, with no
right node pending; `pending` in the cascade of the leaf `x` after the leaves `xs`, with the
right node of height `i` pending. -/
inductive NodesAt (ds : List α) : MmrNodes → List (InnerNodeInfo α) → Prop
  | clean (L : Nat) : L % 2 = 0 → L ≤ ds.length →
      NodesAt ds ⟨L, 0, (forestPostorder merge (ds.take L)).length⟩
        ((forestInnerNodes merge ds).drop (forestInnerNodes merge (ds.take L)).length)
  | pending (xs : List α) (x : α) (t m i : Nat) : xs.length + 1 = 2 ^ t * (2 * m + 1) →
      xs ++ [x] <+: ds → 0 < i → i < t →
      NodesAt ds ⟨2 ^ (t + 1) * m + (2 ^ t - 2 ^ i), 2 ^ i, (forestPostorder merge xs).length + 1 + i⟩
        ((cascadeInfo merge (blockRoots merge (lowBlocks xs t m).reverse) x).drop i ++
          (forestInnerNodes merge ds).drop (forestInnerNodes merge (xs ++ [x])).length)

theorem NodesAt.clean_of_prefix {ds ys : List α} (hys : ys <+: ds) (heven : ys.length % 2 = 0) :
    NodesAt merge ds ⟨ys.length, 0, (forestPostorder merge ys).length⟩
      ((forestInnerNodes merge ds).drop (forestInnerNodes merge ys).length) := by
  obtain ⟨es, rfl⟩ := hys
  simpa using @NodesAt.clean _ merge _ (ys ++ es) ys.length heven (by simp)

theorem yieldParent_nodesAt {ds xs : List α} {x : α} {t m i : Nat}
    (htm : xs.length + 1 = 2 ^ t * (2 * m + 1)) (hpre : xs ++ [x] <+: ds) (hi : i < t) :
    ∃ r it', (cascadeInfo merge (blockRoots merge (lowBlocks xs t m).reverse) x)[i]? = some r ∧
      MmrNodes.yieldParent (⟨ds.length, forestPostorder merge ds⟩ : Mmr α)
        ⟨2 ^ (t + 1) * m + (2 ^ t - 2 ^ i), 2 ^ i, (forestPostorder merge xs).length + 1 + i⟩ =
          some (r, it') ∧
      NodesAt merge ds it'
        ((cascadeInfo merge (blockRoots merge (lowBlocks xs t m).reverse) x).drop (i + 1) ++
          (forestInnerNodes merge ds).drop (forestInnerNodes merge (xs ++ [x])).length) := by
  set R := blockRoots merge (lowBlocks xs t m).reverse
  set pre := flatBlocks merge (highBlocks xs t m)
  set F := flatBlocks merge (lowBlocks xs t m)
  have hR : R.length = t := by simp [R, blockRoots, length_lowBlocks]
  obtain ⟨es, rfl⟩ := hpre
  obtain ⟨sufN, hsufN⟩ := forestPostorder_extends merge (xs ++ [x]) es
  have hxs : forestPostorder merge xs = pre ++ F := forestPostorder_trailing merge xs t m htm
  have hnodes : forestPostorder merge (xs ++ [x] ++ es) =
      pre ++ F ++ (x :: cascade merge R x ++ sufN) := by
    rw [← hsufN, forestPostorder_snoc merge xs x t m htm, hxs]
    simp
  set N := (pre ++ F).length
  have hv : (pre ++ F ++ (x :: cascade merge R x ++ sufN))[N + 1 + i]? = (cascade merge R x)[i]? := by
    rw [List.getElem?_append_right (by omega), show N + 1 + i - N = i + 1 by omega,
      List.getElem?_append_left (by simp [hR, hi]), List.getElem?_cons_succ]
  have hr : (pre ++ F ++ (x :: cascade merge R x ++ sufN))[N + 1 + i - 1]? =
      (x :: cascade merge R x)[i]? := by
    rw [List.getElem?_append_right (by omega), show N + 1 + i - 1 - N = i by omega,
      List.getElem?_append_left (by simp [hR]; omega)]
  have hl : 2 ^ (i + 1) ≤ N + 1 + i ∧
      (pre ++ F ++ (x :: cascade merge R x ++ sufN))[N + 1 + i - 2 ^ (i + 1)]? = R[i]? :=
    getElem?_lowRoot merge pre _ t _ i hi
  obtain ⟨v, hv'⟩ : ∃ v, (cascade merge R x)[i]? = some v :=
    ⟨_, List.getElem?_eq_getElem (by simp [hR, hi])⟩
  obtain ⟨r, hr'⟩ : ∃ r, (x :: cascade merge R x)[i]? = some r :=
    ⟨_, List.getElem?_eq_getElem (by simp [hR]; omega)⟩
  obtain ⟨l, hl'⟩ : ∃ l, R[i]? = some l := ⟨_, List.getElem?_eq_getElem (by simp [hR, hi])⟩
  have hrec : (cascadeInfo merge R x)[i]? = some ⟨v, l, r⟩ := by
    rw [getElem?_cascadeInfo, hv', hl', hr']
    rfl
  have hstep := yieldParent_scratch (⟨(xs ++ [x] ++ es).length, forestPostorder merge (xs ++ [x] ++ es)⟩ : Mmr α)
    (m := m) ((forestPostorder merge xs).length + 1 + i) hi (by rw [hxs]; exact hl.1)
    (by show (forestPostorder merge _)[_]? = _; rw [hnodes, hxs]; exact hv.trans hv')
    (by show (forestPostorder merge _)[_]? = _; rw [hnodes, hxs]; exact hr.trans hr')
    (by show (forestPostorder merge _)[_]? = _; rw [hnodes, hxs]; exact hl.2.trans hl')
  refine ⟨_, _, hrec, hstep, ?_⟩
  split
  · exact NodesAt.pending xs x t m (i + 1) htm (List.prefix_append _ _) (by omega) ‹_›
  · obtain rfl : t = i + 1 := by omega
    have hlen : (xs ++ [x]).length = 2 ^ (i + 1 + 1) * m + 2 ^ (i + 1) := by
      rw [List.length_append, List.length_singleton, htm, two_pow_mul_odd]
    have heven : (xs ++ [x]).length % 2 = 0 := by
      rw [List.length_append, List.length_singleton, htm, Nat.pow_succ, Nat.mul_comm (2 ^ i) 2,
        Nat.mul_assoc, Nat.mul_mod_right]
    have hpost : (forestPostorder merge (xs ++ [x])).length =
        (forestPostorder merge xs).length + 1 + i + 1 := by
      rw [forestPostorder_snoc merge xs x _ m htm]
      simp [hR]; omega
    have hc := NodesAt.clean_of_prefix merge (List.prefix_append (xs ++ [x]) es) heven
    rw [hlen, hpost] at hc
    rwa [List.drop_eq_nil_of_le (by simp [hR]), List.nil_append]

theorem yieldLeaves_even {L index : Nat} (h : L % 2 = 0) :
    MmrNodes.yieldLeaves ⟨L, 0, index⟩ = some ⟨L + 1, 1, index + 1 + 1⟩ := by
  simp [MmrNodes.yieldLeaves, guard, (even_lor_one h).1, (even_lor_one h).2]

theorem next_clean_pair {ds : List α} (hk : ds.length < 2 ^ usizeBits) {L : Nat}
    (heven : L % 2 = 0) (hL : L + 2 ≤ ds.length) :
    ∃ it', MmrNodes.next (⟨ds.length, forestPostorder merge ds⟩ : Mmr α)
        ⟨L, 0, (forestPostorder merge (ds.take L)).length⟩ =
          some (((forestInnerNodes merge ds).drop (forestInnerNodes merge (ds.take L)).length).head?, it') ∧
      NodesAt merge ds it' ((forestInnerNodes merge ds).drop (forestInnerNodes merge (ds.take L)).length).tail := by
  have hzero : countOnes 0 = 0 := rfl
  obtain ⟨t, m, htm⟩ := exists_trailing_ones (L + 1)
  have hb : L + 1 < ds.length := by omega
  have hxs : (ds.take (L + 1)).length = L + 1 := by simp; omega
  have htm' : (ds.take (L + 1)).length + 1 = 2 ^ t * (2 * m + 1) := by rw [hxs]; exact htm
  have ht : 0 < t := by
    rcases Nat.eq_zero_or_pos t with rfl | ht
    · simp at htm; omega
    · exact ht
  have hpre : ds.take (L + 1) ++ [ds[L + 1]] <+: ds := by
    rw [← List.concat_eq_append, List.take_concat_get]; exact List.take_prefix _ _
  have hsplit : ds.take (L + 1) = ds.take L ++ [ds[L]] := by
    rw [← List.concat_eq_append, List.take_concat_get]
  have heven' := forestPostorder_snoc_even merge (ds.take L) ds[L] (by simp; omega)
  rw [← hsplit] at heven'
  obtain ⟨r, it', hrec, hy, hnext⟩ := yieldParent_nodesAt merge htm' hpre ht
  obtain ⟨es, hes⟩ := hpre
  have hrest : (forestInnerNodes merge ds).drop (forestInnerNodes merge (ds.take L)).length =
      cascadeInfo merge (blockRoots merge (lowBlocks (ds.take (L + 1)) t m).reverse) ds[L + 1] ++
        (forestInnerNodes merge ds).drop
          (forestInnerNodes merge (ds.take (L + 1) ++ [ds[L + 1]])).length := by
    obtain ⟨E, hE⟩ := forestInnerNodes_extends merge (ds.take (L + 1) ++ [ds[L + 1]]) es
    rw [hes] at hE
    rw [← hE, forestInnerNodes_snoc merge _ _ t m htm', heven'.2]
    simp
  rw [hrest]
  rcases hcs : cascadeInfo merge (blockRoots merge (lowBlocks (ds.take (L + 1)) t m).reverse)
      ds[L + 1] with _ | ⟨a, tl⟩
  · simp [hcs] at hrec
  rw [hcs] at hrec hnext
  simp only [List.getElem?_cons_zero, Option.some.injEq] at hrec
  subst hrec
  refine ⟨it', ?_, by simpa using hnext⟩
  have hH := two_pow_mul_odd t m
  have hst : (⟨L + 1, 1, (forestPostorder merge (ds.take L)).length + 1 + 1⟩ : MmrNodes) =
      ⟨2 ^ (t + 1) * m + (2 ^ t - 1), 1, (forestPostorder merge (ds.take (L + 1))).length + 1⟩ := by
    have hp1 := @Nat.one_le_two_pow t
    rw [heven'.1, List.length_append, List.length_singleton, MmrNodes.mk.injEq]
    generalize 2 ^ (t + 1) * m = H at hH ⊢
    omega
  simp only [pow_zero, Nat.add_zero] at hy
  have hfor : L < ds.length / 2 * 2 := by omega
  simp [MmrNodes.next, guard, target_eq hk, hzero, hfor, yieldLeaves_even heven, hst, hy]

theorem next_clean_end {ds : List α} (hk : ds.length < 2 ^ usizeBits) {L : Nat}
    (heven : L % 2 = 0) (hle : L ≤ ds.length) (hL : ¬L + 2 ≤ ds.length) :
    ∃ it', MmrNodes.next (⟨ds.length, forestPostorder merge ds⟩ : Mmr α)
        ⟨L, 0, (forestPostorder merge (ds.take L)).length⟩ =
          some (((forestInnerNodes merge ds).drop (forestInnerNodes merge (ds.take L)).length).head?, it') ∧
      NodesAt merge ds it' ((forestInnerNodes merge ds).drop (forestInnerNodes merge (ds.take L)).length).tail := by
  have hzero : countOnes 0 = 0 := rfl
  have hnil : (forestInnerNodes merge ds).drop (forestInnerNodes merge (ds.take L)).length = [] := by
    rcases Nat.lt_or_ge L ds.length with hlt | hge
    · have hsplit : ds = ds.take L ++ [ds[L]] := by
        rw [← List.concat_eq_append, List.take_concat_get, List.take_of_length_le (by omega)]
      have h := (forestPostorder_snoc_even merge (ds.take L) ds[L] (by simp; omega)).2
      rw [← hsplit] at h
      simp [h]
    · simp [List.take_of_length_le hge]
  have hc := @NodesAt.clean _ merge _ ds L heven hle
  rw [hnil] at hc ⊢
  exact ⟨_, by simp [MmrNodes.next, guard, target_eq hk, hzero, show ¬L < ds.length / 2 * 2 by omega], hc⟩
theorem next_pending {ds : List α} (hk : ds.length < 2 ^ usizeBits) {xs : List α} {x : α}
    {t m i : Nat} (htm : xs.length + 1 = 2 ^ t * (2 * m + 1)) (hpre : xs ++ [x] <+: ds)
    (hit : i < t) :
    ∃ it', MmrNodes.next (⟨ds.length, forestPostorder merge ds⟩ : Mmr α)
        ⟨2 ^ (t + 1) * m + (2 ^ t - 2 ^ i), 2 ^ i, (forestPostorder merge xs).length + 1 + i⟩ =
          some (((cascadeInfo merge (blockRoots merge (lowBlocks xs t m).reverse) x).drop i ++
            (forestInnerNodes merge ds).drop (forestInnerNodes merge (xs ++ [x])).length).head?, it') ∧
      NodesAt merge ds it' ((cascadeInfo merge (blockRoots merge (lowBlocks xs t m).reverse) x).drop i ++
          (forestInnerNodes merge ds).drop (forestInnerNodes merge (xs ++ [x])).length).tail := by
  obtain ⟨r, it', hrec, hy, hnext⟩ := yieldParent_nodesAt merge htm hpre hit
  obtain ⟨hlt, hrec'⟩ := List.getElem?_eq_some_iff.1 hrec
  rw [List.drop_eq_getElem_cons hlt, hrec']
  refine ⟨it', ?_, hnext⟩
  have hle : xs.length + 1 ≤ ds.length := by simpa using hpre.length_le
  have hH := two_pow_mul_odd t m
  have hpow : 2 ^ i < 2 ^ t := Nat.pow_lt_pow_right (by decide) hit
  have hpos := Nat.two_pow_pos i
  have heven : (xs.length + 1) % 2 = 0 := by
    obtain ⟨s, rfl⟩ : ∃ s, t = s + 1 := ⟨t - 1, by omega⟩
    rw [htm, Nat.pow_succ, Nat.mul_comm (2 ^ s) 2, Nat.mul_assoc, Nat.mul_mod_right]
  have hfor : 2 ^ (t + 1) * m + (2 ^ t - 2 ^ i) < ds.length / 2 * 2 := by omega
  simp [MmrNodes.next, guard, target_eq hk, hfor, hpos.ne', hy]

theorem next_nodesAt {ds : List α} (hk : ds.length < 2 ^ usizeBits) {it : MmrNodes}
    {rest : List (InnerNodeInfo α)} (h : NodesAt merge ds it rest) :
    ∃ it', MmrNodes.next (⟨ds.length, forestPostorder merge ds⟩ : Mmr α) it = some (rest.head?, it') ∧
      NodesAt merge ds it' rest.tail := by
  cases h with
  | clean L heven hle =>
    by_cases hL : L + 2 ≤ ds.length
    · exact next_clean_pair merge hk heven hL
    · exact next_clean_end merge hk heven hle hL
  | pending xs x t m i htm hpre hi0 hit => exact next_pending merge hk htm hpre hit

theorem nextN_nodesAt {ds : List α} (hk : ds.length < 2 ^ usizeBits) (calls : Nat) :
    ∀ {it rest}, NodesAt merge ds it rest →
      MmrNodes.nextN (⟨ds.length, forestPostorder merge ds⟩ : Mmr α) calls it =
        some ((List.range calls).map fun j => rest[j]?) := by
  induction calls with
  | zero => intros; rfl
  | succ calls ih =>
    intro it rest h
    obtain ⟨it', hnext, h'⟩ := next_nodesAt merge hk h
    simp only [MmrNodes.nextN, hnext, ih h', List.range_succ_eq_map, Option.bind_eq_bind,
      Option.some_bind, Option.pure_def, List.map_cons, List.map_map]
    cases rest <;> simp [Function.comp_def]

theorem stateAfter_nodesAt {ds : List α} (hk : ds.length < 2 ^ usizeBits) (calls : Nat) :
    ∀ {it rest}, NodesAt merge ds it rest →
      ∃ it', MmrNodes.stateAfter (⟨ds.length, forestPostorder merge ds⟩ : Mmr α) calls it =
        some it' ∧ NodesAt merge ds it' (rest.drop calls) := by
  induction calls with
  | zero => exact fun h => ⟨_, rfl, h⟩
  | succ calls ih =>
    intro it rest h
    obtain ⟨it', hnext, h'⟩ := next_nodesAt merge hk h
    obtain ⟨it'', hrun, h''⟩ := ih h'
    refine ⟨it'', ?_, by rwa [List.drop_tail] at h''⟩
    simp [MmrNodes.stateAfter, hnext, hrun]

/-- `Mmr::from(ds).inner_nodes()`: the `j`-th call of `next` returns the `j`-th inner node of
the reference forest (tree by tree from the highest, each tree in postorder), and every call
after the `k - popcount(k)` records returns `None`; no call panics, and each record is the merge
of its two children, all three read from the buffer. -/
theorem innerNodes_fromValues (ds : List α) (hk : ds.length < 2 ^ usizeBits) :
    ∃ mmr, Mmr.fromValues merge ds = some mmr ∧
      (∀ calls, MmrNodes.nextN mmr calls mmr.innerNodes =
        some ((List.range calls).map fun j => (forestInnerNodes merge ds)[j]?)) ∧
      (forestInnerNodes merge ds).length = ds.length - countOnes ds.length ∧
      ∀ r ∈ forestInnerNodes merge ds, r.value = merge r.left r.right ∧
        r.value ∈ mmr.nodes ∧ r.left ∈ mmr.nodes ∧ r.right ∈ mmr.nodes := by
  refine ⟨_, fromValues_eq merge ds, fun calls => ?_, length_forestInnerNodes merge ds, ?_⟩
  · have h := @NodesAt.clean _ merge _ ds 0 rfl (Nat.zero_le _)
    simp only [List.take_zero] at h
    exact nextN_nodesAt merge hk calls h
  · intro r hr
    simp only [forestInnerNodes, List.mem_flatMap] at hr
    obtain ⟨tr, htr, hr⟩ := hr
    obtain ⟨h1, h2, h3, h4⟩ := MerkleTree.innerNodes_spec merge tr r hr
    have hsub : ∀ y ∈ tr.postorder merge, y ∈ forestPostorder merge ds := fun y hy =>
      List.mem_flatMap.2 ⟨tr, htr, hy⟩
    exact ⟨h1, hsub _ h2, hsub _ h3, hsub _ h4⟩

theorem innerNodes_fromValues_seven :
    [0, 1, 2, 3, 4, 5, 6].length < 2 ^ usizeBits ∧
      ∃ mmr, Mmr.fromValues Nat.add [0, 1, 2, 3, 4, 5, 6] = some mmr ∧
        (∀ calls, MmrNodes.nextN mmr calls mmr.innerNodes =
          some ((List.range calls).map fun j => (forestInnerNodes Nat.add [0, 1, 2, 3, 4, 5, 6])[j]?)) ∧
        (forestInnerNodes Nat.add [0, 1, 2, 3, 4, 5, 6]).length =
          [0, 1, 2, 3, 4, 5, 6].length - countOnes [0, 1, 2, 3, 4, 5, 6].length ∧
        ∀ r ∈ forestInnerNodes Nat.add [0, 1, 2, 3, 4, 5, 6], r.value = Nat.add r.left r.right ∧
          r.value ∈ mmr.nodes ∧ r.left ∈ mmr.nodes ∧ r.right ∈ mmr.nodes :=
  ⟨by decide, innerNodes_fromValues Nat.add [0, 1, 2, 3, 4, 5, 6] (by decide)⟩

/-- On the `Mmr` built from any digests, every state `next()` calls reach from
`inner_nodes()` meets the iterator's `debug_assert!`s: the next call returns, `last_right` has
at most one set bit, the scratch forest is below `mmr.forest & (usize::MAX << 1)` exactly while
inner nodes remain, and in the yield branch the left sibling is in the scratch forest before it
is cleared, a left parent comes before a left leaf, and `index - 1 - nodes_in_forest(last_right)`
does not underflow. -/
theorem innerNodes_next_asserts (ds : List α) (hk : ds.length < 2 ^ usizeBits) :
    ∃ mmr, Mmr.fromValues merge ds = some mmr ∧ ∀ calls, ∃ it,
      MmrNodes.stateAfter mmr calls mmr.innerNodes = some it ∧
      (∃ r it', it.next mmr = some (r, it')) ∧ countOnes it.lastRight ≤ 1 ∧
      (it.forest < mmr.forest &&& ((usizeMax <<< 1) % 2 ^ usizeBits) ↔
        calls < ds.length - countOnes ds.length) ∧
      (it.forest < mmr.forest &&& ((usizeMax <<< 1) % 2 ^ usizeBits) →
        ∃ it1, (if it.lastRight = 0 then it.yieldLeaves else some it) = some it1 ∧
          it1.forest &&& it1.lastRight ≠ 0 ∧
          ((it1.forest ^^^ it1.lastRight) &&& (it1.lastRight <<< 1) = 0 →
            (it1.forest ^^^ it1.lastRight) &&& 1 = 0) ∧
          nodesInForest it1.lastRight + 1 ≤ it1.index) := by
  refine ⟨_, fromValues_eq merge ds, fun calls => ?_⟩
  have h0 := @NodesAt.clean _ merge _ ds 0 rfl (Nat.zero_le _)
  simp only [List.take_zero] at h0
  obtain ⟨it, hrun, hit⟩ := stateAfter_nodesAt merge hk calls h0
  obtain ⟨it', hnext, -⟩ := next_nodesAt merge hk hit
  obtain ⟨hc, hsome, hyield⟩ := next_eq_some hnext
  refine ⟨it, hrun, ⟨_, _, hnext⟩, hc, ?_, hyield⟩
  rw [← hsome, List.head?_drop, show (forestInnerNodes merge ([] : List α)).length = 0 from rfl,
    List.drop_zero, Option.isSome_iff_ne_none, Ne, List.getElem?_eq_none_iff, Nat.not_le,
    length_forestInnerNodes]

theorem innerNodes_next_asserts_seven :
    [0, 1, 2, 3, 4, 5, 6].length < 2 ^ usizeBits ∧
      ∃ mmr, Mmr.fromValues Nat.add [0, 1, 2, 3, 4, 5, 6] = some mmr ∧ ∀ calls, ∃ it,
        MmrNodes.stateAfter mmr calls mmr.innerNodes = some it ∧
        (∃ r it', it.next mmr = some (r, it')) ∧ countOnes it.lastRight ≤ 1 ∧
        (it.forest < mmr.forest &&& ((usizeMax <<< 1) % 2 ^ usizeBits) ↔
          calls < [0, 1, 2, 3, 4, 5, 6].length - countOnes [0, 1, 2, 3, 4, 5, 6].length) ∧
        (it.forest < mmr.forest &&& ((usizeMax <<< 1) % 2 ^ usizeBits) →
          ∃ it1, (if it.lastRight = 0 then it.yieldLeaves else some it) = some it1 ∧
            it1.forest &&& it1.lastRight ≠ 0 ∧
            ((it1.forest ^^^ it1.lastRight) &&& (it1.lastRight <<< 1) = 0 →
              (it1.forest ^^^ it1.lastRight) &&& 1 = 0) ∧
            nodesInForest it1.lastRight + 1 ≤ it1.index) :=
  ⟨by decide, innerNodes_next_asserts Nat.add [0, 1, 2, 3, 4, 5, 6] (by decide)⟩

end

end Miden.Mmr
