import Miden.Mmr.Forest
import Miden.Uint

/-!
# The fully materialised MMR (mmr/full.rs:26-333)

`Mmr` holds the forest and one postorder buffer with every node of every tree.
Digests are an abstract type `α`, and `Rpo256::merge(&[left, right])` is the
parameter `merge`. Functions that can panic return `Option`, `none` being the
panic of a debug build: an index out of bounds, a `usize` underflow or a failed
`debug_assert!`. `Result` values are `Except MmrError`.

The two loops run on fuel that outlasts them: the merge loop of `add` runs at
most once per set bit of the forest and gets `forest` rounds, the path loop of
`collect_merkle_path_and_value` halves `tree_depth` and gets `tree_depth` rounds.
-/

namespace Miden

/-- `Mmr` (full.rs:33). -/
structure Mmr (α : Type) where
  forest : Nat
  nodes : List α
deriving Repr, DecidableEq

namespace Mmr

/-- `MmrError` (full.rs:47). -/
inductive MmrError where
  | invalidPosition (pos : Nat)
deriving Repr, DecidableEq

/-- `MmrPeaks` (declared outside the sources), with the fields `accumulator` fills. -/
structure MmrPeaks (α : Type) where
  numLeaves : Nat
  peaks : List α
deriving Repr, DecidableEq

/-- `MmrProof` (declared outside the sources); `MerklePath::new(path)` is the list. -/
structure MmrProof (α : Type) where
  forest : Nat
  position : Nat
  merklePath : List α
deriving Repr, DecidableEq

/-- `InnerNodeInfo` (declared outside the sources): an inner node and its children. -/
structure InnerNodeInfo (α : Type) where
  value : α
  left : α
  right : α
deriving Repr, DecidableEq

section
variable {α : Type} (merge : α → α → α)

/-- `Mmr::new` (full.rs:73). -/
def new : Mmr α := ⟨0, []⟩

/-- The merge loop of `Mmr::add` (full.rs:165-171): while the tree `left_tree` is in the
forest, merge its root with `right`; `saturating_sub` is `Nat` subtraction. -/
def addLoop (forest : Nat) : Nat → List α → Nat → α → Nat → Option (List α)
  | 0, nodes, _, _, _ => some nodes
  | fuel + 1, nodes, leftOffset, right, leftTree =>
    if forest &&& leftTree ≠ 0 then
      match nodes[leftOffset]? with
      | none => none
      | some left =>
        let right := merge left right
        addLoop forest fuel (nodes ++ [right]) (leftOffset - nodesInForest leftTree) right
          (leftTree <<< 1)
    else some nodes

/-- `Mmr::add` (full.rs:155). -/
def add (mmr : Mmr α) (el : α) : Option (Mmr α) := do
  let nodes := mmr.nodes ++ [el]
  let nodes ← addLoop merge mmr.forest mmr.forest nodes (nodes.length - 2) el 1
  pure ⟨mmr.forest + 1, nodes⟩

/-- `impl From<T> for Mmr` (full.rs:244): `new()` followed by `add` of every value. -/
def fromValues (values : List α) : Option (Mmr α) :=
  values.foldlM (fun mmr v => mmr.add merge v) Mmr.new

/-- The path loop of `collect_merkle_path_and_value` (full.rs:215-233): the final `index`
and the siblings, root side first. -/
def collectLoop (nodes : List α) (relativePos indexOffset : Nat) :
    Nat → Nat → Nat → List α → Option (Nat × List α)
  | 0, _, index, path => some (index, path)
  | fuel + 1, treeDepth, index, path =>
    if treeDepth > 0 then do
      let bit := relativePos &&& treeDepth
      let rightOffset ← uintSub index 1
      let leftOffset ← uintSub rightOffset (nodesInForest treeDepth)
      let (index, sibling) ←
        if bit ≠ 0 then (rightOffset, ·) <$> nodes[indexOffset + leftOffset]?
        else (leftOffset, ·) <$> nodes[indexOffset + rightOffset]?
      collectLoop nodes relativePos indexOffset fuel (treeDepth >>> 1) index (path ++ [sibling])
    else some (index, path)

/-- `Mmr::collect_merkle_path_and_value` (full.rs:205): the loop starts from
`tree_depth = tree_bit`. -/
def collectMerklePathAndValue (mmr : Mmr α) (treeBit relativePos indexOffset index : Nat) :
    Option (α × List α) := do
  let treeDepth := treeBit
  let (index, path) ← collectLoop mmr.nodes relativePos indexOffset treeDepth treeDepth index []
  let value ← mmr.nodes[indexOffset + index]?
  pure (value, path.reverse)

/-- The body shared by `Mmr::open` and `Mmr::get` (full.rs:99-152): find the tree of `pos`,
its offset in the buffer and its root, then walk down to the leaf. -/
def collectAt (mmr : Mmr α) (pos : Nat) : Option (Except MmrError (α × List α)) :=
  match leafToCorrespondingTree pos mmr.forest with
  | none => some (.error (.invalidPosition pos))
  | some treeBit => do
    let forestTarget := 1 <<< treeBit
    let forestBefore := mmr.forest &&& highBitmask (treeBit + 1)
    let indexOffset := nodesInForest forestBefore
    let index ← uintSub (nodesInForest forestTarget) 1
    let relativePos ← uintSub pos forestBefore
    let r ← mmr.collectMerklePathAndValue treeBit relativePos indexOffset index
    pure (.ok r)

/-- `Mmr::open` (full.rs:99). -/
def «open» (mmr : Mmr α) (pos : Nat) : Option (Except MmrError (MmrProof α)) :=
  (mmr.collectAt pos).map (·.map fun r => ⟨mmr.forest, pos, r.2⟩)

/-- `Mmr::get` (full.rs:131). -/
def get (mmr : Mmr α) (pos : Nat) : Option (Except MmrError α) :=
  (mmr.collectAt pos).map (·.map Prod.fst)

/-- `Mmr::accumulator` (full.rs:177): the running buffer offsets of the trees, highest
first, each tree's root being the entry just before its offset. -/
def accumulator (mmr : Mmr α) : Option (MmrPeaks α) := do
  let sizes := (trueBitPositions mmr.forest).reverse.map fun bit => nodesInForest (1 <<< bit)
  let offsets := (sizes.scanl (· + ·) 0).tail
  let peaks ← offsets.mapM fun offset => do
    let index ← uintSub offset 1
    mmr.nodes[index]?
  pure ⟨mmr.forest, peaks⟩

end

/-! ### The inner-node iterator -/

/-- `MmrNodes` (full.rs:261), without its borrow of the `Mmr`. -/
structure MmrNodes where
  forest : Nat
  lastRight : Nat
  index : Nat
deriving Repr, DecidableEq

section
variable {α : Type}

/-- `Mmr::inner_nodes` (full.rs:192). -/
def innerNodes (_mmr : Mmr α) : MmrNodes := ⟨0, 0, 0⟩

/-- The leaf step of `next` (full.rs:285-295): with no right node pending, step over a
left and a right leaf. -/
def MmrNodes.yieldLeaves (it : MmrNodes) : Option MmrNodes := do
  guard (it.lastRight = 0)
  let forest := it.forest ||| 1
  guard (forest &&& 1 = 1)
  pure { forest, lastRight := it.lastRight ||| 1, index := it.index + 1 + 1 }

/-- The parent step of `next` (full.rs:297-328): the right node `last_right` is paired
with its left sibling, their parent is yielded, and the parent becomes either a pending
left node (recorded in `forest`) or the next right node. -/
def MmrNodes.yieldParent (mmr : Mmr α) (it : MmrNodes) : Option (InnerNodeInfo α × MmrNodes) := do
  guard (it.forest &&& it.lastRight ≠ 0)
  let rightNodes := nodesInForest it.lastRight
  let parent := it.lastRight <<< 1
  let forest := it.forest ^^^ it.lastRight
  let (forest, lastRight) ←
    if forest &&& parent = 0 then do
      guard (forest &&& 1 = 0)
      pure (forest ^^^ parent, 0)
    else pure (forest, parent)
  let value ← mmr.nodes[it.index]?
  let rightIndex ← uintSub it.index 1
  let right ← mmr.nodes[rightIndex]?
  let leftIndex ← uintSub rightIndex rightNodes
  let left ← mmr.nodes[leftIndex]?
  pure (⟨value, left, right⟩, { forest, lastRight, index := it.index + 1 })

/-- `<MmrNodes as Iterator>::next` (full.rs:278): `some (none, _)` ends the iteration. -/
def MmrNodes.next (mmr : Mmr α) (it : MmrNodes) :
    Option (Option (InnerNodeInfo α) × MmrNodes) := do
  guard (countOnes it.lastRight ≤ 1)
  let target := mmr.forest &&& ((usizeMax <<< 1) % 2 ^ usizeBits)
  if it.forest < target then
    let it ← if it.lastRight = 0 then it.yieldLeaves else pure it
    let (node, it) ← it.yieldParent mmr
    pure (some node, it)
  else pure (none, it)

/-! Successive calls of `next`: what they return, and the state they leave. -/

def MmrNodes.nextN (mmr : Mmr α) : Nat → MmrNodes → Option (List (Option (InnerNodeInfo α)))
  | 0, _ => some []
  | calls + 1, it => do
    let (r, it) ← it.next mmr
    let rs ← MmrNodes.nextN mmr calls it
    pure (r :: rs)

def MmrNodes.stateAfter (mmr : Mmr α) : Nat → MmrNodes → Option MmrNodes
  | 0, it => some it
  | calls + 1, it => do
    let (_, it) ← it.next mmr
    MmrNodes.stateAfter mmr calls it

theorem yieldParent_eq_some {mmr : Mmr α} {it it' : MmrNodes} {node : InnerNodeInfo α}
    (h : it.yieldParent mmr = some (node, it')) :
    it.forest &&& it.lastRight ≠ 0 ∧
      ((it.forest ^^^ it.lastRight) &&& (it.lastRight <<< 1) = 0 →
        (it.forest ^^^ it.lastRight) &&& 1 = 0) ∧
      nodesInForest it.lastRight + 1 ≤ it.index := by
  simp only [MmrNodes.yieldParent, Option.bind_eq_bind] at h
  obtain ⟨_, hg, h⟩ := Option.bind_eq_some.1 h
  have tail : ∀ p : Nat × Nat, ((do
      let value ← mmr.nodes[it.index]?
      let rightIndex ← uintSub it.index 1
      let right ← mmr.nodes[rightIndex]?
      let leftIndex ← uintSub rightIndex (nodesInForest it.lastRight)
      let left ← mmr.nodes[leftIndex]?
      pure (⟨value, left, right⟩, { forest := p.1, lastRight := p.2, index := it.index + 1 })) :
        Option (InnerNodeInfo α × MmrNodes)) = some (node, it') →
      nodesInForest it.lastRight + 1 ≤ it.index := by
    intro p h
    simp only [Option.bind_eq_bind] at h
    obtain ⟨_, -, h⟩ := Option.bind_eq_some.1 h
    obtain ⟨ri, hri, h⟩ := Option.bind_eq_some.1 h
    obtain ⟨_, -, h⟩ := Option.bind_eq_some.1 h
    obtain ⟨li, hli, -⟩ := Option.bind_eq_some.1 h
    obtain ⟨h1, rfl⟩ := uintSub_eq_some.1 hri
    have h2 := (uintSub_eq_some.1 hli).1
    omega
  refine ⟨by simpa [guard] using hg, ?_⟩
  split_ifs at h with hp
  · obtain ⟨_, hg', h⟩ := Option.bind_eq_some.1 h
    exact ⟨fun _ => by simpa [guard] using hg', tail _ h⟩
  · exact ⟨fun h' => absurd h' hp, tail _ h⟩

theorem next_eq_some {mmr : Mmr α} {it it' : MmrNodes} {r : Option (InnerNodeInfo α)}
    (h : it.next mmr = some (r, it')) :
    countOnes it.lastRight ≤ 1 ∧
      (r.isSome ↔ it.forest < mmr.forest &&& ((usizeMax <<< 1) % 2 ^ usizeBits)) ∧
      (it.forest < mmr.forest &&& ((usizeMax <<< 1) % 2 ^ usizeBits) →
        ∃ it1, (if it.lastRight = 0 then it.yieldLeaves else some it) = some it1 ∧
          it1.forest &&& it1.lastRight ≠ 0 ∧
          ((it1.forest ^^^ it1.lastRight) &&& (it1.lastRight <<< 1) = 0 →
            (it1.forest ^^^ it1.lastRight) &&& 1 = 0) ∧
          nodesInForest it1.lastRight + 1 ≤ it1.index) := by
  simp only [MmrNodes.next, Option.bind_eq_bind] at h
  obtain ⟨_, hg, h⟩ := Option.bind_eq_some.1 h
  refine ⟨by simpa [guard] using hg, ?_⟩
  by_cases hlt : it.forest < mmr.forest &&& ((usizeMax <<< 1) % 2 ^ usizeBits)
  · obtain ⟨it1, h1, h⟩ : ∃ it1, (if it.lastRight = 0 then it.yieldLeaves else some it) = some it1 ∧
        ((MmrNodes.yieldParent mmr it1).bind fun p => pure (some p.1, p.2)) = some (r, it') := by
      rw [if_pos hlt] at h
      split_ifs at h ⊢ <;> exact Option.bind_eq_some.1 h
    obtain ⟨⟨node, it2⟩, hy, h⟩ := Option.bind_eq_some.1 h
    cases h
    exact ⟨by simp [hlt], fun _ => ⟨it1, h1, yieldParent_eq_some hy⟩⟩
  · rw [if_neg hlt] at h
    cases h
    exact ⟨by simp [hlt], fun h' => absurd h' hlt⟩

end

end Mmr

end Miden
