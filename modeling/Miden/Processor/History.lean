import Miden.Processor.Store

/-!
# Memory at an earlier cycle (mod.rs:299-326)

`get_values_at(lo..=hi, step)` looks up, in each address trace of the range, the entry
of the cycle `step - 1` with `binary_search_by` on the clocks. `Ok(i)` reads entry `i`,
`Err(i)` the entry before the insertion point. The search is the one of `core`'s
`<[T]>::binary_search_by` since Rust 1.82: it halves the window without an early exit on
`Equal`, keeping in `base` the last probe that did not compare `Greater`, so on sorted
clocks `Ok(i)` is the last entry of the clock searched for (`binarySearchBy_result`).

While the clock is below the field modulus the clocks of each trace do not decrease, and
the search finds the last entry at a clock of at most `step - 1` (`pushValueAt_eq`), also
when an address is accessed several times in one cycle. The history invariant `HistInv`
says that this entry holds the word the address had after the calls of the cycles `0` to
`step - 1` (`beforeCycle`); every call keeps it, so `get_values_at` answers from the
history over any run.
-/

namespace Miden.Processor

section
variable {α : Type}

/-- The loop of `<[T]>::binary_search_by` (Rust 1.82 on): the probe `mid = base + half`
becomes `base` unless it compares `Greater`, and the window `size` loses `half`, with no
early exit on `Equal`. When one entry is left its comparison decides: `Ok(base)` on `Equal`,
else `Err` at `base`, or past it on `Less`. -/
def binarySearchLoop (xs : List α) (f : α → Ordering) (base size : Nat) (hsize : 0 < size)
    (h : base + size ≤ xs.length) : Except Nat Nat :=
  if hs : 1 < size then
    let half := size / 2
    let mid := base + half
    let cmp := f (xs.get ⟨mid, by omega⟩)
    binarySearchLoop xs f (if cmp = .gt then base else mid) (size - half) (by omega)
      (by split <;> omega)
  else
    let cmp := f (xs.get ⟨base, by omega⟩)
    if cmp = .eq then .ok base else .error (if cmp = .lt then base + 1 else base)
termination_by size

/-- `<[T]>::binary_search_by`: `Ok(i)` is `.ok i`, `Err(i)` is `.error i`. -/
def binarySearchBy (xs : List α) (f : α → Ordering) : Except Nat Nat :=
  if h : 0 < xs.length then binarySearchLoop xs f 0 xs.length h (by omega) else .error 0

end

namespace Memory

/-- The body of the loop of `get_values_at` (mod.rs:312-323): search the address trace for
the clock `searchStep` and push the word found, if any. -/
def pushValueAt (searchStep : Nat) (data : List (Nat × Word)) :
    Nat × List (Felt × Word) → Option (List (Nat × Word))
  | (addr, addrTrace) =>
    match binarySearchBy addrTrace (fun c => compare c.1.asInt searchStep) with
    | .ok i => do
      let (_, value) ← addrTrace[i]?
      pure (data ++ [(addr, value)])
    | .error i =>
      if i > 0 then do
        let (_, value) ← addrTrace[i - 1]?
        pure (data ++ [(addr, value)])
      else pure data

/-- `Memory::get_values_at` (mod.rs:299): the word of each accessed address of `lo..=hi` at
the start of the cycle `step`. -/
def getValuesAt (mem : Memory) (lo hi step : Nat) : Option (List (Nat × Word)) :=
  if step = 0 then some [] else do
    let searchStep := step - 1
    let entries ← mem.trace.range lo hi
    entries.foldlM (pushValueAt searchStep) []

end Memory

/-! ### The search on sorted clocks -/

section
variable {α : Type} (xs : List α) (f : α → Ordering)

/-- Every entry before `left` compares `lt` and every entry from `right` on compares `gt`. -/
def SearchInv (left right : Nat) : Prop :=
  ∀ j (hj : j < xs.length), (j < left → f xs[j] = .lt) ∧ (right ≤ j → f xs[j] = .gt)

/-- `f` grows along `xs`: only `lt` before an `lt`, only `gt` after a `gt`. -/
def SearchMono : Prop :=
  ∀ i j (hi : i < xs.length) (hj : j < xs.length), i ≤ j →
    (f xs[j] = .lt → f xs[i] = .lt) ∧ (f xs[i] = .gt → f xs[j] = .gt)

/-- The loop invariant: `base` does not compare `gt` unless it is the first entry, and every
entry past the window compares `gt`. -/
def LoopInv (base size : Nat) : Prop :=
  (∀ hb : base < xs.length, 0 < base → f xs[base] ≠ .gt) ∧
    ∀ j (hj : j < xs.length), base + size ≤ j → f xs[j] = .gt

/-- What the search returns on growing comparisons: `Ok(i)` at an entry that compares `eq`
with only `gt` after it, `Err(i)` where the entries turn from `lt` to `gt`. -/
def SearchResult : Except Nat Nat → Prop
  | .ok i => ∃ hi : i < xs.length, f xs[i] = .eq ∧ SearchInv xs f 0 (i + 1)
  | .error i => i ≤ xs.length ∧ SearchInv xs f i i

variable {xs f}

theorem loopInv_step (hm : SearchMono xs f) {base size : Nat} (hs : 1 < size)
    (h : base + size ≤ xs.length) (hinv : LoopInv xs f base size) :
    LoopInv xs f (if f (xs.get ⟨base + size / 2, by omega⟩) = .gt then base else base + size / 2)
      (size - size / 2) := by
  obtain ⟨hbase, hpast⟩ := hinv
  split_ifs with hgt
  · exact ⟨hbase, fun j hj hjp => (hm (base + size / 2) j (by omega) hj (by omega)).2 hgt⟩
  · exact ⟨fun _ _ => hgt, fun j hj hjp => hpast j hj (by omega)⟩

theorem searchResult_last (hm : SearchMono xs f) {base : Nat} (hb : base < xs.length)
    (hinv : LoopInv xs f base 1) :
    SearchResult xs f (if f xs[base] = .eq then .ok base
      else .error (if f xs[base] = .lt then base + 1 else base)) := by
  obtain ⟨hbase, hpast⟩ := hinv
  cases hc : f xs[base]
  · show SearchResult xs f (.error (base + 1))
    exact ⟨hb, fun j hj => ⟨fun hjb => (hm j base hj hb (by omega)).1 hc, hpast j hj⟩⟩
  · exact ⟨hb, hc, fun j hj => ⟨nofun, hpast j hj⟩⟩
  · show SearchResult xs f (.error base)
    obtain rfl : base = 0 := Nat.eq_zero_of_not_pos fun h0 => hbase hb h0 hc
    refine ⟨Nat.zero_le _, fun j hj => ⟨nofun, fun _ => ?_⟩⟩
    rcases Nat.eq_zero_or_pos j with rfl | hj0
    · exact hc
    · exact hpast j hj hj0

theorem binarySearchLoop_result (hm : SearchMono xs f) {base size : Nat} {hsize : 0 < size}
    {h : base + size ≤ xs.length} :
    LoopInv xs f base size → SearchResult xs f (binarySearchLoop xs f base size hsize h) := by
  induction base, size, hsize, h using binarySearchLoop.induct xs f with
  | case1 base size hsize h hs _ _ _ ih =>
    intro hinv
    rw [binarySearchLoop, dif_pos hs]
    exact ih (loopInv_step hm hs h hinv)
  | case2 base size hsize h hs | case3 base size hsize h hs =>
    intro hinv
    obtain rfl : size = 1 := by omega
    rw [binarySearchLoop, dif_neg hs]
    exact searchResult_last hm (by omega) hinv

theorem binarySearchBy_result (hm : SearchMono xs f) : SearchResult xs f (binarySearchBy xs f) := by
  unfold binarySearchBy
  split_ifs with h
  · exact binarySearchLoop_result hm
      ⟨fun _ h0 => absurd h0 (Nat.lt_irrefl 0), fun j hj hj' => absurd hj (by omega)⟩
  · exact ⟨Nat.zero_le _, fun j hj => absurd hj (by omega)⟩

end

/-- The word of the last entry of `addrTrace` at a clock of at most `clk`: what the address
holds at the end of the cycle `clk`. -/
def valueAt (addrTrace : List (Felt × Word)) (clk : Nat) : Option Word :=
  ((addrTrace.filter fun c => c.1.asInt ≤ clk).getLast?).map (·.2)

theorem filter_eq_take {β : Type} (p : β → Bool) :
    ∀ (xs : List β) (n : Nat), (∀ j (hj : j < xs.length), p xs[j] = true ↔ j < n) →
      xs.filter p = xs.take n
  | [], _, _ => by simp
  | x :: xs, n, h => by
    have ih := filter_eq_take p xs
    have h0 := h 0 (Nat.succ_pos _)
    rw [List.getElem_cons_zero] at h0
    cases n with
    | zero =>
      simp only [Nat.lt_irrefl, iff_false, Bool.not_eq_true] at h0
      rw [List.filter_cons_of_neg (by simp [h0]), ih 0 fun j hj => by simpa using h (j + 1) (by simpa)]
      rfl
    | succ n =>
      rw [List.filter_cons_of_pos (h0.2 (Nat.succ_pos _)),
        ih n fun j hj => by simpa using h (j + 1) (by simpa)]
      rfl

theorem pushValueAt_eq {addrTrace : List (Felt × Word)}
    (hs : (addrTrace.map fun c => c.1.asInt).Pairwise (· ≤ ·)) (searchStep : Nat)
    (data : List (Nat × Word)) (addr : Nat) :
    Memory.pushValueAt searchStep data (addr, addrTrace) =
      some (data ++ ((valueAt addrTrace searchStep).map (addr, ·)).toList) := by
  have hle : ∀ i j (hi : i < addrTrace.length) (hj : j < addrTrace.length), i ≤ j →
      addrTrace[i].1.asInt ≤ addrTrace[j].1.asInt := by
    intro i j hi hj hij
    rcases Nat.lt_or_eq_of_le hij with h | rfl
    · exact List.pairwise_iff_getElem.1 (List.pairwise_map.1 hs) i j hi hj h
    · exact le_rfl
  have hm : SearchMono addrTrace fun c => compare c.1.asInt searchStep := by
    intro i j hi hj hij
    simp only [Nat.compare_eq_lt, Nat.compare_eq_gt]
    have := hle i j hi hj hij
    exact ⟨fun h => by omega, fun h => by omega⟩
  have hr := binarySearchBy_result hm
  unfold Memory.pushValueAt
  cases hb : binarySearchBy addrTrace (fun c => compare c.1.asInt searchStep) with
  | ok i =>
    rw [hb] at hr
    obtain ⟨hi, heq, hinv⟩ := hr
    rw [Nat.compare_eq_eq] at heq
    have hfilter : addrTrace.filter (fun c => c.1.asInt ≤ searchStep) = addrTrace.take (i + 1) := by
      refine filter_eq_take _ _ _ fun j hj => ?_
      simp only [decide_eq_true_eq]
      rcases Nat.lt_or_ge i j with h | h
      · have := (hinv j hj).2 h
        rw [Nat.compare_eq_gt] at this
        omega
      · have := hle j i hj hi h
        omega
    simp [valueAt, hfilter, List.getLast?_take, hi, hb]
  | error i =>
    rw [hb] at hr
    obtain ⟨hil, hinv⟩ := hr
    have hfilter : addrTrace.filter (fun c => c.1.asInt ≤ searchStep) = addrTrace.take i := by
      refine filter_eq_take _ _ _ fun j hj => ?_
      have h := hinv j hj
      simp only [Nat.compare_eq_lt, Nat.compare_eq_gt] at h
      simp only [decide_eq_true_eq]
      constructor
      · intro hj'
        by_contra hji
        have := h.2 (by omega)
        omega
      · intro hji
        exact (h.1 hji).le
    cases i with
    | zero => simp [valueAt, hfilter, hb]
    | succ m => simp [valueAt, hfilter, List.getLast?_take, show m < addrTrace.length by omega, hb]

theorem foldlM_pushValueAt (searchStep : Nat) :
    ∀ (entries : List (Nat × List (Felt × Word))) (data : List (Nat × Word)),
      (∀ e ∈ entries, (e.2.map fun c => c.1.asInt).Pairwise (· ≤ ·)) →
        entries.foldlM (Memory.pushValueAt searchStep) data =
          some (data ++ entries.filterMap fun e => (valueAt e.2 searchStep).map (e.1, ·))
  | [], data, _ => by simp
  | (addr, addrTrace) :: entries, data, h => by
    rw [List.foldlM_cons, pushValueAt_eq (h _ (List.mem_cons_self _ _)), Option.bind_eq_bind,
      Option.some_bind, foldlM_pushValueAt searchStep entries _ fun e he => h e (List.mem_cons_of_mem _ he),
      List.filterMap_cons]
    cases valueAt addrTrace searchStep <;> simp

theorem getValuesAt_eq {mem : Memory}
    (hmono : ∀ e ∈ mem.trace.entries, (e.2.map fun c => c.1.asInt).Pairwise (· ≤ ·))
    (lo hi step : Nat) :
    mem.getValuesAt lo hi step = if step = 0 then some [] else
      (mem.trace.range lo hi).map fun entries =>
        entries.filterMap fun e => (valueAt e.2 (step - 1)).map (e.1, ·) := by
  unfold Memory.getValuesAt
  split_ifs with hstep
  · rfl
  · by_cases hr : mem.trace.entries ≠ [] ∧ hi < lo
    · rw [BTreeMap.range_of_reversed hr]
      rfl
    · rw [BTreeMap.range_of_not_reversed hr, Option.bind_eq_bind, Option.some_bind,
        foldlM_pushValueAt _ _ _ fun e he => hmono e (List.mem_of_mem_filter he), List.nil_append]
      rfl

/-! ### The history of each address -/

/-- The calls of `past` made before the clock reaches `n`: those of the cycles `0` to `n - 1`. -/
def beforeCycle : Nat → List MemOp → List MemOp
  | 0, _ => []
  | _, [] => []
  | n + 1, op :: past => op :: beforeCycle (if op.isAccess then n + 1 else n) past

@[simp] theorem beforeCycle_nil (n : Nat) : beforeCycle n [] = [] := by
  cases n <;> rfl

theorem beforeCycle_of_lt : ∀ (n : Nat) (past : List MemOp),
    (past.filter fun op => !op.isAccess).length < n → beforeCycle n past = past
  | 0, _, h => absurd h (Nat.not_lt_zero _)
  | _ + 1, [], _ => rfl
  | n + 1, op :: past, h => by
    rw [beforeCycle, beforeCycle_of_lt _ past]
    cases hop : op.isAccess <;> simp [List.filter_cons, hop] at h ⊢ <;> omega

theorem beforeCycle_append : ∀ (n : Nat) (past : List MemOp) (op : MemOp),
    beforeCycle n (past ++ [op]) =
      if (past.filter fun op => !op.isAccess).length < n then beforeCycle n past ++ [op]
      else beforeCycle n past
  | 0, past, op => by simp [beforeCycle]
  | n + 1, [], op => by simp [beforeCycle]
  | n + 1, o :: past, op => by
    rw [List.cons_append, beforeCycle, beforeCycle_append _ past op, beforeCycle]
    cases ho : o.isAccess <;> simp only [ho, List.filter_cons, Bool.not_true, Bool.not_false,
      Bool.false_eq_true, if_true, if_false, List.length_cons] <;> split_ifs <;> first | rfl | omega

@[simp] theorem valueAt_nil (clk : Nat) : valueAt [] clk = none := rfl

theorem valueAt_append_singleton (addrTrace : List (Felt × Word)) (c : Felt) (w : Word) (clk : Nat) :
    valueAt (addrTrace ++ [(c, w)]) clk = if c.asInt ≤ clk then some w else valueAt addrTrace clk := by
  unfold valueAt
  rw [List.filter_append]
  split_ifs with h <;> simp [h]

/-- The trace of each address records its history: at every clock `c`, its last entry at a
clock of at most `c` holds the word the address holds after the calls of the cycles `0` to
`c`, and there is none when those calls never accessed it. -/
def HistInv (mem : Memory) (past : List MemOp) : Prop :=
  ∀ a c, (mem.trace.get a).bind (valueAt · c) = specValue (beforeCycle (c + 1) past) a

theorem new_histInv : HistInv Memory.new [] := fun a c => by
  simp [Memory.new, specValue, accessed]

theorem push_histInv {mem : Memory} {past : List MemOp} (h : StoreInv mem past) (hh : HistInv mem past)
    (hstep : mem.step < modulus) {op : MemOp} {k : Nat} (hk : op.key? = some k) {w : Word}
    (hw : currentWord k (past ++ [op]) = w) : HistInv (mem.push k w) (past ++ [op]) := by
  intro a c
  have hnew : (Felt.new mem.step).asInt = mem.step := Felt.asInt_new hstep
  rw [beforeCycle_append, ← h.step_eq]
  by_cases hak : a = k
  · subst hak
    have hget : ((mem.push a w).trace.get a).bind (valueAt · c) =
        valueAt ((mem.trace.get a).getD [] ++ [(Felt.new mem.step, w)]) c := by
      simp [Memory.push]
    rw [hget, valueAt_append_singleton, hnew]
    by_cases hc : mem.step ≤ c
    · rw [if_pos hc, if_pos (by omega), beforeCycle_of_lt _ _ (h.step_eq ▸ (by omega)),
        specValue_append_of_eq hk, hw]
    · rw [if_neg hc, if_neg (by omega), ← hh a c]
      cases mem.trace.get a <;> rfl
  · have hget : (mem.push k w).trace.get a = mem.trace.get a := by simp [Memory.push, hak]
    rw [hget, hh a c]
    split_ifs
    · rw [specValue_append_of_ne (by rw [hk]; simpa using Ne.symm hak)]
    · rfl

theorem advanceClock_histInv {mem : Memory} {past : List MemOp} (hh : HistInv mem past) :
    HistInv mem.advanceClock (past ++ [.advanceClock]) := by
  intro a c
  rw [beforeCycle_append]
  split_ifs
  · rw [specValue_append_of_ne (by simp [MemOp.key?])]
    exact hh a c
  · exact hh a c

theorem exec_histInv {mem : Memory} {past : List MemOp} (h : StoreInv mem past) (hh : HistInv mem past)
    (hstep : mem.step < modulus) (op : MemOp) {r : Option Word × Memory} (hr : mem.exec op = some r) :
    HistInv r.2 (past ++ [op]) := by
  rcases exec_cases h hr with ⟨k, hk, hr2⟩ | ⟨rfl, hr2⟩
  · rw [hr2]
    exact push_histInv h hh hstep hk rfl
  · rw [hr2]
    exact advanceClock_histInv hh

/-! ### Memory at an earlier cycle over any run -/

theorem histInv_of_run {ops : List MemOp} {outs : List (Option Word)} {mem : Memory}
    (hrun : Memory.new.run ops = some (outs, mem))
    (hclk : (ops.filter fun op => !op.isAccess).length < modulus) : HistInv mem ops := by
  simpa using run_preserves HistInv modulus (fun op _ h hh hs hr => exec_histInv h hh hs op hr)
    ops new_inv new_histInv (by simpa using hclk) hrun

theorem run_getValuesAt_of_sorted (ops : List MemOp) (outs : List (Option Word)) (mem : Memory)
    (hrun : Memory.new.run ops = some (outs, mem))
    (hclk : (ops.filter fun op => !op.isAccess).length < modulus)
    (hmono : ∀ e ∈ mem.trace.entries, (e.2.map fun c => c.1.asInt).Pairwise (· ≤ ·))
    (lo hi step : Nat) :
    (mem.getValuesAt lo hi step = none ↔ 0 < step ∧ hi < lo ∧ ∃ x, accessed x ops = true) ∧
      ∀ l, mem.getValuesAt lo hi step = some l → (l.map Prod.fst).Pairwise (· < ·) ∧
        ∀ a w, (a, w) ∈ l ↔ lo ≤ a ∧ a ≤ hi ∧ specValue (beforeCycle step ops) a = some w := by
  have h := storeInv_of_run hrun
  have hh := histInv_of_run hrun hclk
  rw [getValuesAt_eq hmono]
  rcases Nat.eq_zero_or_pos step with rfl | hpos
  · refine ⟨by simp, fun l hl => ?_⟩
    cases hl
    simp [beforeCycle, specValue, accessed]
  obtain ⟨s, rfl⟩ : ∃ s, step = s + 1 := ⟨step - 1, by omega⟩
  rw [if_neg (Nat.succ_ne_zero s), Nat.add_sub_cancel]
  have hnone := range_eq_none_iff h lo hi
  by_cases hr : mem.trace.entries ≠ [] ∧ hi < lo
  · rw [BTreeMap.range_of_reversed hr] at hnone ⊢
    exact ⟨⟨fun _ => ⟨hpos, hnone.1 rfl⟩, fun _ => rfl⟩, fun l hl => by simp at hl⟩
  rw [BTreeMap.range_of_not_reversed hr] at hnone ⊢
  refine ⟨⟨fun hn => by simp at hn, fun hx => by simpa using hnone.2 hx.2⟩, ?_⟩
  rintro l ⟨⟩
  refine ⟨BTreeMap.pairwise_filterMap_range _ (valueAt · s) _, fun a w => ?_⟩
  rw [BTreeMap.mem_filterMap_range _ (valueAt · s), hh a s]

/-- On any run from `Memory::new()` whose clock stays below the field modulus and that
accesses no address twice in one cycle, `get_values_at(lo..=hi, step)` panics exactly on a
reversed range of a memory that has been accessed (and `step > 0`), and otherwise lists in
ascending order the addresses of the range accessed before the cycle `step`, each with the
word it held after the calls of the cycles `0` to `step - 1`. -/
theorem run_getValuesAt (ops : List MemOp) (outs : List (Option Word)) (mem : Memory)
    (hrun : Memory.new.run ops = some (outs, mem))
    (hclk : (ops.filter fun op => !op.isAccess).length < modulus) (hstrict : StrictClocks mem)
    (lo hi step : Nat) :
    (mem.getValuesAt lo hi step = none ↔ 0 < step ∧ hi < lo ∧ ∃ x, accessed x ops = true) ∧
      ∀ l, mem.getValuesAt lo hi step = some l → (l.map Prod.fst).Pairwise (· < ·) ∧
        ∀ a w, (a, w) ∈ l ↔ lo ≤ a ∧ a ≤ hi ∧ specValue (beforeCycle step ops) a = some w :=
  run_getValuesAt_of_sorted ops outs mem hrun hclk (fun e he => (hstrict e he).imp Nat.le_of_lt)
    lo hi step

theorem run_getValuesAt_sample :
    ∃ outs mem,
      Memory.new.run [.write 3 initMemValue, .advanceClock, .read 3, .advanceClock, .read 5] = some (outs, mem) ∧
      (([.write 3 initMemValue, .advanceClock, .read 3, .advanceClock, .read 5] : List MemOp).filter
        fun op => !op.isAccess).length < modulus ∧
      StrictClocks mem ∧
      (mem.getValuesAt 0 9 2 = none ↔ 0 < 2 ∧ 9 < 0 ∧
        ∃ x, accessed x [.write 3 initMemValue, .advanceClock, .read 3, .advanceClock, .read 5] = true) ∧
      ∀ l, mem.getValuesAt 0 9 2 = some l → (l.map Prod.fst).Pairwise (· < ·) ∧
        ∀ a w, (a, w) ∈ l ↔ 0 ≤ a ∧ a ≤ 9 ∧
          specValue (beforeCycle 2 [.write 3 initMemValue, .advanceClock, .read 3, .advanceClock, .read 5]) a = some w :=
  have hstrict : StrictClocks
      ((Memory.new.run [.write 3 initMemValue, .advanceClock, .read 3, .advanceClock, .read 5]).elim Memory.new Prod.snd) := by
    unfold StrictClocks; decide
  ⟨_, _, rfl, by decide, hstrict,
    run_getValuesAt [.write 3 initMemValue, .advanceClock, .read 3, .advanceClock, .read 5]
      ((Memory.new.run [.write 3 initMemValue, .advanceClock, .read 3, .advanceClock, .read 5]).elim [] Prod.fst) _ rfl (by decide) hstrict 0 9 2⟩

end Miden.Processor
