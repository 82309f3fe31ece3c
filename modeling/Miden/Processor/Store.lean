import Miden.Processor.Chiplet

/-!
# Read-your-writes and the trace bookkeeping (mod.rs:64-147, 269-295)

What memory is for, said over the history of calls: the word at an address key is the
word of its last write, or `INIT_MEM_VALUE`, and a read returns it. `StoreInv` ties
the trace map to the history: every address trace is non-empty and ends with the
current word, the row count is both the number of accesses and the sum of the trace
lengths, and while the clock is below the field modulus each trace's clocks are
non-decreasing and at most the clock. `read` and `write` both push one entry
(`Memory.push`, `read_eq`, `write_eq`), which keeps the invariant (`push_inv`); so does
`advance_clock`, hence every run from `Memory::new()` (`run_inv`). `exec_cases` says once
what a call can do to the state, and `run_preserves` carries any further invariant that
each call keeps over a whole run.
-/

namespace Miden.Processor

namespace MemOp

/-- The address key a read or a write accesses. -/
def key? : MemOp → Option Nat
  | .read addr | .write addr _ => some addr.asInt
  | .advanceClock => none

/-- A read or a write. -/
def isAccess (op : MemOp) : Bool := op.key?.isSome

theorem key?_lt {op : MemOp} {k : Nat} (h : op.key? = some k) : k < modulus := by
  cases op <;> simp only [key?, Option.some.injEq, reduceCtorEq] at h <;> exact h ▸ Felt.asInt_lt _

end MemOp

/-- The word of the last write to `key` in `past`. -/
def lastWrite (key : Nat) (past : List MemOp) : Option Word :=
  past.foldl (fun acc op => match op with
    | .write addr value => if addr.asInt = key then some value else acc
    | _ => acc) none

/-- `key` was read or written in `past`. -/
def accessed (key : Nat) (past : List MemOp) : Bool := past.any fun op => op.key? == some key

/-- The word at `key` after `past`. -/
def currentWord (key : Nat) (past : List MemOp) : Word := (lastWrite key past).getD initMemValue

/-- What `get_value(key)` should return after `past`. -/
def specValue (past : List MemOp) (key : Nat) : Option Word :=
  if accessed key past then some (currentWord key past) else none

/-- What a call should return after `past`: a read returns the current word. -/
def specOut (past : List MemOp) : MemOp → Option Word
  | .read addr => some (currentWord addr.asInt past)
  | _ => none

/-- What the calls `ops` should return after `past`. -/
def specOuts (past : List MemOp) : List MemOp → List (Option Word)
  | [] => []
  | op :: ops => specOut past op :: specOuts (past ++ [op]) ops

/-! ### The history -/

theorem lastWrite_append (key : Nat) (past : List MemOp) (op : MemOp) :
    lastWrite key (past ++ [op]) = match op with
      | .write addr value => if addr.asInt = key then some value else lastWrite key past
      | _ => lastWrite key past := by
  simp only [lastWrite, List.foldl_append, List.foldl_cons, List.foldl_nil]

theorem accessed_append (key : Nat) (past : List MemOp) (op : MemOp) :
    accessed key (past ++ [op]) = (accessed key past || op.key? == some key) := by
  simp [accessed, List.any_append]

theorem lastWrite_append_of_key_ne {key : Nat} {op : MemOp} (h : op.key? ≠ some key)
    (past : List MemOp) : lastWrite key (past ++ [op]) = lastWrite key past := by
  rw [lastWrite_append]
  cases op with
  | write addr value => simp only [MemOp.key?, ne_eq, Option.some.injEq] at h; simp [h]
  | _ => rfl

theorem accessed_of_lastWrite {key : Nat} {past : List MemOp} {v : Word}
    (h : lastWrite key past = some v) : accessed key past = true := by
  induction past using List.reverseRecOn generalizing v with
  | nil => simp [lastWrite] at h
  | append_singleton past op ih =>
    rw [accessed_append, Bool.or_eq_true]
    rw [lastWrite_append] at h
    cases op with
    | write addr value =>
      by_cases hk : addr.asInt = key
      · exact .inr (by simp [MemOp.key?, hk])
      · simp only [hk, if_false] at h; exact .inl (ih h)
    | read addr => exact .inl (ih h)
    | advanceClock => exact .inl (ih h)

theorem currentWord_of_not_accessed {key : Nat} {past : List MemOp} (h : accessed key past = false) :
    currentWord key past = initMemValue := by
  cases hw : lastWrite key past with
  | none => simp [currentWord, hw]
  | some v => simp [accessed_of_lastWrite hw] at h

theorem specValue_append_of_ne {op : MemOp} {key : Nat} (h : op.key? ≠ some key) (past : List MemOp) :
    specValue (past ++ [op]) key = specValue past key := by
  have hb : (op.key? == some key) = false := by simpa using h
  simp [specValue, currentWord, accessed_append, hb, lastWrite_append_of_key_ne h]

theorem specValue_append_of_eq {op : MemOp} {key : Nat} (h : op.key? = some key) (past : List MemOp) :
    specValue (past ++ [op]) key = some (currentWord key (past ++ [op])) := by
  simp [specValue, accessed_append, h]

/-! ### The invariant -/

/-- The state after one more trace entry `(Felt::new(step), w)` at the key `k`. -/
def Memory.push (mem : Memory) (k : Nat) (w : Word) : Memory :=
  { mem with trace := mem.trace.insert k ((mem.trace.get k).getD [] ++ [(Felt.new mem.step, w)]),
             numTraceRows := mem.numTraceRows + 1 }

/-- What the state of `Memory` says after the calls `past`. -/
structure StoreInv (mem : Memory) (past : List MemOp) : Prop where
  nonempty : ∀ k tr, mem.trace.get k = some tr → tr ≠ []
  keys_lt : ∀ k tr, mem.trace.get k = some tr → k < modulus
  getValue_eq : ∀ k, mem.getValue k = specValue past k
  step_eq : mem.step = (past.filter fun op => !op.isAccess).length
  rows_eq : mem.numTraceRows = (past.filter MemOp.isAccess).length
  rows_sum : mem.numTraceRows = (mem.trace.entries.map fun e => e.2.length).sum
  clocks : mem.step < modulus → ∀ k tr, mem.trace.get k = some tr →
    (tr.map fun c => c.1.asInt).Pairwise (· ≤ ·) ∧ ∀ c ∈ tr, c.1.asInt ≤ mem.step

/-- The trace constraint documented on `Memory` (mod.rs:41-63): within each address trace
the clocks strictly increase, i.e. no address is accessed twice in one cycle. -/
def StrictClocks (mem : Memory) : Prop :=
  ∀ e ∈ mem.trace.entries, (e.2.map fun c => c.1.asInt).Pairwise (· < ·)

theorem new_inv : StoreInv Memory.new [] where
  nonempty := by simp [Memory.new]
  keys_lt := by simp [Memory.new]
  getValue_eq := by simp [Memory.new, Memory.getValue, specValue, accessed]
  step_eq := rfl
  rows_eq := rfl
  rows_sum := rfl
  clocks := by simp [Memory.new]

theorem write_eq (mem : Memory) (addr : Felt) (value : Word) :
    mem.write addr value = mem.push addr.asInt value := by
  unfold Memory.write Memory.push
  cases mem.trace.get addr.asInt <;> rfl

theorem read_eq {mem : Memory} {past : List MemOp} (h : StoreInv mem past) (addr : Felt) :
    mem.read addr = some (currentWord addr.asInt past, mem.push addr.asInt (currentWord addr.asInt past)) := by
  have hv := h.getValue_eq addr.asInt
  unfold Memory.read Memory.push
  cases hg : mem.trace.get addr.asInt with
  | none =>
    simp only [Memory.getValue, hg, specValue] at hv
    split_ifs at hv with ha
    rw [currentWord_of_not_accessed (by simpa using ha)]
    rfl
  | some tr =>
    obtain ⟨c, lv, hlast⟩ : ∃ c lv, tr.getLast? = some (c, lv) := by
      cases hl : tr.getLast? with
      | none => exact absurd (List.getLast?_eq_none_iff.1 hl) (h.nonempty _ _ hg)
      | some x => exact ⟨x.1, x.2, rfl⟩
    simp only [Memory.getValue, hg, hlast, Option.map_some', specValue] at hv
    split_ifs at hv
    obtain rfl := (Option.some.inj hv).symm
    simp [hlast]

theorem push_inv {mem : Memory} {past : List MemOp} (h : StoreInv mem past) {op : MemOp} {k : Nat}
    (hk : op.key? = some k) {w : Word} (hw : currentWord k (past ++ [op]) = w) :
    StoreInv (mem.push k w) (past ++ [op]) where
  nonempty k' tr := by
    simp only [Memory.push, BTreeMap.get_insert]
    split_ifs
    · rintro ⟨⟩; simp
    · exact h.nonempty k' tr
  keys_lt k' tr := by
    simp only [Memory.push, BTreeMap.get_insert]
    split_ifs with hkk
    · exact fun _ => hkk ▸ MemOp.key?_lt hk
    · exact h.keys_lt k' tr
  getValue_eq k' := by
    by_cases hkk : k' = k
    · subst hkk
      simp [Memory.getValue, Memory.push, specValue_append_of_eq hk, hw]
    · have hget : (mem.push k w).getValue k' = mem.getValue k' := by
        simp [Memory.getValue, Memory.push, hkk]
      rw [hget, h.getValue_eq k', specValue_append_of_ne (by rw [hk]; simpa using Ne.symm hkk)]
  step_eq := by
    have : op.isAccess = true := by simp [MemOp.isAccess, hk]
    simp [Memory.push, h.step_eq, List.filter_append, this]
  rows_eq := by
    have : op.isAccess = true := by simp [MemOp.isAccess, hk]
    simp [Memory.push, h.rows_eq, List.filter_append, this]
  rows_sum := by
    have hs := BTreeMap.sum_insertEntry List.length k
      ((mem.trace.get k).getD [] ++ [(Felt.new mem.step, w)]) mem.trace.entries mem.trace.sorted
    have hlen : ((mem.trace.get k).map List.length).getD 0 = ((mem.trace.get k).getD []).length := by
      cases mem.trace.get k <;> rfl
    have hr := h.rows_sum
    simp only [BTreeMap.get] at hlen hs
    simp only [Memory.push, BTreeMap.insert, BTreeMap.get]
    rw [hlen, List.length_append, List.length_singleton] at hs
    omega
  clocks hstep k' tr := by
    simp only [Memory.push, BTreeMap.get_insert]
    split_ifs with hkk
    · rintro ⟨⟩
      have hnew : (Felt.new mem.step).asInt = mem.step := Felt.asInt_new hstep
      cases hg : mem.trace.get k with
      | none => simp [hnew]
      | some tr0 =>
        obtain ⟨hp, hle⟩ := h.clocks hstep k tr0 hg
        simp only [Option.getD_some, List.map_append, List.map_singleton, List.pairwise_append,
          List.pairwise_singleton, List.mem_singleton, List.mem_map, List.mem_append]
        refine ⟨⟨hp, trivial, ?_⟩, ?_⟩
        · rintro _ ⟨c, hc, rfl⟩ _ rfl; rw [hnew]; exact hle c hc
        · rintro c (hc | rfl)
          · exact hle c hc
          · exact hnew.le
    · exact h.clocks hstep k' tr

theorem advanceClock_inv {mem : Memory} {past : List MemOp} (h : StoreInv mem past) :
    StoreInv mem.advanceClock (past ++ [.advanceClock]) where
  nonempty := h.nonempty
  keys_lt := h.keys_lt
  getValue_eq k := by
    change mem.getValue k = _
    rw [h.getValue_eq k, specValue_append_of_ne (by simp [MemOp.key?])]
  step_eq := by simp [Memory.advanceClock, h.step_eq, List.filter_append, MemOp.isAccess, MemOp.key?]
  rows_eq := by simp [Memory.advanceClock, h.rows_eq, List.filter_append, MemOp.isAccess, MemOp.key?]
  rows_sum := h.rows_sum
  clocks hstep k tr hg := by
    obtain ⟨hp, hle⟩ := h.clocks (by simp [Memory.advanceClock] at hstep; omega) k tr hg
    exact ⟨hp, fun c hc => (hle c hc).trans (Nat.le_succ _)⟩

theorem exec_inv {mem : Memory} {past : List MemOp} (h : StoreInv mem past) (op : MemOp) :
    ∃ mem', mem.exec op = some (specOut past op, mem') ∧ StoreInv mem' (past ++ [op]) := by
  cases op with
  | read addr =>
    have hw : currentWord addr.asInt (past ++ [.read addr]) = currentWord addr.asInt past := by
      simp [currentWord, lastWrite_append]
    exact ⟨_, by simp [Memory.exec, read_eq h, specOut], push_inv h (show (MemOp.read addr).key? = some addr.asInt from rfl) hw⟩
  | write addr value =>
    have hw : currentWord addr.asInt (past ++ [.write addr value]) = value := by
      simp [currentWord, lastWrite_append]
    exact ⟨_, by simp [Memory.exec, write_eq, specOut], push_inv h (show (MemOp.write addr value).key? = some addr.asInt from rfl) hw⟩
  | advanceClock => exact ⟨_, rfl, advanceClock_inv h⟩

theorem exec_cases {mem : Memory} {past : List MemOp} (h : StoreInv mem past) {op : MemOp}
    {r : Option Word × Memory} (hr : mem.exec op = some r) :
    (∃ k, op.key? = some k ∧ r.2 = mem.push k (currentWord k (past ++ [op]))) ∨
      (op = .advanceClock ∧ r.2 = mem.advanceClock) := by
  cases op with
  | read addr =>
    simp only [Memory.exec, read_eq h, Option.map_some', Option.some.injEq] at hr
    subst hr
    exact .inl ⟨_, rfl, by simp [currentWord, lastWrite_append]⟩
  | write addr value =>
    simp only [Memory.exec, write_eq, Option.some.injEq] at hr
    subst hr
    exact .inl ⟨_, rfl, by simp [currentWord, lastWrite_append]⟩
  | advanceClock =>
    simp only [Memory.exec, Option.some.injEq] at hr
    subst hr
    exact .inr ⟨rfl, rfl⟩

theorem run_inv (ops : List MemOp) : ∀ {mem : Memory} {past : List MemOp}, StoreInv mem past →
    ∃ mem', mem.run ops = some (specOuts past ops, mem') ∧ StoreInv mem' (past ++ ops) := by
  induction ops with
  | nil => intro mem past h; exact ⟨mem, rfl, by simpa using h⟩
  | cons op ops ih =>
    intro mem past h
    obtain ⟨mem₁, hexec, h₁⟩ := exec_inv h op
    obtain ⟨mem₂, hrun, h₂⟩ := ih h₁
    refine ⟨mem₂, ?_, by simpa using h₂⟩
    simp [Memory.run, hexec, hrun, specOuts]

theorem run_preserves (P : Memory → List MemOp → Prop) (bound : Nat)
    (hstep : ∀ {mem past} (op : MemOp) {r : Option Word × Memory}, StoreInv mem past →
      P mem past → mem.step < bound → mem.exec op = some r → P r.2 (past ++ [op]))
    (ops : List MemOp) : ∀ {mem : Memory} {past : List MemOp}, StoreInv mem past → P mem past →
      ((past ++ ops).filter fun op => !op.isAccess).length < bound →
        ∀ {r}, mem.run ops = some r → P r.2 (past ++ ops) := by
  induction ops with
  | nil =>
    intro mem past _ hp _ r hr
    cases hr
    simpa using hp
  | cons op ops ih =>
    intro mem past h hp hclk r hr
    obtain ⟨mem₁, hexec, h₁⟩ := exec_inv h op
    have hstep₀ : mem.step < bound := by
      rw [h.step_eq]
      simp only [List.filter_append, List.length_append] at hclk
      omega
    cases hr₁ : mem₁.run ops with
    | none => simp [Memory.run, hexec, hr₁] at hr
    | some r₁ =>
      simp only [Memory.run, hexec, hr₁, Option.bind_eq_bind, Option.some_bind, Option.pure_def,
        Option.some.injEq] at hr
      subst hr
      simpa using ih h₁ (hstep op h hp hstep₀ hexec) (by simpa using hclk) hr₁

theorem storeInv_of_run {ops : List MemOp} {outs : List (Option Word)} {mem : Memory}
    (hrun : Memory.new.run ops = some (outs, mem)) : StoreInv mem ops := by
  obtain ⟨mem', hrun', h⟩ := run_inv ops new_inv
  rw [hrun, Option.some.injEq, Prod.mk.injEq] at hrun'
  rw [hrun'.2]
  simpa using h

/-! ### Reading the map -/

theorem mapM_eq_some_map {β γ : Type} (f : β → Option γ) (g : β → γ) :
    ∀ l : List β, (∀ b ∈ l, f b = some (g b)) → l.mapM f = some (l.map g)
  | [], _ => rfl
  | b :: l, h => by
    rw [List.mapM_cons, h b (List.mem_cons_self _ _),
      mapM_eq_some_map f g l fun c hc => h c (List.mem_cons_of_mem _ hc)]
    rfl

/-- The last word of a non-empty address trace. -/
def lastWord (tr : List (Felt × Word)) : Word := (tr.getLast?.map (·.2)).getD initMemValue

theorem getValue_of_get {mem : Memory} {past : List MemOp} (h : StoreInv mem past) {k : Nat}
    {tr : List (Felt × Word)} (hg : mem.trace.get k = some tr) : specValue past k = some (lastWord tr) := by
  rw [← h.getValue_eq k]
  obtain ⟨x, hx⟩ := List.getLast?_isSome.2 (h.nonempty k tr hg) |> Option.isSome_iff_exists.1
  simp [Memory.getValue, hg, lastWord, hx]

theorem specValue_eq_get {mem : Memory} {past : List MemOp} (h : StoreInv mem past) (k : Nat) :
    specValue past k = (mem.trace.get k).map lastWord := by
  cases hg : mem.trace.get k with
  | none => simpa [Memory.getValue, hg] using (h.getValue_eq k).symm
  | some tr => exact getValue_of_get h hg

theorem mem_keys_iff {mem : Memory} {past : List MemOp} (h : StoreInv mem past) (a : Nat) :
    a ∈ mem.trace.entries.map Prod.fst ↔ accessed a past = true := by
  rw [List.mem_map]
  constructor
  · rintro ⟨e, he, rfl⟩
    have hv := getValue_of_get h ((BTreeMap.mem_entries_iff _).1 he)
    by_contra hn
    simp [specValue, hn] at hv
  · intro ha
    have hv := specValue_eq_get h a
    rw [specValue, if_pos ha] at hv
    obtain ⟨tr, hg, -⟩ := Option.map_eq_some'.1 hv.symm
    exact ⟨(a, tr), (BTreeMap.mem_entries_iff _).2 hg, rfl⟩

theorem entries_ne_nil_iff {mem : Memory} {past : List MemOp} (h : StoreInv mem past) :
    mem.trace.entries ≠ [] ↔ ∃ x, accessed x past = true := by
  constructor
  · intro hne
    obtain ⟨e, he⟩ := List.exists_mem_of_ne_nil _ hne
    exact ⟨e.1, (mem_keys_iff h e.1).1 (List.mem_map_of_mem _ he)⟩
  · rintro ⟨x, hx⟩ hnil
    have := (mem_keys_iff h x).2 hx
    simp [hnil] at this

theorem range_eq_none_iff {mem : Memory} {past : List MemOp} (h : StoreInv mem past) (lo hi : Nat) :
    mem.trace.range lo hi = none ↔ hi < lo ∧ ∃ x, accessed x past = true := by
  rw [← entries_ne_nil_iff h]
  by_cases hr : mem.trace.entries ≠ [] ∧ hi < lo
  · simp only [BTreeMap.range_of_reversed hr, true_iff]
    exact ⟨hr.2, hr.1⟩
  · simp only [BTreeMap.range_of_not_reversed hr, reduceCtorEq, false_iff]
    exact fun h' => hr ⟨h'.2, h'.1⟩

theorem getValues_spec {mem : Memory} {past : List MemOp} (h : StoreInv mem past) (lo hi : Nat) :
    (mem.getValues lo hi = none ↔ hi < lo ∧ ∃ x, accessed x past = true) ∧
      ∀ l, mem.getValues lo hi = some l → (l.map Prod.fst).Pairwise (· < ·) ∧
        ∀ a w, (a, w) ∈ l ↔ lo ≤ a ∧ a ≤ hi ∧ specValue past a = some w := by
  have hmap : ∀ es : List (Nat × List (Felt × Word)), (∀ e ∈ es, e ∈ mem.trace.entries) →
      (es.mapM fun (e : Nat × List (Felt × Word)) => do
        let (_, value) ← e.2.getLast?
        pure (e.1, value)) = some (es.filterMap fun e => (some (lastWord e.2)).map (e.1, ·)) := by
    intro es hes
    refine (mapM_eq_some_map _ (fun e => (e.1, lastWord e.2)) es fun e he => ?_).trans
      (congrArg some (congrFun (List.filterMap_eq_map
        (fun e : Nat × List (Felt × Word) => (e.1, lastWord e.2))) es).symm)
    obtain ⟨x, hx⟩ := List.getLast?_isSome.2 (h.nonempty e.1 e.2
      ((BTreeMap.mem_entries_iff _).1 (hes e he))) |> Option.isSome_iff_exists.1
    simp [hx, lastWord]
  have hnone := range_eq_none_iff h lo hi
  unfold Memory.getValues
  by_cases hr : mem.trace.entries ≠ [] ∧ hi < lo
  · rw [BTreeMap.range_of_reversed hr] at hnone ⊢
    exact ⟨⟨fun _ => hnone.1 rfl, fun _ => rfl⟩, fun l hl => by simp at hl⟩
  rw [BTreeMap.range_of_not_reversed hr] at hnone ⊢
  rw [Option.bind_eq_bind, Option.some_bind, hmap _ fun e he => List.mem_of_mem_filter he]
  refine ⟨⟨fun hn => by simp at hn, fun hx => by simpa using hnone.2 hx⟩, ?_⟩
  rintro l ⟨⟩
  refine ⟨BTreeMap.pairwise_filterMap_range _ (fun tr => some (lastWord tr)) _, fun a w => ?_⟩
  rw [BTreeMap.mem_filterMap_range _ (fun tr => some (lastWord tr)), specValue_eq_get h]
  cases mem.trace.get a <;> simp

/-! ### Runs from `Memory::new()` -/

/-- Read-your-writes over any run: each read returns the word of the last earlier write to
its key, or `INIT_MEM_VALUE`; afterwards `get_value(x)` is the current word of every accessed
key and `None` for the others, and `get_values(lo..=hi)` panics exactly on a reversed range of
a memory that has been accessed, and otherwise lists the accessed keys of the range in
ascending order, each with its current word. -/
theorem run_read_your_writes (ops : List MemOp) :
    ∃ outs mem, Memory.new.run ops = some (outs, mem) ∧ outs = specOuts [] ops ∧
      (∀ x, mem.getValue x = specValue ops x) ∧
      ∀ lo hi, (mem.getValues lo hi = none ↔ hi < lo ∧ ∃ x, accessed x ops = true) ∧
        ∀ l, mem.getValues lo hi = some l → (l.map Prod.fst).Pairwise (· < ·) ∧
          ∀ a w, (a, w) ∈ l ↔ lo ≤ a ∧ a ≤ hi ∧ specValue ops a = some w := by
  obtain ⟨mem, hrun, h⟩ := run_inv ops new_inv
  rw [List.nil_append] at h
  exact ⟨_, mem, hrun, rfl, h.getValue_eq, getValues_spec h⟩

/-- After one write, `get_values(1..=0)` panics instead of returning the empty list. -/
theorem getValues_reversed_range :
    (Memory.new.run [.write 0 initMemValue]).map (fun r => r.2.getValues 1 0) = some none := rfl

/-- The trace bookkeeping over any run whose clock stays below the field modulus: the row
count is the number of reads and writes and the sum of the address trace lengths, no
address trace is empty, and the clocks of each are non-decreasing. -/
theorem run_trace_bookkeeping (ops : List MemOp)
    (hclk : (ops.filter fun op => !op.isAccess).length < modulus) :
    ∃ outs mem, Memory.new.run ops = some (outs, mem) ∧
      mem.traceLen = (ops.filter MemOp.isAccess).length ∧
      mem.traceLen = (mem.trace.entries.map fun e => e.2.length).sum ∧
      (∀ e ∈ mem.trace.entries, e.2 ≠ []) ∧
      ∀ e ∈ mem.trace.entries, (e.2.map fun c => c.1.asInt).Pairwise (· ≤ ·) := by
  obtain ⟨mem, hrun, h⟩ := run_inv ops new_inv
  rw [List.nil_append] at h
  have hstep : mem.step < modulus := h.step_eq ▸ hclk
  refine ⟨_, mem, hrun, h.rows_eq, h.rows_sum, fun e he => ?_, fun e he => ?_⟩
  · exact h.nonempty e.1 e.2 ((BTreeMap.mem_entries_iff _).1 he)
  · exact (h.clocks hstep e.1 e.2 ((BTreeMap.mem_entries_iff _).1 he)).1

theorem run_trace_bookkeeping_three :
    (([.write 7 initMemValue, .advanceClock, .read 7] : List MemOp).filter
        fun op => !op.isAccess).length < modulus ∧
      ∃ outs mem, Memory.new.run [.write 7 initMemValue, .advanceClock, .read 7] = some (outs, mem) ∧
        mem.traceLen = (([.write 7 initMemValue, .advanceClock, .read 7] : List MemOp).filter
          MemOp.isAccess).length ∧
        mem.traceLen = (mem.trace.entries.map fun e => e.2.length).sum ∧
        (∀ e ∈ mem.trace.entries, e.2 ≠ []) ∧
        ∀ e ∈ mem.trace.entries, (e.2.map fun c => c.1.asInt).Pairwise (· ≤ ·) :=
  ⟨by decide, run_trace_bookkeeping _ (by decide)⟩

/-- Over any run, `size()` is the number of distinct addresses accessed, and
`get_all_values()` does not panic and lists each accessed address once, in ascending order,
with its current word. -/
theorem run_size_getAllValues (ops : List MemOp) (outs : List (Option Word)) (mem : Memory)
    (hrun : Memory.new.run ops = some (outs, mem)) :
    mem.size = (ops.filterMap MemOp.key?).dedup.length ∧
      ∃ l, mem.getAllValues = some l ∧ (l.map Prod.fst).Pairwise (· < ·) ∧
        ∀ a w, (a, w) ∈ l ↔ specValue ops a = some w := by
  have h := storeInv_of_run hrun
  refine ⟨?_, ?_⟩
  · have hnodup : (mem.trace.entries.map Prod.fst).Nodup :=
      (List.pairwise_map.2 mem.trace.sorted).imp Nat.ne_of_lt
    have hperm : (mem.trace.entries.map Prod.fst).Perm (ops.filterMap MemOp.key?).dedup := by
      refine (List.perm_ext_iff_of_nodup hnodup (List.nodup_dedup _)).2 fun a => ?_
      rw [mem_keys_iff h, List.mem_dedup, List.mem_filterMap, accessed, List.any_eq_true]
      simp only [beq_iff_eq]
    rw [Memory.size, ← hperm.length_eq, List.length_map]
  · obtain ⟨hnone, hsome⟩ := getValues_spec h 0 (2 ^ 64 - 1)
    cases hg : mem.getValues 0 (2 ^ 64 - 1) with
    | none => exact absurd (hnone.1 hg).1 (Nat.not_lt_zero _)
    | some l =>
      obtain ⟨hsorted, hmem⟩ := hsome l hg
      refine ⟨l, hg, hsorted, fun a w => ?_⟩
      rw [hmem]
      refine ⟨fun h' => h'.2.2, fun hv => ⟨Nat.zero_le _, ?_, hv⟩⟩
      rw [specValue_eq_get h] at hv
      obtain ⟨tr, hget, -⟩ := Option.map_eq_some'.1 hv
      have hlt := h.keys_lt a tr hget
      have hmod : modulus ≤ 2 ^ 64 - 1 := by decide
      omega

theorem run_size_getAllValues_sample :
    ∃ outs mem, Memory.new.run [.write 7 initMemValue, .read 3, .read 7] = some (outs, mem) ∧
      mem.size = (([.write 7 initMemValue, .read 3, .read 7] : List MemOp).filterMap MemOp.key?).dedup.length ∧
      ∃ l, mem.getAllValues = some l ∧ (l.map Prod.fst).Pairwise (· < ·) ∧
        ∀ a w, (a, w) ∈ l ↔ specValue [.write 7 initMemValue, .read 3, .read 7] a = some w :=
  ⟨_, _, rfl, run_size_getAllValues [.write 7 initMemValue, .read 3, .read 7] ((Memory.new.run [.write 7 initMemValue, .read 3, .read 7]).elim [] Prod.fst)
    ((Memory.new.run [.write 7 initMemValue, .read 3, .read 7]).elim Memory.new Prod.snd) rfl⟩

end Miden.Processor
