import Miden.Processor.Trace

/-!
# What `fill_trace` writes (mod.rs:35-63, 190-256)

The layout documented on `Memory`: one row per access, in ascending address order and,
within an address, in access order; `ctx` is zero, `addr` and `clk` say where and when,
`u0..u3` hold the word before the access and `v0..v3` the word after it. `fill_trace`
restarts `prev_value` at `INIT_MEM_VALUE` with each address and then carries the word of
the row before (`withPrev`).

`accessLog` is the history's side of this: for each access to an address, its clock and
the words before and after it. `LogInv` says that each address trace is the log's clocks
and after-words; every call keeps it, so over any run `fill_trace` writes the log of every
accessed address, in ascending address order.
-/

namespace Miden.Processor

/-! ### The log of accesses -/

/-- One call added to the log of `key`: an access to `key` appends its clock and the words
before and after it. -/
def logStep (key : Nat) (st : List MemOp × List (Nat × Word × Word)) (op : MemOp) :
    List MemOp × List (Nat × Word × Word) :=
  (st.1 ++ [op],
    if op.key? = some key then
      st.2 ++ [((st.1.filter fun op => !op.isAccess).length, currentWord key st.1,
        currentWord key (st.1 ++ [op]))]
    else st.2)

/-- The accesses to `key` in `past`, in order: the clock of each, the word before it and
the word after it. -/
def accessLog (key : Nat) (past : List MemOp) : List (Nat × Word × Word) :=
  (past.foldl (logStep key) ([], [])).2

theorem foldl_logStep_fst (key : Nat) (past : List MemOp) :
    (past.foldl (logStep key) ([], [])).1 = past := by
  induction past using List.reverseRecOn with
  | nil => rfl
  | append_singleton past op ih =>
    rw [List.foldl_append, List.foldl_cons, List.foldl_nil, logStep, ih]

theorem accessLog_append (key : Nat) (past : List MemOp) (op : MemOp) :
    accessLog key (past ++ [op]) = accessLog key past ++
      if op.key? = some key then
        [((past.filter fun op => !op.isAccess).length, currentWord key past,
          currentWord key (past ++ [op]))]
      else [] := by
  simp only [accessLog, List.foldl_append, List.foldl_cons, List.foldl_nil, logStep,
    foldl_logStep_fst]
  split_ifs <;> simp

theorem currentWord_eq_accessLog (key : Nat) (past : List MemOp) :
    currentWord key past = ((accessLog key past).getLast?.map (·.2.2)).getD initMemValue := by
  induction past using List.reverseRecOn with
  | nil => rfl
  | append_singleton past op ih =>
    rw [accessLog_append]
    split_ifs with hk
    · simp
    · rw [List.append_nil, ← ih, currentWord, currentWord, lastWrite_append_of_key_ne hk]

/-- Each entry `(k, w)` with the word before it: `pv` for the first entry, then the word of
the entry before. -/
def withPrev {κ : Type} (pv : Word) : List (κ × Word) → List (κ × Word × Word)
  | [] => []
  | (k, w) :: l => (k, pv, w) :: withPrev w l

theorem withPrev_append {κ : Type} (pv : Word) (l : List (κ × Word)) (k : κ) (w : Word) :
    withPrev pv (l ++ [(k, w)]) = withPrev pv l ++ [(k, (l.getLast?.map (·.2)).getD pv, w)] := by
  induction l generalizing pv with
  | nil => rfl
  | cons e l ih =>
    obtain ⟨k', w'⟩ := e
    rw [List.cons_append, withPrev, withPrev, ih, List.getLast?_cons]
    cases l.getLast? <;> rfl

theorem withPrev_map {κ κ' : Type} (f : κ → κ') (pv : Word) (l : List (κ × Word)) :
    (withPrev pv l).map (fun e => (f e.1, e.2)) = withPrev pv (l.map fun e => (f e.1, e.2)) := by
  induction l generalizing pv with
  | nil => rfl
  | cons e l ih => simp [withPrev, ih]

theorem accessLog_withPrev (key : Nat) (past : List MemOp) :
    accessLog key past = withPrev initMemValue ((accessLog key past).map fun e => (e.1, e.2.2)) := by
  induction past using List.reverseRecOn with
  | nil => rfl
  | append_singleton past op ih =>
    rw [accessLog_append]
    split_ifs
    · rw [List.map_append, List.map_singleton, withPrev_append, ← ih, List.getLast?_map,
        currentWord_eq_accessLog key past, Option.map_map]
      rfl
    · simpa using ih

/-! ### The invariant -/

/-- Each address trace lists the accesses to its key: the clock as a field element, and the
word after the access. -/
def LogInv (mem : Memory) (past : List MemOp) : Prop :=
  ∀ key, (mem.trace.get key).getD [] = (accessLog key past).map fun e => (Felt.new e.1, e.2.2)

theorem new_logInv : LogInv Memory.new [] := fun _ => rfl

theorem push_logInv {mem : Memory} {past : List MemOp} (h : StoreInv mem past) (hl : LogInv mem past)
    {op : MemOp} {k : Nat} (hk : op.key? = some k) :
    LogInv (mem.push k (currentWord k (past ++ [op]))) (past ++ [op]) := by
  intro key
  rw [accessLog_append]
  simp only [Memory.push, BTreeMap.get_insert]
  by_cases hkey : key = k
  · subst hkey
    rw [if_pos rfl, if_pos hk, Option.getD_some, hl key, List.map_append, h.step_eq]
    rfl
  · rw [if_neg hkey, if_neg (by rw [hk]; simpa using Ne.symm hkey), List.append_nil, hl key]

theorem advanceClock_logInv {mem : Memory} {past : List MemOp} (hl : LogInv mem past) :
    LogInv mem.advanceClock (past ++ [.advanceClock]) := by
  intro key
  rw [accessLog_append, if_neg (by simp [MemOp.key?]), List.append_nil]
  exact hl key

theorem exec_logInv {mem : Memory} {past : List MemOp} (h : StoreInv mem past) (hl : LogInv mem past)
    (op : MemOp) {r : Option Word × Memory} (hr : mem.exec op = some r) : LogInv r.2 (past ++ [op]) := by
  rcases exec_cases h hr with ⟨k, hk, hr2⟩ | ⟨rfl, hr2⟩
  · rw [hr2]
    exact push_logInv h hl hk
  · rw [hr2]
    exact advanceClock_logInv hl

/-! ### The rows -/

/-- The columns of a row that `fill_trace` fills from the access: `ctx`, `addr`, `clk`,
the word before and the word after. -/
def TraceRow.access (r : TraceRow) : Felt × Felt × Felt × Word × Word :=
  (r.ctx, r.addr, r.clk, r.prevValue, r.value)

theorem fillTraceLoop_access (addr : Felt) :
    ∀ (addrTrace : List (Felt × Word)) (prevAddr prevClk : Felt) (prevValue : Word),
      (Memory.fillTraceLoop addr addrTrace prevAddr prevClk prevValue).1.map TraceRow.access =
        (withPrev prevValue addrTrace).map fun e => (0, addr, e.1, e.2.1, e.2.2)
  | [], _, _, _ => rfl
  | (clk, value) :: addrTrace, _, _, prevValue => by
    rw [withPrev, List.map_cons, ← fillTraceLoop_access addr addrTrace addr clk value]
    rfl

theorem fillTraceEntries_access :
    ∀ (entries : List (Nat × List (Felt × Word))) (prevAddr prevClk : Felt),
      (Memory.fillTraceEntries entries prevAddr prevClk).map TraceRow.access =
        entries.flatMap fun e =>
          (withPrev initMemValue e.2).map fun c => (0, Felt.new e.1, c.1, c.2.1, c.2.2)
  | [], _, _ => rfl
  | (addr, addrTrace) :: entries, prevAddr, prevClk => by
    rw [Memory.fillTraceEntries, List.map_append, fillTraceLoop_access, fillTraceEntries_access entries,
      List.flatMap_cons]

theorem withPrev_of_logInv {mem : Memory} {past : List MemOp} (hl : LogInv mem past) {key : Nat}
    {addrTrace : List (Felt × Word)} (hg : mem.trace.get key = some addrTrace) :
    (withPrev initMemValue addrTrace).map (fun c => ((0 : Felt), Felt.new key, c.1, c.2.1, c.2.2)) =
      (accessLog key past).map fun e => (0, Felt.new key, Felt.new e.1, e.2.1, e.2.2) := by
  have ht : addrTrace = ((accessLog key past).map fun e => (e.1, e.2.2)).map
      fun e => (Felt.new e.1, e.2) := by
    have h := hl key
    rw [hg, Option.getD_some] at h
    rw [h, List.map_map]
    rfl
  rw [ht, ← withPrev_map, List.map_map]
  conv_rhs => rw [accessLog_withPrev key past]
  rfl

/-! ### Runs from `Memory::new()` -/

theorem fillTrace_accesses (ops : List MemOp) (outs : List (Option Word)) (mem : Memory)
    (hrun : Memory.new.run ops = some (outs, mem)) :
    ∃ rows, mem.fillTrace mem.traceLen = some rows ∧
      ∃ keys : List Nat, keys.Pairwise (· < ·) ∧ (∀ a, a ∈ keys ↔ accessed a ops = true) ∧
        rows.map TraceRow.access =
          keys.flatMap fun a => (accessLog a ops).map fun e => (0, Felt.new a, Felt.new e.1, e.2.1, e.2.2) := by
  have h := storeInv_of_run hrun
  have hl : LogInv mem ops := by
    simpa using run_preserves LogInv ((ops.filter fun op => !op.isAccess).length + 1)
      (fun op _ h hl _ hr => exec_logInv h hl op hr) ops new_inv new_logInv (by simp) hrun
  have hkeys := mem_keys_iff h
  have hrows : ∀ prevAddr prevClk,
      (Memory.fillTraceEntries mem.trace.entries prevAddr prevClk).map TraceRow.access =
        (mem.trace.entries.map Prod.fst).flatMap fun a =>
          (accessLog a ops).map fun e => (0, Felt.new a, Felt.new e.1, e.2.1, e.2.2) := by
    intro prevAddr prevClk
    rw [fillTraceEntries_access, List.flatMap_map]
    refine List.flatMap_congr fun e he => ?_
    exact withPrev_of_logInv hl ((BTreeMap.mem_entries_iff _).1 he)
  have hsorted := List.pairwise_map.2 mem.trace.sorted
  by_cases hnil : mem.trace.entries = []
  · refine ⟨[], by simp [Memory.fillTrace, getFirstRowInfo_nil hnil, guard], _, hsorted, hkeys, ?_⟩
    simp [hnil]
  obtain ⟨addr, clk, -, -, -, -, hfr⟩ := getFirstRowInfo_cons h hnil
  exact ⟨_, fillTrace_of_firstRow h hfr, _, hsorted, hkeys, hrows _ _⟩

/-- On every run from `Memory::new()` whose clocks strictly increase per address and whose
trace deltas fit in 32 bits, as `split_element_u32_into_u16` requires, `fill_trace` on a
fragment of `trace_len()` rows does not panic, every delta it writes fits in 32 bits, and its
rows are, for each accessed address in ascending order, one row per access to it in access
order: context zero, the address, the clock, the word before the access and the word after
it. -/
theorem run_fillTrace_accesses (ops : List MemOp) (outs : List (Option Word)) (mem : Memory)
    (hrun : Memory.new.run ops = some (outs, mem)) (hstrict : StrictClocks mem)
    (hgap : ∀ d ∈ traceDeltas (traceRows mem.trace.entries), d < 2 ^ 32) :
    ∃ rows, mem.fillTrace mem.traceLen = some rows ∧ (∀ r ∈ rows, r.delta.asInt < 2 ^ 32) ∧
      ∃ keys : List Nat, keys.Pairwise (· < ·) ∧ (∀ a, a ∈ keys ↔ accessed a ops = true) ∧
        rows.map TraceRow.access =
          keys.flatMap fun a => (accessLog a ops).map fun e => (0, Felt.new a, Felt.new e.1, e.2.1, e.2.2) := by
  obtain ⟨rows, hfill, hlayout⟩ := fillTrace_accesses ops outs mem hrun
  refine ⟨rows, hfill, fun r hr => ?_, hlayout⟩
  have hd := fillTrace_deltas (storeInv_of_run hrun) hstrict hfill
  obtain ⟨d, hdm, hdr⟩ := List.mem_map.1 (hd ▸ List.mem_map_of_mem TraceRow.delta hr)
  have hp : 2 ^ 32 < modulus := by decide
  rw [← hdr, Felt.asInt_new (by have := hgap d hdm; omega)]
  exact hgap d hdm

theorem run_fillTrace_accesses_sample :
    ∃ outs mem,
      Memory.new.run [.write 2 initMemValue, .advanceClock, .read 2, .write 1 initMemValue] = some (outs, mem) ∧
      StrictClocks mem ∧ (∀ d ∈ traceDeltas (traceRows mem.trace.entries), d < 2 ^ 32) ∧
      ∃ rows, mem.fillTrace mem.traceLen = some rows ∧ (∀ r ∈ rows, r.delta.asInt < 2 ^ 32) ∧
        ∃ keys : List Nat, keys.Pairwise (· < ·) ∧
          (∀ a, a ∈ keys ↔ accessed a [.write 2 initMemValue, .advanceClock, .read 2, .write 1 initMemValue] = true) ∧
          rows.map TraceRow.access = keys.flatMap fun a =>
            (accessLog a [.write 2 initMemValue, .advanceClock, .read 2, .write 1 initMemValue]).map
              fun e => (0, Felt.new a, Felt.new e.1, e.2.1, e.2.2) :=
  have hstrict : StrictClocks
      ((Memory.new.run [.write 2 initMemValue, .advanceClock, .read 2, .write 1 initMemValue]).elim Memory.new Prod.snd) := by
    unfold StrictClocks; decide
  ⟨_, _, rfl, hstrict, by decide, run_fillTrace_accesses [.write 2 initMemValue, .advanceClock, .read 2, .write 1 initMemValue]
    ((Memory.new.run [.write 2 initMemValue, .advanceClock, .read 2, .write 1 initMemValue]).elim [] Prod.fst) _ rfl hstrict (by decide)⟩

end Miden.Processor
