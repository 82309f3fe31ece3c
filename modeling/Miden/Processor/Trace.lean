import Miden.Processor.Store
import Miden.Uint

/-!
# Range checks and trace rows (mod.rs:154-267)

`append_range_checks` and `fill_trace` both walk the address traces in ascending
address order, one row per entry, and compute each row's delta from the row before:
the address step when the address changes, else the clock step less one. Both start
from the first row's address and its clock less one, so that the first delta is zero.
One loop computes in `u64`, where a subtraction can underflow, the other in the field.
As one loop over the rows (`rangeChecksFlat`, `fillDeltasFlat`) both compute
`deltasFrom`: while the rows ascend no subtraction underflows, and the field deltas are
the images of the `u64` ones.
-/

namespace Miden.Processor

/-- A row of the memory trace (mod.rs:34-63). `d0` and `d1`, the 16-bit halves of `delta`,
are left out: the helper that splits it is outside the sources. -/
structure TraceRow where
  ctx : Felt
  addr : Felt
  clk : Felt
  prevValue : Word
  value : Word
  delta : Felt
  deltaInv : Felt

/-- The `u64` delta of `append_range_checks` (mod.rs:170-175): the address step when the
address changes, else the clock step less one. -/
def rangeCheckDelta (prevAddr prevClk addr clk : Nat) : Option Nat :=
  if prevAddr ≠ addr then uintSub addr prevAddr else do
    let d ← uintSub clk prevClk
    uintSub d 1

/-- The field delta of `fill_trace` (mod.rs:227-232). -/
def fieldDelta (prevAddr prevClk addr clk : Felt) : Felt :=
  if prevAddr ≠ addr then addr - prevAddr else clk - prevClk - 1

namespace Memory

/-- `Memory::get_first_row_info` (mod.rs:259): `addr_trace[0]` panics on an empty trace. -/
def getFirstRowInfo (mem : Memory) : Option (Option (Felt × Felt)) :=
  match mem.trace.entries with
  | [] => some none
  | (addr, addrTrace) :: _ => addrTrace[0]?.map fun (clk, _) => some (Felt.new addr, clk)

/-- The loop of `append_range_checks` over one address trace: the `(row, delta)` range
checks and the final `(prev_addr, prev_clk, row)`. -/
def rangeChecksLoop (addr : Nat) : List (Felt × Word) → Nat → Nat → Nat →
    Option (List (Nat × Nat) × Nat × Nat × Nat)
  | [], prevAddr, prevClk, row => some ([], prevAddr, prevClk, row)
  | (clk, _) :: addrTrace, prevAddr, prevClk, row => do
    let clk := clk.asInt
    let delta ← rangeCheckDelta prevAddr prevClk addr clk
    let (checks, st) ← rangeChecksLoop addr addrTrace addr clk (row + 1)
    pure ((row, delta) :: checks, st)

/-- The loop of `append_range_checks` over the address traces, in ascending order. -/
def appendRangeChecksLoop : List (Nat × List (Felt × Word)) → Nat → Nat → Nat →
    Option (List (Nat × Nat))
  | [], _, _, _ => some []
  | (addr, addrTrace) :: entries, prevAddr, prevClk, row => do
    let (checks, prevAddr, prevClk, row) ← rangeChecksLoop addr addrTrace prevAddr prevClk row
    let more ← appendRangeChecksLoop entries prevAddr prevClk row
    pure (checks ++ more)

/-- `Memory::append_range_checks` (mod.rs:154): the `(row, delta)` pairs given to
`RangeChecker::add_mem_checks`, each delta before its split into 16-bit halves. -/
def appendRangeChecks (mem : Memory) (memoryStartRow : Nat) : Option (List (Nat × Nat)) := do
  match ← mem.getFirstRowInfo with
  | none => pure []
  | some (addr, clk) =>
    let prevClk ← uintSub clk.asInt 1
    appendRangeChecksLoop mem.trace.entries addr.asInt prevClk memoryStartRow

/-- The loop of `fill_trace` over one address trace: its rows and the final
`(prev_addr, prev_clk)`. -/
def fillTraceLoop (addr : Felt) : List (Felt × Word) → Felt → Felt → Word →
    List TraceRow × Felt × Felt
  | [], prevAddr, prevClk, _ => ([], prevAddr, prevClk)
  | (clk, value) :: addrTrace, prevAddr, prevClk, prevValue =>
    let delta := fieldDelta prevAddr prevClk addr clk
    let (rows, st) := fillTraceLoop addr addrTrace addr clk value
    (⟨0, addr, clk, prevValue, value, delta, delta⁻¹⟩ :: rows, st)

/-- The loop of `fill_trace` over the address traces, in ascending order; the previous
value restarts at `INIT_MEM_VALUE` with each address. -/
def fillTraceEntries : List (Nat × List (Felt × Word)) → Felt → Felt → List TraceRow
  | [], _, _ => []
  | (addr, addrTrace) :: entries, prevAddr, prevClk =>
    let (rows, prevAddr, prevClk) :=
      fillTraceLoop (Felt.new addr) addrTrace prevAddr prevClk initMemValue
    rows ++ fillTraceEntries entries prevAddr prevClk

/-- `Memory::fill_trace` (mod.rs:190) into a fragment of `fragmentLen` rows: the
`debug_assert_eq!` on the lengths, and a write past the fragment, panic. -/
def fillTrace (mem : Memory) (fragmentLen : Nat) : Option (List TraceRow) := do
  guard (mem.traceLen = fragmentLen)
  match ← mem.getFirstRowInfo with
  | none => pure []
  | some (addr, clk) =>
    let rows := fillTraceEntries mem.trace.entries addr (clk - 1)
    guard (rows.length ≤ fragmentLen)
    pure rows

end Memory

/-! ### The rows and their deltas -/

def traceRows (entries : List (Nat × List (Felt × Word))) : List (Nat × Nat) :=
  entries.flatMap fun e => e.2.map fun c => (e.1, c.1.asInt)

def rowDelta (p q : Nat × Nat) : Nat := if p.1 ≠ q.1 then q.1 - p.1 else q.2 - p.2 - 1

def deltasFrom : Nat × Nat → List (Nat × Nat) → List Nat
  | _, [] => []
  | p, q :: rows => rowDelta p q :: deltasFrom q rows

def traceDeltas : List (Nat × Nat) → List Nat
  | [] => []
  | q :: rows => 0 :: deltasFrom q rows

def RowLt (p q : Nat × Nat) : Prop := p.1 < q.1 ∨ (p.1 = q.1 ∧ p.2 < q.2)

def firstClock (mem : Memory) : Option Nat :=
  mem.trace.entries.head?.bind fun e => e.2.head?.map fun c => c.1.asInt

def rangeChecksFlat : List (Nat × Nat) → Nat → Nat → Nat → Option (List (Nat × Nat))
  | [], _, _, _ => some []
  | (addr, clk) :: rows, prevAddr, prevClk, row => do
    let delta ← rangeCheckDelta prevAddr prevClk addr clk
    let more ← rangeChecksFlat rows addr clk (row + 1)
    pure ((row, delta) :: more)

def fillDeltasFlat : List (Nat × Nat) → Felt → Felt → List Felt
  | [], _, _ => []
  | (addr, clk) :: rows, prevAddr, prevClk =>
    fieldDelta prevAddr prevClk (Felt.new addr) (Felt.new clk) ::
      fillDeltasFlat rows (Felt.new addr) (Felt.new clk)

/-! ### One loop over the rows

Both nested loops equal one loop over `traceRows`: the inner loop's final state seeds the
outer loop's next address. -/

open Memory

theorem rangeChecksLoop_fuse (addr : Nat) (rows : List (Nat × Nat)) :
    ∀ (addrTrace : List (Felt × Word)) (prevAddr prevClk row : Nat),
      (rangeChecksLoop addr addrTrace prevAddr prevClk row).bind
          (fun r => (rangeChecksFlat rows r.2.1 r.2.2.1 r.2.2.2).map (r.1 ++ ·)) =
        rangeChecksFlat (addrTrace.map (fun c => (addr, c.1.asInt)) ++ rows) prevAddr prevClk row := by
  intro addrTrace
  induction addrTrace with
  | nil => intro _ _ _; simp [rangeChecksLoop]
  | cons c addrTrace ih =>
    intro prevAddr prevClk row
    rw [List.map_cons, List.cons_append, rangeChecksFlat, ← ih]
    simp only [rangeChecksLoop]
    cases rangeCheckDelta prevAddr prevClk addr c.1.asInt with
    | none => rfl
    | some delta =>
      cases rangeChecksLoop addr addrTrace addr c.1.asInt (row + 1) with
      | none => rfl
      | some r =>
        simp only [Option.bind_eq_bind, Option.some_bind, Option.pure_def]
        cases rangeChecksFlat rows r.2.1 r.2.2.1 r.2.2.2 <;> rfl

theorem appendRangeChecksLoop_flat : ∀ (entries : List (Nat × List (Felt × Word))) (prevAddr prevClk row : Nat),
    appendRangeChecksLoop entries prevAddr prevClk row = rangeChecksFlat (traceRows entries) prevAddr prevClk row
  | [], _, _, _ => rfl
  | (addr, addrTrace) :: entries, prevAddr, prevClk, row => by
    rw [appendRangeChecksLoop, traceRows, List.flatMap_cons, ← traceRows, ← rangeChecksLoop_fuse]
    simp only [appendRangeChecksLoop_flat entries]
    cases rangeChecksLoop addr addrTrace prevAddr prevClk row with
    | none => rfl
    | some r =>
      simp only [Option.bind_eq_bind, Option.some_bind, Option.pure_def]
      cases rangeChecksFlat (traceRows entries) r.2.1 r.2.2.1 r.2.2.2 <;> rfl

theorem fillTraceLoop_fuse (addr : Nat) (rows : List (Nat × Nat)) :
    ∀ (addrTrace : List (Felt × Word)) (prevAddr prevClk : Felt) (prevValue : Word),
      ((fillTraceLoop (Felt.new addr) addrTrace prevAddr prevClk prevValue).1.map TraceRow.delta ++
          fillDeltasFlat rows (fillTraceLoop (Felt.new addr) addrTrace prevAddr prevClk prevValue).2.1
            (fillTraceLoop (Felt.new addr) addrTrace prevAddr prevClk prevValue).2.2) =
        fillDeltasFlat (addrTrace.map (fun c => (addr, c.1.asInt)) ++ rows) prevAddr prevClk := by
  intro addrTrace
  induction addrTrace with
  | nil => intro _ _ _; rfl
  | cons c addrTrace ih =>
    intro prevAddr prevClk prevValue
    rw [List.map_cons, List.cons_append, fillDeltasFlat, Felt.new_asInt, ← ih]
    rfl

theorem fillTraceEntries_flat : ∀ (entries : List (Nat × List (Felt × Word))) (prevAddr prevClk : Felt),
    (fillTraceEntries entries prevAddr prevClk).map TraceRow.delta =
      fillDeltasFlat (traceRows entries) prevAddr prevClk
  | [], _, _ => rfl
  | (addr, addrTrace) :: entries, prevAddr, prevClk => by
    rw [fillTraceEntries, traceRows, List.flatMap_cons, ← traceRows, ← fillTraceLoop_fuse, List.map_append,
      fillTraceEntries_flat entries]

/-! ### Ascending rows -/

theorem rangeCheckDelta_of_lt {p q : Nat × Nat} (h : RowLt p q) :
    rangeCheckDelta p.1 p.2 q.1 q.2 = some (rowDelta p q) := by
  unfold rangeCheckDelta rowDelta uintSub
  rcases h with h | ⟨h1, h2⟩
  · simp [show p.1 ≠ q.1 by omega, h.le]
  · simp [h1, h2.le, show 1 ≤ q.2 - p.2 by omega]

theorem fieldDelta_of_lt {p q : Nat × Nat} (h : RowLt p q) (hp : p.1 < modulus) (hq : q.1 < modulus) :
    fieldDelta (Felt.new p.1) (Felt.new p.2) (Felt.new q.1) (Felt.new q.2) = Felt.new (rowDelta p q) := by
  have hne : Felt.new p.1 ≠ Felt.new q.1 ↔ p.1 ≠ q.1 := by
    rw [not_iff_not, ← Felt.asInt_inj, Felt.asInt_new hp, Felt.asInt_new hq]
  unfold fieldDelta rowDelta
  rcases h with h | ⟨h1, h2⟩
  · rw [if_pos (hne.2 (by omega)), if_pos (by omega), Felt.new_sub h.le]
  · rw [if_neg (by rw [hne]; omega), if_neg (by omega), Felt.new_sub (by omega : 1 ≤ q.2 - p.2),
      Felt.new_sub h2.le, Felt.new_one]

theorem rangeChecksFlat_ascending : ∀ (rows : List (Nat × Nat)) (prevAddr prevClk row : Nat),
    List.Chain RowLt (prevAddr, prevClk) rows →
      rangeChecksFlat rows prevAddr prevClk row =
        some ((List.range' row rows.length).zip (deltasFrom (prevAddr, prevClk) rows))
  | [], _, _, _, _ => rfl
  | (addr, clk) :: rows, prevAddr, prevClk, row, h => by
    rw [List.chain_cons] at h
    rw [rangeChecksFlat, rangeCheckDelta_of_lt (p := (prevAddr, prevClk)) (q := (addr, clk)) h.1,
      rangeChecksFlat_ascending rows addr clk (row + 1) h.2]
    rfl

theorem fillDeltasFlat_ascending : ∀ (rows : List (Nat × Nat)) (prevAddr prevClk : Nat),
    List.Chain RowLt (prevAddr, prevClk) rows → prevAddr < modulus → (∀ q ∈ rows, q.1 < modulus) →
      fillDeltasFlat rows (Felt.new prevAddr) (Felt.new prevClk) =
        (deltasFrom (prevAddr, prevClk) rows).map Felt.new
  | [], _, _, _, _, _ => rfl
  | (addr, clk) :: rows, prevAddr, prevClk, h, hp, hq => by
    rw [List.chain_cons] at h
    have ha : addr < modulus := hq _ (List.mem_cons_self _ _)
    rw [fillDeltasFlat, fieldDelta_of_lt (p := (prevAddr, prevClk)) (q := (addr, clk)) h.1 hp ha,
      fillDeltasFlat_ascending rows addr clk h.2 ha fun q hq' => hq q (List.mem_cons_of_mem _ hq')]
    rfl

theorem length_fillDeltasFlat : ∀ (rows : List (Nat × Nat)) (prevAddr prevClk : Felt),
    (fillDeltasFlat rows prevAddr prevClk).length = rows.length
  | [], _, _ => rfl
  | _ :: rows, _, _ => by simp [fillDeltasFlat, length_fillDeltasFlat rows]

/-! ### The trace of a run -/

theorem traceRows_chain : ∀ (entries : List (Nat × List (Felt × Word))),
    entries.Pairwise (fun a b => a.1 < b.1) →
    (∀ e ∈ entries, (e.2.map fun c => c.1.asInt).Pairwise (· < ·)) →
      List.Chain' RowLt (traceRows entries)
  | [], _, _ => List.chain'_nil
  | (addr, addrTrace) :: entries, hs, hc => by
    rw [List.pairwise_cons] at hs
    have hp := List.pairwise_map.1 (hc _ (List.mem_cons_self _ _))
    have hblock : (addrTrace.map fun c => (addr, c.1.asInt)).Chain' RowLt := by
      apply List.Pairwise.chain'
      rw [List.pairwise_map]
      exact hp.imp fun h => Or.inr ⟨rfl, h⟩
    rw [traceRows, List.flatMap_cons, ← traceRows, List.chain'_append]
    refine ⟨hblock, traceRows_chain entries hs.2 fun e he => hc e (List.mem_cons_of_mem _ he), ?_⟩
    intro x hx y hy
    obtain ⟨c, -, rfl⟩ := List.mem_map.1 (List.mem_of_getLast?_eq_some hx)
    obtain ⟨e, he, hy⟩ := List.mem_flatMap.1 (List.mem_of_mem_head? hy)
    obtain ⟨c, -, rfl⟩ := List.mem_map.1 hy
    exact Or.inl (hs.1 e he)

theorem deltasFrom_first {addr clk : Nat} (h : 1 ≤ clk) (rows : List (Nat × Nat)) :
    deltasFrom (addr, clk - 1) ((addr, clk) :: rows) = traceDeltas ((addr, clk) :: rows) := by
  simp only [deltasFrom, traceDeltas, rowDelta, ne_eq, not_true_eq_false, if_false]
  congr 1
  omega

theorem traceRows_keys_lt {mem : Memory} {past : List MemOp} (h : StoreInv mem past) :
    ∀ q ∈ traceRows mem.trace.entries, q.1 < modulus := by
  intro q hq
  obtain ⟨e, he, hq⟩ := List.mem_flatMap.1 hq
  obtain ⟨c, -, rfl⟩ := List.mem_map.1 hq
  exact h.keys_lt e.1 e.2 ((BTreeMap.mem_entries_iff _).1 he)

theorem length_traceRows (entries : List (Nat × List (Felt × Word))) :
    (traceRows entries).length = (entries.map fun e => e.2.length).sum := by
  simp [traceRows, List.length_flatMap, Function.comp_def]

theorem length_fillTraceEntries (entries : List (Nat × List (Felt × Word))) (prevAddr prevClk : Felt) :
    (fillTraceEntries entries prevAddr prevClk).length = (traceRows entries).length := by
  rw [← List.length_map _ TraceRow.delta, fillTraceEntries_flat, length_fillDeltasFlat]

theorem getFirstRowInfo_nil {mem : Memory} (hnil : mem.trace.entries = []) :
    mem.getFirstRowInfo = some none := by
  simp [Memory.getFirstRowInfo, hnil]

theorem getFirstRowInfo_cons {mem : Memory} {past : List MemOp} (h : StoreInv mem past)
    (hne : mem.trace.entries ≠ []) :
    ∃ addr clk value addrTrace entries,
      mem.trace.entries = (addr, (clk, value) :: addrTrace) :: entries ∧
      mem.getFirstRowInfo = some (some (Felt.new addr, clk)) := by
  obtain ⟨⟨addr, _ | ⟨⟨clk, value⟩, addrTrace⟩⟩, entries, he⟩ := List.exists_cons_of_ne_nil hne
  · exact absurd rfl (h.nonempty _ _ ((BTreeMap.mem_entries_iff _).1 (he ▸ List.mem_cons_self _ _)))
  exact ⟨addr, clk, value, addrTrace, entries, he, by simp [Memory.getFirstRowInfo, he]⟩

theorem fillTrace_of_firstRow {mem : Memory} {past : List MemOp} (h : StoreInv mem past)
    {addr clk : Felt} (hfr : mem.getFirstRowInfo = some (some (addr, clk))) :
    mem.fillTrace mem.traceLen = some (fillTraceEntries mem.trace.entries addr (clk - 1)) := by
  have hlen : (fillTraceEntries mem.trace.entries addr (clk - 1)).length = mem.traceLen := by
    rw [length_fillTraceEntries, length_traceRows, Memory.traceLen, h.rows_sum]
  simp [Memory.fillTrace, hfr, guard, hlen]

theorem fillTrace_deltas {mem : Memory} {past : List MemOp} (h : StoreInv mem past)
    (hstrict : StrictClocks mem) {rows : List TraceRow}
    (hfill : mem.fillTrace mem.traceLen = some rows) :
    rows.map TraceRow.delta = (traceDeltas (traceRows mem.trace.entries)).map Felt.new := by
  by_cases hnil : mem.trace.entries = []
  · have hempty : mem.fillTrace mem.traceLen = some [] := by
      simp [Memory.fillTrace, getFirstRowInfo_nil hnil, guard]
    rw [hempty] at hfill
    cases hfill
    simp [hnil, traceRows, traceDeltas]
  obtain ⟨addr, clk, value, addrTrace, entries, he, hfr⟩ := getFirstRowInfo_cons h hnil
  rw [fillTrace_of_firstRow h hfr] at hfill
  cases hfill
  have hchain := traceRows_chain mem.trace.entries mem.trace.sorted hstrict
  have haddr : addr < modulus :=
    h.keys_lt _ _ ((BTreeMap.mem_entries_iff _).1 (he ▸ List.mem_cons_self _ _))
  have hkeys := traceRows_keys_lt h
  rw [fillTraceEntries_flat]
  rw [he] at hchain hkeys ⊢
  simp only [traceRows, List.flatMap_cons, List.map_cons, List.cons_append] at hchain hkeys ⊢
  rw [fillDeltasFlat, fillDeltasFlat_ascending _ _ _ hchain haddr
    fun q hq => hkeys q (List.mem_cons_of_mem _ hq), traceDeltas]
  simp [fieldDelta]

/-- On a memory reached by a run, with strictly increasing clocks per address and a first
row at a clock of at least one, `append_range_checks` does not underflow and checks at row
`start + i` the `i`-th delta of the trace layout, and `fill_trace` writes its image in the
field into row `i`. -/
theorem appendRangeChecks_fillTrace (ops : List MemOp) (outs : List (Option Word)) (mem : Memory)
    (start : Nat) (hrun : Memory.new.run ops = some (outs, mem)) (hstrict : StrictClocks mem)
    (hfirst : ∀ c ∈ firstClock mem, 1 ≤ c) :
    ∃ checks rows, mem.appendRangeChecks start = some checks ∧ mem.fillTrace mem.traceLen = some rows ∧
      checks = (List.range' start rows.length).zip (traceDeltas (traceRows mem.trace.entries)) ∧
      rows.map TraceRow.delta = (traceDeltas (traceRows mem.trace.entries)).map Felt.new := by
  have h := storeInv_of_run hrun
  by_cases hnil : mem.trace.entries = []
  · have hfr := getFirstRowInfo_nil hnil
    refine ⟨[], [], ?_, ?_, rfl, by simp [hnil, traceRows, traceDeltas]⟩
    · simp [Memory.appendRangeChecks, hfr]
    · simp [Memory.fillTrace, hfr, guard]
  obtain ⟨addr, clk, value, addrTrace, entries, he, hfr⟩ := getFirstRowInfo_cons h hnil
  have hclk : 1 ≤ clk.asInt := hfirst _ (by simp [firstClock, he])
  have haddr : addr < modulus :=
    h.keys_lt _ _ ((BTreeMap.mem_entries_iff _).1 (he ▸ List.mem_cons_self _ _))
  have hchain : List.Chain RowLt (addr, clk.asInt - 1) (traceRows mem.trace.entries) := by
    have hc := traceRows_chain mem.trace.entries mem.trace.sorted hstrict
    rw [he] at hc ⊢
    exact List.Chain.cons (Or.inr ⟨rfl, Nat.sub_lt hclk Nat.one_pos⟩) hc
  have hdeltas : deltasFrom (addr, clk.asInt - 1) (traceRows mem.trace.entries) =
      traceDeltas (traceRows mem.trace.entries) := by
    rw [he]
    exact deltasFrom_first hclk _
  have hprev : clk - 1 = Felt.new (clk.asInt - 1) := by
    rw [Felt.new_sub hclk, Felt.new_asInt, Felt.new_one]
  have hfill := fillTraceEntries_flat mem.trace.entries (Felt.new addr) (clk - 1)
  rw [hprev, fillDeltasFlat_ascending _ _ _ hchain haddr (traceRows_keys_lt h), hdeltas,
    ← hprev] at hfill
  refine ⟨_, _, ?_, fillTrace_of_firstRow h hfr, by rw [length_fillTraceEntries], hfill⟩
  simp only [Memory.appendRangeChecks, hfr, Option.bind_eq_bind, Option.some_bind, uintSub,
    if_pos hclk, Felt.asInt_new haddr]
  rw [appendRangeChecksLoop_flat, rangeChecksFlat_ascending _ _ _ _ hchain, hdeltas]

theorem appendRangeChecks_fillTrace_sample :
    ∃ outs mem,
      Memory.new.run [.advanceClock, .write 2 initMemValue, .advanceClock, .read 2, .read 9] = some (outs, mem) ∧
      StrictClocks mem ∧ (∀ c ∈ firstClock mem, 1 ≤ c) ∧
      ∃ checks rows, mem.appendRangeChecks 0 = some checks ∧ mem.fillTrace mem.traceLen = some rows ∧
        checks = (List.range' 0 rows.length).zip (traceDeltas (traceRows mem.trace.entries)) ∧
        rows.map TraceRow.delta = (traceDeltas (traceRows mem.trace.entries)).map Felt.new :=
  have hstrict : StrictClocks
      ((Memory.new.run [.advanceClock, .write 2 initMemValue, .advanceClock, .read 2, .read 9]).elim Memory.new Prod.snd) := by
    unfold StrictClocks; decide
  ⟨_, _, rfl, hstrict, by decide,
    appendRangeChecks_fillTrace [.advanceClock, .write 2 initMemValue, .advanceClock, .read 2, .read 9]
      ((Memory.new.run [.advanceClock, .write 2 initMemValue, .advanceClock, .read 2, .read 9]).elim [] Prod.fst) _ 0 rfl hstrict
      (by decide)⟩

end Miden.Processor
