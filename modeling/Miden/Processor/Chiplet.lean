import Miden.Felt
import Miden.Processor.BTreeMap

/-!
# The memory chiplet (processor/src/memory/mod.rs:64-147, 269-295)

`Memory` keeps the VM clock `step`, one trace per address key `addr.as_int()` of
`(clk, word)` entries in access order, and the count of all entries. `read` and `write`
push one entry each, at `clk = Felt::new(step)`: `read` copies the last word of the
address (`INIT_MEM_VALUE` on a first access) and returns it, `write` pushes its word.
`entry(k).and_modify(f).or_insert_with(g)` is a lookup whose result is inserted back. A
panic (`expect` on an empty address trace, or `BTreeMap::range` on a reversed range) is
`none`. The calls a run makes are `MemOp`s.
-/

namespace Miden.Processor

/-- `INIT_MEM_VALUE`: `[ZERO; 4]`. -/
def initMemValue : Word := fun _ => 0

/-- `Memory` (mod.rs:64). -/
structure Memory where
  step : Nat
  trace : BTreeMap (List (Felt × Word))
  numTraceRows : Nat

namespace Memory

/-- `Memory::new` (mod.rs:80). -/
def new : Memory := ⟨0, .empty, 0⟩

/-- `Memory::size` (mod.rs:92): the number of addresses accessed. -/
def size (mem : Memory) : Nat := mem.trace.entries.length

/-- `Memory::trace_len` (mod.rs:98). -/
def traceLen (mem : Memory) : Nat := mem.numTraceRows

/-- `Memory::read` (mod.rs:109): the `and_modify` closure pushes a copy of the last word,
`or_insert_with` starts the trace with `INIT_MEM_VALUE`, and the last word is returned. -/
def read (mem : Memory) (addr : Felt) : Option (Word × Memory) := do
  let clk := Felt.new mem.step
  let addrTrace ← match mem.trace.get addr.asInt with
    | some addrTrace => do
      let (_, lastValue) ← addrTrace.getLast?
      pure (addrTrace ++ [(clk, lastValue)])
    | none => pure [(clk, initMemValue)]
  let (_, value) ← addrTrace.getLast?
  pure (value, { mem with trace := mem.trace.insert addr.asInt addrTrace,
                          numTraceRows := mem.numTraceRows + 1 })

/-- `Memory::write` (mod.rs:129). -/
def write (mem : Memory) (addr : Felt) (value : Word) : Memory :=
  let clk := Felt.new mem.step
  let addrTrace := match mem.trace.get addr.asInt with
    | some addrTrace => addrTrace ++ [(clk, value)]
    | none => [(clk, value)]
  { mem with trace := mem.trace.insert addr.asInt addrTrace, numTraceRows := mem.numTraceRows + 1 }

/-- `Memory::advance_clock` (mod.rs:144). -/
def advanceClock (mem : Memory) : Memory := { mem with step := mem.step + 1 }

/-- `Memory::get_value` (mod.rs:273). -/
def getValue (mem : Memory) (addr : Nat) : Option Word :=
  match mem.trace.get addr with
  | some addrTrace => addrTrace.getLast?.map (·.2)
  | none => none

/-- `Memory::get_values` (mod.rs:286): the last word of each address in `lo..=hi`. -/
def getValues (mem : Memory) (lo hi : Nat) : Option (List (Nat × Word)) := do
  let entries ← mem.trace.range lo hi
  entries.mapM fun (addr, addrTrace) => do
    let (_, value) ← addrTrace.getLast?
    pure (addr, value)

/-- `Memory::get_all_values` (mod.rs:281): the range `0..=u64::MAX`. -/
def getAllValues (mem : Memory) : Option (List (Nat × Word)) := mem.getValues 0 (2 ^ 64 - 1)

end Memory

/-! ### Runs: the calls made on the memory, in order, with what each returns -/

inductive MemOp where
  | read (addr : Felt)
  | write (addr : Felt) (value : Word)
  | advanceClock

namespace Memory

def exec (mem : Memory) : MemOp → Option (Option Word × Memory)
  | .read addr => (mem.read addr).map fun r => (some r.1, r.2)
  | .write addr value => some (none, mem.write addr value)
  | .advanceClock => some (none, mem.advanceClock)

def run (mem : Memory) : List MemOp → Option (List (Option Word) × Memory)
  | [] => some ([], mem)
  | op :: ops => do
    let (out, mem) ← mem.exec op
    let (outs, mem) ← run mem ops
    pure (out :: outs, mem)

end Memory

end Miden.Processor
