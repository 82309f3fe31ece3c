import Miden.Uint
import Miden.Mmr.Forest
import Miden.Mmr.Full
import Miden.Mmr.Reference
import Miden.Mmr.Add
import Miden.Mmr.Accumulator
import Miden.Mmr.Open
import Miden.Mmr.Nodes
import Miden.Mmr.Path
import Miden.Mmr.Verify
import Miden.Mmr.Walk
import Miden.Felt
import Miden.Hash.Digest
import Miden.Processor.BTreeMap
import Miden.Processor.Chiplet
import Miden.Processor.Store
import Miden.Processor.History
import Miden.Processor.Trace
import Miden.Processor.Layout
import Miden.Inputs
import Miden.Air.Security
