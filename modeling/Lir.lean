import Lir.Draft
import Lir.Main
import Lir.Proofs.Flow.Path
import Lir.Proofs.Flow.Walk
import Lir.Proofs.Flow.Dominators
import Lir.Proofs.Flow.DominanceOrder
import Lir.Proofs.Flow.Join
import Lir.Proofs.Flow.Height
import Lir.Proofs.Flow.Solver
import Lir.Proofs.Memory
import Lir.Proofs.Reaching.Exact
import Lir.Proofs.Constants.Flat
import Lir.Proofs.Constants.Transfer
import Lir.Proofs.Constants.Sound
import Lir.Proofs.Constants.Overwriting
import Lir.Proofs.Entries
import Lir.Proofs.Source.Scan
import Lir.Proofs.Source.Writable
import Lir.Proofs.Source.Loaded
import Lir.Proofs.Source.Classify
import Lir.Proofs.Source.Lines
import Lir.Proofs.Source.Reload
import Lir.Proofs.Collecting
import Lir.Proofs.Flow.Reachable
import Lir.Proofs.Memory.Closure
import Lir.Proofs.Memory.Members
import Lir.Proofs.Memory.Partition
import Lir.Proofs.Stable
import Lir.Proofs.Reaching.Continuation
import Lir.Proofs.Reaching.Indirect
import Lir.Proofs.Reaching.Distributive
import Lir.Proofs.Source.Names
import Lir.Proofs.Visits
import Lir.Proofs.Agree
import Lir.Proofs.Memory.Calls
import Lir.Proofs.Memory.Alike
import Lir.Proofs.Flow.Frontiers
import Lir.Proofs.Flow.DominatorTree
import Lir.Proofs.Flow.TreeFrontiers
import Lir.Proofs.Flow.Below
import Lir.Proofs.Constants.Monotone
import Lir.Proofs.Constants.Alike
import Lir.Proofs.Renaming
import Lir.Proofs.Constants.Renaming
import Lir.Proofs.Source.Built
import Lir.Proofs.Flow.Alike
import Lir.Proofs.Reaching.Alike
import Lir.Proofs.Intraprocedural
import Lir.Proofs.Source.Skipping
import Lir.Proofs.Unwritten
import Lir.Proofs.Memory.Clobbered
import Lir.Proofs.Checked.Search
import Lir.Proofs.Checked.Dominance
import Lir.Proofs.Checked.Memory
import Lir.Proofs.Checked.Answer
import Lir.Proofs.Checked.Updates
import Lir.Proofs.Constants.Precise
import Lir.Proofs.Flow.DepthFirst
import Lir.Proofs.Memory.Cells
import Lir.Proofs.Memory.Hidden
import Lir.Proofs.Memory.Mangling
import Lir.Proofs.Memory.CellNames
import Lir.Proofs.Flow.Semilattice
import Lir.Proofs.Source.Surroundings
import Lir.Proofs.Report.Rows
import Lir.Proofs.Report.Results
import Lir.Proofs.Report.Faithful
import Lir.Proofs.Grammar.Parsing
import Lir.Proofs.Grammar.Walk
import Lir.Proofs.Grammar.Words
import Lir.Proofs.Grammar.Agreement
import Lir.Proofs.Grammar.Leaves
import Lir.Proofs.Grammar.Assignments
import Lir.Proofs.Grammar.Declarations
import Lir.Proofs.Grammar.Instructions
import Lir.Proofs.Grammar.Lines
import Lir.Proofs.BlockLog
import Lir.Proofs.Json.Scanning
import Lir.Proofs.Json.Parsing
import Lir.Proofs.Json.Decoding
import Lir.Proofs.Json.Programs
