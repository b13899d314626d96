import Gobbler.Proofs.Counters
import Gobbler.Proofs.FilePool
import Gobbler.Proofs.Ratio
import Gobbler.Proofs.Limit
import Gobbler.Proofs.Tracker
import Gobbler.Proofs.UpperLimit
import Gobbler.Proofs.Progress
import Gobbler.Proofs.PhaseIndex
import Gobbler.Proofs.Trace
import Gobbler.Proofs.Inside
import Gobbler.Proofs.Arithmetic
import Gobbler.Proofs.Representation
import Gobbler.Proofs.Holding
import Gobbler.Proofs.Units
import Gobbler.Proofs.Localities
import Gobbler.Proofs.Skip
import Gobbler.Proofs.Replay
import Gobbler.Proofs.PageSize
import Gobbler.Proofs.Failure
import Gobbler.Proofs.AllocManager
import Gobbler.Proofs.PhaseBudget
import Gobbler.Proofs.Search
import Gobbler.Proofs.Stride
import Gobbler.Proofs.Repeat
import Gobbler.Proofs.Fix
import Gobbler.Proofs.Clock
import Gobbler.Proofs.Reader
import Gobbler.Proofs.Idle
import Gobbler.Proofs.FileGen
import Gobbler.Proofs.Attempts
import Gobbler.Proofs.Coverage
import Gobbler.Proofs.Sampling
import Gobbler.Proofs.Blind
import Gobbler.Proofs.Stops
import Gobbler.Proofs.CommandLine
import Gobbler.Proofs.Mappings
import Gobbler.Proofs.Image
import Gobbler.Proofs.Rounds
import Gobbler.Proofs.Focus
import Gobbler.Proofs.Program
import Gobbler.Proofs.LifeCycle
import Gobbler.Proofs.Spending
import Gobbler.Proofs.Report
import Gobbler.Proofs.Lines
import Gobbler.Proofs.OneByte
import Gobbler.Proofs.WriteLog
