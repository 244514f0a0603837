import LmaxEngine.Lib.Bits
import LmaxEngine.Lib.Carried
import LmaxEngine.Lib.Checked
import LmaxEngine.Lib.Disruptor
import LmaxEngine.Lib.Greedy
import LmaxEngine.Lib.Ledger
import LmaxEngine.Lib.Lines
import LmaxEngine.Lib.Links
import LmaxEngine.Lib.Queues
import LmaxEngine.Lib.Sequencing
import LmaxEngine.Lib.Streaming
import LmaxEngine.Lib.Tape
import LmaxEngine.Lib.Transition
import LmaxEngine.Lib.Wirings
import LmaxEngine.Model.Arena
import LmaxEngine.Model.Book
import LmaxEngine.Model.Handlers
import LmaxEngine.Model.InputRing
import LmaxEngine.Model.Matching
import LmaxEngine.Model.Order
import LmaxEngine.Model.OutputRing
import LmaxEngine.Model.Parser
import LmaxEngine.Model.Ring
import LmaxEngine.Model.System
import LmaxEngine.Refinement.Arena
import LmaxEngine.Refinement.BitMap
import LmaxEngine.Refinement.Book
import LmaxEngine.Refinement.Builds
import LmaxEngine.Refinement.Commands
import LmaxEngine.Refinement.Engine
import LmaxEngine.Refinement.Overflows
import LmaxEngine.Refinement.Rounds
import LmaxEngine.Refinement.Threads
import LmaxEngine.Results.Backpressure
import LmaxEngine.Results.Book
import LmaxEngine.Results.Bystanders
import LmaxEngine.Results.Conservation
import LmaxEngine.Results.Delivery
import LmaxEngine.Results.Disruptor
import LmaxEngine.Results.Exclusivity
import LmaxEngine.Results.Executions
import LmaxEngine.Results.Fates
import LmaxEngine.Results.Faults
import LmaxEngine.Results.Feed
import LmaxEngine.Results.Frame
import LmaxEngine.Results.Generations
import LmaxEngine.Results.Index
import LmaxEngine.Results.InputRing
import LmaxEngine.Results.Ledger
import LmaxEngine.Results.Limits
import LmaxEngine.Results.Lines
import LmaxEngine.Results.Lists
import LmaxEngine.Results.Matching
import LmaxEngine.Results.Modifications
import LmaxEngine.Results.Output
import LmaxEngine.Results.OutputRing
import LmaxEngine.Results.Overflows
import LmaxEngine.Results.Priority
import LmaxEngine.Results.Progress
import LmaxEngine.Results.Quantities
import LmaxEngine.Results.Reader
import LmaxEngine.Results.Rejections
import LmaxEngine.Results.Replacing
import LmaxEngine.Results.Slots
import LmaxEngine.Results.Symbols
import LmaxEngine.Results.Symmetry
import LmaxEngine.Results.System
import LmaxEngine.Results.Ticks
import LmaxEngine.Results.TimeInForce
import LmaxEngine.Results.Verdicts
import LmaxEngine.Results.Wiring
import LmaxEngine.Spec.Breaches
import LmaxEngine.Spec.Bystanders
import LmaxEngine.Spec.Commands
import LmaxEngine.Spec.Conservation
import LmaxEngine.Spec.Consistency
import LmaxEngine.Spec.Executions
import LmaxEngine.Spec.Fates
import LmaxEngine.Spec.Feed
import LmaxEngine.Spec.Frame
import LmaxEngine.Spec.Greedy
import LmaxEngine.Spec.Ledger
import LmaxEngine.Spec.Limits
import LmaxEngine.Spec.Overflows
import LmaxEngine.Spec.Placing
import LmaxEngine.Spec.Precedence
import LmaxEngine.Spec.PriceTime
import LmaxEngine.Spec.Priority
import LmaxEngine.Spec.Quantities
import LmaxEngine.Spec.Replacing
import LmaxEngine.Spec.Serial
import LmaxEngine.Spec.Steps
import LmaxEngine.Spec.Sweep
import LmaxEngine.Spec.Symbols
import LmaxEngine.Spec.Symmetry
import LmaxEngine.Spec.TimeInForce
import LmaxEngine.Spec.Wire
