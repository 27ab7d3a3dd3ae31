import Titus.Lib.RingMetric
import Titus.Lib.OrderedSet
import Titus.Lib.Descent
import Titus.Lib.Transition
import Titus.Lib.Memory
import Titus.Lib.Ledger
import Titus.Lib.StructLayout
import Titus.Lib.Tiling
import Titus.Lib.Selection
import Titus.Lib.Announcement
import Titus.Lib.HeapTree
import Titus.Lib.SortedMap
import Titus.Lib.Rewiring
import Titus.Lib.TablePermutation
import Titus.Lib.ParallelLoops
import Titus.Lib.Execution
import Titus.Lib.XorShift
import Titus.VictimSelector.Kleinberg
import Titus.VictimSelector.LongRangeLinks
import Titus.VictimSelector.Routing
import Titus.Tasks.DequeueCapacity
import Titus.VictimSelector.NextHop
import Titus.VictimSelector.InfixedWords
import Titus.VictimSelector.HalfEdgeTable
import Titus.VictimSelector.TreeSeeding
import Titus.VictimSelector.Symmetry
import Titus.VictimSelector.SimpleRegularGraph
import Titus.VictimSelector.TinyMT
import Titus.Barrier.Resumption
import Titus.Barrier.Completion
import Titus.Barrier.FirstHandshake
import Titus.Barrier.HandshakeCompletion
import Titus.Barrier.FirstBarrier
import Titus.Config
import Titus.Tasks.Conservation
import Titus.Tasks.TmpSegment
import Titus.Tasks.Requesting
import Titus.Tasks.Theft
import Titus.Tasks.WorkLoop
import Titus.Tasks.Accounting
import Titus.Tasks.Splitting
import Titus.Tasks.Yield
import Titus.Results.Conservation
import Titus.Results.Notification
import Titus.Results.ScratchArea
import Titus.Results.SelectionBounds
import Titus.Results.QueuePosting
import Titus.Results.Route
import Titus.Results.PiecewisePush
import Titus.System.ResultRoom
import Titus.System.Header
import Titus.System.Correctness
import Titus.System.Isolation
import Titus.System.SingleRank
import Titus.System.Liveness
import Titus.System.Refinement
import Titus.Logger.Increments
import Titus.Logger.HistogramSum
import Titus.Startup.Connection
import Titus.Startup.Separation
