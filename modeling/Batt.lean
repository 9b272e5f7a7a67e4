import Batt.Watch.Interchange
import Batt.Latch.WriteOnce
import Batt.Channel.Delivery
import Batt.Channel.CloseForRead
import Batt.Grant.Swap
import Batt.Grant.Closed
import Batt.Mutex
import Batt.Queue.Fifo
import Batt.Checker.Routing
import Batt.Checker.Stuck
import Batt.Checker.Reduction
import Batt.Checker.Stepwise
import Batt.Checker.Barrier
import Batt.Checker.Stochastic
import Batt.ParallelMerge.Stable
import Batt.Http.RoundTrip
import Batt.Http.Orphans
import Batt.Interval.Order
import Batt.Interval.Adjacent
import Batt.FakeTime
import Batt.Runtime.Condition
import Batt.WorkerPool.Halt
import Batt.Task.SleepLock
import Batt.Task.Preempt
import Batt.Task.Handlers
import Batt.Grouping.Refine
import Batt.Queue.Calls
import Batt.BufferSource.Drain
import Batt.Url.Lossless
import Batt.StatusRegistry.Unique
import Batt.StatusRegistry.Success
import Batt.Accumulate
import Batt.RunningTotal.Prefix
import Batt.Http.EndOfBody
import Batt.Fetch.Moves
import Batt.Fetch.Transfer
import Batt.Http.Params
import Batt.Backoff.Delays
import Batt.RateLimiter
import Batt.StatusOr.Sound
import Batt.ByteSize.RoundTrip
import Batt.Literal
import Batt.FromString.Reports
import Batt.Protobuf.Exact
import Batt.Metrics.Csv
import Batt.Metrics.Stats
import Batt.KMerge.Exact
import Batt.Splice.Values
import Batt.Seq.Ends
import Batt.Seq.Sorted
import Batt.ParallelMerge.Limits
import Batt.TypeErasure.Sound
import Batt.SmallFn.Sound
import Batt.Http.ParsedHead
