import Limen.Transition
import Limen.Pool
import Limen.Semaphore
import Limen.WaitingLine
import Limen.OrderStatistic
import Limen.Progress
import Limen.Custody
import Limen.SlotGuard
import Limen.SlotGuard.Ownership
import Limen.SlotGuard.ExactlyOnce
import Limen.CodelFilter
import Limen.CodelFilter.Rfc8289
import Limen.CodelFilter.Agreement
import Limen.CodelFilter.Episodes
import Limen.CodelFilter.ControlLaw
import Limen.CodelFilter.ClockChange
import Limen.Limit
import Limen.AbstractLimit
import Limen.ExpAvgMeasurement
import Limen.ExpAvgMeasurement.CarryOver
import Limen.Gradient2Limit
import Limen.AbstractLimit.Callbacks
import Limen.Gradient2Limit.Bounds
import Limen.Gradient2Limit.Shedding
import Limen.Gradient2Limit.Adaptation
import Limen.Gradient2Limit.Baseline
import Limen.Gradient2Limit.Recovery
import Limen.Gradient2Limit.Drift
import Limen.Gradient2Limit.Monotone
import Limen.Gradient2Limit.TimeUnit
import Limen.Gradient2Limit.Demand
import Limen.Gradient2Limit.Forgetting
import Limen.SampleWindow
import Limen.SampleWindow.Aggregate
import Limen.SampleWindow.Atomic
import Limen.SampleWindow.Undisturbed
import Limen.SampleWindow.Percentile
import Limen.SampleWindow.ArrayBounds
import Limen.SampleWindow.Adders
import Limen.SampleWindow.Lossless
import Limen.SampleWindow.LockFree
import Limen.WindowedLimit
import Limen.WindowedLimit.Refinement
import Limen.WindowedLimit.Concurrent
import Limen.WindowedLimit.Steps
import Limen.WindowedLimit.Alone
import Limen.WindowedLimit.Boundaries
import Limen.WindowedLimit.Cadence
import Limen.WindowedLimit.Counts
import Limen.WindowedLimit.Tearing
import Limen.WindowedLimit.Entries
import Limen.WindowedLimit.LockFree
import Limen.WindowedLimit.Attained
import Limen.Gradient2Limit.SteadyTraffic
import Limen.TracingLimitDecorator
import Limen.AbstractLimiter
import Limen.AbstractLimiter.Steps
import Limen.AbstractLimiter.Accounting
import Limen.AbstractLimiter.Bypass
import Limen.SimpleLimiter
import Limen.SimpleLimiter.Linearizable
import Limen.SimpleLimiter.Atomic
import Limen.AbstractPartitionedLimiter
import Limen.AbstractPartitionedLimiter.Conservation
import Limen.AbstractPartitionedLimiter.GlobalCap
import Limen.AbstractPartitionedLimiter.Builder
import Limen.AbstractPartitionedLimiter.Percentages
import Limen.AbstractPartitionedLimiter.Quotas
import Limen.AbstractPartitionedLimiter.Declarations
import Limen.AbstractPartitionedLimiter.Isolation
import Limen.AbstractPartitionedLimiter.OverAdmission
import Limen.AbstractPartitionedLimiter.Construction
import Limen.AbstractPartitionedLimiter.RejectDelay
import Limen.AbstractLimiter.Subclasses
import Limen.AbstractLimiter.LockFree
import Limen.AbstractLimiter.Metrics
import Limen.AbstractLimiter.Rejections
import Limen.SimpleLimiter.LockFree
import Limen.AbstractPartitionedLimiter.LockFree
import Limen.AbstractPartitionedLimiter.Metrics
import Limen.BlockingLimiter
import Limen.BlockingLimiter.Steps
import Limen.BlockingLimiter.Wakeup
import Limen.BlockingLimiter.Ownership
import Limen.BlockingLimiter.Registration
import Limen.BlockingLimiter.HandOff
import Limen.BlockingLimiter.Fifo
import Limen.BlockingLimiter.Lifo
import Limen.BlockingLimiter.SlotIds
import Limen.BlockingLimiter.LimitIncrease
import Limen.BlockingLimiter.Outcomes
import Limen.BlockingLimiter.WaitFree
import Limen.BlockingLimiter.Deadlines
import Limen.ClosedLoop
import Limen.ClosedLoop.Confinement
import Limen.ClosedLoop.Chain
import Limen.ClosedLoop.Pace
import Limen.BlockingLimiter.Rounds
import Limen.BlockingLimiter.Rounds.Slots
import Limen.BlockingLimiter.Rounds.Order
import Limen.BlockingLimiter.Rounds.Progress
