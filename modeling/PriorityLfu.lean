import PriorityLfu.Library.Word
import PriorityLfu.Library.Racing
import PriorityLfu.Library.Outcome
import PriorityLfu.Library.Execution
import PriorityLfu.Library.Atomic
import PriorityLfu.Library.HashMap
import PriorityLfu.Library.IndexSet
import PriorityLfu.Library.Explore
import PriorityLfu.Library.Sharing
import PriorityLfu.Traits
import PriorityLfu.Erased
import PriorityLfu.Shard.Basic
import PriorityLfu.Shard.Bucket
import PriorityLfu.Shard.Capacity
import PriorityLfu.Shard.Clock
import PriorityLfu.Shard.Cost
import PriorityLfu.Shard.Keys
import PriorityLfu.Shard.Minimal
import PriorityLfu.Shard.Overflow
import PriorityLfu.Shard.Priority
import PriorityLfu.Shard.Resistance
import PriorityLfu.Shard.Starvation
import PriorityLfu.Cache.Builder
import PriorityLfu.Cache.Refinement
import PriorityLfu.Cache.Lookup
import PriorityLfu.Cache.Ledger
import PriorityLfu.Cache.Totals
import PriorityLfu.Cache.Metrics
import PriorityLfu.Cache.Gauge
import PriorityLfu.Cache.Shards
import PriorityLfu.Cache.Lifecycle
import PriorityLfu.Concurrent.Basic
import PriorityLfu.Concurrent.Run
import PriorityLfu.Concurrent.Sequential
import PriorityLfu.Concurrent.Weight
import PriorityLfu.Concurrent.Counters
import PriorityLfu.Concurrent.Capacity
import PriorityLfu.Concurrent.Stamps
import PriorityLfu.Concurrent.Hooks
import PriorityLfu.Concurrent.RwLock
import PriorityLfu.Concurrent.Statistics
import PriorityLfu.Concurrent.Readers
import PriorityLfu.Concurrent.Panic
import PriorityLfu.Concurrent.AtRest
import PriorityLfu.Concurrent.Underflow
import PriorityLfu.Concurrent.Guards
import PriorityLfu.Concurrent.Linear
import PriorityLfu.Concurrent.Progress
import PriorityLfu.Concurrent.Threads
import PriorityLfu.Concurrent.Projection
import PriorityLfu.Concurrent.Serial
import PriorityLfu.Concurrent.Balance
import PriorityLfu.Concurrent.Tally
import PriorityLfu.Concurrent.Conservation
import PriorityLfu.Concurrent.Embedding
import PriorityLfu.Concurrent.Stored
import PriorityLfu.Concurrent.Typed
import PriorityLfu.Concurrent.Memory
import PriorityLfu.Cache.WorkingSet
import PriorityLfu.Concurrent.Pinned
import PriorityLfu.Deepsize.Basic
import PriorityLfu.Deepsize.Collections
import PriorityLfu.Deepsize.Value
import PriorityLfu.Deepsize.Wrappers
import PriorityLfu.Deepsize.Shared
import PriorityLfu.Deepsize.Memory
import PriorityLfu.Derive.Basic
import PriorityLfu.Derive.Scope
import PriorityLfu.Derive.FieldSum
