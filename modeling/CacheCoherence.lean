import CacheCoherence.Locking.Exclusion
import CacheCoherence.Protocol.Routing
import CacheCoherence.Protocol.SessionEnd
import CacheCoherence.Protocol.Waiting
import CacheCoherence.Protocol.Calls
import CacheCoherence.Coherence.Copies
import CacheCoherence.Foundation.VersionOrder
import CacheCoherence.Coherence.Workload
import CacheCoherence.Coherence.Stores
import CacheCoherence.Coherence.Sweeps
import CacheCoherence.Coherence.ReadCopies
import CacheCoherence.Coherence.Results
import CacheCoherence.Coherence.MonotonicReads
import CacheCoherence.Coherence.LatestReads
import CacheCoherence.Caching.Accounting
import CacheCoherence.Caching.Freshness
import CacheCoherence.Caching.FailedWrites
import CacheCoherence.Caching.Collisions
import CacheCoherence.Protocol.Completions
import CacheCoherence.Coherence.Entries
import CacheCoherence.Application.HashTable
import CacheCoherence.Foundation.Chaining
import CacheCoherence.Application.Contents
import CacheCoherence.Application.KeyedStore
import CacheCoherence.Application.Contention
import CacheCoherence.Connection.QueuePairs
import CacheCoherence.Connection.Readiness
import CacheCoherence.Coherence.Freeing
import CacheCoherence.Coherence.Reclaim
import CacheCoherence.Caching.Eviction
import CacheCoherence.Connection.Messages
import CacheCoherence.Failure.Throws
import CacheCoherence.Failure.Access
import CacheCoherence.Failure.Locks
import CacheCoherence.Failure.Recovery
import CacheCoherence.Foundation.Ownership
import CacheCoherence.Application.Chains
import CacheCoherence.Failure.FreshBlocks
import CacheCoherence.Application.Conservation
import CacheCoherence.Application.Atomicity
import CacheCoherence.Application.Indexing
import CacheCoherence.Application.RepeatedKeys
import CacheCoherence.Application.Refinement
import CacheCoherence.Foundation.Mixing
import CacheCoherence.Application.Buckets
import CacheCoherence.Connection.Tcp
import CacheCoherence.Connection.Transfer
import CacheCoherence.Connection.Sockets
import CacheCoherence.Coherence.BlockSizes
import CacheCoherence.Connection.WireFormat
import CacheCoherence.Foundation.Layouts
import CacheCoherence.Foundation.Potentials
import CacheCoherence.Protocol.Work
import CacheCoherence.Protocol.Progress
import CacheCoherence.Foundation.Traces
import CacheCoherence.Coherence.SharedMemory
import CacheCoherence.Coherence.SharedMemoryRefinement
import CacheCoherence.Foundation.Coupling
import CacheCoherence.Foundation.LinkedLists
import CacheCoherence.Application.Pointers
import CacheCoherence.Connection.RemoteCalls
import CacheCoherence.Connection.Conversation
import CacheCoherence.Connection.Setup
import CacheCoherence.Coherence.SingleWriter
import CacheCoherence.Connection.Regions
import CacheCoherence.Protocol.Connections
import CacheCoherence.Coherence.Crashes
import CacheCoherence.Coherence.Lifetimes
