import Deckard.AckRemoval
import Deckard.Answers
import Deckard.Audit
import Deckard.AuditPresence
import Deckard.AuditRefinement
import Deckard.AuditRuns
import Deckard.AuditTrail
import Deckard.Audited
import Deckard.Backends
import Deckard.Binary64
import Deckard.Cache
import Deckard.Channel
import Deckard.Choices
import Deckard.ConcurrentInserts
import Deckard.Configuration
import Deckard.ConfigurationRuns
import Deckard.Deadlines
import Deckard.Deliveries
import Deckard.Diagnostics
import Deckard.Effect
import Deckard.Exceeding
import Deckard.Expiry
import Deckard.Faults
import Deckard.Footprint
import Deckard.Glob
import Deckard.Housekeeper
import Deckard.Interference
import Deckard.Ledger
import Deckard.Lifecycle
import Deckard.MemoryCache
import Deckard.MemoryDeadlines
import Deckard.MemoryExpiry
import Deckard.MemoryIdentity
import Deckard.MemoryInvariant
import Deckard.MemoryPulls
import Deckard.MemoryRefinement
import Deckard.MemoryReleases
import Deckard.MemoryStorage
import Deckard.Message
import Deckard.Monitors
import Deckard.Orderly
import Deckard.Orphans
import Deckard.Priorities
import Deckard.Program
import Deckard.Provenance
import Deckard.Pulls
import Deckard.QueryAgreement
import Deckard.Queue
import Deckard.QueueListing
import Deckard.QueueRuns
import Deckard.Recovery
import Deckard.RecoveryCalls
import Deckard.RecoveryFaults
import Deckard.RecoveryInstances
import Deckard.RecoveryProgress
import Deckard.RecoverySteps
import Deckard.Redis
import Deckard.RedisBatches
import Deckard.RedisCache
import Deckard.RedisCluster
import Deckard.RedisKeys
import Deckard.RedisListing
import Deckard.RedisNamespaces
import Deckard.RedisPlaces
import Deckard.RedisRefinement
import Deckard.RedisRuns
import Deckard.RedisScripts
import Deckard.RejectedBatches
import Deckard.Release
import Deckard.Removals
import Deckard.Runs
import Deckard.Scheduler
import Deckard.Score
import Deckard.ScoreFilter
import Deckard.ScoreRange
import Deckard.Selection
import Deckard.Service
import Deckard.ServiceCommands
import Deckard.Settlement
import Deckard.Sharding
import Deckard.Shutdown
import Deckard.ShutdownRuns
import Deckard.SortedSet
import Deckard.StableSort
import Deckard.Storage
import Deckard.StorageQueries
import Deckard.Table
import Deckard.Tasks
import Deckard.TimeToLive
import Deckard.Turns
import Deckard.UpsertAgreement
import Deckard.Utf8
import Deckard.WorkCommands
