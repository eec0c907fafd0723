import ServiceToolkit.PermsResolver
import ServiceToolkit.PermsBookkeeping
import ServiceToolkit.PermsFence
import ServiceToolkit.PermsLedger
import ServiceToolkit.PermsMessages
import ServiceToolkit.Handlers
import ServiceToolkit.HandlerPaths
import ServiceToolkit.HandlerNests
import ServiceToolkit.Authorization
import ServiceToolkit.InternalToken
import ServiceToolkit.InternalTokenExemptions
import ServiceToolkit.JwtContext
import ServiceToolkit.EffectiveUser
import ServiceToolkit.LeaderLease
import ServiceToolkit.LeaderLeaseRelease
import ServiceToolkit.LeaderListener
import ServiceToolkit.LeaderListenerRetry
import ServiceToolkit.LeaderListenerStop
import ServiceToolkit.LeaderListenerTasks
import ServiceToolkit.Tenancy
import ServiceToolkit.Projection
import ServiceToolkit.ProjectionSpec
import ServiceToolkit.ExpansionLoader
import ServiceToolkit.LookupCache
import ServiceToolkit.LookupCacheFence
import ServiceToolkit.Segments
import ServiceToolkit.SegmentsClassify
import ServiceToolkit.SegmentsCanonical
import ServiceToolkit.SegmentsStagnant
import ServiceToolkit.SegmentsNearFlat
import ServiceToolkit.EffectiveAverage
import ServiceToolkit.EffectiveAverageWindow
import ServiceToolkit.LookupCacheFlight
import ServiceToolkit.LookupCacheIsolation
import ServiceToolkit.LookupCacheOrder
import ServiceToolkit.PermsIsolation
import ServiceToolkit.PermsBound
import ServiceToolkit.Snowflake
import ServiceToolkit.SnowflakeRegistry
import ServiceToolkit.ImportResolve
import ServiceToolkit.ImportLaw
import ServiceToolkit.ImportAnswers
import ServiceToolkit.Health
import ServiceToolkit.RedisLock
import ServiceToolkit.RedisLockHeld
import ServiceToolkit.EnsureStream
import ServiceToolkit.NatsClient
import ServiceToolkit.NatsConnections
import ServiceToolkit.EventBus
import ServiceToolkit.DurableConsumer
import ServiceToolkit.RateLimit
import ServiceToolkit.CacheKeys
import ServiceToolkit.RequestIp
import ServiceToolkit.Forwarded
import ServiceToolkit.Etag
import ServiceToolkit.EntityTags
import ServiceToolkit.SitemapText
import ServiceToolkit.SecretGate
import ServiceToolkit.ConnectionUrls
import ServiceToolkit.RbacBits
import ServiceToolkit.LokiLines
import ServiceToolkit.RateLimitSubject
import ServiceToolkit.ReplicaStore
import ServiceToolkit.ReplicaLocal
import ServiceToolkit.ReplicaOutage
import ServiceToolkit.ClientCodegen
import ServiceToolkit.ClientCodegenRun
import ServiceToolkit.ClientCodegenCorrect
import ServiceToolkit.ClientCodegenBreaks
import ServiceToolkit.Contracts
import ServiceToolkit.BufWorkspace
import ServiceToolkit.ArchLinter
