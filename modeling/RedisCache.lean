import RedisCache.Lib.Decimal
import RedisCache.Lib.Framing
import RedisCache.Lib.Sections
import RedisCache.Lib.Clocks
import RedisCache.Lib.Interference
import RedisCache.Lib.Scans
import RedisCache.Lib.History
import RedisCache.Lib.TimedMap
import RedisCache.Lib.Recency
import RedisCache.Lib.Loop
import RedisCache.Lib.Fifo
import RedisCache.Lib.Replay
import RedisCache.Lib.BigEndian
import RedisCache.Lib.Glob
import RedisCache.Platform
import RedisCache.Protocol.RespTypes
import RedisCache.Protocol.RespParser
import RedisCache.Protocol.RespSerializer
import RedisCache.Protocol.Lines
import RedisCache.Protocol.RoundTrip
import RedisCache.Protocol.Bounds
import RedisCache.Protocol.Extension
import RedisCache.Protocol.Grammar
import RedisCache.Protocol.Finality
import RedisCache.Storage.LruEviction
import RedisCache.Storage.Shard
import RedisCache.Storage.Invariant
import RedisCache.Storage.Lookup
import RedisCache.Storage.Store
import RedisCache.Storage.Threads
import RedisCache.Storage.Effects
import RedisCache.Storage.Contents
import RedisCache.Storage.Refinement
import RedisCache.Storage.Linearization
import RedisCache.Storage.Capacity
import RedisCache.Storage.LruOrder
import RedisCache.Storage.LruHistory
import RedisCache.Storage.Eviction
import RedisCache.Storage.Expiry
import RedisCache.Storage.KeyPatterns
import RedisCache.Commands.Handlers
import RedisCache.Commands.Dispatcher
import RedisCache.Commands.Requests
import RedisCache.Commands.Effects
import RedisCache.Commands.Runs
import RedisCache.Commands.Dictionary
import RedisCache.Commands.Frame
import RedisCache.Commands.Counters
import RedisCache.Commands.CounterRuns
import RedisCache.Commands.SetOptions
import RedisCache.Commands.OperandRange
import RedisCache.Commands.ExpiryArithmetic
import RedisCache.Commands.Replies
import RedisCache.Commands.Arguments
import RedisCache.Commands.Concurrent
import RedisCache.Commands.Capacity
import RedisCache.Commands.Sweeping
import RedisCache.Commands.Isolation
import RedisCache.Commands.Cache
import RedisCache.Commands.Freshness
import RedisCache.Commands.Overlap
import RedisCache.Network.Buffer
import RedisCache.Network.ByteQueue
import RedisCache.Network.Connection
import RedisCache.Network.Processing
import RedisCache.Network.Pipelining
import RedisCache.Network.Exceptions
import RedisCache.Network.EventLoop
import RedisCache.Network.Sessions
import RedisCache.Network.Serial
import RedisCache.Network.Closing
import RedisCache.Network.Delivery
import RedisCache.Network.Removal
import RedisCache.Persistence.Aof
import RedisCache.Persistence.TornTail
import RedisCache.Persistence.Appenders
import RedisCache.Persistence.Rdb
import RedisCache.Persistence.Reload
import RedisCache.Persistence.LaterLoad
import RedisCache.Persistence.Snapshot
import RedisCache.Persistence.SaveFaults
import RedisCache.Persistence.Damage
import RedisCache.Persistence.Deadlines
import RedisCache.Concurrency.ThreadPool
import RedisCache.Server.Startup
import RedisCache.Server.Durability
import RedisCache.Server.Recovery
import RedisCache.Server.Restart
import RedisCache.Server.Maintenance
import RedisCache.Server.Threads
import RedisCache.Server.ConnectionGauge
import RedisCache.Server.EndToEnd
import RedisCache.Server.System
import RedisCache.Progress
import RedisCache.Lib.Assignments
import RedisCache.Lib.Http
import RedisCache.Lib.Numerals
import RedisCache.Lib.Text
import RedisCache.Metrics.HttpServer
import RedisCache.Server.Answering
import RedisCache.Server.ConfigFile
