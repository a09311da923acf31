import XFireDB.Lib.Bits
import XFireDB.Lib.Keyed
import XFireDB.Hash
import XFireDB.Dict
import XFireDB.DictTable
import XFireDB.Bitops
import XFireDB.ObjectExpiry
import XFireDB.DictInvariant
import XFireDB.DictInsert
import XFireDB.DictRefinement
import XFireDB.Lib.Runs
import XFireDB.BioWakeup
import XFireDB.RString
import XFireDB.KeyShard
import XFireDB.KeyShardRuns
import XFireDB.Lib.Ownership
import XFireDB.SlotMigration
import XFireDB.Lib.Prog
import XFireDB.Skiplist
import XFireDB.Disk
import XFireDB.Engine
import XFireDB.Commands
import XFireDB.DiskMirror
import XFireDB.Tracking
import XFireDB.Persistence
import XFireDB.PersistCommands
import XFireDB.LoadTable
import XFireDB.Restart
import XFireDB.Region
import XFireDB.Footprint
import XFireDB.FootprintRuns
import XFireDB.Interleaving
import XFireDB.Linearize
import XFireDB.Xql
import XFireDB.ClusterBus
import XFireDB.WhereIs
import XFireDB.WellFormed
import XFireDB.HiddenKeys
import XFireDB.Lib.Chain
import XFireDB.Lib.Descent
import XFireDB.SkiplistMem
import XFireDB.SkiplistLinked
import XFireDB.SkiplistSearch
import XFireDB.SkiplistInsert
import XFireDB.SkiplistDelete
import XFireDB.SkiplistRuns
import XFireDB.Containers
import XFireDB.BioBarrier
import XFireDB.DictRuns
import XFireDB.DictIteration
import XFireDB.DictRaw
import XFireDB.DictKeys
import XFireDB.DictExpansion
import XFireDB.Lib.Murmur3
import XFireDB.KeyHash
import XFireDB.Lib.Crc
import XFireDB.KeySlots
import XFireDB.DictReverse
import XFireDB.HiddenRuns
import XFireDB.SlotRecord
import XFireDB.Lib.Ordered
import XFireDB.NodeTable
import XFireDB.SelfEntry
import XFireDB.Lib.Quoting
import XFireDB.DiskSql
import XFireDB.Migrate
import XFireDB.Carry
import XFireDB.Lib.Trail
import XFireDB.BioQueue
import XFireDB.Users
import XFireDB.Revocation
import XFireDB.Meet
import XFireDB.Membership
import XFireDB.DictThreads
import XFireDB.MigrateData
import XFireDB.Handover
import XFireDB.Lib.Quotas
import XFireDB.Reshard
import XFireDB.Lib.Reads
import XFireDB.CText
import XFireDB.ClientQuery
import XFireDB.ClientResult
import XFireDB.ClientEscape
import XFireDB.QuoteArg
import XFireDB.Readline
import XFireDB.ContainerCalls
import XFireDB.CommandEffects
import XFireDB.CommandRuns
import XFireDB.EngineApi
import XFireDB.IntrusiveList
import XFireDB.EngineLoad
import XFireDB.EngineApiRuns
import XFireDB.RequestRuns
import XFireDB.RangePop
import XFireDB.KeysKept
import XFireDB.Acknowledged
import XFireDB.EngineLists
import XFireDB.Answers
import XFireDB.RubyRoundTrip
import XFireDB.Lib.Responses
import XFireDB.ContainerRefinement
import XFireDB.RestartReplies
import XFireDB.Forwarding
import XFireDB.OneStore
import XFireDB.WorkerPool
import XFireDB.WorkersKept
import XFireDB.Portable
import XFireDB.MovingSlots
import XFireDB.ForgottenNode
import XFireDB.CrashRestart
