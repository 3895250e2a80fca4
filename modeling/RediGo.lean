import RediGo.Go.Slice
import RediGo.Go.Strings
import RediGo.SortedSet.SortedSetTies
import RediGo.Core.Resp
import RediGo.Core.RespReaders
import RediGo.Core.RespSafety
import RediGo.Core.RespRoundTrip
import RediGo.Server.ReadCommand
import RediGo.HashTable.Dict
import RediGo.Core.Executor
import RediGo.Lib.TimedMap
import RediGo.HashTable.DictTheorems
import RediGo.Core.ExpiryTheorems
import RediGo.Core.Worker
import RediGo.Server.Sharding
import RediGo.Core.WorkerTheorems
import RediGo.Lib.Runs
import RediGo.Server.Ledger
import RediGo.Server.ShardingTheorems
import RediGo.SortedSet.SkipListIndex
import RediGo.Lib.SkipLevel
import RediGo.SortedSet.SkipListRepr
import RediGo.SortedSet.SkipListOps
import RediGo.SortedSet.SkipListShape
import RediGo.SortedSet.SkipListSet
import RediGo.Go.Float
import RediGo.Probabilistic.CMS
import RediGo.Lib.Table
import RediGo.Probabilistic.CMSTheorems
import RediGo.Lib.BitArray
import RediGo.Probabilistic.Bloom
import RediGo.Probabilistic.BloomTheorems
import RediGo.Core.Commands
import RediGo.Core.Frames
import RediGo.Core.Replies
import RediGo.Server.Shutdown
import RediGo.Server.Status
import RediGo.Server.ShutdownTheorems
import RediGo.HashTable.EvictionTheorems
import RediGo.Core.KeyspaceTheorems
import RediGo.Core.KeyLimit
import RediGo.Core.Isolation
import RediGo.SortedSet.BTreeContents
import RediGo.Core.SetExpiry
import RediGo.Core.ActiveExpiry
import RediGo.HashTable.EvictionPool
import RediGo.SortedSet.BTreeRanks
import RediGo.Cmd.CheckedInt
import RediGo.Server.Routing
import RediGo.Probabilistic.BloomSizing
import RediGo.Probabilistic.CMSRange
import RediGo.Core.CMSCommands
import RediGo.Core.RespInversion
import RediGo.Server.ReadPaths
import RediGo.Core.NullElements
import RediGo.Core.DecoderSoundness
import RediGo.Core.ZaddPairs
import RediGo.Core.ZaddAtomic
import RediGo.Core.CacheTheorems
import RediGo.Lib.Ownership
import RediGo.Server.Connections
import RediGo.Server.ConnectionsTheorems
import RediGo.Server.Freshness
import RediGo.Core.IdealServer
import RediGo.Core.ServerRefinement
import RediGo.Lib.UniformHash
import RediGo.Probabilistic.CMSGuarantee
import RediGo.Server.EventLoop
import RediGo.Server.EventLoopTheorems
import RediGo.Server.EventLoopProgress
import RediGo.Core.LruTheorems
import RediGo.Server.StopTheorems
import RediGo.SortedSet.BTreeCost
import RediGo.SortedSet.Interchange
import RediGo.Cmd.Gateway
import RediGo.Server.MainExit
import RediGo.Lib.Records
import RediGo.SortedSet.SkipListCost
import RediGo.Cmd.ThreadPool
import RediGo.Cmd.TcpServer
