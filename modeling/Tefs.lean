import Tefs.Lib.Runs
import Tefs.Lib.KeyedList
import Tefs.Lib.Partition
import Tefs.Lib.BackChain
import Tefs.Lib.Segments
import Tefs.Lib.Wire
import Tefs.Lib.Framing
import Tefs.Lib.Bounded
import Tefs.Lib.Ring
import Tefs.Lib.RingSort
import Tefs.Lib.RedBlack
import Tefs.NameServer.Tables
import Tefs.NameServer.WellFormed
import Tefs.NameServer.Finished
import Tefs.NameServer.Upload
import Tefs.NameServer.Surplus
import Tefs.NameServer.SurplusKept
import Tefs.NameServer.CopyPlan
import Tefs.NameServer.Registry
import Tefs.NameServer.PacketParse
import Tefs.NameServer.PacketFramed
import Tefs.NameServer.PacketSound
import Tefs.NameServer.EventLoop
import Tefs.NameServer.DelayQueue
import Tefs.NameServer.SendPath
import Tefs.NameServer.NetPool
import Tefs.NameServer.NetMap
import Tefs.NameServer.Placement
import Tefs.NameServer.Timers
import Tefs.Cluster.Protocol
import Tefs.DataServer.BitMap
import Tefs.DataServer.BlockFileManager
import Tefs.DataServer.Load
import Tefs.DataServer.Allocation
import Tefs.DataServer.Operations
import Tefs.DataServer.Histories
import Tefs.DataServer.ErrorAtomicity
import Tefs.DataServer.DataHandle
import Tefs.DataServer.ConcurrentWrite
import Tefs.DataServer.Chains
import Tefs.DataServer.Recovery
import Tefs.DataServer.LoadLoop
import Tefs.DataServer.CrashRecovery
import Tefs.DataServer.Reload
import Tefs.DataServer.OnDisk
import Tefs.DataServer.Restart
import Tefs.DataServer.ClientPut
import Tefs.DataServer.FlatBlock
import Tefs.DataServer.PutAcknowledged
import Tefs.DataServer.Streaming
import Tefs.DataServer.SendAll
import Tefs.DataServer.NoticeSession
import Tefs.DataServer.NoticesDelivered
import Tefs.Message.Serialization
import Tefs.Message.RoundTrip
import Tefs.Message.Bounds
import Tefs.Message.Truncated
import Tefs.Message.NameServerWire
import Tefs.DataServer.ClientGet
import Tefs.DataServer.GetStreamed
import Tefs.DataServer.Replication
import Tefs.DataServer.PushStreamed
import Tefs.DataServer.ReplicaFaithful
import Tefs.DataServer.Session
import Tefs.DataServer.SessionFramed
import Tefs.DataServer.ClientSession
import Tefs.Proxy.Upstream
import Tefs.Proxy.Download
import Tefs.Proxy.RequestUrl
import Tefs.Proxy.UploadStream
import Tefs.Proxy.UploadExact
import Tefs.Message.ProxyWire
import Tefs.Message.ProxyAgree
import Tefs.Message.ProxyDecode
import Tefs.Message.DownloadList
import Tefs.Lib.Heap
import Tefs.NameServer.Requests
import Tefs.NameServer.RequestsNeutral
import Tefs.NameServer.Handlers
import Tefs.NameServer.Answers
import Tefs.NameServer.Rejected
import Tefs.NameServer.LoadFigures
import Tefs.DataServer.Space
import Tefs.DataServer.Queries
import Tefs.DataServer.CompactExpiry
import Tefs.Proxy.ConfFile
import Tefs.Proxy.ConfRoundTrip
import Tefs.Proxy.ConfGrammar
import Tefs.Proxy.ConfErrors
import Tefs.Lib.Search
import Tefs.Proxy.StringValue
import Tefs.Message.HashBounds
import Tefs.Lib.CString
import Tefs.Proxy.Routing
import Tefs.NameServer.DbPool
import Tefs.DataServer.BitMapCount
import Tefs.Message.HashNames
import Tefs.DataServer.BlockNames
import Tefs.DataServer.FileOp
import Tefs.Lib.RingMemory
import Tefs.NameServer.MemPool
import Tefs.NameServer.MemLayout
import Tefs.NameServer.MemBlocks
import Tefs.NameServer.MemPages
import Tefs.NameServer.MemMalloc
import Tefs.NameServer.MemCreate
import Tefs.NameServer.MemFree
import Tefs.NameServer.MemReset
import Tefs.NameServer.MemSound
import Tefs.Lib.BinaryHeap
import Tefs.DataServer.OSHeap
import Tefs.DataServer.OSQueue
import Tefs.DataServer.TaskThreads
import Tefs.DataServer.TaskRuns
import Tefs.DataServer.TaskDelivery
import Tefs.DataServer.Timeouts
import Tefs.DataServer.OSRef
import Tefs.DataServer.EventQueue
import Tefs.DataServer.EventContexts
import Tefs.DataServer.EventRuns
import Tefs.Lib.Extents
import Tefs.DataServer.BlockBytes
import Tefs.DataServer.ByteStore
import Tefs.DataServer.PutThenGet
import Tefs.Proxy.EventTimers
import Tefs.Proxy.Connections
