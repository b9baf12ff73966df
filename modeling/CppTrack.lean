import CppTrack.Lib.Run
import CppTrack.Lib.Word
import CppTrack.Lib.BigEndian
import CppTrack.Lib.Blocks
import CppTrack.Lib.Framing
import CppTrack.Lib.Heap
import CppTrack.Lib.Weave
import CppTrack.Lib.Sift
import CppTrack.Lib.Ring
import CppTrack.Lib.Threads
import CppTrack.Lib.CondVar
import CppTrack.Lib.Clock
import CppTrack.Lib.Prefix
import CppTrack.Lib.DotPath
import CppTrack.Lib.MaskedFrame
import CppTrack.Lib.OnesComplement
import CppTrack.Timers.TimeWheel
import CppTrack.Timers.TimeWheelSlots
import CppTrack.Timers.TimeWheelProof
import CppTrack.Timers.TimeWheelCancel
import CppTrack.Timers.SingleTw
import CppTrack.Timers.SingleTwPool
import CppTrack.Timers.MinHeap
import CppTrack.Timers.MinHeapSift
import CppTrack.Timers.MinHeapProof
import CppTrack.Timers.MhTimer
import CppTrack.Timers.MhTimerProof
import CppTrack.Timers.RbTimer
import CppTrack.Timers.RbTimerProof
import CppTrack.Lib.RedBlack
import CppTrack.Timers.NgxRbtree
import CppTrack.Timers.NgxRbtreeLinks
import CppTrack.Timers.NgxRbtreeRotate
import CppTrack.Timers.NgxRbtreeInsert
import CppTrack.Timers.NgxRbtreeDelete
import CppTrack.Timers.NgxRbtreeUnlink
import CppTrack.Timers.NgxRbtreeErase
import CppTrack.Timers.NgxRbtreeQueue
import CppTrack.Timers.NgxRbtreeRuns
import CppTrack.Timers.RbTimerNodes
import CppTrack.Timers.SkipList
import CppTrack.Timers.SkipListChain
import CppTrack.Timers.SkipListProof
import CppTrack.Timers.SkipListQueue
import CppTrack.Timers.SkipListDelete
import CppTrack.Timers.SklTimer
import CppTrack.Timers.SklTimerProof
import CppTrack.Proto.Xxtea
import CppTrack.Proto.DnsName
import CppTrack.Proto.DnsQuestion
import CppTrack.Proto.DnsResponse
import CppTrack.Proto.DnsRows
import CppTrack.Proto.DnsAnswers
import CppTrack.Proto.DnsFaithful
import CppTrack.Proto.DnsPointers
import CppTrack.Proto.SimpleBuffer
import CppTrack.Proto.ImPdu
import CppTrack.Proto.ImPduRead
import CppTrack.Proto.ImPduCodec
import CppTrack.Proto.ImPduHeader
import CppTrack.Proto.RecvMsg
import CppTrack.Proto.ByteStream
import CppTrack.Proto.ByteStreamCodec
import CppTrack.Proto.ByteStreamReads
import CppTrack.Proto.WsFrame
import CppTrack.Proto.InetChecksum
import CppTrack.Exceptions.TryCatch
import CppTrack.Exceptions.TryCatchProof
import CppTrack.Exceptions.Finally
import CppTrack.Exceptions.FinallyProof
import CppTrack.Exceptions.Propagation
import CppTrack.Storage.BTree
import CppTrack.Storage.BTreeNode
import CppTrack.Storage.BTreeShape
import CppTrack.Storage.BTreeInsert
import CppTrack.Storage.BTreeBorrow
import CppTrack.Storage.BTreePlan
import CppTrack.Storage.BTreeDelete
import CppTrack.Storage.BTreeContents
import CppTrack.Storage.BTreeDeletion
import CppTrack.Storage.BTreeAccess
import CppTrack.Net.RingBuf
import CppTrack.Net.RingBufProof
import CppTrack.Net.RingLine
import CppTrack.Net.Reactor
import CppTrack.Net.ReactorSlots
import CppTrack.Net.ReactorWrite
import CppTrack.Net.ReactorFlush
import CppTrack.Net.ReactorRead
import CppTrack.Net.ReactorDescriptors
import CppTrack.Net.EventBlocks
import CppTrack.Net.WebServer
import CppTrack.Net.WebRoot
import CppTrack.Net.WebRuns
import CppTrack.Net.WebBounds
import CppTrack.Net.WebDelivery
import CppTrack.Lib.Base64
import CppTrack.Net.WebSocket
import CppTrack.Net.WebSocketProof
import CppTrack.Net.WebSocketBounds
import CppTrack.Net.WebSocketKey
import CppTrack.Net.RedisAdapter
import CppTrack.Queue.ArrayLockFree
import CppTrack.Queue.ArrayLockFreeProof
import CppTrack.Queue.ArrayLockFreeRefusals
import CppTrack.Queue.SimpleLockFree
import CppTrack.Queue.SimpleLockFreeParts
import CppTrack.Queue.SimpleLockFreeProof
import CppTrack.Queue.SimpleLockFreeMoves
import CppTrack.Queue.SimpleLockFreeDelivery
import CppTrack.Queue.BlockingPipe
import CppTrack.Memory.MemPool
import CppTrack.Memory.MemPoolRelease
import CppTrack.Memory.MemPoolRecursion
import CppTrack.Memory.MemPoolRegions
import CppTrack.Locks.TaskGraph
import CppTrack.Locks.CycleSearch
import CppTrack.Locks.LockTable
import CppTrack.Locks.LockTableBounds
import CppTrack.Locks.GraphRows
import CppTrack.Locks.WaitForGraph
import CppTrack.Locks.WaitForGraphProof
import CppTrack.Pool.DBPool
import CppTrack.Pool.DBPoolProof
import CppTrack.Queue.SyncQueue
import CppTrack.Pool.ThreadPool
import CppTrack.Pool.ThreadPoolJobs
import CppTrack.Pool.ThreadPoolShutdown
import CppTrack.Pool.ZeroThreadPool
import CppTrack.Pool.ZeroThreadPoolServe
import CppTrack.Pool.ZeroThreadPoolDone
import CppTrack.Pool.ZeroThreadPoolStop
import CppTrack.Coroutine.Schedule
import CppTrack.Coroutine.ScheduleProof
import CppTrack.Coroutine.SleepMirror
import CppTrack.Lib.PercentCoding
import CppTrack.Util.UrlCoding
import CppTrack.Lib.Occurrence
import CppTrack.Util.MemFind
import CppTrack.Util.StrExplode
import CppTrack.Util.ReplaceMark
import CppTrack.Lib.CString
import CppTrack.Proto.IdUrl
import CppTrack.Lib.LinkedTree
import CppTrack.Lib.SearchTree
import CppTrack.Storage.RbTree
import CppTrack.Storage.RbTreeRotate
import CppTrack.Storage.RbTreeSearch
import CppTrack.Pool.ListMacros
import CppTrack.Proto.SimpleBufferFifo
import CppTrack.Lib.LittleEndian
import CppTrack.Lib.SerialOrder
import CppTrack.Kcp.Ikcp
import CppTrack.Kcp.Sides
import CppTrack.Kcp.Check
import CppTrack.Kcp.Receive
import CppTrack.Kcp.Send
import CppTrack.Kcp.Datagram
import CppTrack.Lib.Countdown
import CppTrack.Kcp.Network
import CppTrack.Kcp.Delivery
import CppTrack.Kcp.Acknowledged
import CppTrack.Kcp.NoLoss
