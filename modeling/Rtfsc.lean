import Rtfsc.Machine.Outcome
import Rtfsc.Machine.BitMap
import Rtfsc.Machine.Rounding
import Rtfsc.Machine.Run
import Rtfsc.Machine.Cells
import Rtfsc.Machine.Tally
import Rtfsc.Machine.CString
import Rtfsc.Fio.Types
import Rtfsc.Fio.Init
import Rtfsc.Fio.IoU
import Rtfsc.Fio.RandomMap
import Rtfsc.Fio.Generator
import Rtfsc.Fio.Coverage
import Rtfsc.Fio.MapBounds
import Rtfsc.Fio.Log
import Rtfsc.Fio.Buffers
import Rtfsc.Fio.RunThreads
import Rtfsc.Fio.Accounting
import Rtfsc.Fio.JobTable
import Rtfsc.Fio.LiveJobs
import Rtfsc.Fio.Parse
import Rtfsc.Fio.TwoParts
import Rtfsc.Fio.OptionTable
import Rtfsc.Fio.EntryPoints
import Rtfsc.Fio.SyncEngine
import Rtfsc.Fio.Iolog
import Rtfsc.Fio.Record
import Rtfsc.Fio.IoPath
import Rtfsc.Fio.Pool
import Rtfsc.Machine.Crc
import Rtfsc.Fio.Crc32
import Rtfsc.Fio.Md5
import Rtfsc.Fio.Verify
import Rtfsc.Fio.VerifyTargets
import Rtfsc.Machine.Compare
import Rtfsc.Redis.Object
import Rtfsc.Redis.Encoding
import Rtfsc.Machine.Table
import Rtfsc.Redis.SwapFile
import Rtfsc.Redis.Queues
import Rtfsc.Redis.Vm
import Rtfsc.Redis.VmRefs
import Rtfsc.Redis.VmJobs
import Rtfsc.Redis.VmInv
import Rtfsc.Redis.VmCancel
import Rtfsc.Redis.VmEntry
import Rtfsc.Redis.VmNewJob
import Rtfsc.Redis.VmWaits
import Rtfsc.Redis.VmComplete
import Rtfsc.Redis.VmStep
import Rtfsc.Redis.VmFrame
import Rtfsc.Redis.VmHandOff
import Rtfsc.Redis.VmMemory
import Rtfsc.Machine.Keyed
import Rtfsc.Redis.Ae
import Rtfsc.Redis.AeEvents
import Rtfsc.Android.FdListeners
import Rtfsc.Android.Messages
import Rtfsc.Android.MessageQueue
import Rtfsc.Android.QueueOrder
import Rtfsc.Android.QueueWake
import Rtfsc.Linux.WaitQueue
import Rtfsc.Linux.WaitEvent
import Rtfsc.Linux.Buddy
import Rtfsc.Linux.BuddyFallback
import Rtfsc.Machine.TwoCounts
import Rtfsc.Stl.SharedCount
import Rtfsc.Stl.SharedOwners
import Rtfsc.Stl.SharedMoves
import Rtfsc.Stl.SharedRun
import Rtfsc.Linux.Bootmem
import Rtfsc.Machine.Links
import Rtfsc.Machine.Chains
import Rtfsc.Android.MessageHeap
import Rtfsc.Android.MessagePool
import Rtfsc.Linux.Slub
import Rtfsc.Linux.SlubRun
import Rtfsc.Machine.Wrapping
import Rtfsc.Machine.CachedTree
import Rtfsc.Linux.CfsRq
import Rtfsc.Linux.CfsInv
import Rtfsc.Linux.CfsRun
import Rtfsc.Linux.Epoll
import Rtfsc.Linux.EpollInv
import Rtfsc.Linux.EpollWait
import Rtfsc.Machine.BlockTree
import Rtfsc.Linux.MinixBlock
import Rtfsc.Linux.MinixRun
import Rtfsc.Linux.Ext2Block
import Rtfsc.Linux.Ext2Look
import Rtfsc.Linux.Ext2Alloc
import Rtfsc.Linux.Ext2Run
import Rtfsc.Machine.LevelPath
import Rtfsc.Linux.BlockPath
import Rtfsc.Linux.Ext2NewBlocks
import Rtfsc.Fio.Rate
import Rtfsc.Fio.FileSize
import Rtfsc.Machine.Bytes
import Rtfsc.Fio.VerifyBounds
import Rtfsc.Fio.Sequential
import Rtfsc.Fio.Divisions
import Rtfsc.Machine.Refill
import Rtfsc.Fio.Engines
import Rtfsc.Fio.EngineContract
import Rtfsc.Machine.Lines
import Rtfsc.Fio.IniReader
import Rtfsc.Fio.IniFile
import Rtfsc.Machine.Shared
import Rtfsc.Lockfree.Freelist
import Rtfsc.Lockfree.FreelistInv
import Rtfsc.Lockfree.Stack
import Rtfsc.Lockfree.StackInv
import Rtfsc.Lockfree.StackSteps
import Rtfsc.Lockfree.StackRun
import Rtfsc.Machine.TreeSlots
import Rtfsc.Stl.RbTree
import Rtfsc.Stl.RbTreeHint
import Rtfsc.Machine.Memory
import Rtfsc.Stl.Alloc
import Rtfsc.Stl.AllocInv
import Rtfsc.Stl.AllocCalls
import Rtfsc.Stl.AllocRun
import Rtfsc.Stl.RbTreeLookup
import Rtfsc.Stl.RbTreeErase
import Rtfsc.Stl.RbTreeEqual
import Rtfsc.Stl.RbTreeEqualHint
import Rtfsc.Machine.LinkedTree
import Rtfsc.Stl.ReuseNodes
import Rtfsc.Stl.TreeCopy
import Rtfsc.Stl.StringFind
import Rtfsc.Stl.StringReplace
import Rtfsc.Machine.Rearranged
import Rtfsc.Machine.HeapOrder
import Rtfsc.Stl.Heap
import Rtfsc.Stl.PriorityQueue
import Rtfsc.Stl.InsertionSort
import Rtfsc.Stl.Partition
import Rtfsc.Stl.Sort
import Rtfsc.Machine.Buckets
import Rtfsc.Stl.Rehash
import Rtfsc.Stl.RehashEqual
import Rtfsc.Machine.LowerBound
import Rtfsc.Stl.PrimeRehash
import Rtfsc.Machine.Moved
import Rtfsc.Stl.DequeIter
import Rtfsc.Stl.DequeLoops
import Rtfsc.Stl.DequeCopy
import Rtfsc.Machine.LaidOut
import Rtfsc.Machine.Segments
import Rtfsc.Stl.Deque
import Rtfsc.Stl.DequeMap
import Rtfsc.Stl.DequeEnds
import Rtfsc.Stl.DequeReserve
import Rtfsc.Stl.DequeInsert
import Rtfsc.Stl.DequeTape
import Rtfsc.Stl.DequeRanges
import Rtfsc.Stl.DequeSplice
import Rtfsc.Stl.DequeContents
import Rtfsc.Stl.DequeInsertMany
import Rtfsc.Stl.DequeInsertOne
import Rtfsc.Stl.DequeErased
import Rtfsc.Stl.DequeInsertErase
import Rtfsc.Stl.Vec
import Rtfsc.Stl.VecInPlace
import Rtfsc.Stl.VecRealloc
import Rtfsc.Stl.VecInsertErase
import Rtfsc.Redis.AeTimeout
import Rtfsc.Redis.AeFiles
import Rtfsc.Redis.VmFind
import Rtfsc.Machine.Samples
import Rtfsc.Fio.GroupStats
import Rtfsc.Fio.Latency
import Rtfsc.Fio.Fsync
import Rtfsc.Fio.SgPrep
import Rtfsc.Linux.CfsDelta
import Rtfsc.Linux.CfsMigrate
import Rtfsc.Linux.PipeRead
import Rtfsc.Linux.PipeReadRun
import Rtfsc.Linux.SlubLayout
import Rtfsc.Linux.SlubOrder
import Rtfsc.Lockfree.RangePush
import Rtfsc.Lockfree.RangePushRun
import Rtfsc.Linux.Select
import Rtfsc.Linux.SelectScan
import Rtfsc.Linux.SelectRun
import Rtfsc.Linux.Ext2Groups
import Rtfsc.Linux.Ext2NewInode
import Rtfsc.Redis.Zmalloc
import Rtfsc.Redis.ZmallocRun
import Rtfsc.Redis.Rand
import Rtfsc.Stl.DequeArith
import Rtfsc.Stl.HashtableRun
import Rtfsc.Jdk.SyncWake
