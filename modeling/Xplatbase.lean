import Xplatbase.Lib.System
import Xplatbase.Lib.Pow2
import Xplatbase.Lib.Placement
import Xplatbase.Lib.Loop
import Xplatbase.Lib.CInt
import Xplatbase.Lib.LittleEndian
import Xplatbase.Lib.Blocks
import Xplatbase.Lib.Shelves
import Xplatbase.Lib.LinkedList
import Xplatbase.Lib.Split
import Xplatbase.Lib.DLinked
import Xplatbase.Lib.Extreme
import Xplatbase.Lib.Search
import Xplatbase.ThreadPool.Deque
import Xplatbase.ThreadPool.DequeDelivery
import Xplatbase.ThreadPool.Ring
import Xplatbase.ThreadPool.RingDelivery
import Xplatbase.ThreadPool.Pool
import Xplatbase.ThreadPool.PoolStep
import Xplatbase.ThreadPool.PoolShape
import Xplatbase.ThreadPool.PoolTasks
import Xplatbase.ThreadPool.PoolFlow
import Xplatbase.ThreadPool.PoolConservation
import Xplatbase.ThreadPool.PoolIdle
import Xplatbase.ThreadPool.PoolWake
import Xplatbase.ThreadPool.PoolPark
import Xplatbase.ThreadPool.PoolSleep
import Xplatbase.ThreadPool.PoolLedger
import Xplatbase.ThreadPool.PoolClaim
import Xplatbase.ThreadPool.PoolPrivate
import Xplatbase.ThreadPool.PoolShutdown
import Xplatbase.ThreadPool.PoolStuck
import Xplatbase.ThreadPool.PoolElastic
import Xplatbase.ThreadPool.PoolEconomy
import Xplatbase.ThreadPool.RingEmpty
import Xplatbase.ThreadPool.PoolCreate
import Xplatbase.ThreadPool.PoolTimer
import Xplatbase.ThreadPool.PoolTimerUse
import Xplatbase.ThreadPool.LifoSlot
import Xplatbase.ThreadPool.LifoFair
import Xplatbase.ThreadPool.PoolGet
import Xplatbase.Queue.RingQueue
import Xplatbase.Queue.RingFifo
import Xplatbase.Queue.RingPeek
import Xplatbase.Queue.RingPeekInv
import Xplatbase.Queue.RingPeekSafety
import Xplatbase.Instance.InstanceRec
import Xplatbase.Instance.Register
import Xplatbase.Strings.World
import Xplatbase.Strings.StringX
import Xplatbase.Strings.StringInvariant
import Xplatbase.Strings.StringRuns
import Xplatbase.Strings.StringSearch
import Xplatbase.Strings.StringRange
import Xplatbase.Strings.StringContent
import Xplatbase.Strings.StringAppend
import Xplatbase.Strings.ListX
import Xplatbase.Strings.ListRuns
import Xplatbase.Strings.StringPieces
import Xplatbase.Strings.StringSplit
import Xplatbase.Strings.StringExtreme
import Xplatbase.Strings.StringEvents
import Xplatbase.Strings.ErrorPaths
import Xplatbase.Memory.Chunks
import Xplatbase.Memory.ChunkPool
import Xplatbase.Memory.ChunkConservation
import Xplatbase.Memory.ChunkPurge
import Xplatbase.Memory.SizeClass
import Xplatbase.Memory.Span
import Xplatbase.Memory.SpanAccounting
import Xplatbase.Memory.Heap
import Xplatbase.Memory.HeapLists
import Xplatbase.Memory.HeapInvariant
import Xplatbase.Memory.SpanBlocks
import Xplatbase.Memory.HeapRecovery
import Xplatbase.Memory.HonouredSize
import Xplatbase.Memory.RefillSteps
import Xplatbase.LeakWatch.Watch
import Xplatbase.LeakWatch.StopWake
import Xplatbase.LeakWatch.Lifecycle
import Xplatbase.LeakWatch.Marking
import Xplatbase.LeakWatch.Reachability
import Xplatbase.Threads.ThreadList
import Xplatbase.Threads.Registry
import Xplatbase.Threads.RegistryInvariant
import Xplatbase.Threads.Enumeration
import Xplatbase.Lib.Decimal
import Xplatbase.Numeric.ParseInt
import Xplatbase.Numeric.ParseIntExact
import Xplatbase.Numeric.ParseDouble
import Xplatbase.LeakWatch.MarkOrder
import Xplatbase.Lib.Probe
import Xplatbase.Memory.SiteTable
import Xplatbase.Lib.Tally
import Xplatbase.MemoryPool.Pool
import Xplatbase.MemoryPool.PoolFrame
import Xplatbase.MemoryPool.PoolSteps
import Xplatbase.MemoryPool.StatsBalance
import Xplatbase.MemoryPool.Stored
import Xplatbase.MemoryPool.PoolLanes
import Xplatbase.MemoryPool.PoolAlloc
import Xplatbase.MemoryPool.PoolCalls
import Xplatbase.MemoryPool.PoolFrees
import Xplatbase.MemoryPool.PoolEnd
import Xplatbase.MemoryPool.PoolOverlap
import Xplatbase.MemoryPool.PoolOthers
import Xplatbase.MemoryPool.PoolPlaces
import Xplatbase.MemoryPool.Realloc
import Xplatbase.MemoryPool.ReallocEnds
import Xplatbase.Lib.Simulation
import Xplatbase.Lib.BlockStore
import Xplatbase.Lib.BlockScript
import Xplatbase.MemoryPool.PoolTurns
import Xplatbase.MemoryPool.PoolMemory
import Xplatbase.MemoryPool.PoolFits
import Xplatbase.MemoryPool.PoolBounds
import Xplatbase.MemoryPool.ReallocContract
import Xplatbase.MemoryPool.PoolStore
import Xplatbase.MemoryPool.PoolBlocks
import Xplatbase.Lib.AtomicObject
import Xplatbase.Queue.RingSpsc
import Xplatbase.Queue.RingLinear
import Xplatbase.Threads.ThreadWait
import Xplatbase.Lib.Chains
import Xplatbase.Lib.Walk
import Xplatbase.MemoryPool.PoolSpans
import Xplatbase.MemoryPool.SpanSnapshot
import Xplatbase.MemoryPool.PoolAccount
import Xplatbase.MemoryPool.PoolReturns
import Xplatbase.MemoryPool.Shutdown
import Xplatbase.MemoryPool.InitGate
import Xplatbase.MemoryPool.InitUse
import Xplatbase.MemoryPool.InitSwitch
import Xplatbase.LeakWatch.PoolScan
