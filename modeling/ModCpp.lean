import ModCpp.Actions
import ModCpp.BestFit
import ModCpp.BoundedFifo
import ModCpp.BoundedQueue
import ModCpp.BoundedQueueOrder
import ModCpp.BoundedQueueProgress
import ModCpp.ByteMemory
import ModCpp.Cells
import ModCpp.CharString
import ModCpp.CharStringRuns
import ModCpp.CharStringSafety
import ModCpp.CharStringSubstr
import ModCpp.Cow
import ModCpp.CowCounts
import ModCpp.CowRuns
import ModCpp.FiberCount
import ModCpp.FilterPrimes
import ModCpp.H2o
import ModCpp.H2oProgress
import ModCpp.H2oRuns
import ModCpp.Handles
import ModCpp.HashTable
import ModCpp.HashTableRuns
import ModCpp.HashTableSize
import ModCpp.HeapOrder
import ModCpp.KeyedList
import ModCpp.Ledger
import ModCpp.LinkedChain
import ModCpp.LinkedList
import ModCpp.LinkedListRuns
import ModCpp.LinkedRing
import ModCpp.ListPool
import ModCpp.ListPoolLives
import ModCpp.ListPoolRuns
import ModCpp.LocklessQueue
import ModCpp.LocklessQueueCounters
import ModCpp.LocklessQueueDelivery
import ModCpp.LocklessQueueProgress
import ModCpp.LocklessQueueRange
import ModCpp.LocklessQueueSpsc
import ModCpp.LocklessStack
import ModCpp.LocklessStackChain
import ModCpp.LocklessStackNodes
import ModCpp.LocklessStackProgress
import ModCpp.LocklessStackRuns
import ModCpp.MachineWord
import ModCpp.MemoryAllocator
import ModCpp.MemoryAllocatorNodes
import ModCpp.MemoryAllocatorOrder
import ModCpp.MemoryAllocatorPolicy
import ModCpp.MemoryAllocatorRefinement
import ModCpp.MemoryAllocatorRuns
import ModCpp.MemoryAllocatorSizes
import ModCpp.MemoryArena
import ModCpp.MinHeap
import ModCpp.MinHeapBuild
import ModCpp.MinHeapCost
import ModCpp.MinHeapRuns
import ModCpp.MinHeapWide
import ModCpp.MinistlPartition
import ModCpp.MinistlSort
import ModCpp.MinistlSortTrace
import ModCpp.ModularWindow
import ModCpp.Monitor
import ModCpp.MonitorProgress
import ModCpp.MoveExample
import ModCpp.NewHandler
import ModCpp.ObjectPool
import ModCpp.ObjectPoolChunks
import ModCpp.ObjectPoolNested
import ModCpp.ObjectPoolPlacement
import ModCpp.ObjectPoolRuns
import ModCpp.ObjectPoolThrows
import ModCpp.ObjectPoolVector
import ModCpp.OrderedSet
import ModCpp.PackagedTask
import ModCpp.PoolAgreement
import ModCpp.PoolOrder
import ModCpp.PrimeSieve
import ModCpp.Progress
import ModCpp.RDerived
import ModCpp.RDerivedRuns
import ModCpp.Recycling
import ModCpp.Runs
import ModCpp.SharedPtr
import ModCpp.SharedPtrCopies
import ModCpp.SharedPtrCounts
import ModCpp.SharedPtrOwners
import ModCpp.SharedPtrRuns
import ModCpp.SharedPtrVariables
import ModCpp.SharedPtrView
import ModCpp.Tcp
import ModCpp.TcpDelivery
import ModCpp.TcpLifetime
import ModCpp.TcpLossFree
import ModCpp.TcpPair
import ModCpp.TcpRecovery
import ModCpp.TcpShutdown
import ModCpp.TcpThreads
import ModCpp.TcpTimeout
import ModCpp.TcpWindows
import ModCpp.TicketRing
import ModCpp.Tiling
import ModCpp.TracedLoop
import ModCpp.UniquePointer
import ModCpp.Vec
import ModCpp.VecFaults
import ModCpp.VecGrowth
import ModCpp.VecRuns
import ModCpp.VecSelfAppend
import ModCpp.WeakPtrCopies
import ModCpp.WeakPtrLinks
import ModCpp.WeakPtrRuns
import ModCpp.WeakPtrSafety
