import Ppdb.SizeArithmetic
import Ppdb.ByteMemory
import Ppdb.EventualResults
import Ppdb.LinkedSegments
import Ppdb.LinkedQueues
import Ppdb.TiledIntervals
import Ppdb.BlockHeaders
import Ppdb.PoolOperations
import Ppdb.PoolLayout
import Ppdb.BlockMerging
import Ppdb.BlockChoice
import Ppdb.PoolAllocation
import Ppdb.PoolRuns
import Ppdb.PoolGrowth
import Ppdb.PoolReallocation
import Ppdb.PoolUsage
import Ppdb.PoolCompaction
import Ppdb.PayloadAlignment
import Ppdb.SystemBlocks
import Ppdb.ColoredTrees
import Ppdb.RedBlackTrees
import Ppdb.TreeOperations
import Ppdb.TreeRepresentation
import Ppdb.TreeInsertion
import Ppdb.TreeRemoval
import Ppdb.SortedMaps
import Ppdb.TreeMaps
import Ppdb.TreeCalls
import Ppdb.TreeRuns
import Ppdb.BucketedMaps
import Ppdb.HashOperations
import Ppdb.HashChains
import Ppdb.HashMaps
import Ppdb.HashRuns
import Ppdb.Transitions
import Ppdb.ThreadLists
import Ppdb.ThreadPool
import Ppdb.ThreadPoolSteps
import Ppdb.ThreadPoolCounts
import Ppdb.ThreadPoolLifetime
import Ppdb.ThreadPoolQueue
import Ppdb.ThreadPoolWakeups
import Ppdb.ThreadPoolBounds
import Ppdb.CStrings
import Ppdb.ErrorCodes
import Ppdb.RinetdContext
import Ppdb.SessionRelay
import Ppdb.RuleTables
import Ppdb.ServiceLifeCycle
import Ppdb.DoublyLinked
import Ppdb.ListRuns
import Ppdb.BufferRuns
import Ppdb.ResourceLedgers
import Ppdb.LayerMutexes
import Ppdb.ReallocFrames
import Ppdb.SizeChecks
import Ppdb.SystemUsage
import Ppdb.ForwardSessions
import Ppdb.SessionAccounts
import Ppdb.ServiceThreads
import Ppdb.SlotOwnership
import Ppdb.SessionSchedules
import Ppdb.ListenerStarts
import Ppdb.UninterruptedCalls
import Ppdb.ListenerRollback
import Ppdb.SessionRemoval
import Ppdb.RuleCapacity
import Ppdb.AllocationPaths
import Ppdb.MemoryInitialization
import Ppdb.SocketAcquisition
import Ppdb.FileTransfers
import Ppdb.CommandTables
import Ppdb.GlobalOptions
import Ppdb.LayerSettings
import Ppdb.TreeRotations
import Ppdb.TerminatedPieces
import Ppdb.LineEditing
import Ppdb.PluginLoader
import Ppdb.PeerTable
import Ppdb.Multiplexer
import Ppdb.MemoryPatches
import Ppdb.ElfRelocation
import Ppdb.ElfPlacement
import Ppdb.ProgramExit
import Ppdb.HeapCells
import Ppdb.ListDestruction
import Ppdb.HashDestruction
import Ppdb.TreeDestruction
import Ppdb.PoolMoves
import Ppdb.ObjectStores
import Ppdb.OpenFiles
import Ppdb.FileCalls
import Ppdb.PoolHeap
import Ppdb.UnicodeEscapes
import Ppdb.PythonText
import Ppdb.BatchScripts
import Ppdb.BoundedRuns
import Ppdb.ThreadPoolProgress
import Ppdb.ThreadPoolShutdown
import Ppdb.TreeDepth
import Ppdb.PooledClients
import Ppdb.RecordFields
import Ppdb.PooledTrees
import Ppdb.PooledLists
