import VmSim.Types
import VmSim.PackedBitmap
import VmSim.DiskBlocks
import VmSim.BlockAllocator
import VmSim.Library.LinkedChain
import VmSim.PageTable
import VmSim.PageTableChains
import VmSim.Library.FramePool
import VmSim.PageTableInvariant
import VmSim.PageTableMap
import VmSim.PageTableHistory
import VmSim.KeyedMap
import VmSim.MemoryUnit
import VmSim.PageReplacement
import VmSim.Library.DemandPaging
import VmSim.MemoryStore
import VmSim.FaultService
import VmSim.PagingRuns
import VmSim.ProcessTable
import VmSim.ProcessPages
import VmSim.ProcessLife
import VmSim.Bookkeeping
import VmSim.ProcessRuns
import VmSim.ProcessInvariant
import VmSim.ProcessOwnership
import VmSim.FailedCreation
import VmSim.CleanPages
import VmSim.Library.StoreAgreement
import VmSim.Isolation
import VmSim.AgingSpacing
import VmSim.JobDone
import VmSim.Library.BinaryOrder
import VmSim.AgeHistory
import VmSim.ServiceExact
import VmSim.ReachableFaults
import VmSim.Library.CallTree
import VmSim.ProcessJobs
import VmSim.ReadBack
import VmSim.AgingDaemon
import VmSim.MailDispatch
import VmSim.SlotRecycling
import VmSim.FaultProtocol
import VmSim.BitmapSearch
import VmSim.AddressSteps
import VmSim.FlatPositions
import VmSim.HitRate
import VmSim.ReadBuffer
import VmSim.CommandLine
import VmSim.CommandChecks
import VmSim.WorkerHandshake
import VmSim.WrittenBytes
import VmSim.StridedWrites
import VmSim.Library.LockedThreads
import VmSim.ThreadCode
import VmSim.ThreadLocks
import VmSim.ThreadSteps
import VmSim.HandOffs
import VmSim.WaitInvariant
import VmSim.DeadlockFreedom
import VmSim.MapHistory
import VmSim.LinkedQueue
import VmSim.TableDump
import VmSim.BatchLines
import VmSim.Library.ThreadRules
import VmSim.ThreadGuards
import VmSim.Library.PagingPhases
import VmSim.Library.Leases
import VmSim.Library.ThreadSchedules
import VmSim.ThreadMemory
import VmSim.ThreadRequests
import VmSim.ThreadMail
import VmSim.ThreadPaging
import VmSim.PagingSteps
import VmSim.ThreadSafety
import VmSim.BlockRoom
import VmSim.ThreadOutcomes
import VmSim.Library.ThreadWork
import VmSim.WorkBound
import VmSim.Library.Scripts
import VmSim.Console
import VmSim.Sessions
import VmSim.TypedRequests
import VmSim.Admission
import VmSim.Configuration
import VmSim.Dumps
import VmSim.Shutdown
