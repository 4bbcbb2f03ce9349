import TpccRunner.Lib.StepSystem
import TpccRunner.WaitDie.Lock
import TpccRunner.WaitDie.LockInvariant
import TpccRunner.WaitDie.LockCalls
import TpccRunner.WaitDie.LockClients
import TpccRunner.Lib.Ranked
import TpccRunner.Utils.Bitmap
import TpccRunner.Lib.SortedVector
import TpccRunner.Lib.Worklist
import TpccRunner.ServalRc.WriteBitmap
import TpccRunner.Utils.Schedule
import TpccRunner.ServalRc.Epoch
import TpccRunner.ServalRc.Placement
import TpccRunner.ServalRc.Phases
import TpccRunner.ServalRc.Execution
import TpccRunner.ServalRc.FinalWrite
import TpccRunner.Serval.RowRegion
import TpccRunner.Serval.RowHolds
import TpccRunner.Serval.System
import TpccRunner.Serval.Invariant
import TpccRunner.Serval.Initialization
import TpccRunner.Serval.Execution
import TpccRunner.Serval.ReadCorrectness
import TpccRunner.Caracal.RowBuffer
import TpccRunner.Caracal.System
import TpccRunner.Caracal.ArrayInvariant
import TpccRunner.Caracal.RowInvariant
import TpccRunner.Caracal.Buffers
import TpccRunner.Caracal.Invariant
import TpccRunner.Caracal.Phases
import TpccRunner.Caracal.ReadCorrectness
import TpccRunner.Serval.InitializationEnd
import TpccRunner.ServalRc.Database
import TpccRunner.ServalRc.RowRuns
import TpccRunner.ServalRc.Awaited
import TpccRunner.ServalRc.Progress
import TpccRunner.Caracal.InitializationEnd
import TpccRunner.WaitDie.Deadlock
import TpccRunner.Common.EpochManager
import TpccRunner.Common.EpochGarbage
import TpccRunner.Common.EpochSafety
import TpccRunner.Silo.Reclamation
import TpccRunner.NoWait.Reclamation
import TpccRunner.Silo.ReclamationSafety
import TpccRunner.Silo.EpochReclamation
import TpccRunner.Common.TimeStampGarbage
import TpccRunner.Lib.Serial
import TpccRunner.Mvto.System
import TpccRunner.Mvto.Invariant
import TpccRunner.Mvto.Preservation
import TpccRunner.Mvto.VersionGc
import TpccRunner.Common.ReadWriteLock
import TpccRunner.Common.RendezvousBarrier
import TpccRunner.Lib.OrderedMap
import TpccRunner.Naive.Store
import TpccRunner.Tpcc.Records
import TpccRunner.Naive.SecondaryIndex
import TpccRunner.Lib.Triple
import TpccRunner.Naive.Relation
import TpccRunner.Naive.Database
import TpccRunner.Tpcc.Transactions
import TpccRunner.Tpcc.Invariant
import TpccRunner.Tpcc.Effects
import TpccRunner.Tpcc.Consistency
import TpccRunner.Mvto.Session
import TpccRunner.Mvto.SessionInvariant
import TpccRunner.Mvto.FailedPrecommit
import TpccRunner.Mvto.SingleTransaction
import TpccRunner.Caracal.MinorGc
import TpccRunner.Serval.Assertions
import TpccRunner.Serval.Lookup
import TpccRunner.ServalRc.ArrivalOrder
import TpccRunner.ServalRc.Reclamation
import TpccRunner.Utils.Coverage
import TpccRunner.Utils.Lifecycle
import TpccRunner.Serval.Progress
import TpccRunner.Caracal.Progress
import TpccRunner.Serval.Reclamation
import TpccRunner.Tpcc.History
import TpccRunner.Indexes.Masstree
import TpccRunner.Silo.System
import TpccRunner.Silo.Sets
import TpccRunner.Silo.Moves
import TpccRunner.Silo.Placement
import TpccRunner.Silo.PlacementSteps
import TpccRunner.Silo.Growth
import TpccRunner.Silo.CommitIds
import TpccRunner.Silo.PointerLevel
import TpccRunner.Lib.BitFields
import TpccRunner.Tpcc.PackedKeys
import TpccRunner.Caracal.MajorGc
import TpccRunner.Common.TimeStampOrder
import TpccRunner.Indexes.RangeScan
import TpccRunner.Tpcc.StockBookkeeping
import TpccRunner.Utils.Permutation
import TpccRunner.Tpcc.Delivery
import TpccRunner.NoWait.Serializability
